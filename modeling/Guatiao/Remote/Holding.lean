import Guatiao.Remote.Server

/-!
# What a link has opened

What links have opened is kept by their addresses. It is a link's own as long as no request keeps
tables for a link that has ended: the end of a link takes out what is kept at its address once, and
whatever is put there after it belongs to nobody, or to the next link at that address.
-/

namespace Guatiao.Remote

open Lib Library

/-- A link has opened a library, and has not closed it since. -/
def OpenSince (log : List Event) (link : ℕ) (library stamp : String) (held : List (ℕ × Table)) :
    Prop :=
  ∃ before after, log = before ++ .opened link library stamp held :: after ∧
    Event.closed link library stamp ∉ after

variable {log : List Event} {i : ℕ} {library stamp : String} {held : List (ℕ × Table)}

theorem openSince_append (log : List Event) (i : ℕ) (library stamp : String)
    (held : List (ℕ × Table)) : OpenSince (log ++ [.opened i library stamp held]) i library stamp held :=
  ⟨log, [], rfl, List.not_mem_nil⟩

theorem OpenSince.append (h : OpenSince log i library stamp held) {more : List Event}
    (hmore : Event.closed i library stamp ∉ more) :
    OpenSince (log ++ more) i library stamp held := by
  obtain ⟨before, after, rfl, hafter⟩ := h
  refine ⟨before, after ++ more, by simp, ?_⟩
  rw [List.mem_append, not_or]
  exact ⟨hafter, hmore⟩

/-- Each table kept is one of a library the link has open. -/
def OpenedTables.Of (o : OpenedTables) (log : List Event) (i : ℕ) : Prop :=
  ∀ id t, AssocList.get id o.tables = some t → ∃ library stamp held,
    AssocList.get (library, stamp) o.libraries = some (held.map Prod.fst) ∧
      OpenSince log i library stamp held ∧ (id, t) ∈ held

namespace OpenedTables

variable {o : OpenedTables}

theorem of_empty (log : List Event) (i : ℕ) : OpenedTables.Of ⟨[], []⟩ log i :=
  fun _ _ h => absurd h (by simp)

theorem Of.append (h : o.Of log i) {more : List Event}
    (hmore : ∀ library stamp, Event.closed i library stamp ∉ more) : o.Of (log ++ more) i := by
  intro id t ht
  obtain ⟨library, stamp, held, hget, hopen, hmem⟩ := h id t ht
  exact ⟨library, stamp, held, hget, hopen.append (hmore library stamp), hmem⟩

theorem Of.keep (h : o.Of log i) (library stamp : String) (held : List (ℕ × Table)) :
    (o.keep library stamp held).Of (log ++ [.opened i library stamp held]) i := by
  have hbefore : o.Of (log ++ [.opened i library stamp held]) i := h.append (by simp)
  unfold OpenedTables.keep
  split
  · exact hbefore
  · next hnew =>
    intro id t ht
    rcases AssocList.get_foldl_set ht with hmem | hold
    · exact ⟨library, stamp, held, AssocList.get_set_self .., openSince_append .., hmem⟩
    · obtain ⟨library', stamp', held', hget, hopen, hmem⟩ := hbefore id t hold
      refine ⟨library', stamp', held', ?_, hopen, hmem⟩
      rwa [AssocList.get_set_of_ne]
      rintro heq
      rw [heq] at hget
      exact hnew (by rw [AssocList.contains, hget]; rfl)

theorem Of.forget (h : o.Of log i) (library stamp : String) :
    (o.forget library stamp).Of (log ++ [.closed i library stamp]) i := by
  intro id t ht
  simp only [OpenedTables.forget] at ht
  rw [AssocList.get_filter (· ∉ (AssocList.get (library, stamp) o.libraries).getD [])] at ht
  split at ht
  · next hout =>
    obtain ⟨library', stamp', held, hget, hopen, hmem⟩ := h id t ht
    have hne : (library', stamp') ≠ (library, stamp) := by
      intro heq
      rw [heq] at hget
      apply hout
      rw [hget]
      exact List.mem_map_of_mem hmem
    refine ⟨library', stamp', held, ?_, hopen.append ?_, hmem⟩
    · simp only [OpenedTables.forget]
      rwa [AssocList.get_filter (· ≠ (library, stamp)), if_pos hne]
    · simpa using hne
  · cases ht

end OpenedTables

namespace Server

variable {s s' : Server}

/-- A link whose end is over and that no thread works for. -/
def Over (link : ServedLink) : Prop := link.ended = true ∧ link.jobs = []

/-- A call on a table finds one its link has opened and not closed, and nothing is kept but for a
link that has not ended or has threads working for it. -/
structure Own (s : Server) : Prop where
  reaches : ∀ (i : ℕ) (link : ServedLink), s.links[i]? = some link → link.freed = false → ∀ id t,
    s.table link id = some t →
      ∃ library stamp held, OpenSince s.log i library stamp held ∧ (id, t) ∈ held
  clean : ∀ (i : ℕ) (link : ServedLink), s.links[i]? = some link → link.freed = false → Over link →
    AssocList.get link.address s.opened = none
  left : ∀ address o, AssocList.get address s.opened = some o →
    ∃ (i : ℕ) (link : ServedLink), s.links[i]? = some link ∧ link.address = address ∧
      link.freed = false ∧ ¬Over link

/-- What is kept is kept for a link that has not ended, each table for a library it has open. -/
structure Kempt (s : Server) : Prop where
  apart : ∀ (i j : ℕ) (link link' : ServedLink), s.links[i]? = some link → s.links[j]? = some link' →
    link.freed = false → link'.freed = false → link.address = link'.address → i = j
  gone : ∀ (i : ℕ) (link : ServedLink), s.links[i]? = some link → link.freed = true →
    link.ended = true ∧ link.reading = false ∧ link.jobs = []
  kept : ∀ address o, AssocList.get address s.opened = some o →
    ∃ (i : ℕ) (link : ServedLink), s.links[i]? = some link ∧ link.address = address ∧
      link.freed = false ∧ link.ended = false ∧ o.Of s.log i

theorem kempt_new (sources : Sources) : (new sources).Kempt where
  apart := by simp [new]
  gone := by simp [new]
  kept := by simp [new]

theorem Kempt.own (h : s.Kempt) : s.Own := by
  constructor
  · intro i link hlink hfree id t ht
    obtain ⟨o, ho, hget⟩ := Option.bind_eq_some_iff.mp ht
    obtain ⟨j, link', hlink', haddress, hfree', -, hof⟩ := h.kept _ o ho
    obtain rfl := h.apart j i link' link hlink' hlink hfree' hfree haddress
    obtain ⟨library, stamp, held, -, hopen, hmem⟩ := hof id t hget
    exact ⟨library, stamp, held, hopen, hmem⟩
  · intro i link hlink hfree hover
    cases hget : AssocList.get link.address s.opened with
    | none => rfl
    | some o =>
      obtain ⟨j, link', hlink', haddress, hfree', hended, -⟩ := h.kept _ o hget
      obtain rfl := h.apart j i link' link hlink' hlink hfree' hfree haddress
      rw [hlink', Option.some.injEq] at hlink
      rw [hlink, hover.1] at hended
      cases hended
  · intro address o hget
    obtain ⟨i, link, hlink, haddress, hfree, hended, -⟩ := h.kept address o hget
    refine ⟨i, link, hlink, haddress, hfree, ?_⟩
    rintro ⟨hover, -⟩
    rw [hended] at hover
    cases hover

/-- A link that is the same to what is kept. -/
structure Alike (link link' : ServedLink) : Prop where
  address : link'.address = link.address
  ended : link'.ended = link.ended
  freed : link'.freed = link.freed
  /-- Nothing is done for a link that is free. -/
  gone : link'.freed = true → link'.reading = false ∧ link'.jobs = []

theorem getElem_set {links : List ServedLink} {i j : ℕ} {link' l : ServedLink}
    (h : (links.set i link')[j]? = some l) :
    (j = i ∧ l = link' ∧ ∃ link, links[i]? = some link) ∨ (j ≠ i ∧ links[j]? = some l) := by
  rw [List.getElem?_set] at h
  by_cases hij : i = j
  · subst hij
    rw [if_pos rfl] at h
    split at h
    · next hlt => exact .inl ⟨rfl, (Option.some.inj h).symm, links[i], List.getElem?_eq_getElem hlt⟩
    · cases h
  · rw [if_neg hij] at h
    exact .inr ⟨Ne.symm hij, h⟩

theorem getElem_set_self {links : List ServedLink} {i : ℕ} {link : ServedLink}
    (h : links[i]? = some link) (link' : ServedLink) : (links.set i link')[i]? = some link' :=
  List.getElem?_set_self (List.getElem?_eq_some_iff.mp h).1

variable {link link' : ServedLink} {more : List Event}

theorem Kempt.quiet (h : s.Kempt) (hopened : s'.opened = s.opened) (hlink : s.links[i]? = some link)
    (hlinks : s'.links = s.links.set i link') (halike : Alike link link')
    (hlog : s'.log = s.log ++ more)
    (hmore : ∀ i library stamp, Event.closed i library stamp ∉ more) : s'.Kempt := by
  -- A link after the step, and what it was before.
  have hwas : ∀ (j : ℕ) (l : ServedLink), s'.links[j]? = some l → ∃ l₀ : ServedLink,
      s.links[j]? = some l₀ ∧ l.address = l₀.address ∧ l.freed = l₀.freed := by
    intro j l hl
    rw [hlinks] at hl
    rcases getElem_set hl with ⟨rfl, rfl, -⟩ | ⟨-, hl⟩
    · exact ⟨link, hlink, halike.address, halike.freed⟩
    · exact ⟨l, hl, rfl, rfl⟩
  constructor
  · intro j k l l' hl hl' hfree hfree' haddress
    obtain ⟨l₀, hl₀, haddress₀, hfreed₀⟩ := hwas j l hl
    obtain ⟨l₀', hl₀', haddress₀', hfreed₀'⟩ := hwas k l' hl'
    apply h.apart j k l₀ l₀' hl₀ hl₀' (hfreed₀ ▸ hfree) (hfreed₀' ▸ hfree')
    rw [← haddress₀, ← haddress₀', haddress]
  · intro j l hl hfree
    rw [hlinks] at hl
    rcases getElem_set hl with ⟨rfl, rfl, -⟩ | ⟨-, hl⟩
    · refine ⟨?_, halike.gone hfree⟩
      rw [halike.ended]
      exact (h.gone _ _ hlink (halike.freed ▸ hfree)).1
    · exact h.gone j l hl hfree
  · intro address o hget
    rw [hopened] at hget
    obtain ⟨j, l, hl, haddress, hfree, hended, hof⟩ := h.kept address o hget
    have hof' : o.Of s'.log j := hlog ▸ hof.append (hmore j)
    by_cases hji : j = i
    · subst hji
      obtain rfl := Option.some.inj (hl.symm.trans hlink)
      refine ⟨j, link', ?_, ?_, ?_, ?_, hof'⟩
      · rw [hlinks, getElem_set_self hl]
      · rw [halike.address, haddress]
      · rw [halike.freed, hfree]
      · rw [halike.ended, hended]
    · refine ⟨j, l, ?_, haddress, hfree, hended, hof'⟩
      rw [hlinks, List.getElem?_set_ne (Ne.symm hji)]
      exact hl

theorem Kempt.change (h : s.Kempt) (hlink : s.links[i]? = some link) (halike : Alike link link') :
    (s.setLink i link').Kempt :=
  h.quiet rfl hlink rfl halike (List.append_nil s.log).symm (by simp)

theorem Kempt.start (h : s.Kempt) {address : ℕ} (hnew : ∀ (i : ℕ) (link : ServedLink),
      s.links[i]? = some link → link.freed = false → link.address ≠ address) :
    Kempt { s with links := s.links ++ [⟨address, true, false, true, false, []⟩] } := by
  -- A link is one there was, or the new one.
  have hwas : ∀ (j : ℕ) (l : ServedLink),
      (s.links ++ [(⟨address, true, false, true, false, []⟩ : ServedLink)])[j]? = some l →
      s.links[j]? = some l ∨ (j = s.links.length ∧ l = ⟨address, true, false, true, false, []⟩) := by
    intro j l hl
    rw [List.getElem?_append] at hl
    split at hl
    · exact .inl hl
    · next hlt =>
      obtain ⟨hlt', hl⟩ := List.getElem?_eq_some_iff.mp hl
      have hj : j = s.links.length := by
        simp only [List.length_singleton] at hlt'
        omega
      subst hj
      exact .inr ⟨rfl, by simpa using hl.symm⟩
  constructor
  · intro i j l l' hl hl' hfree hfree' haddress
    rcases hwas i l hl with hl | ⟨hi, rfl⟩
    · rcases hwas j l' hl' with hl' | ⟨hj, rfl⟩
      · exact h.apart i j l l' hl hl' hfree hfree' haddress
      · exact absurd haddress (hnew i l hl hfree)
    · rcases hwas j l' hl' with hl' | ⟨hj, rfl⟩
      · exact absurd haddress.symm (hnew j l' hl' hfree')
      · omega
  · intro i l hl hfree
    rcases hwas i l hl with hl | ⟨-, rfl⟩
    · exact h.gone i l hl hfree
    · cases hfree
  · intro address' o hget
    obtain ⟨i, l, hl, haddress, hrest⟩ := h.kept address' o hget
    refine ⟨i, l, ?_, haddress, hrest⟩
    rw [List.getElem?_append_left (List.getElem?_eq_some_iff.mp hl).1]
    exact hl

theorem Kempt.close (h : s.Kempt) (hlink : s.links[i]? = some link) (hreading : link.reading = true)
    (library stamp : String) :
    Kempt ({ s with opened := s.opened.map fun (e : ℕ × OpenedTables) =>
      if e.1 = link.address then (e.1, e.2.forget library stamp) else e }.record
        [.closed i library stamp]) := by
  refine ⟨h.apart, h.gone, ?_⟩
  intro address o hget
  have hfree : link.freed = false := by
    by_contra hfreed
    have hover := (h.gone i link hlink (by simpa using hfreed)).2.1
    rw [hreading] at hover
    cases hover
  simp only [record] at hget ⊢
  rw [AssocList.get_map_at link.address address fun o : OpenedTables => o.forget library stamp]
    at hget
  split at hget
  · next hat =>
    obtain ⟨o₀, hget₀, rfl⟩ := Option.map_eq_some_iff.mp hget
    obtain ⟨j, l, hl, haddress, hfree', hended, hof⟩ := h.kept address o₀ hget₀
    obtain rfl := h.apart j i l link hl hlink hfree' hfree (haddress.trans hat)
    exact ⟨j, l, hl, haddress, hfree', hended, hof.forget library stamp⟩
  · next hat =>
    obtain ⟨j, l, hl, haddress, hfree', hended, hof⟩ := h.kept address o hget
    refine ⟨j, l, hl, haddress, hfree', hended, hof.append ?_⟩
    intro library' stamp' hmem
    obtain ⟨rfl, -⟩ := by simpa using hmem
    obtain rfl := Option.some.inj (hl.symm.trans hlink)
    exact hat haddress.symm

/-- The end of a link takes out what is kept for it. -/
theorem Kempt.ended (h : s.Kempt) (hlink : s.links[i]? = some link) (hended : link.ended = false) :
    Kempt ({ s with opened := s.opened.filter fun e => e.1 ≠ link.address }.setLink i
      { link with ended := true }) := by
  have hwas : ∀ (j : ℕ) (l : ServedLink), (s.links.set i { link with ended := true })[j]? = some l →
      (j = i ∧ l = { link with ended := true }) ∨ (j ≠ i ∧ s.links[j]? = some l) := by
    intro j l hl
    rcases getElem_set hl with ⟨hj, hl, -⟩ | hother
    · exact .inl ⟨hj, hl⟩
    · exact .inr hother
  have hnot : link.freed = false := by
    by_contra hfreed
    rw [(h.gone i link hlink (by simpa using hfreed)).1] at hended
    cases hended
  constructor
  · intro j k l l' hl hl' hfree hfree' haddress
    rcases hwas j l hl with ⟨hj, rfl⟩ | ⟨-, hl₀⟩
    · rcases hwas k l' hl' with ⟨hk, -⟩ | ⟨-, hl₀'⟩
      · rw [hj, hk]
      · rw [hj]
        exact h.apart i k link l' hlink hl₀' hfree hfree' haddress
    · rcases hwas k l' hl' with ⟨hk, rfl⟩ | ⟨-, hl₀'⟩
      · rw [hk]
        exact h.apart j i l link hl₀ hlink hfree hfree' haddress
      · exact h.apart j k l l' hl₀ hl₀' hfree hfree' haddress
  · intro j l hl hfree
    rcases hwas j l hl with ⟨rfl, rfl⟩ | ⟨-, hl⟩
    · rw [hnot] at hfree
      cases hfree
    · exact h.gone j l hl hfree
  · intro address o hget
    simp only [setLink] at hget ⊢
    rw [AssocList.get_filter (· ≠ link.address)] at hget
    split at hget
    · next hne =>
      obtain ⟨j, l, hl, haddress, hrest⟩ := h.kept address o hget
      have hji : j ≠ i := by
        rintro rfl
        obtain rfl := Option.some.inj (hl.symm.trans hlink)
        exact hne haddress.symm
      refine ⟨j, l, ?_, haddress, hrest⟩
      rw [List.getElem?_set_ne (Ne.symm hji)]
      exact hl
    · cases hget

theorem Kempt.free (h : s.Kempt) (hlink : s.links[i]? = some link) (hended : link.ended = true)
    (hover : link.reading = false ∧ link.jobs = []) :
    Kempt (s.setLink i { link with freed := true }) := by
  have hwas : ∀ (j : ℕ) (l : ServedLink), (s.links.set i { link with freed := true })[j]? = some l →
      (j = i ∧ l = { link with freed := true }) ∨ (j ≠ i ∧ s.links[j]? = some l) := by
    intro j l hl
    rcases getElem_set hl with ⟨hj, hl, -⟩ | hother
    · exact .inl ⟨hj, hl⟩
    · exact .inr hother
  constructor
  · intro j k l l' hl hl' hfree hfree' haddress
    rcases hwas j l hl with ⟨rfl, rfl⟩ | ⟨-, hl⟩
    · cases hfree
    · rcases hwas k l' hl' with ⟨rfl, rfl⟩ | ⟨-, hl'⟩
      · cases hfree'
      · exact h.apart j k l l' hl hl' hfree hfree' haddress
  · intro j l hl hfree
    rcases hwas j l hl with ⟨rfl, rfl⟩ | ⟨-, hl⟩
    · exact ⟨hended, hover⟩
    · exact h.gone j l hl hfree
  · intro address o hget
    obtain ⟨j, l, hl, haddress, hfree, hended', hof⟩ := h.kept address o hget
    have hji : j ≠ i := by
      rintro rfl
      obtain rfl := Option.some.inj (hl.symm.trans hlink)
      rw [hended] at hended'
      cases hended'
    refine ⟨j, l, ?_, haddress, hfree, hended', hof⟩
    simp only [setLink]
    rw [List.getElem?_set_ne (Ne.symm hji)]
    exact hl

theorem Kempt.publish (h : s.Kempt) (hlink : s.links[i]? = some link) (hended : link.ended = false)
    (job : ℕ) (library stamp : String) (held : List (ℕ × Table)) :
    Kempt (((s.keepFor link library stamp held).setLink i (link.without job)).record
      [.opened i library stamp held]) := by
  have hfree : link.freed = false := by
    by_contra hfreed
    rw [(h.gone i link hlink (by simpa using hfreed)).1] at hended
    cases hended
  have halike : Alike link (link.without job) := by
    refine ⟨rfl, rfl, rfl, ?_⟩
    intro hfreed
    exact absurd (hfree.symm.trans hfreed) Bool.false_ne_true
  -- With the link's job done and the opening in the log, what was kept is as it was.
  have hbase : Kempt ((s.setLink i (link.without job)).record [.opened i library stamp held]) :=
    h.quiet rfl hlink rfl halike rfl (by simp)
  refine ⟨hbase.apart, hbase.gone, ?_⟩
  intro address o hget
  by_cases hat : address = link.address
  · subst hat
    simp only [record, setLink, keepFor, AssocList.get_set_self, Option.some.injEq] at hget
    subst hget
    have hof : ((AssocList.get link.address s.opened).getD ⟨[], []⟩).Of s.log i := by
      cases hold : AssocList.get link.address s.opened with
      | none => exact OpenedTables.of_empty s.log i
      | some o =>
        obtain ⟨j, l, hl, haddress, hfree', -, hof⟩ := h.kept _ o hold
        obtain rfl := h.apart j i l link hl hlink hfree' hfree haddress
        exact hof
    exact ⟨i, link.without job, getElem_set_self hlink _, rfl, hfree, hended,
      hof.keep library stamp held⟩
  · apply hbase.kept address o
    simpa only [record, setLink, keepFor, AssocList.get_set_of_ne hat] using hget

/-- No thread keeps tables for a link that has ended. -/
def timely (s : Server) : ServerAct → Bool
  | .publish i _ => (s.links[i]?).all fun link => !link.ended
  | _ => true

theorem Kempt.notFreed (h : s.Kempt) (hlink : s.links[i]? = some link)
    (hbusy : link.reading = true ∨ link.jobs ≠ []) : link.freed = false := by
  by_contra hfreed
  obtain ⟨-, hreading, hjobs⟩ := h.gone i link hlink (by simpa using hfreed)
  rcases hbusy with hbusy | hbusy
  · rw [hreading] at hbusy
    cases hbusy
  · exact hbusy hjobs

theorem alike_of_not_freed (hfree : link.freed = false) (haddress : link'.address = link.address)
    (hended : link'.ended = link.ended) (hfreed : link'.freed = link.freed) : Alike link link' :=
  ⟨haddress, hended, hfreed, fun h => absurd (hfree.symm.trans (hfreed.symm.trans h)) (by simp)⟩

theorem kempt_stepLink {act : ServerAct} (h : s.Kempt) (hstep : s.stepLink act = some s') :
    s'.Kempt := by
  cases act with
  | start address =>
    simp only [stepLink] at hstep
    split at hstep
    · cases hstep
    · next hnew =>
      obtain rfl := Option.some.inj hstep
      apply h.start
      rintro j link hlink hfree rfl
      apply hnew
      rw [List.any_eq_true]
      exact ⟨link, List.mem_of_getElem? hlink, by simp [hfree]⟩
  | close j library stamp =>
    obtain ⟨link, hlink, hclose⟩ := Option.bind_eq_some_iff.mp hstep
    split at hclose
    · next hreading =>
      obtain rfl := Option.some.inj hclose
      exact h.close hlink hreading library stamp
    · cases hclose
  | die j =>
    obtain ⟨link, hlink, rfl⟩ := Option.map_eq_some_iff.mp hstep
    exact h.change hlink ⟨rfl, rfl, rfl, fun hfreed => (h.gone j link hlink hfreed).2⟩
  | ended j =>
    obtain ⟨link, hlink, hended⟩ := Option.bind_eq_some_iff.mp hstep
    split at hended
    · cases hended
    · next hnot =>
      obtain rfl := Option.some.inj hended
      apply h.ended hlink
      simp only [Bool.or_eq_true, not_or, Bool.not_eq_true] at hnot
      exact hnot.2
  | stop j =>
    obtain ⟨link, hlink, hstop⟩ := Option.bind_eq_some_iff.mp hstep
    split at hstop
    · cases hstop
    · obtain rfl := Option.some.inj hstop
      exact h.change hlink ⟨rfl, rfl, rfl, fun hfreed => ⟨rfl, (h.gone j link hlink hfreed).2.2⟩⟩
  | free j =>
    obtain ⟨link, hlink, hfree⟩ := Option.bind_eq_some_iff.mp hstep
    split at hfree
    · next hover =>
      obtain rfl := Option.some.inj hfree
      simp only [Bool.and_eq_true, Bool.not_eq_true', List.isEmpty_iff] at hover
      exact h.free hlink hover.1.1 ⟨hover.1.2, hover.2⟩
    · cases hfree
  | _ => cases hstep

theorem work_eq_some {job : ℕ} {f : ServedLink → Job → Option Server}
    (h : s.work i job f = some s') : ∃ link j, s.links[i]? = some link ∧ j ∈ link.jobs ∧
      f link j = some s' := by
  obtain ⟨link, hlink, h⟩ := Option.bind_eq_some_iff.mp h
  obtain ⟨j, hj, h⟩ := Option.bind_eq_some_iff.mp h
  exact ⟨link, j, hlink, List.mem_of_getElem? hj, h⟩

theorem Kempt.work (h : s.Kempt) (hlink : s.links[i]? = some link) {j : Job} (hj : j ∈ link.jobs)
    (jobs : List Job) (hopened : s'.opened = s.opened)
    (hlinks : s'.links = s.links.set i { link with jobs })
    (hlog : ∃ given : List Given, s'.log = s.log ++ given.map .gave) : s'.Kempt := by
  obtain ⟨given, hlog⟩ := hlog
  have hfree := h.notFreed hlink (.inr (List.ne_nil_of_mem hj))
  apply h.quiet hopened hlink hlinks (alike_of_not_freed hfree rfl rfl rfl) hlog
  simp

theorem kempt_route (h : s.Kempt) {j : Job} (hstep : s.route i j = some s') : s'.Kempt := by
  obtain ⟨link, hlink, hroute⟩ := Option.bind_eq_some_iff.mp hstep
  split at hroute
  · next hreading =>
    obtain rfl := Option.some.inj hroute
    have hfree := h.notFreed hlink (.inl hreading)
    exact h.change hlink (alike_of_not_freed hfree rfl rfl rfl)
  · cases hroute

theorem kempt_stepJob {act : ServerAct} (h : s.Kempt) (htimely : s.timely act = true)
    (hstep : s.stepJob act = some s') : s'.Kempt := by
  cases act with
  | routeList j => exact kempt_route h hstep
  | routeOpen j library stamp => exact kempt_route h hstep
  | list i job offers =>
    obtain ⟨link, j, hlink, hj, hlist⟩ := work_eq_some hstep
    split at hlist
    · obtain rfl := Option.some.inj hlist
      exact h.work hlink hj _ rfl rfl ⟨_, rfl⟩
    · cases hlist
  | hold i job offers =>
    obtain ⟨link, j, hlink, hj, hhold⟩ := work_eq_some hstep
    cases j with
    | «open» library stamp =>
      simp only at hhold
      cases hfound : s.hold offers library stamp with
      | none =>
        rw [hfound] at hhold
        obtain rfl := Option.some.inj hhold
        exact h.work hlink hj _ rfl rfl ⟨[], (List.append_nil _).symm⟩
      | some found =>
        rw [hfound] at hhold
        obtain rfl := Option.some.inj hhold
        exact h.work hlink hj _ rfl rfl ⟨[found.1], rfl⟩
    | _ => cases hhold
  | publish i job =>
    obtain ⟨link, j, hlink, hj, hpublish⟩ := work_eq_some hstep
    cases j with
    | held library stamp held =>
      obtain rfl := Option.some.inj hpublish
      apply h.publish hlink
      simpa [timely, hlink] using htimely
    | _ => cases hpublish
  | drop i job =>
    obtain ⟨link, j, hlink, hj, hdrop⟩ := work_eq_some hstep
    obtain rfl := Option.some.inj hdrop
    exact h.work hlink hj _ rfl rfl ⟨[], (List.append_nil _).symm⟩
  | _ => cases hstep

/-- What is kept stays in order as long as no thread keeps tables for a link that has ended. -/
theorem kempt_step : Kept (only (fun s act => timely s act = true) step) Kempt := by
  intro s act s' h hstep
  obtain ⟨htimely, hstep⟩ := only_eq_some.mp hstep
  cases act with
  | registry act =>
    obtain ⟨sources, -, rfl⟩ := Option.map_eq_some_iff.mp hstep
    exact ⟨h.apart, h.gone, h.kept⟩
  | refresh answers =>
    obtain rfl := Option.some.inj hstep
    exact ⟨h.apart, h.gone, h.kept⟩
  | count j =>
    obtain ⟨keys, -, rfl⟩ := Option.map_eq_some_iff.mp hstep
    exact ⟨h.apart, h.gone, h.kept⟩
  | start _ => exact @kempt_stepLink _ _ (.start _) h hstep
  | close _ _ _ => exact @kempt_stepLink _ _ (.close _ _ _) h hstep
  | die _ => exact @kempt_stepLink _ _ (.die _) h hstep
  | ended _ => exact @kempt_stepLink _ _ (.ended _) h hstep
  | stop _ => exact @kempt_stepLink _ _ (.stop _) h hstep
  | free _ => exact @kempt_stepLink _ _ (.free _) h hstep
  | routeList _ => exact @kempt_stepJob _ _ (.routeList _) h htimely hstep
  | routeOpen _ _ _ => exact @kempt_stepJob _ _ (.routeOpen _ _ _) h htimely hstep
  | list _ _ _ => exact @kempt_stepJob _ _ (.list _ _ _) h htimely hstep
  | hold _ _ _ => exact @kempt_stepJob _ _ (.hold _ _ _) h htimely hstep
  | publish _ _ => exact @kempt_stepJob _ _ (.publish _ _) h htimely hstep
  | drop _ _ => exact @kempt_stepJob _ _ (.drop _ _) h htimely hstep

/-- In every run in which no thread keeps tables for a link that has ended, a link reaches only what
it has open, and nothing is kept for a link that is over. -/
theorem own_of_timely (sources : Sources) {acts : List ServerAct} {s : Server}
    (h : run (only (fun s act => timely s act = true) step) (new sources) acts = some s) : s.Own :=
  (kempt_step.run (kempt_new sources) h).own

/-- A library of one provider is loaded and a link set up, whose OPEN a thread takes. -/
private def opening : List ServerAct :=
  [.registry (.host (.load (.ofText "/a.so") "" (.ofText "/a.so") (.ofText "/a.so")
      (.ok (.loaded ⟨"a", "1", [⟨"p", "", none⟩]⟩)))),
    .start 7, .routeOpen 0 "a" "a#1#0", .hold 0 0 fun _ => ["greeter"]]

/-- A link opens a library, reaches its table, and ends. -/
theorem own_of_timely_opened : ∃ s, run (only (fun s act => timely s act = true) step) (new .new)
    (opening ++ [.publish 0 0, .die 0, .ended 0]) = some s ∧ s.Own :=
  ⟨_, rfl, @own_of_timely .new (opening ++ [.publish 0 0, .die 0, .ended 0]) _ rfl⟩

/-- What a thread keeps for a link that has ended stays when the link is over, and a call on the
next link at its address finds it. -/
theorem opened_after_end : ∃ acts more s s', run step (new .new) acts = some s ∧
    run step s more = some s' ∧ ¬s.Own ∧ ¬s'.Own ∧
    (∃ link, s.links[0]? = some link ∧ Over link ∧ link.reading = false ∧
      AssocList.get link.address s.opened ≠ none) ∧
    ∃ link, s'.links[1]? = some link ∧ link.jobs = [] ∧ s'.table link 1 ≠ none ∧
      ∀ library stamp held, Event.opened 1 library stamp held ∉ s'.log := by
  refine ⟨opening ++ [.die 0, .ended 0, .publish 0 0, .stop 0], [.free 0, .start 7], _, _, rfl, rfl,
    ?_, ?_, ⟨_, rfl, ⟨rfl, rfl⟩, rfl, ?_⟩, ⟨_, rfl, rfl, ?_, ?_⟩⟩
  · intro h
    cases h.clean 0 _ rfl rfl ⟨rfl, rfl⟩
  · intro h
    obtain ⟨library, stamp, held, ⟨before, after, hlog, -⟩, -⟩ := h.reaches 1 _ rfl rfl 1 _ rfl
    have hmem : Event.opened 1 library stamp held ∈ before ++ .opened 1 library stamp held :: after := by
      simp
    rw [← hlog] at hmem
    rcases hmem with _ | ⟨_, _ | ⟨_, hmem⟩⟩
    cases hmem
  · exact Option.some_ne_none _
  · exact Option.some_ne_none _
  · intro library stamp held hmem
    rcases hmem with _ | ⟨_, _ | ⟨_, hmem⟩⟩
    cases hmem

end Server

end Guatiao.Remote
