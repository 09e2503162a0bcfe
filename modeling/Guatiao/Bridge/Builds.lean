import Guatiao.Library.Parts

/-!
# The builds an engine has open

A source over an engine keeps the builds it opened and did not close yet, each under its id and the
stamp it was listed under, and closes the first that has the id and the stamp it is told. It closes
the right one unless an earlier build of the same id and stamp is still open.
-/

namespace Guatiao.Bridge

open Lib
open Library hiding Opening
open Library.Leases

/-- What a source keeps of its engine's libraries, and what its engine was told to close. -/
structure Builds where
  /-- The stamp each id was last listed under. -/
  listed : List (String × String)
  /-- Every library opened and not yet closed: its id, the stamp it was listed under, and the
  engine's handle. -/
  «open» : List (String × String × ℕ)
  /-- The handles the engine's `close` was called with. -/
  closed : List ℕ

namespace Builds

/-- `list`: what was listed before is forgotten. -/
def list (b : Builds) (candidates : List Candidate) : Builds :=
  { b with listed := candidates.map fun c => (c.id, c.stamp) }

/-- `opened`: records an open under the stamp `id` was last listed under, or the manifest's own when
it was never listed. -/
def opened (b : Builds) (id stamp : String) (library : ℕ) : Builds :=
  { b with «open» := b.open ++
      [(id, ((b.listed.find? (·.1 = id)).map Prod.snd).getD stamp, library)] }

/-- `close`: the first library open under an id and a stamp. -/
def close (b : Builds) (id stamp : String) : Builds :=
  match b.open.find? fun e => e.1 = id ∧ e.2.1 = stamp with
  | none => b
  | some e => { b with
      «open» := b.open.eraseP fun e => e.1 = id ∧ e.2.1 = stamp
      closed := b.closed ++ [e.2.2] }

/-- What the registry asks and tells a source; `own` is the stamp of the manifest an opening read. -/
def event (own : ℕ → String) (b : Builds) : SourceEvent → Builds
  | .listed _ candidates => b.list candidates
  | .refused .. => b
  | .opened _ opening id _ => b.opened id (own opening) opening
  | .closed _ _ id stamp _ _ => b.close id stamp

end Builds

/-- The source an event is of. -/
def sourceOf : SourceEvent → ℕ
  | .listed at_ _ | .refused at_ _ _ | .opened at_ _ _ _ | .closed at_ _ _ _ _ _ => at_

/-- What a source has open after what it was asked and told. -/
def builds (own : ℕ → String) (at_ : ℕ) (trace : List SourceEvent) : Builds :=
  (trace.filter (sourceOf · = at_)).foldl (Builds.event own) ⟨[], [], []⟩

/-- The builds of a source the registry let go, oldest first. -/
def letGo (at_ : ℕ) (trace : List SourceEvent) : List Opening := (closes trace).filter (·.at_ = at_)

/-- The builds of a source that are still open, oldest first. -/
def stillOpen (at_ : ℕ) (trace : List SourceEvent) : List Opening :=
  (opens trace).filter fun o => o.at_ = at_ ∧ o ∉ closes trace

/-- The engine closed the builds the registry let go, and no others. -/
def Paired (own : ℕ → String) (at_ : ℕ) (trace : List SourceEvent) : Prop :=
  (builds own at_ trace).closed = (letGo at_ trace).map Opening.number

/-- Whether no earlier build of the same id and stamp is open, of the one an event lets go. -/
def apart (at_ : ℕ) (trace : List SourceEvent) : SourceEvent → Bool
  | .closed other opening id stamp _ _ => other = at_ →
      ∀ o ∈ stillOpen at_ trace, ¬ (o.id = id ∧ o.stamp = stamp ∧ o.number < opening)
  | _ => true

/-- The same of every event that follows. -/
def allApart (at_ : ℕ) (trace : List SourceEvent) : List SourceEvent → Bool
  | [] => true
  | e :: rest => apart at_ trace e && allApart at_ (trace ++ [e]) rest

theorem allApart_append (at_ : ℕ) (trace more rest : List SourceEvent) :
    allApart at_ trace (more ++ rest) = (allApart at_ trace more && allApart at_ (trace ++ more) rest) := by
  induction more generalizing trace with
  | nil => simp [allApart]
  | cons e more ih =>
    rw [List.cons_append, allApart, allApart, ih, Bool.and_assoc, List.append_assoc]
    rfl

section

variable {own : ℕ → String} {at_ : ℕ} {trace : List SourceEvent}

theorem builds_append (e : SourceEvent) : builds own at_ (trace ++ [e]) =
    if sourceOf e = at_ then (builds own at_ trace).event own e else builds own at_ trace := by
  rw [builds, List.filter_append, List.foldl_append]
  by_cases he : sourceOf e = at_
  · simp [he, builds]
  · simp [he, builds]

theorem builds_own {e : SourceEvent} (he : sourceOf e = at_) :
    builds own at_ (trace ++ [e]) = (builds own at_ trace).event own e := by
  rw [builds_append, if_pos he]

theorem builds_other {e : SourceEvent} (he : sourceOf e ≠ at_) :
    builds own at_ (trace ++ [e]) = builds own at_ trace := by
  rw [builds_append, if_neg he]

theorem opens_pairwise (h : Told trace) : (opens trace).Pairwise fun o p => o.number < p.number := by
  induction h with
  | nil => exact .nil
  | listed h _ _ ih | refused h _ _ _ ih | closed h _ _ _ _ ih =>
    rw [opens_append]
    exact (List.append_nil _).symm ▸ ih
  | opened h _ _ hnew ih =>
    rw [opens_append, List.pairwise_append]
    refine ⟨ih, List.pairwise_singleton .., fun o ho p hp => ?_⟩
    rw [List.mem_singleton.mp hp]
    exact hnew o ho

/-- What a source keeps is what is still open, under the stamps it was listed under. -/
structure Right (own : ℕ → String) (at_ : ℕ) (trace : List SourceEvent) : Prop where
  listed : (builds own at_ trace).listed =
    ((latest at_ trace).getD []).map fun c => (c.id, c.stamp)
  «open» : (builds own at_ trace).open = (stillOpen at_ trace).map fun o => (o.id, o.stamp, o.number)
  closed : Paired own at_ trace

theorem right_nil : Right own at_ [] := ⟨rfl, rfl, rfl⟩

theorem Right.congr {e : SourceEvent} (h : Right own at_ trace)
    (hlisted : (builds own at_ (trace ++ [e])).listed =
      ((latest at_ (trace ++ [e])).getD []).map fun c => (c.id, c.stamp))
    (hopen : (builds own at_ (trace ++ [e])).open = (builds own at_ trace).open)
    (hclosed : (builds own at_ (trace ++ [e])).closed = (builds own at_ trace).closed)
    (hstill : stillOpen at_ (trace ++ [e]) = stillOpen at_ trace)
    (hgone : letGo at_ (trace ++ [e]) = letGo at_ trace) : Right own at_ (trace ++ [e]) where
  listed := hlisted
  «open» := by rw [hopen, hstill, h.open]
  closed := by
    rw [Paired, hclosed, hgone]
    exact h.closed

theorem Right.listing (h : Right own at_ trace) (other : ℕ) (candidates : List Candidate) :
    Right own at_ (trace ++ [.listed other candidates]) := by
  have hopens : opens (trace ++ [.listed other candidates]) = opens trace := by
    rw [opens_append]
    exact List.append_nil _
  have hcloses : closes (trace ++ [.listed other candidates]) = closes trace := by
    rw [closes_append]
    exact List.append_nil _
  have hstill : stillOpen at_ (trace ++ [.listed other candidates]) = stillOpen at_ trace := by
    rw [stillOpen, hopens, hcloses, stillOpen]
  have hgone : letGo at_ (trace ++ [.listed other candidates]) = letGo at_ trace := by
    rw [letGo, hcloses, letGo]
  by_cases heq : other = at_
  · subst heq
    have hself : builds own other (trace ++ [.listed other candidates]) =
        (builds own other trace).event own (.listed other candidates) := builds_own rfl
    refine h.congr ?_ ?_ ?_ hstill hgone
    · rw [hself, latest_listed]
      rfl
    · rw [hself]
      rfl
    · rw [hself]
      rfl
  · have hsame : builds own at_ (trace ++ [.listed other candidates]) = builds own at_ trace :=
      builds_other heq
    refine h.congr ?_ (by rw [hsame]) (by rw [hsame]) hstill hgone
    rw [hsame, latest_listed_other heq]
    exact h.listed

theorem Right.of_refused (h : Right own at_ trace) (other : ℕ) (id stamp : String) :
    Right own at_ (trace ++ [.refused other id stamp]) := by
  have hopens : opens (trace ++ [.refused other id stamp]) = opens trace := by
    rw [opens_append]
    exact List.append_nil _
  have hcloses : closes (trace ++ [.refused other id stamp]) = closes trace := by
    rw [closes_append]
    exact List.append_nil _
  have hsame : builds own at_ (trace ++ [.refused other id stamp]) = builds own at_ trace := by
    rw [builds_append]
    split
    · rfl
    · rfl
  refine h.congr ?_ (by rw [hsame]) (by rw [hsame]) ?_ ?_
  · rw [hsame, latest_append_of_not rfl]
    exact h.listed
  · rw [stillOpen, hopens, hcloses, stillOpen]
  · rw [letGo, hcloses, letGo]

/-- A build is recorded under the stamp it was listed under. -/
theorem Right.opened (h : Right own at_ trace) (htold : Told trace) {other opening : ℕ}
    {id stamp : String} {candidates : List Candidate} (hlatest : latest other trace = some candidates)
    (hfirst : candidates.find? (·.id = id) = some ⟨id, stamp⟩)
    (hnew : ∀ o ∈ opens trace, o.number < opening) :
    Right own at_ (trace ++ [.opened other opening id stamp]) := by
  have hopens : opens (trace ++ [.opened other opening id stamp]) =
      opens trace ++ [⟨other, opening, id, stamp⟩] := opens_append ..
  have hcloses : closes (trace ++ [.opened other opening id stamp]) = closes trace := by
    rw [closes_append]
    exact List.append_nil _
  have hgone : letGo at_ (trace ++ [.opened other opening id stamp]) = letGo at_ trace := by
    rw [letGo, hcloses, letGo]
  by_cases heq : other = at_
  · subst heq
    have hself : builds own other (trace ++ [.opened other opening id stamp]) =
        (builds own other trace).event own (.opened other opening id stamp) := builds_own rfl
    have hfresh : (⟨other, opening, id, stamp⟩ : Opening) ∉ closes trace := fun hin =>
      Nat.lt_irrefl _ (hnew _ (htold.closes_opens hin))
    have hstill : stillOpen other (trace ++ [.opened other opening id stamp]) =
        stillOpen other trace ++ [⟨other, opening, id, stamp⟩] := by
      rw [stillOpen, hopens, hcloses, List.filter_append, stillOpen]
      simp [hfresh]
    have hstamp : ((builds own other trace).listed.find? (·.1 = id)).map Prod.snd = some stamp := by
      rw [h.listed, hlatest, Option.getD_some, List.find?_map]
      have hsame : ((fun e : String × String => decide (e.1 = id)) ∘ fun c : Candidate => (c.id, c.stamp)) =
          fun c : Candidate => decide (c.id = id) := rfl
      rw [hsame, hfirst]
      rfl
    constructor
    · rw [hself, latest_append_of_not rfl]
      exact h.listed
    · rw [hself, hstill, List.map_append, ← h.open]
      simp only [Builds.event, Builds.opened, hstamp, Option.getD_some]
      rfl
    · rw [Paired, hself, hgone]
      exact h.closed
  · have hsame : builds own at_ (trace ++ [.opened other opening id stamp]) = builds own at_ trace :=
      builds_other heq
    refine h.congr ?_ (by rw [hsame]) (by rw [hsame]) ?_ hgone
    · rw [hsame, latest_append_of_not rfl]
      exact h.listed
    · rw [stillOpen, hopens, hcloses, List.filter_append, stillOpen]
      simp [heq]

theorem stillOpen_pairwise (h : Told trace) :
    (stillOpen at_ trace).Pairwise fun o p => o.number < p.number :=
  (opens_pairwise h).filter _

theorem mem_stillOpen {o : Opening} :
    o ∈ stillOpen at_ trace ↔ o ∈ opens trace ∧ o.at_ = at_ ∧ o ∉ closes trace := by
  rw [stillOpen, List.mem_filter, decide_eq_true_eq]

/-- A build the registry lets go is the first of its id and stamp exactly where none before it has
them. -/
theorem first_iff (h : Told trace) {o : Opening} (ho : o ∈ stillOpen at_ trace) :
    ((stillOpen at_ trace).find? fun p => p.id = o.id ∧ p.stamp = o.stamp) = some o ↔
      ∀ p ∈ stillOpen at_ trace, ¬ (p.id = o.id ∧ p.stamp = o.stamp ∧ p.number < o.number) := by
  have hpairwise := @stillOpen_pairwise at_ trace h
  constructor
  · intro hfirst p hp hearlier
    obtain ⟨-, before, after, heq, hnot⟩ := List.find?_eq_some_iff_append.mp hfirst
    rw [heq] at hp hpairwise
    rw [List.pairwise_append, List.pairwise_cons] at hpairwise
    rcases List.mem_append.mp hp with hp | hp
    · have hother := hnot p hp
      simp [hearlier.1, hearlier.2.1] at hother
    · rcases List.mem_cons.mp hp with rfl | hp
      · exact Nat.lt_irrefl _ hearlier.2.2
      · exact Nat.lt_asymm hearlier.2.2 (hpairwise.2.1.1 p hp)
  · intro hnone
    obtain ⟨before, after, heq⟩ := List.append_of_mem ho
    refine List.find?_eq_some_iff_append.mpr ⟨by simp, before, after, heq, fun p hp => ?_⟩
    have hlt : p.number < o.number := by
      rw [heq, List.pairwise_append] at hpairwise
      exact hpairwise.2.2 p hp o (List.mem_cons_self ..)
    have hin : p ∈ stillOpen at_ trace := by
      rw [heq]
      exact List.mem_append_left _ hp
    have hother := hnone p hin
    simp only [Bool.not_eq_true', decide_eq_false_iff_not]
    exact fun hsame => hother ⟨hsame.1, hsame.2, hlt⟩

theorem Right.find_open (h : Right own at_ trace) (id stamp : String) :
    ((builds own at_ trace).open.find? fun e => e.1 = id ∧ e.2.1 = stamp) =
      ((stillOpen at_ trace).find? fun p => p.id = id ∧ p.stamp = stamp).map
        fun o => (o.id, o.stamp, o.number) := by
  rw [h.open, List.find?_map]
  rfl

/-- The registry lets a build go. -/
theorem Right.closing_iff (h : Right own at_ trace) (htold : Told trace) {other opening : ℕ}
    {id stamp : String} (hopened : ⟨other, opening, id, stamp⟩ ∈ opens trace)
    (honce : opening ∉ (closes trace).map Opening.number) (parts : Bool) (holds : ℕ) :
    (apart at_ trace (.closed other opening id stamp parts holds) = true →
      Right own at_ (trace ++ [.closed other opening id stamp parts holds])) ∧
    (Paired own at_ (trace ++ [.closed other opening id stamp parts holds]) →
      apart at_ trace (.closed other opening id stamp parts holds) = true) := by
  have hopens : opens (trace ++ [.closed other opening id stamp parts holds]) = opens trace := by
    rw [opens_append]
    exact List.append_nil _
  have hcloses : closes (trace ++ [.closed other opening id stamp parts holds]) =
      closes trace ++ [⟨other, opening, id, stamp⟩] := closes_append ..
  by_cases heq : other = at_
  · subst heq
    have hself : builds own other (trace ++ [.closed other opening id stamp parts holds]) =
        (builds own other trace).close id stamp := builds_own rfl
    have ho : (⟨other, opening, id, stamp⟩ : Opening) ∈ stillOpen other trace :=
      mem_stillOpen.mpr ⟨hopened, rfl, fun hin => honce (List.mem_map_of_mem hin)⟩
    have hfirst := @first_iff other trace htold ⟨other, opening, id, stamp⟩ ho
    have happart : apart other trace (.closed other opening id stamp parts holds) = true ↔
        ∀ p ∈ stillOpen other trace, ¬ (p.id = id ∧ p.stamp = stamp ∧ p.number < opening) := by
      simp only [apart, decide_eq_true_eq, forall_const]
    have hfound := h.find_open id stamp
    have hgone : letGo other (trace ++ [.closed other opening id stamp parts holds]) =
        letGo other trace ++ [⟨other, opening, id, stamp⟩] := by
      rw [letGo, hcloses, List.filter_append, letGo]
      simp
    rw [happart, ← hfirst]
    constructor
    · intro hfind
      rw [hfind] at hfound
      obtain ⟨-, before, after, hsplit, hnot⟩ := List.find?_eq_some_iff_append.mp hfind
      have hclose : (builds own other trace).close id stamp =
          { builds own other trace with
            «open» := (builds own other trace).open.eraseP fun e => e.1 = id ∧ e.2.1 = stamp
            closed := (builds own other trace).closed ++ [opening] } := by
        rw [Builds.close, hfound]
        rfl
      have hless : stillOpen other (trace ++ [.closed other opening id stamp parts holds]) =
          before ++ after := by
        have hmore : stillOpen other (trace ++ [.closed other opening id stamp parts holds]) =
            (stillOpen other trace).filter fun p => p ≠ ⟨other, opening, id, stamp⟩ := by
          rw [stillOpen, hopens, hcloses, stillOpen, List.filter_filter]
          refine List.filter_congr fun p _ => ?_
          rw [← Bool.decide_and, decide_eq_decide, List.mem_append, List.mem_singleton]
          tauto
        have hpairwise := @stillOpen_pairwise other trace htold
        rw [hsplit, List.pairwise_append, List.pairwise_cons] at hpairwise
        rw [hmore, hsplit, List.filter_append, List.filter_cons_of_neg (by simp),
          List.filter_eq_self.mpr, List.filter_eq_self.mpr]
        · intro p hp
          rw [decide_eq_true_eq]
          rintro rfl
          exact Nat.lt_irrefl _ (hpairwise.2.1.1 _ hp)
        · intro p hp
          rw [decide_eq_true_eq]
          rintro rfl
          exact Nat.lt_irrefl _ (hpairwise.2.2 _ hp _ (List.mem_cons_self ..))
      constructor
      · rw [hself, hclose, latest_append_of_not rfl]
        exact h.listed
      · rw [hself, hclose, hless]
        show (builds own other trace).open.eraseP (fun e => e.1 = id ∧ e.2.1 = stamp) = _
        rw [h.open, List.eraseP_map, hsplit, List.eraseP_append_right, List.eraseP_cons_of_pos]
        · simp
        · intro p hp
          have hother := hnot p hp
          simpa [imp_iff_not_or] using hother
      · rw [Paired, hself, hclose, hgone, List.map_append, ← h.closed]
        rfl
    · intro hpaired
      rw [Paired, hself, hgone, List.map_append, Builds.close, hfound] at hpaired
      cases hfind : (stillOpen other trace).find? fun p => p.id = id ∧ p.stamp = stamp with
      | none =>
        have hnone := List.find?_eq_none.mp hfind _ ho
        simp at hnone
      | some p =>
        rw [hfind] at hpaired
        have hnumber : p.number = opening := by
          have hclosed : (builds own other trace).closed ++ [p.number] =
              (letGo other trace).map Opening.number ++ [opening] := hpaired
          rw [h.closed] at hclosed
          simpa using hclosed
        have hsame : p = ⟨other, opening, id, stamp⟩ := by
          have hp := List.mem_of_find?_eq_some hfind
          have hids := List.find?_some hfind
          obtain ⟨-, hat, -⟩ := mem_stillOpen.mp hp
          simp only [decide_eq_true_eq] at hids
          obtain ⟨pat, pnumber, pid, pstamp⟩ := p
          simp only at hat hids hnumber
          rw [hat, hnumber, hids.1, hids.2]
        rw [hsame]
  · have hsame : builds own at_ (trace ++ [.closed other opening id stamp parts holds]) =
        builds own at_ trace := builds_other heq
    refine ⟨fun _ => h.congr ?_ (by rw [hsame]) (by rw [hsame]) ?_ ?_, fun _ => ?_⟩
    · rw [hsame, latest_append_of_not rfl]
      exact h.listed
    · rw [stillOpen, hopens, hcloses, stillOpen]
      refine List.filter_congr fun p _ => ?_
      have hne : p.at_ = at_ → p ≠ ⟨other, opening, id, stamp⟩ := by
        rintro hat rfl
        exact heq hat
      by_cases hat : p.at_ = at_
      · simp [hat, hne hat]
      · simp [hat]
    · rw [letGo, hcloses, List.filter_append, letGo]
      simp [heq]
    · simp [apart, heq]

/-- The engine closes the builds the registry lets go exactly where no earlier build of the same id
and stamp is open then. -/
theorem paired_iff (h : Told trace) :
    (allApart at_ [] trace = true → Right own at_ trace) ∧
      ((∀ before, before <+: trace → Paired own at_ before) ↔ allApart at_ [] trace = true) := by
  have hinitial : ∀ (trace : List SourceEvent) (e : SourceEvent),
      (∀ before, before <+: trace ++ [e] → Paired own at_ before) ↔
        Paired own at_ (trace ++ [e]) ∧ ∀ before, before <+: trace → Paired own at_ before := by
    intro trace e
    simp only [List.prefix_concat_iff, or_imp, forall_and, forall_eq]
  have hone : ∀ (trace : List SourceEvent) (e : SourceEvent),
      allApart at_ [] (trace ++ [e]) = true ↔ allApart at_ [] trace = true ∧ apart at_ trace e = true := by
    intro trace e
    rw [allApart_append, Bool.and_eq_true]
    simp [allApart]
  -- An event that lets nothing go keeps what was right.
  have hother : ∀ {trace : List SourceEvent} {e : SourceEvent},
      (allApart at_ [] trace = true → Right own at_ trace) →
      ((∀ before, before <+: trace → Paired own at_ before) ↔ allApart at_ [] trace = true) →
      apart at_ trace e = true → (Right own at_ trace → Right own at_ (trace ++ [e])) →
      (allApart at_ [] (trace ++ [e]) = true → Right own at_ (trace ++ [e])) ∧
        ((∀ before, before <+: trace ++ [e] → Paired own at_ before) ↔
          allApart at_ [] (trace ++ [e]) = true) := by
    intro trace e hright hiff happart hkeeps
    refine ⟨fun hall => hkeeps (hright ((hone trace e).mp hall).1), ?_⟩
    rw [hinitial, hone, and_iff_left happart]
    exact ⟨fun hall => hiff.mp hall.2, fun hall => ⟨(hkeeps (hright hall)).closed, hiff.mpr hall⟩⟩
  induction h with
  | nil =>
    refine ⟨fun _ => right_nil, fun _ => rfl, fun _ before hbefore => ?_⟩
    rw [List.prefix_nil.mp hbefore]
    rfl
  | listed h other candidates ih => exact hother ih.1 ih.2 rfl fun hr => hr.listing other candidates
  | refused h other id stamp ih => exact hother ih.1 ih.2 rfl fun hr => hr.of_refused other id stamp
  | opened h hlatest hfirst hnew ih =>
    exact hother ih.1 ih.2 rfl fun hr => hr.opened h hlatest hfirst hnew
  | closed h hopened honce parts holds ih =>
    constructor
    · intro hall
      obtain ⟨hbefore, happart⟩ := (hone _ _).mp hall
      exact ((ih.1 hbefore).closing_iff h hopened honce parts holds).1 happart
    · rw [hinitial, hone]
      constructor
      · rintro ⟨hpaired, hall⟩
        have hbefore := ih.2.mp hall
        exact ⟨hbefore, ((ih.1 hbefore).closing_iff h hopened honce parts holds).2 hpaired⟩
      · rintro ⟨hbefore, happart⟩
        exact ⟨(((ih.1 hbefore).closing_iff h hopened honce parts holds).1 happart).closed,
          ih.2.mpr hbefore⟩

end

variable {s s' : Leases}

/-- The engine closes each build as the registry lets it go, once and that very build, which nothing
holds then; none it closed is a library's that is not closed. -/
structure Faithful (own : ℕ → String) (at_ : ℕ) (s : Leases) : Prop where
  paired : ∀ before, before <+: s.trace → Paired own at_ before
  free : ∀ e ∈ s.trace, e.held = 0
  loose : ∀ handle ∈ (builds own at_ s.trace).closed, ∀ lease ∈ s.living, ∀ o ∈
    (s.kept lease).bind fun kept => kept.origin.opening, o.number ≠ handle

/-- Whether a step lets a build go with no earlier build open of the same id and stamp. -/
def Apart (at_ : ℕ) (s : Leases) (act : Act) : Prop := allApart at_ s.trace (s.told act) = true

instance (at_ : ℕ) (s : Leases) (act : Act) : Decidable (Apart at_ s act) :=
  inferInstanceAs (Decidable (_ = true))

theorem trace_initial {acts : List Act} (h : run step s acts = some s') : s.trace <+: s'.trace := by
  induction acts generalizing s with
  | nil =>
    cases h
    exact List.prefix_rfl
  | cons act acts ih =>
    obtain ⟨m, hstep, hrest⟩ := run_cons.mp h
    refine List.IsPrefix.trans ?_ (ih hrest)
    rw [step_trace hstep]
    exact List.prefix_append ..

theorem loose_of_paired {own : ℕ → String} {at_ : ℕ} (h : Traced s) (hpaired : Paired own at_ s.trace) :
    ∀ handle ∈ (builds own at_ s.trace).closed, ∀ lease ∈ s.living, ∀ o ∈
      (s.kept lease).bind fun kept => kept.origin.opening, o.number ≠ handle := by
  intro handle hhandle lease hlease o ho
  rw [hpaired] at hhandle
  obtain ⟨p, hp, rfl⟩ := List.mem_map.mp hhandle
  have hclosed : p ∈ closes s.trace := (List.mem_filter.mp hp).1
  have hliving : o ∈ s.unclosed :=
    List.mem_append_right _ (List.mem_filterMap.mpr ⟨lease, hlease, ho⟩)
  have honce := h.once
  rw [List.map_append, List.nodup_append] at honce
  exact (honce.2.2 _ (List.mem_map_of_mem hclosed) _ (List.mem_map_of_mem hliving)).symm

/-- In every run, a source's engine closes the builds the registry lets go exactly where, each time,
no build of the same id that was opened before under the same stamp is still open. -/
theorem faithful_iff (own : ℕ → String) (at_ : ℕ) (key libraryKey : KeyTemplate) (acts : List Act)
    (h : run step (start key libraryKey) acts = some s) :
    Faithful own at_ s ↔ run (only (Apart at_) step) (start key libraryKey) acts = some s := by
  have hstart : Reckoned (start key libraryKey) ∧ Traced (start key libraryKey) :=
    ⟨reckoned_start key libraryKey, traced_start key libraryKey⟩
  have hiff : ∀ (s : Leases) (act : Act) (s' : Leases),
      ((Reckoned s ∧ Traced s) ∧ ∀ before, before <+: s.trace → Paired own at_ before) →
      step s act = some s' →
      (((Reckoned s' ∧ Traced s') ∧ ∀ before, before <+: s'.trace → Paired own at_ before) ↔
        Apart at_ s act) := by
    intro s act s' hs hstep
    have hs' := traced_step s act s' hs.1 hstep
    have hbefore := (paired_iff hs.1.2.told).2.mp hs.2
    rw [and_iff_right hs', (paired_iff hs'.2.told).2, step_trace hstep, allApart_append, List.nil_append,
      hbefore, Bool.true_and]
    rfl
  rw [← all_prefixes_iff hiff ⟨hstart, (paired_iff hstart.2.told).2.mpr rfl⟩ h]
  constructor
  · intro hfaithful before after m hacts hbefore
    refine ⟨traced_step.run hstart hbefore, fun earlier hearlier => ?_⟩
    rw [hacts, run_append] at h
    obtain ⟨m', hm', hafter⟩ := h
    rw [hbefore] at hm'
    cases hm'
    exact hfaithful.paired earlier (hearlier.trans (trace_initial hafter))
  · intro hall
    obtain ⟨⟨-, htraced⟩, hpaired⟩ := hall acts [] s (List.append_nil _).symm h
    obtain ⟨-, hfreed⟩ := freed_step.run ⟨hstart.1, nofun⟩ h
    exact ⟨hpaired, hfreed, loose_of_paired htraced (hpaired _ List.prefix_rfl)⟩

/-- A build is opened, held, replaced, and opened again with its stamp: unloading that one closes
the one that is held. -/
theorem unfaithful_broughtBack : ¬ ∀ (own : ℕ → String) (at_ : ℕ) (key libraryKey : KeyTemplate)
    (acts : List Act) (s : Leases), run step (start key libraryKey) acts = some s →
      Faithful own at_ s := by
  intro hall
  have hends : (run step (start .default .default) ([.addSource "src" true, .call .refresh] ++
      List.replicate 5 (.perform ⟨true, .ofText "", .ofText "", .error "", false, some [⟨"a", "1"⟩],
        .loaded ⟨"a", "1", [⟨⟨"p", "P", none⟩, ["k"]⟩]⟩ false true⟩) ++ [.handle 0, .call .refresh] ++
      List.replicate 7 (.perform ⟨true, .ofText "", .ofText "", .error "", false, some [⟨"a", "2"⟩],
        .loaded ⟨"a", "1", [⟨⟨"p", "P", none⟩, ["k"]⟩]⟩ false true⟩) ++ [.call .refresh] ++
      List.replicate 9 (.perform ⟨true, .ofText "", .ofText "", .error "", false, some [⟨"a", "1"⟩],
        .loaded ⟨"a", "1", [⟨⟨"p", "P", none⟩, ["k"]⟩]⟩ false true⟩) ++ [.call (.unload "a")] ++
      List.replicate 10 (.perform ⟨true, .ofText "", .ofText "", .error "", false, none,
        .declined⟩))).map (fun s => ((builds (fun _ => "") 0 s.trace).closed,
          (letGo 0 s.trace).map Opening.number)) = some ([1, 0], [1, 2]) := by
    decide +kernel
  obtain ⟨s, hrun, hends⟩ := Option.map_eq_some_iff.mp hends
  have hpaired := (hall (fun _ => "") 0 .default .default _ s hrun).paired s.trace List.prefix_rfl
  rw [Paired, (Prod.mk.inj hends).1, (Prod.mk.inj hends).2] at hpaired
  cases hpaired

/-- Two builds with stamps of their own: the one that is replaced is closed. -/
theorem faithful_iff_replaced : ∃ s : Leases,
    run step (start .default .default) ([.addSource "src" true, .call .refresh] ++
      List.replicate 5 (.perform ⟨true, .ofText "", .ofText "", .error "", false, some [⟨"a", "1"⟩],
        .loaded ⟨"a", "1", []⟩ false true⟩) ++ [.call .refresh] ++
      List.replicate 7 (.perform ⟨true, .ofText "", .ofText "", .error "", false, some [⟨"a", "2"⟩],
        .loaded ⟨"a", "1", []⟩ false true⟩) ++ [.call .collect] ++
      List.replicate 4 (.perform ⟨true, .ofText "", .ofText "", .error "", false, none,
        .declined⟩)) = some s ∧
      (builds (fun _ => "") 0 s.trace).closed = [0] ∧ Faithful (fun _ => "") 0 s := by
  have hends : (run (only (Apart 0) step) (start .default .default)
      ([.addSource "src" true, .call .refresh] ++
        List.replicate 5 (.perform ⟨true, .ofText "", .ofText "", .error "", false, some [⟨"a", "1"⟩],
          .loaded ⟨"a", "1", []⟩ false true⟩) ++ [.call .refresh] ++
        List.replicate 7 (.perform ⟨true, .ofText "", .ofText "", .error "", false, some [⟨"a", "2"⟩],
          .loaded ⟨"a", "1", []⟩ false true⟩) ++ [.call .collect] ++
        List.replicate 4 (.perform ⟨true, .ofText "", .ofText "", .error "", false, none,
          .declined⟩))).map (fun s => (builds (fun _ => "") 0 s.trace).closed) = some [0] := by
    decide +kernel
  obtain ⟨s, hrun, hclosed⟩ := Option.map_eq_some_iff.mp hends
  exact ⟨s, run_of_only hrun, hclosed,
    (faithful_iff (fun _ => "") 0 .default .default _ (run_of_only hrun)).mpr hrun⟩

end Guatiao.Bridge
