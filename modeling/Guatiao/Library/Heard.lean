import Guatiao.Library.Closed

/-!
# What a source hears

What a source is asked and told is a history: it lists, what it is asked to open is of its latest
list, and what it is told is closed it opened, under the same id and stamp, once. Every opening that
was not closed yet is about to be offered to the registry, or is the origin of a library there is.
-/

namespace Guatiao.Library.Leases

open Lib

/-- An opening a source answered with a library. -/
structure Opening where
  at_ : ℕ
  number : ℕ
  id : String
  stamp : String
  deriving DecidableEq

/-- The opening a library has its code of. -/
def Origin.opening : Origin → Option Opening
  | .served at_ opening id stamp => some ⟨at_, opening, id, stamp⟩
  | _ => none

/-- The openings there were. -/
def opens (trace : List SourceEvent) : List Opening :=
  trace.filterMap fun
    | .opened at_ opening id stamp => some ⟨at_, opening, id, stamp⟩
    | _ => none

/-- The openings a source was told are closed. -/
def closes (trace : List SourceEvent) : List Opening :=
  trace.filterMap fun
    | .closed at_ opening id stamp _ _ => some ⟨at_, opening, id, stamp⟩
    | _ => none

/-- What a source listed last. -/
def latest (at_ : ℕ) (trace : List SourceEvent) : Option (List Candidate) :=
  (trace.filterMap fun
    | .listed other candidates => if other = at_ then some candidates else none
    | _ => none).getLast?

/-- What sources are asked and told is in order. -/
inductive Told : List SourceEvent → Prop
  | nil : Told []
  | listed {trace : List SourceEvent} (h : Told trace) (at_ : ℕ) (candidates : List Candidate) :
      Told (trace ++ [.listed at_ candidates])
  | refused {trace : List SourceEvent} (h : Told trace) (at_ : ℕ) (id stamp : String) :
      Told (trace ++ [.refused at_ id stamp])
  | opened {trace : List SourceEvent} (h : Told trace) {at_ opening : ℕ} {id stamp : String}
      {candidates : List Candidate} (hlatest : latest at_ trace = some candidates)
      (hfirst : candidates.find? (·.id = id) = some ⟨id, stamp⟩)
      (hnew : ∀ o ∈ opens trace, o.number < opening) : Told (trace ++ [.opened at_ opening id stamp])
  | closed {trace : List SourceEvent} (h : Told trace) {at_ opening : ℕ} {id stamp : String}
      (hopened : ⟨at_, opening, id, stamp⟩ ∈ opens trace)
      (honce : opening ∉ (closes trace).map Opening.number) (parts : Bool) (holds : ℕ) :
      Told (trace ++ [.closed at_ opening id stamp parts holds])

@[simp] theorem opens_append (trace more : List SourceEvent) :
    opens (trace ++ more) = opens trace ++ opens more :=
  List.filterMap_append

@[simp] theorem closes_append (trace more : List SourceEvent) :
    closes (trace ++ more) = closes trace ++ closes more :=
  List.filterMap_append

/-- Whether a source has a `close`. -/
def hearsAt (s : Leases) (at_ : ℕ) : Bool := (s.sources[at_]?.map Source.hears).getD false

/-- The leases of the libraries not closed yet. -/
def living (s : Leases) : List ℕ :=
  s.registry.loaded.map (·.lease) ++ (s.leaving.map Prod.snd ++ closing s.todo)

/-- The openings that are about to be offered to the registry. -/
def offering (todo : List Task) : List Opening :=
  todo.filterMap fun
    | .offer at_ c opening _ _ _ => some ⟨at_, opening, c.id, c.stamp⟩
    | _ => none

/-- The openings libraries have their code of. -/
def served (kept : ℕ → Option Kept) (leases : List ℕ) : List Opening :=
  leases.filterMap fun lease => (kept lease).bind fun k => k.origin.opening

/-- The openings that are still open. -/
def unclosed (s : Leases) : List Opening := offering s.todo ++ served s.kept s.living

/-- A task of a refresh that is about the latest list, or makes it. -/
def Task.lists : Task → Bool
  | .refreshSource .. | .candidate .. => true
  | _ => false

/-- What holds of openings at any time. -/
structure Traced (s : Leases) : Prop where
  told : Told s.trace
  below : ∀ o ∈ opens s.trace, o.number < s.nextOpening
  sources : ∀ o ∈ opens s.trace, o.at_ < s.sources.length
  known : ∀ o ∈ s.unclosed, o ∈ opens s.trace
  once : ((closes s.trace ++ s.unclosed).map Opening.number).Nodup
  all : ∀ o ∈ opens s.trace, s.hearsAt o.at_ = true → o ∈ closes s.trace ++ s.unclosed
  /-- A candidate is of the latest list, and no list comes before its turn. -/
  candidates : ∀ (at_ : ℕ) (c : Candidate), .candidate at_ c ∈ s.todo →
    ∃ listed, latest at_ s.trace = some listed ∧ listed.find? (·.id = c.id) = some c
  order : s.todo.Pairwise fun task later => ∀ (at_ : ℕ) (c : Candidate),
    task = .refreshSource at_ → later ≠ .candidate at_ c

variable {s s' : Leases}

theorem traced_start (key libraryKey : KeyTemplate) : Traced (start key libraryKey) where
  told := .nil
  below := nofun
  sources := nofun
  known := nofun
  once := .nil
  all := nofun
  candidates := nofun
  order := .nil

theorem Told.closes_opens {trace : List SourceEvent} (h : Told trace) {o : Opening}
    (ho : o ∈ closes trace) : o ∈ opens trace := by
  induction h with
  | nil => cases ho
  | listed h at_ candidates ih | refused h at_ id stamp ih | opened h _ _ _ ih =>
    rw [closes_append, List.mem_append] at ho
    rw [opens_append, List.mem_append]
    exact .inl (ih (ho.resolve_right nofun))
  | closed h hopened honce parts holds ih =>
    rw [closes_append, List.mem_append] at ho
    rw [opens_append, List.mem_append]
    rcases ho with ho | ho
    · exact .inl (ih ho)
    · rw [List.mem_singleton.mp ho]
      exact .inl hopened

variable {at_ lease : ℕ} {source : Source} {task : Task} {rest more : List Task} {key : String}
   {c : Candidate}

theorem hearsAt_set {other : Source} {sources : List Source}
    (hsource : sources[at_]? = some source) (hother : other.hears = source.hears) (at' : ℕ) :
    ((sources.set at_ other)[at']?.map Source.hears).getD false =
      (sources[at']?.map Source.hears).getD false := by
  by_cases heq : at_ = at'
  · subst heq
    have hlt := (List.getElem?_eq_some_iff.mp hsource).1
    rw [List.getElem?_set_self hlt, hsource, Option.map_some, Option.map_some, hother]
  · rw [List.getElem?_set_ne heq]

theorem served_congr {kept kept' : ℕ → Option Kept} {leases : List ℕ}
    (h : ∀ lease ∈ leases, kept' lease = kept lease) : served kept' leases = served kept leases := by
  refine List.filterMap_congr fun lease hlease => ?_
  rw [h lease hlease]

/-- What opens and closes nothing, and keeps the turns in order, keeps the history in order. -/
theorem Traced.same (h : Traced s) (htold : Told s'.trace) (hopens : opens s'.trace = opens s.trace)
    (hcloses : closes s'.trace = closes s.trace) (hnext : s'.nextOpening = s.nextOpening)
    (hlength : s'.sources.length = s.sources.length) (hhears : ∀ at_, s'.hearsAt at_ = s.hearsAt at_)
    (hunclosed : s'.unclosed.Perm s.unclosed)
    (hcandidates : ∀ (at_ : ℕ) (c : Candidate), .candidate at_ c ∈ s'.todo →
      ∃ listed, latest at_ s'.trace = some listed ∧ listed.find? (·.id = c.id) = some c)
    (horder : s'.todo.Pairwise fun task later => ∀ (at_ : ℕ) (c : Candidate),
      task = .refreshSource at_ → later ≠ .candidate at_ c) : Traced s' where
  told := htold
  below := by
    rw [hopens, hnext]
    exact h.below
  sources := by
    rw [hopens, hlength]
    exact h.sources
  known := fun o ho => by
    rw [hopens]
    exact h.known o (hunclosed.mem_iff.mp ho)
  once := by
    rw [hcloses, ((hunclosed.append_left _).map _).nodup_iff]
    exact h.once
  all := fun o ho hhear => by
    rw [hopens] at ho
    rw [hhears] at hhear
    rw [hcloses, List.mem_append, hunclosed.mem_iff, ← List.mem_append]
    exact h.all o ho hhear
  candidates := hcandidates
  order := horder

theorem Traced.congr (h : Traced s) (htrace : s'.trace = s.trace) (hnext : s'.nextOpening = s.nextOpening)
    (hsources : s'.sources = s.sources) (hunclosed : s'.unclosed.Perm s.unclosed)
    (htodo : s'.todo = s.todo) : Traced s' := by
  refine h.same (htrace ▸ h.told) (by rw [htrace]) (by rw [htrace]) hnext (by rw [hsources])
    (fun at_ => by rw [hearsAt, hsources, hearsAt]) hunclosed ?_ (htodo ▸ h.order)
  rw [htodo, htrace]
  exact h.candidates

theorem order_append (h : rest.Pairwise fun task later => ∀ (at_ : ℕ) (c : Candidate),
      task = .refreshSource at_ → later ≠ .candidate at_ c) (hmore : ∀ t ∈ more, ∀ at_, t ≠ .refreshSource at_) :
    (more ++ rest).Pairwise fun task later => ∀ (at_ : ℕ) (c : Candidate),
      task = .refreshSource at_ → later ≠ .candidate at_ c :=
  List.pairwise_append.mpr ⟨List.pairwise_of_forall_mem_list fun t ht _ _ at_ _ heq => absurd heq (hmore t ht at_),
    h, fun t ht _ _ at_ _ heq => absurd heq (hmore t ht at_)⟩

theorem Traced.turn (h : Traced s) (htodo : s.todo = task :: rest)
    (htrace : s'.trace = s.trace) (hnext : s'.nextOpening = s.nextOpening)
    (hlength : s'.sources.length = s.sources.length) (hhears : ∀ at_, s'.hearsAt at_ = s.hearsAt at_)
    (hunclosed : s'.unclosed.Perm s.unclosed) (htodo' : s'.todo = more ++ rest)
    (hmore : ∀ t ∈ more, t.lists = false) : Traced s' := by
  have hbefore := h.order
  rw [htodo, List.pairwise_cons] at hbefore
  refine h.same (htrace ▸ h.told) (by rw [htrace]) (by rw [htrace]) hnext hlength hhears hunclosed
    (fun at_ c hin => ?_) ?_
  · rw [htodo', List.mem_append] at hin
    rw [htrace]
    rcases hin with hin | hin
    · cases hmore _ hin
    · exact h.candidates at_ c (htodo ▸ List.mem_cons_of_mem _ hin)
  · rw [htodo']
    refine order_append hbefore.2 fun t ht at_ heq => ?_
    cases heq ▸ hmore t ht

/-- A task that offers an opening to the registry. -/
def Task.offers : Task → Bool
  | .offer .. => true
  | _ => false

theorem offering_of_not {tasks : List Task} (h : ∀ t ∈ tasks, t.offers = false) : offering tasks = [] := by
  rw [List.eq_nil_iff_forall_not_mem]
  intro o ho
  obtain ⟨t, ht, heq⟩ := List.mem_filterMap.mp ho
  have hnot := h t ht
  cases t with
  | offer => cases hnot
  | _ => cases heq

theorem offering_append (tasks more : List Task) :
    offering (tasks ++ more) = offering tasks ++ offering more :=
  List.filterMap_append

theorem offering_cons (h : task.offers = false) (rest : List Task) :
    offering (task :: rest) = offering rest := by
  rw [← List.singleton_append, offering_append, offering_of_not (List.forall_mem_singleton.mpr h),
    List.nil_append]

theorem unclosed_perm (hoffering : offering s'.todo = offering s.todo) (hkept : s'.kept = s.kept)
    (hliving : s'.living.Perm s.living) : s'.unclosed.Perm s.unclosed := by
  rw [unclosed, unclosed, hoffering, hkept]
  exact (hliving.filterMap _).append_left _

theorem Traced.passes (h : Traced s) (htodo : s.todo = task :: rest)
    (htask : task.offers = false ∧ closing [task] = []) (htrace : s'.trace = s.trace)
    (hnext : s'.nextOpening = s.nextOpening) (hkept : s'.kept = s.kept)
    (hlength : s'.sources.length = s.sources.length) (hhears : ∀ at_, s'.hearsAt at_ = s.hearsAt at_)
    (hliving : (s'.registry.loaded.map (·.lease) ++ (s'.leaving.map Prod.snd ++ closing more)).Perm
      (s.registry.loaded.map (·.lease) ++ s.leaving.map Prod.snd))
    (htodo' : s'.todo = more ++ rest) (hmore : ∀ t ∈ more, t.lists = false ∧ t.offers = false) :
    Traced s' := by
  refine h.turn htodo htrace hnext hlength hhears ?_ htodo' fun t ht => (hmore t ht).1
  refine unclosed_perm ?_ hkept ?_
  · rw [htodo', htodo, offering_append, offering_cons htask.1, offering_of_not fun t ht => (hmore t ht).2,
      List.nil_append]
  · rw [living, living, htodo', htodo, closing_append, closing_cons htask.2]
    have hmoved := hliving.append_right (closing rest)
    simpa only [List.append_assoc] using hmoved

theorem Traced.pops (h : Traced s) (htodo : s.todo = task :: rest)
    (htask : task.offers = false ∧ closing [task] = []) (htrace : s'.trace = s.trace)
    (hnext : s'.nextOpening = s.nextOpening) (hkept : s'.kept = s.kept)
    (hlength : s'.sources.length = s.sources.length) (hhears : ∀ at_, s'.hearsAt at_ = s.hearsAt at_)
    (hloaded : s'.registry.loaded = s.registry.loaded) (hleaving : s'.leaving = s.leaving)
    (htodo' : s'.todo = more ++ rest)
    (hmore : ∀ t ∈ more, t.lists = false ∧ t.offers = false ∧ closing [t] = []) : Traced s' := by
  have hclosing : closing more = [] := by
    rw [List.eq_nil_iff_forall_not_mem]
    intro lease hlease
    obtain ⟨t, ht, heq⟩ := List.mem_filterMap.mp hlease
    have hnot := (hmore t ht).2.2
    cases t with
    | close => cases hnot
    | _ => cases heq
  refine h.passes htodo htask htrace hnext hkept hlength hhears ?_ htodo'
    fun t ht => ⟨(hmore t ht).1, (hmore t ht).2.1⟩
  rw [hloaded, hleaving, hclosing, List.append_nil]

theorem Traced.popped (h : Traced s) (htodo : s.todo = task :: rest)
    (htask : task.offers = false ∧ closing [task] = []) : Traced { s with todo := rest } :=
  h.pops htodo htask rfl rfl rfl rfl (fun _ => rfl) rfl rfl (List.nil_append _).symm nofun

theorem Traced.agreed (h : Traced s) (hs : Reckoned s)
    (htodo : s.todo = task :: rest) (htask : task.OfLeaving key lease) :
    Traced (Leases.agreed { s with todo := rest } key lease) := by
  have hleaving := (hs.leaving htodo htask).1
  have hperm : ((s.leaving.erase (key, lease)).map Prod.snd ++ [lease]).Perm (s.leaving.map Prod.snd) :=
    (List.perm_append_singleton ..).trans ((List.perm_cons_erase hleaving).map Prod.snd).symm
  have hmore : ∀ t ∈ [Task.drop lease, .close lease], t.lists = false ∧ t.offers = false := by
    intro t ht
    rcases List.mem_cons.mp ht with rfl | ht
    · exact ⟨rfl, rfl⟩
    · rw [List.mem_singleton.mp ht]
      exact ⟨rfl, rfl⟩
  have hnot : task.offers = false ∧ closing [task] = [] := by
    rcases htask with rfl | rfl
    · exact ⟨rfl, rfl⟩
    · exact ⟨rfl, rfl⟩
  exact h.passes htodo hnot rfl rfl rfl rfl (fun _ => rfl) (hperm.append_left _) rfl hmore

theorem Traced.settle (h : Traced s) (hs : Reckoned s)
    (htodo : s.todo = .settle key lease :: rest) (answer : Answer) :
    Traced ({ s with todo := rest }.perform answer (.settle key lease)) := by
  have hstays : Traced { s with todo := rest } :=
    h.popped htodo ⟨rfl, rfl⟩
  simp only [perform]
  split
  · exact hstays
  · cases s.kept lease with
    | none => exact hstays
    | some kept =>
      rw [Option.elim_some]
      split
      · refine h.pops htodo ⟨rfl, rfl⟩ rfl rfl rfl rfl (fun _ => rfl) rfl rfl
          (List.singleton_append ..).symm fun t ht => ?_
        rw [List.mem_singleton.mp ht]
        exact ⟨rfl, rfl, rfl⟩
      · split
        · exact h.agreed hs htodo (.inl rfl)
        · exact hstays

theorem living_retire {one : Ranked.Loaded} (hfind : s.registry.loaded.find? (·.key = key) = some one) :
    (s.registry.loaded.map (·.lease)).Perm
      (one.lease :: (s.registry.retire key).2.loaded.map (·.lease)) := by
  rw [Ranked.Registry.retire_found hfind]
  exact (Ranked.Registry.perm_eraseP hfind).map fun l : Ranked.Loaded => l.lease

theorem Traced.retire (h : Traced s) (htodo : s.todo = .retire key :: rest) (answer : Answer) :
    Traced ({ s with todo := rest }.perform answer (.retire key)) := by
  simp only [perform]
  cases hfind : s.registry.loaded.find? (·.key = key) with
  | none =>
    exact h.popped htodo ⟨rfl, rfl⟩
  | some one =>
    have hperm := living_retire hfind
    rw [Option.elim_some]
    split
    · refine h.passes htodo ⟨rfl, rfl⟩ rfl rfl rfl rfl (fun _ => rfl) ?_ (List.nil_append _).symm (by intros; contradiction)
      refine List.Perm.trans ?_ (hperm.symm.append_right _)
      show ((s.registry.retire key).2.loaded.map (fun l : Ranked.Loaded => l.lease) ++
        ((s.leaving ++ [(key, one.lease)]).map Prod.snd ++ [])).Perm _
      rw [List.append_nil, List.map_append, ← List.append_assoc]
      exact List.perm_append_singleton ..
    · next hcloses =>
      -- Only what is linked is let go, which is no source's.
      have hnone : (s.kept one.lease).bind (fun k => k.origin.opening) = none := by
        cases hkept : s.kept one.lease with
        | none => rfl
        | some kept =>
          rw [hkept, Option.elim_some] at hcloses
          cases horigin : kept.origin with
          | linked => simp [horigin, Origin.opening]
          | mapped => simp [horigin, Origin.closes] at hcloses
          | served => simp [horigin, Origin.closes] at hcloses
      have hmore : ∀ t ∈ [Task.drop one.lease], t.lists = false := fun t ht => by
        rw [List.mem_singleton.mp ht]
        rfl
      refine h.turn htodo rfl rfl rfl (fun _ => rfl) ?_ rfl hmore
      · have hliving : s.living.Perm (one.lease :: ((s.registry.retire key).2.loaded.map (·.lease) ++
            (s.leaving.map Prod.snd ++ closing rest))) := by
          rw [living, htodo]
          exact hperm.append_right _
        have hserved := hliving.filterMap fun lease => (s.kept lease).bind fun k => k.origin.opening
        rw [List.filterMap_cons, hnone] at hserved
        rw [unclosed, unclosed, htodo]
        exact (hserved.symm).append_left _

theorem Traced.take (h : Traced s) (hs : Reckoned s)
    (htodo : s.todo = .take key lease :: rest) (answer : Answer) :
    Traced ({ s with todo := rest }.perform answer (.take key lease)) := by
  obtain ⟨rfl, one, rfl, rfl, hfind, -⟩ := hs.asking htodo (.inr (.inr rfl))
  have hperm := living_retire hfind
  simp only [perform, hfind, Option.elim_some]
  have hmore : ∀ t ∈ [Task.drop one.lease, .close one.lease], t.lists = false ∧ t.offers = false := by
    intro t ht
    rcases List.mem_cons.mp ht with rfl | ht
    · exact ⟨rfl, rfl⟩
    · rw [List.mem_singleton.mp ht]
      exact ⟨rfl, rfl⟩
  refine h.passes htodo ⟨rfl, rfl⟩ rfl rfl rfl rfl (fun _ => rfl) ?_ rfl hmore
  refine List.Perm.trans ?_ (hperm.symm.append_right _)
  show ((s.registry.retire one.key).2.loaded.map (fun l : Ranked.Loaded => l.lease) ++
    (s.leaving.map Prod.snd ++ [one.lease])).Perm _
  rw [← List.append_assoc]
  exact List.perm_append_singleton ..

theorem Traced.withdraw (h : Traced s) (htodo : s.todo = task :: rest)
    (htask : task.offers = false ∧ closing [task] = []) {sources : List Source}
    (hlength : sources.length = s.sources.length)
    (hhears : ∀ at', (sources[at']?.map Source.hears).getD false = s.hearsAt at')
    (hsource : sources[at_]? = some source) (id : String) :
    Traced (Leases.withdraw { s with todo := rest, sources } at_ source id) := by
  rw [Leases.withdraw]
  split
  · exact h.pops htodo htask rfl rfl rfl hlength hhears rfl rfl (List.nil_append _).symm (by intros; contradiction)
  · have hsame : ({ source with serving := source.serving.remove id } : Source).hears = source.hears := rfl
    have hhears' : ∀ at', ((sources.set at_ { source with serving := source.serving.remove id })[at']?.map
        Source.hears).getD false = s.hearsAt at' :=
      fun at' => (hearsAt_set hsource hsame at').trans (hhears at')
    have hlength' : (sources.set at_ { source with serving := source.serving.remove id }).length =
        s.sources.length := List.length_set.trans hlength
    simp only
    split
    · exact h.pops htodo htask rfl rfl rfl hlength' hhears' rfl rfl (List.nil_append _).symm (by intros; contradiction)
    · refine h.pops htodo htask rfl rfl rfl hlength' hhears' rfl rfl rfl fun t ht => ?_
      rcases List.mem_cons.mp ht with rfl | ht
      · exact ⟨rfl, rfl, rfl⟩
      · rw [List.mem_singleton.mp ht]
        exact ⟨rfl, rfl, rfl⟩

def SourceEvent.isListed : SourceEvent → Bool
  | .listed .. => true
  | _ => false

theorem latest_append_of_not {trace : List SourceEvent} {event : SourceEvent}
    (h : event.isListed = false) : latest at_ (trace ++ [event]) = latest at_ trace := by
  rw [latest, List.filterMap_append]
  cases event with
  | listed other candidates => cases h
  | _ => exact congrArg List.getLast? (List.append_nil _)

theorem Traced.of_refused (h : Traced s) (at_ : ℕ) (id stamp : String) :
    Traced (s.tell (.refused at_ id stamp)) := by
  refine h.same (h.told.refused at_ id stamp) ((opens_append ..).trans (List.append_nil _))
    ((closes_append ..).trans (List.append_nil _)) rfl rfl (fun _ => rfl) .rfl (fun at' c hin => ?_) h.order
  obtain ⟨listed, hlatest, hfind⟩ := h.candidates at' c hin
  exact ⟨listed, (latest_append_of_not rfl).trans hlatest, hfind⟩

/-- A source is told that an opening is closed that was open until now; it is not, where it has no
`close`. -/
theorem Traced.heard (h : Traced s) {o : Opening} (htrace : s'.trace = s.trace)
    (hnext : s'.nextOpening = s.nextOpening) (hlength : s'.sources.length = s.sources.length)
    (hhears : ∀ at_, s'.hearsAt at_ = s.hearsAt at_)
    (hunclosed : s.unclosed.Perm (o :: s'.unclosed))
    (hcandidates : ∀ (at_ : ℕ) (c : Candidate), .candidate at_ c ∈ s'.todo → .candidate at_ c ∈ s.todo)
    (horder : s'.todo.Pairwise fun task later => ∀ (at_ : ℕ) (c : Candidate),
      task = .refreshSource at_ → later ≠ .candidate at_ c) (parts : Bool) (holds : ℕ) :
    Traced (s'.hear o.at_ o.number o.id o.stamp parts holds) := by
  have hopened : o ∈ opens s.trace := h.known o (hunclosed.mem_iff.mpr (List.mem_cons_self ..))
  have hknown : ∀ p ∈ s'.unclosed, p ∈ opens s.trace :=
    fun p hp => h.known p (hunclosed.mem_iff.mpr (List.mem_cons_of_mem _ hp))
  have hperm : (closes s.trace ++ s.unclosed).Perm (o :: (closes s.trace ++ s'.unclosed)) :=
    (hunclosed.append_left _).trans List.perm_middle
  have honce := h.once
  rw [(hperm.map Opening.number).nodup_iff, List.map_cons, List.nodup_cons] at honce
  have hlisted : ∀ (at_ : ℕ) (c : Candidate), .candidate at_ c ∈ s'.todo →
      ∃ listed, latest at_ s.trace = some listed ∧ listed.find? (·.id = c.id) = some c :=
    fun at_ c hin => h.candidates at_ c (hcandidates at_ c hin)
  rw [hear]
  split
  · exact {
      told := by
        show Told (s'.trace ++ [_])
        rw [htrace]
        refine h.told.closed hopened (fun hin => honce.1 ?_) parts holds
        rw [List.map_append]
        exact List.mem_append_left _ hin
      below := by
        show ∀ p ∈ opens (s'.trace ++ [_]), p.number < s'.nextOpening
        rw [opens_append, htrace, hnext]
        simpa [opens] using h.below
      sources := by
        show ∀ p ∈ opens (s'.trace ++ [_]), p.at_ < s'.sources.length
        rw [opens_append, htrace, hlength]
        simpa [opens] using h.sources
      known := fun p hp => by
        show p ∈ opens (s'.trace ++ [_])
        rw [opens_append, htrace]
        exact List.mem_append_left _ (hknown p hp)
      once := by
        show ((closes (s'.trace ++ [_]) ++ s'.unclosed).map Opening.number).Nodup
        rw [htrace, closes_append, List.append_assoc]
        have hmoved : (closes s.trace ++ (closes [.closed o.at_ o.number o.id o.stamp parts holds] ++
            s'.unclosed)).Perm (o :: (closes s.trace ++ s'.unclosed)) := List.perm_middle
        rw [(hmoved.map Opening.number).nodup_iff, List.map_cons, List.nodup_cons]
        exact honce
      all := fun p hp hhear => by
        have hp' : p ∈ opens s.trace := by
          have hin : p ∈ opens (s'.trace ++ [.closed o.at_ o.number o.id o.stamp parts holds]) := hp
          rw [opens_append, htrace] at hin
          simpa [opens] using hin
        have hin := hperm.mem_iff.mp (h.all p hp' ((hhears p.at_).symm.trans hhear))
        show p ∈ closes (s'.trace ++ [_]) ++ s'.unclosed
        rw [htrace, closes_append, List.append_assoc]
        rcases List.mem_cons.mp hin with rfl | hin
        · exact List.mem_append_right _ (List.mem_append_left _ (List.mem_singleton_self _))
        · rcases List.mem_append.mp hin with hin | hin
          · exact List.mem_append_left _ hin
          · exact List.mem_append_right _ (List.mem_append_right _ hin)
      candidates := fun at_ c hin => by
        obtain ⟨listed, hlatest, hfind⟩ := hlisted at_ c hin
        refine ⟨listed, ?_, hfind⟩
        show latest at_ (s'.trace ++ [_]) = _
        rw [latest_append_of_not rfl, htrace]
        exact hlatest
      order := horder }
  · next hdeaf =>
    exact {
      told := htrace ▸ h.told
      below := by
        rw [htrace, hnext]
        exact h.below
      sources := by
        rw [htrace, hlength]
        exact h.sources
      known := by
        rw [htrace]
        exact hknown
      once := by
        rw [htrace]
        exact honce.2
      all := fun p hp hhear => by
        rw [htrace] at hp ⊢
        have hin := hperm.mem_iff.mp (h.all p hp ((hhears p.at_).symm.trans hhear))
        rcases List.mem_cons.mp hin with rfl | hin
        · exact absurd hhear hdeaf
        · exact hin
      candidates := by
        rw [htrace]
        exact hlisted
      order := horder }

theorem Traced.close (h : Traced s) (htodo : s.todo = .close lease :: rest)
    (answer : Answer) : Traced ({ s with todo := rest }.perform answer (.close lease)) := by
  have hliving : s.living.Perm (lease :: (s.registry.loaded.map (·.lease) ++
      (s.leaving.map Prod.snd ++ closing rest))) := by
    rw [living, htodo, ← List.append_assoc]
    refine List.perm_middle.trans ?_
    rw [List.append_assoc]
    exact .rfl
  have hbefore := h.order
  rw [htodo, List.pairwise_cons] at hbefore
  have hcandidates : ∀ (at_ : ℕ) (c : Candidate), .candidate at_ c ∈ rest → .candidate at_ c ∈ s.todo :=
    fun at_ c hin => htodo ▸ List.mem_cons_of_mem _ hin
  have hunclosed : ∀ t : Leases, t.todo = rest → t.kept = s.kept → t.registry.loaded = s.registry.loaded →
      t.leaving = s.leaving → s.unclosed.Perm (((s.kept lease).bind fun k => k.origin.opening).toList ++
        t.unclosed) := by
    intro t hrest hkept hloaded hleaving
    have hserved := hliving.filterMap fun lease => (s.kept lease).bind fun k => k.origin.opening
    have hthere : t.living = s.registry.loaded.map (·.lease) ++ (s.leaving.map Prod.snd ++ closing rest) := by
      rw [living, hrest, hloaded, hleaving]
    rw [unclosed, unclosed, hrest, hkept, hthere, htodo]
    refine (hserved.append_left _).trans ?_
    rw [List.filterMap_cons]
    cases (s.kept lease).bind fun k => k.origin.opening with
    | none => exact .rfl
    | some o => exact List.perm_middle
  simp only [perform]
  split
  · next at_ opening id stamp slot parts hkept =>
    have hperm := hunclosed { s with todo := rest, closed := s.closed ++ [lease] } rfl rfl rfl rfl
    rw [hkept] at hperm
    exact @Traced.heard s { s with todo := rest, closed := s.closed ++ [lease] } h
      ⟨at_, opening, id, stamp⟩ rfl rfl rfl (fun _ => rfl) hperm hcandidates hbefore.2 _ _
  · next hnot =>
    have hnone : (s.kept lease).bind (fun k => k.origin.opening) = none := by
      cases hkept : s.kept lease with
      | none => rfl
      | some kept =>
        obtain ⟨origin, slot, parts⟩ := kept
        cases origin with
        | served at_ opening id stamp => exact absurd hkept (hnot at_ opening id stamp slot parts)
        | _ => rfl
    refine h.turn htodo rfl rfl rfl (fun _ => rfl) ?_ (List.nil_append _).symm (by intros; contradiction)
    have hperm := hunclosed { s with todo := rest, closed := s.closed ++ [lease] } rfl rfl rfl rfl
    rw [hnone] at hperm
    exact hperm.symm

theorem Traced.opened (h : Traced s)
    (htodo : s.todo = .candidate at_ c :: rest) (hlt : at_ < s.sources.length)
    (htrace : s'.trace = s.trace ++ [.opened at_ s.nextOpening c.id c.stamp])
    (hnext : s'.nextOpening = s.nextOpening + 1) (hkept : s'.kept = s.kept)
    (hlength : s'.sources.length = s.sources.length) (hhears : ∀ at', s'.hearsAt at' = s.hearsAt at')
    (hloaded : s'.registry.loaded = s.registry.loaded) (hleaving : s'.leaving = s.leaving)
    (htodo' : s'.todo = more ++ rest) (hoffering : offering more = [⟨at_, s.nextOpening, c.id, c.stamp⟩])
    (hmore : ∀ t ∈ more, t.lists = false) (hclosing : closing more = []) : Traced s' := by
  have hunclosed : s'.unclosed = ⟨at_, s.nextOpening, c.id, c.stamp⟩ :: s.unclosed := by
    rw [unclosed, unclosed, living, living, htodo', htodo, offering_append, closing_append, hoffering,
      hclosing, hkept, hloaded, hleaving]
    rfl
  have hopens : opens s'.trace = opens s.trace ++ [⟨at_, s.nextOpening, c.id, c.stamp⟩] := by
    rw [htrace, opens_append]
    rfl
  have hcloses : closes s'.trace = closes s.trace := by
    rw [htrace, closes_append]
    exact List.append_nil _
  obtain ⟨listed, hlatest, hfirst⟩ := h.candidates at_ c (htodo ▸ List.mem_cons_self ..)
  have hperm : (closes s.trace ++ s'.unclosed).Perm
      (⟨at_, s.nextOpening, c.id, c.stamp⟩ :: (closes s.trace ++ s.unclosed)) := by
    rw [hunclosed]
    exact List.perm_middle
  have hfresh : s.nextOpening ∉ (closes s.trace ++ s.unclosed).map Opening.number := by
    intro hin
    obtain ⟨o, ho, heq⟩ := List.mem_map.mp hin
    have hopened : o ∈ opens s.trace := by
      rcases List.mem_append.mp ho with ho | ho
      · exact h.told.closes_opens ho
      · exact h.known o ho
    have hlt := h.below o hopened
    omega
  have hbefore := h.order
  rw [htodo, List.pairwise_cons] at hbefore
  exact {
    told := by
      rw [htrace]
      exact h.told.opened hlatest hfirst h.below
    below := fun o ho => by
      rw [hopens, List.mem_append] at ho
      rw [hnext]
      rcases ho with ho | ho
      · exact Nat.lt_succ_of_lt (h.below o ho)
      · rw [List.mem_singleton.mp ho]
        exact Nat.lt_succ_self _
    sources := fun o ho => by
      rw [hopens, List.mem_append] at ho
      rw [hlength]
      rcases ho with ho | ho
      · exact h.sources o ho
      · rw [List.mem_singleton.mp ho]
        exact hlt
    known := fun o ho => by
      rw [hunclosed, List.mem_cons] at ho
      rw [hopens, List.mem_append]
      rcases ho with rfl | ho
      · exact .inr (List.mem_singleton_self _)
      · exact .inl (h.known o ho)
    once := by
      rw [hcloses, (hperm.map Opening.number).nodup_iff, List.map_cons, List.nodup_cons]
      exact ⟨hfresh, h.once⟩
    all := fun o ho hhear => by
      rw [hcloses, hperm.mem_iff, List.mem_cons]
      rw [hopens, List.mem_append] at ho
      rcases ho with ho | ho
      · exact .inr (h.all o ho ((hhears o.at_).symm.trans hhear))
      · exact .inl (List.mem_singleton.mp ho)
    candidates := fun at' c' hin => by
      rw [htodo', List.mem_append] at hin
      rw [htrace, latest_append_of_not rfl]
      rcases hin with hin | hin
      · cases hmore _ hin
      · exact h.candidates at' c' (htodo ▸ List.mem_cons_of_mem _ hin)
    order := by
      rw [htodo']
      refine order_append hbefore.2 fun t ht at_ heq => ?_
      cases heq ▸ hmore t ht }

theorem Traced.notKept (h : Traced s) {other : Source}
    (htodo : s.todo = .candidate at_ c :: rest) (hsource : s.sources[at_]? = some source)
    (hother : other.hears = source.hears) (parts : Bool) (holds : ℕ) :
    Traced (Leases.hear { s with
      todo := rest
      sources := s.sources.set at_ other
      trace := s.trace ++ [.opened at_ s.nextOpening c.id c.stamp]
      nextOpening := s.nextOpening + 1 } at_ s.nextOpening c.id c.stamp parts holds) := by
  have hlt := (List.getElem?_eq_some_iff.mp hsource).1
  have hhears := hearsAt_set hsource hother
  have hbefore := h.order
  rw [htodo, List.pairwise_cons] at hbefore
  have hmore : ∀ t ∈ [Task.offer at_ c s.nextOpening ⟨"", "", []⟩ false false], t.lists = false := by
    intro t ht
    rw [List.mem_singleton.mp ht]
    rfl
  -- As if it were about to be offered.
  have hopened : Traced { s with
      todo := [Task.offer at_ c s.nextOpening ⟨"", "", []⟩ false false] ++ rest
      sources := s.sources.set at_ other
      trace := s.trace ++ [.opened at_ s.nextOpening c.id c.stamp]
      nextOpening := s.nextOpening + 1 } :=
    h.opened htodo hlt rfl rfl rfl List.length_set hhears rfl rfl rfl rfl hmore rfl
  exact @Traced.heard _ { s with
      todo := rest
      sources := s.sources.set at_ other
      trace := s.trace ++ [.opened at_ s.nextOpening c.id c.stamp]
      nextOpening := s.nextOpening + 1 } hopened ⟨at_, s.nextOpening, c.id, c.stamp⟩ rfl rfl rfl
    (fun _ => rfl) .rfl (fun _ _ hin => List.mem_cons_of_mem _ hin) hbefore.2 parts holds

theorem Traced.candidate (h : Traced s)
    (htodo : s.todo = .candidate at_ c :: rest) (hsource : s.sources[at_]? = some source) (offer : Offer) :
    Traced (Leases.candidate { s with todo := rest } at_ source c offer) := by
  have hlt := (List.getElem?_eq_some_iff.mp hsource).1
  have hsame : ({ source with tried := source.tried.insert c.id c.stamp } : Source).hears = source.hears :=
    rfl
  have hhears := hearsAt_set hsource hsame
  have hset : Traced { s with
      todo := rest
      sources := s.sources.set at_ { source with tried := source.tried.insert c.id c.stamp } } :=
    h.pops htodo ⟨rfl, rfl⟩ rfl rfl rfl List.length_set hhears rfl rfl (List.nil_append _).symm nofun
  rw [Leases.candidate]
  split
  · exact h.popped htodo ⟨rfl, rfl⟩
  · cases offer with
    | refused => exact hset.of_refused at_ c.id c.stamp
    | declined => exact hset
    | rejected => exact h.notKept htodo hsource hsame false 0
    | loaded library slot parts =>
      simp only
      split
      · exact h.notKept htodo hsource hsame parts 0
      · refine h.opened htodo hlt rfl rfl rfl List.length_set hhears rfl rfl rfl rfl (fun t ht => ?_) rfl
        rcases List.mem_cons.mp ht with rfl | ht
        · rfl
        · rw [List.mem_singleton.mp ht]
          rfl

theorem living_below (hs : Reckoned s) : ∀ lease ∈ s.living, lease < s.registry.nextLease := by
  intro lease hlease
  rcases List.mem_append.mp hlease with hlease | hlease
  · refine hs.below lease ?_
    simp only [holders, Leases.records, List.mem_append]
    exact .inl (.inl hlease)
  · rcases List.mem_append.mp hlease with hlease | hlease
    · refine hs.below lease ?_
      simp only [holders, Leases.records, List.mem_append]
      exact .inl (.inr (.inl hlease))
    · exact (hs.ended lease (List.mem_append_left _ hlease)).2.2.2

theorem served_absorbed (hs : Reckoned s) {path canonical : Path} {source : String}
    {opened : Ranked.Opened} {one : Ranked.Loaded} {registry : Ranked.Registry}
    (hloaded : s.registry.absorb path source canonical opened = (.loaded one, registry)) (kept : Kept)
    (todo : List Task) (hclosing : closing todo = closing s.todo) :
    (served (Function.update s.kept one.lease (some kept)) (registry.loaded.map (·.lease) ++
      (s.leaving.map Prod.snd ++ closing todo))).Perm
        (kept.origin.opening.toList ++ served s.kept s.living) := by
  have hbyKey : s.registry.byKey = index (fun p : Ranked.Provider => p.key) s.registry.providers :=
    hs.sound.byKey
  obtain ⟨hlease, -, -, more, -, -, hregistry⟩ := Ranked.Registry.absorb_loaded hbyKey hloaded
  have hperm : (registry.loaded.map (·.lease) ++ (s.leaving.map Prod.snd ++ closing todo)).Perm
      (one.lease :: s.living) := by
    rw [hregistry, hclosing]
    show ((s.registry.loaded ++ [one]).map (·.lease) ++ _).Perm _
    rw [List.map_append, List.append_assoc]
    exact List.perm_middle
  refine (hperm.filterMap _).trans ?_
  have hothers : served (Function.update s.kept one.lease (some kept)) s.living = served s.kept s.living := by
    refine served_congr fun lease hin => Function.update_of_ne ?_ _ _
    have hbelow := living_below hs lease hin
    omega
  rw [List.filterMap_cons, Function.update_self, Option.bind_some]
  cases kept.origin.opening with
  | none => exact .of_eq hothers
  | some o => exact (List.Perm.of_eq hothers).cons o

theorem Traced.absorb (h : Traced s) (hs : Reckoned s)
    (htodo : s.todo = task :: rest) (htask : task.offers = false ∧ closing [task] = []) (path canonical : Path)
    (source : String) (opened : Ranked.Opened) {kept : Kept} (hkept : kept.origin.opening = none) :
    Traced ({ s with todo := rest }.absorb path source canonical opened kept).2 := by
  have hclosing : closing rest = closing s.todo := by
    rw [htodo, closing_cons htask.2]
  have hoffering : offering rest = offering s.todo := by
    rw [htodo, offering_cons htask.1]
  rw [Leases.absorb]
  split
  · next one registry hloaded =>
    have hserved := served_absorbed hs hloaded kept rest hclosing
    rw [hkept] at hserved
    refine h.turn htodo rfl rfl rfl (fun _ => rfl) ?_ (List.nil_append _).symm (by intros; contradiction)
    rw [unclosed, unclosed, ← hoffering]
    exact hserved.append_left _
  · exact h.popped htodo htask

theorem Traced.offered (h : Traced s) (hs : Reckoned s) {opening : ℕ}
    {library : Ranked.LibraryView} {slot parts : Bool}
    (htodo : s.todo = .offer at_ c opening library slot parts :: rest)
    (hsource : s.sources[at_]? = some source) (canonical : Path) :
    Traced (Leases.offered { s with todo := rest } at_ source c opening library slot parts canonical) := by
  have hclosing : closing rest = closing s.todo := by
    rw [htodo]
    rfl
  have hoffering : offering s.todo = ⟨at_, opening, c.id, c.stamp⟩ :: offering rest := by
    rw [htodo]
    rfl
  have hbefore := h.order
  rw [htodo, List.pairwise_cons] at hbefore
  rw [Leases.offered, Leases.absorb]
  split
  · next one t heq =>
    split at heq
    · next loaded registry hloaded =>
      cases heq
      have hserved := served_absorbed hs hloaded ⟨.served at_ opening c.id c.stamp, slot, parts⟩ rest hclosing
      have hsame : ({ source with serving := source.serving.insert c.id c.stamp } : Source).hears =
          source.hears := rfl
      refine h.turn htodo rfl rfl List.length_set (hearsAt_set hsource hsame) ?_
        (List.nil_append _).symm (by intros; contradiction)
      rw [unclosed, unclosed, hoffering]
      exact (hserved.append_left _).trans List.perm_middle
    · next hnot _ =>
      cases heq
      exact (hnot one rfl).elim
  · next loading t hnot heq =>
    split at heq
    · cases heq
      exact absurd rfl (hnot _)
    · cases heq
      refine @Traced.heard s { s with todo := rest } h ⟨at_, opening, c.id, c.stamp⟩ rfl rfl rfl
        (fun _ => rfl) ?_ (fun at' c' hin => htodo ▸ List.mem_cons_of_mem _ hin) hbefore.2 parts 0
      rw [unclosed, unclosed, living, living, hoffering, ← hclosing]
      exact .rfl

theorem firsts_find {candidates : List Candidate} {seen : List String} (h : c ∈ firsts candidates seen) :
    c.id ∉ seen ∧ candidates.find? (·.id = c.id) = some c := by
  induction candidates generalizing seen with
  | nil => cases h
  | cons d rest ih =>
    simp only [firsts] at h
    split at h
    · next hseen =>
      obtain ⟨hnot, hfind⟩ := ih h
      refine ⟨hnot, ?_⟩
      rw [List.find?_cons_of_neg, hfind]
      rw [decide_eq_true_eq]
      intro heq
      exact hnot (heq ▸ hseen)
    · next hnew =>
      rcases List.mem_cons.mp h with rfl | h
      · exact ⟨hnew, by simp⟩
      · obtain ⟨hnot, hfind⟩ := ih h
        rw [List.mem_cons, not_or] at hnot
        refine ⟨hnot.2, ?_⟩
        rw [List.find?_cons_of_neg, hfind]
        rw [decide_eq_true_eq]
        exact fun heq => hnot.1 heq.symm

theorem latest_listed (at_ : ℕ) (trace : List SourceEvent) (candidates : List Candidate) :
    latest at_ (trace ++ [.listed at_ candidates]) = some candidates := by
  rw [latest, List.filterMap_append]
  simp

theorem latest_listed_other {other : ℕ} (h : other ≠ at_) (trace : List SourceEvent)
    (candidates : List Candidate) :
    latest at_ (trace ++ [.listed other candidates]) = latest at_ trace := by
  rw [latest, List.filterMap_append, latest]
  simp [h]

/-- A source lists what it can open. -/
theorem Traced.refreshSource (h : Traced s)
    (htodo : s.todo = .refreshSource at_ :: rest) (answer : Answer) :
    Traced ({ s with todo := rest }.perform answer (.refreshSource at_)) := by
  simp only [perform]
  split
  · next source listed hsource hlist =>
    have hbefore := h.order
    rw [htodo, List.pairwise_cons] at hbefore
    have hmore : ∀ t ∈ ((source.tried.keys.filter (· ∉ listed.map Candidate.id)).map (Task.gone at_)) ++
        (firsts listed []).map (Task.candidate at_), (∃ id, t = .gone at_ id) ∨
          ∃ c ∈ firsts listed [], t = .candidate at_ c := by
      intro t ht
      rcases List.mem_append.mp ht with ht | ht
      · obtain ⟨id, -, rfl⟩ := List.mem_map.mp ht
        exact .inl ⟨id, rfl⟩
      · obtain ⟨c, hc, rfl⟩ := List.mem_map.mp ht
        exact .inr ⟨c, hc, rfl⟩
    generalize ((source.tried.keys.filter (· ∉ listed.map Candidate.id)).map (Task.gone at_)) ++
      (firsts listed []).map (Task.candidate at_) = more at hmore
    have hunclosed : Leases.unclosed { s with
        todo := more ++ rest, trace := s.trace ++ [.listed at_ listed] } = s.unclosed := by
      have hoffering : offering more = [] := offering_of_not fun t ht => by
        rcases hmore t ht with ⟨id, rfl⟩ | ⟨c, -, rfl⟩
        · rfl
        · rfl
      have hclosing : closing more = [] := by
        rw [List.eq_nil_iff_forall_not_mem]
        intro lease hlease
        obtain ⟨t, ht, heq⟩ := List.mem_filterMap.mp hlease
        rcases hmore t ht with ⟨id, rfl⟩ | ⟨c, -, rfl⟩
        · cases heq
        · cases heq
      rw [unclosed, unclosed, living, living, htodo, offering_append, closing_append, hoffering, hclosing]
      rfl
    refine h.same (h.told.listed at_ listed) ((opens_append ..).trans (List.append_nil _))
      ((closes_append ..).trans (List.append_nil _)) rfl rfl (fun _ => rfl) (.of_eq hunclosed)
      (fun at' c hin => ?_) (order_append hbefore.2 fun t ht at' heq => ?_)
    · show ∃ l, latest at' (s.trace ++ [_]) = some l ∧ _
      rcases List.mem_append.mp hin with hin | hin
      · rcases hmore _ hin with ⟨id, heq⟩ | ⟨d, hd, heq⟩
        · cases heq
        · cases heq
          exact ⟨listed, latest_listed .., (firsts_find hd).2⟩
      · have hother : at_ ≠ at' := by
          rintro rfl
          exact hbefore.1 _ hin at_ c rfl rfl
        rw [latest_listed_other hother]
        exact h.candidates at' c (htodo ▸ List.mem_cons_of_mem _ hin)
    · rcases hmore t ht with ⟨id, rfl⟩ | ⟨d, -, rfl⟩
      · cases heq
      · cases heq
  · exact h.popped htodo ⟨rfl, rfl⟩

/-- What one task comes to keeps the history in order. -/
theorem Traced.perform (h : Traced s) (hs : Reckoned s) (htodo : s.todo = task :: rest) (answer : Answer) :
    Traced ({ s with todo := rest }.perform answer task) := by
  have hpop : task.offers = false ∧ closing [task] = [] → Traced { s with todo := rest } := h.popped htodo
  have hone : ∀ next : Task, next.lists = false → next.offers = false → closing [next] = [] →
      ∀ t ∈ [next], t.lists = false ∧ t.offers = false ∧ closing [t] = [] := by
    intro next hlists hoffers hclosing t ht
    rw [List.mem_singleton.mp ht]
    exact ⟨hlists, hoffers, hclosing⟩
  cases task with
  | collect =>
    refine h.pops htodo ⟨rfl, rfl⟩ rfl rfl rfl rfl (fun _ => rfl) rfl rfl rfl fun t ht => ?_
    obtain ⟨e, -, rfl⟩ := List.mem_map.mp ht
    exact ⟨rfl, rfl, rfl⟩
  | settle key lease => exact h.settle hs htodo answer
  | askLeaving key lease =>
    simp only [Leases.perform]
    split
    · exact h.agreed hs htodo (.inr rfl)
    · exact hpop ⟨rfl, rfl⟩
  | drop lease =>
    exact (h.popped htodo ⟨rfl, rfl⟩).congr rfl rfl rfl .rfl rfl
  | close lease => exact h.close htodo answer
  | retire key => exact h.retire htodo answer
  | unload key =>
    simp only [Leases.perform]
    split
    · exact (hpop ⟨rfl, rfl⟩).congr rfl rfl rfl .rfl rfl
    · split
      · exact h.pops htodo ⟨rfl, rfl⟩ rfl rfl rfl rfl (fun _ => rfl) rfl rfl
          (List.singleton_append ..).symm (hone _ rfl rfl rfl)
      · exact (hpop ⟨rfl, rfl⟩).congr rfl rfl rfl .rfl rfl
  | holds key lease =>
    have hgoes : ∀ next : Task, next.lists = false → next.offers = false → closing [next] = [] →
        Traced ({ s with todo := rest }.push [next]) := fun next hlists hoffers hclosing =>
      h.pops htodo ⟨rfl, rfl⟩ rfl rfl rfl rfl (fun _ => rfl) rfl rfl (List.singleton_append ..).symm
        (hone _ hlists hoffers hclosing)
    simp only [Leases.perform]
    split
    · exact hgoes _ rfl rfl rfl
    · split
      · exact hgoes _ rfl rfl rfl
      · split
        · exact hgoes _ rfl rfl rfl
        · exact hgoes _ rfl rfl rfl
  | ask key lease =>
    simp only [Leases.perform]
    split
    · exact h.pops htodo ⟨rfl, rfl⟩ rfl rfl rfl rfl (fun _ => rfl) rfl rfl
        (List.singleton_append ..).symm (hone _ rfl rfl rfl)
    · exact h.pops htodo ⟨rfl, rfl⟩ rfl rfl rfl rfl (fun _ => rfl) rfl rfl
        (List.singleton_append ..).symm (hone _ rfl rfl rfl)
  | refuse why =>
    exact (h.popped htodo ⟨rfl, rfl⟩).congr rfl rfl rfl .rfl rfl
  | take key lease => exact h.take hs htodo answer
  | load path source =>
    simp only [Leases.perform]
    split
    · exact hpop ⟨rfl, rfl⟩
    · exact hpop ⟨rfl, rfl⟩
    · exact h.absorb hs htodo ⟨rfl, rfl⟩ _ _ _ _ rfl
  | registerLocal name =>
    simp only [Leases.perform]
    split
    · exact hpop ⟨rfl, rfl⟩
    · exact hpop ⟨rfl, rfl⟩
    · exact h.absorb hs htodo ⟨rfl, rfl⟩ _ _ _ _ rfl
  | refreshSource at_ => exact h.refreshSource htodo answer
  | gone at_ id =>
    simp only [Leases.perform]
    cases hsource : s.sources[at_]? with
    | none => exact hpop ⟨rfl, rfl⟩
    | some source =>
      have hsame : ({ source with tried := source.tried.remove id } : Source).hears = source.hears := rfl
      have hlt := (List.getElem?_eq_some_iff.mp hsource).1
      exact h.withdraw htodo ⟨rfl, rfl⟩ List.length_set (hearsAt_set hsource hsame)
        (List.getElem?_set_self hlt) id
  | candidate at_ c =>
    simp only [Leases.perform]
    cases hsource : s.sources[at_]? with
    | none => exact hpop ⟨rfl, rfl⟩
    | some source => exact h.candidate htodo hsource answer.open
  | withdraw at_ id =>
    simp only [Leases.perform]
    cases hsource : s.sources[at_]? with
    | none => exact hpop ⟨rfl, rfl⟩
    | some source => exact h.withdraw htodo ⟨rfl, rfl⟩ rfl (fun _ => rfl) hsource id
  | offer at_ c opening library slot parts =>
    simp only [Leases.perform]
    cases hsource : s.sources[at_]? with
    | none =>
      have hlt := h.sources _ (h.known ⟨at_, opening, c.id, c.stamp⟩ (List.mem_append_left _
        (List.mem_filterMap.mpr ⟨_, htodo ▸ List.mem_cons_self .., rfl⟩)))
      rw [List.getElem?_eq_none_iff] at hsource
      exact absurd hlt (Nat.not_lt.mpr hsource)
    | some source => exact h.offered hs htodo hsource answer.canonical

theorem Traced.call (h : Traced s) (htodo : s.todo = []) (call : Call) :
    Traced { s with todo := s.tasks call, called := s.registry, answer := none } := by
  have hall : ∀ t ∈ s.tasks call, t.offers = false ∧ closing [t] = [] ∧
      ∀ (at_ : ℕ) (c : Candidate), t ≠ .candidate at_ c := by
    intro t ht
    cases call with
    | collect =>
      rw [List.mem_singleton.mp ht]
      exact ⟨rfl, rfl, nofun⟩
    | refresh =>
      rcases List.mem_cons.mp ht with rfl | ht
      · exact ⟨rfl, rfl, nofun⟩
      · obtain ⟨at_, -, rfl⟩ := List.mem_map.mp ht
        exact ⟨rfl, rfl, nofun⟩
    | _ =>
      rcases List.mem_cons.mp ht with rfl | ht
      · exact ⟨rfl, rfl, nofun⟩
      · rw [List.mem_singleton.mp ht]
        exact ⟨rfl, rfl, nofun⟩
  have hoffering : offering (s.tasks call) = offering s.todo := by
    rw [offering_of_not fun t ht => (hall t ht).1, htodo]
    rfl
  have hnil : closing (s.tasks call) = [] := by
    rw [List.eq_nil_iff_forall_not_mem]
    intro lease hlease
    obtain ⟨t, ht, heq⟩ := List.mem_filterMap.mp hlease
    have hnot := (hall t ht).2.1
    cases t with
    | close => cases hnot
    | _ => cases heq
  have hclosing : closing (s.tasks call) = closing s.todo := by
    rw [hnil, htodo]
    rfl
  have hunclosed : Leases.unclosed { s with
      todo := s.tasks call, called := s.registry, answer := none } = s.unclosed := by
    rw [unclosed, unclosed, living, living, hoffering, hclosing]
  exact h.same h.told rfl rfl rfl rfl (fun _ => rfl) (.of_eq hunclosed)
    (fun at_ c hin => absurd rfl ((hall _ hin).2.2 at_ c))
    (List.pairwise_of_forall_mem_list fun _ _ t' ht' at_ c _ => (hall t' ht').2.2 at_ c)

theorem Traced.addSource (h : Traced s) (source : Source) :
    Traced { s with sources := s.sources ++ [source] } where
  told := h.told
  below := h.below
  sources := fun o ho => by
    rw [List.length_append]
    exact Nat.lt_add_right _ (h.sources o ho)
  known := h.known
  once := h.once
  all := fun o ho hhear => by
    refine h.all o ho ?_
    have hsame : (s.sources ++ [source])[o.at_]? = s.sources[o.at_]? :=
      List.getElem?_append_left (h.sources o ho)
    rw [hearsAt, hsame] at hhear
    exact hhear
  candidates := h.candidates
  order := h.order

theorem Traced.holdAll (h : Traced s) (leases : List ℕ) : Traced (leases.foldl Leases.hold s) := by
  induction leases generalizing s with
  | nil => exact h
  | cons lease leases ih => exact ih (h.congr rfl rfl rfl .rfl rfl)

theorem traced_step : Lib.Kept step fun s => Reckoned s ∧ Traced s := by
  refine reckoned_step.and fun s act s' hs h hstep => ?_
  cases step_comes hstep with
  | call call _ htodo => exact h.call htodo call
  | addSource source => exact h.addSource source
  | perform answer task rest _ htodo => exact h.perform hs htodo answer
  | hold leases => exact h.holdAll leases
  | letGo lease => exact h.congr rfl rfl rfl .rfl rfl

end Guatiao.Library.Leases
