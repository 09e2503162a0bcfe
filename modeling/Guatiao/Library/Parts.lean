import Guatiao.Library.Heard

/-!
# When a library is closed, and its source hears of it

What is closed is out of reach, for good, and an unload that is refused leaves the registry as it
was. A source is told that a library is closed once nothing holds it. Its parts are gone by then, but
for a library that was opened well and then not kept: it calls itself by another id, or has a key
that is taken.
-/

namespace Guatiao.Library

open Lib

namespace Ranked.Registry

variable {r : Registry}

/-- Whether a library would be taken in: no library has its key, and no provider's key is another
id's. -/
def Admits (r : Registry) (source : String) (library : LibraryView) : Prop :=
  (∀ l ∈ r.loaded, l.key ≠ r.libraryKey.render (.ofLibrary library.id library.version source)) ∧
    (∀ view ∈ library.providers, ∀ p ∈ r.provider (r.keyOf source library view), p.id = view.id) ∧
    library.providers.Pairwise fun a b =>
      r.keyOf source library a = r.keyOf source library b → a.id = b.id

instance (r : Registry) (source : String) (library : LibraryView) : Decidable (r.Admits source library) :=
  inferInstanceAs (Decidable (_ ∧ _ ∧ _))

theorem holder_append {path : Path} {taken : List (ProviderView × String)} {view : ProviderView}
    {key other : String} : r.holder path (taken ++ [(view, key)]) other =
      (r.holder path taken other).or (if key = other then some (view.id, path) else none) := by
  rw [holder, holder]
  cases r.provider other with
  | some p => rfl
  | none =>
    rw [List.find?_append]
    cases hfind : taken.find? (·.2 = other) with
    | some t => rfl
    | none =>
      by_cases heq : key = other
      · simp [heq]
      · simp [heq]

/-- The loop over a library's providers ends well where no key is another id's. -/
theorem take_isOk_iff (path : Path) (source : String) (library : LibraryView) (views : List ProviderView)
    (taken : List (ProviderView × String)) (skipped : List PassedOver) :
    (∃ done, r.take path source library views taken skipped = .ok done) ↔
      (∀ view ∈ views, ∀ h ∈ r.holder path taken (r.keyOf source library view), h.1 = view.id) ∧
        views.Pairwise fun a b => r.keyOf source library a = r.keyOf source library b → a.id = b.id := by
  induction views generalizing taken skipped with
  | nil => simp [take]
  | cons view rest ih =>
    rw [List.pairwise_cons]
    simp only [take, List.forall_mem_cons]
    split
    · next hnone =>
      rw [ih, hnone]
      simp only [holder_append, Option.mem_def, Option.or_eq_some_iff, reduceCtorEq, false_imp_iff,
        implies_true, true_and]
      constructor
      · rintro ⟨hheld, hpairs⟩
        refine ⟨fun other hother h hh => hheld other hother h (.inl hh), fun other hother heq => ?_, hpairs⟩
        by_cases hfree : r.holder path taken (r.keyOf source library other) = none
        · exact hheld other hother (view.id, path) (.inr ⟨hfree, by rw [if_pos heq]⟩)
        · rw [heq] at hnone
          exact absurd hnone hfree
      · rintro ⟨hheld, hfirst, hpairs⟩
        refine ⟨fun other hother h hh => ?_, hpairs⟩
        rcases hh with hh | ⟨-, hh⟩
        · exact hheld other hother h hh
        · split at hh
          · next heq =>
            cases hh
            exact hfirst other hother heq
          · cases hh
    · next heldBy first hsome =>
      split
      · next hsame =>
        rw [ih, hsome]
        simp only [Option.mem_def, Option.some.injEq, forall_eq', hsame, true_and]
        constructor
        · rintro ⟨hheld, hpairs⟩
          refine ⟨hheld, fun other hother heq => ?_, hpairs⟩
          rw [← hsame]
          exact hheld other hother (heldBy, first) (heq ▸ hsome)
        · rintro ⟨hheld, -, hpairs⟩
          exact ⟨hheld, hpairs⟩
      · next hother =>
        simp only [reduceCtorEq, exists_false, false_iff, not_and]
        rintro ⟨hheld, -⟩
        exact absurd (hheld (heldBy, first) hsome) hother

theorem absorb_loaded_iff (path : Path) (source : String) (canonical : Path) (library : LibraryView) :
    (∃ one registry, r.absorb path source canonical (.loaded library) = (.loaded one, registry)) ↔
      r.Admits source library := by
  have hheld : (∀ view ∈ library.providers,
      ∀ h ∈ r.holder path [] (r.keyOf source library view), h.1 = view.id) ↔
      ∀ view ∈ library.providers, ∀ p ∈ r.provider (r.keyOf source library view), p.id = view.id := by
    refine forall₂_congr fun view _ => ?_
    rw [holder]
    cases r.provider (r.keyOf source library view) with
    | none => simp
    | some p => simp
  rw [Admits, ← hheld, ← take_isOk_iff path source library library.providers [] []]
  simp only [absorb]
  split
  · next already hfind =>
    have hmem := List.mem_of_find?_eq_some hfind
    have hkey := List.find?_some hfind
    simp only [Prod.mk.injEq, reduceCtorEq, false_and, exists_false, false_iff, not_and]
    intro hfree
    exact absurd (by simpa using hkey) (hfree already hmem)
  · next hnone =>
    have hfree : ∀ l ∈ r.loaded,
        l.key ≠ r.libraryKey.render (.ofLibrary library.id library.version source) := by
      intro l hl
      simpa using List.find?_eq_none.mp hnone l hl
    cases r.take path source library library.providers [] [] with
    | error e => simp
    | ok done => simpa using hfree

end Ranked.Registry

namespace Leases

variable {s s' : Leases}

/-- What a source is told of an opening, where it has a `close`. -/
def heardOf (s : Leases) (o : Opening) (parts : Bool) (holds : ℕ) : List SourceEvent :=
  if s.hearsAt o.at_ then [.closed o.at_ o.number o.id o.stamp parts holds] else []

/-- What one task asks and tells sources. -/
def eventsOf (s : Leases) (answer : Answer) : Task → List SourceEvent
  | .close lease =>
    match s.kept lease with
    | some ⟨.served at_ opening id stamp, _, parts⟩ =>
      s.heardOf ⟨at_, opening, id, stamp⟩ (parts && decide (0 < s.count lease)) (s.count lease)
    | _ => []
  | .refreshSource at_ =>
    match s.sources[at_]?, answer.list with
    | some _, some listed => [.listed at_ listed]
    | _, _ => []
  | .candidate at_ c => (s.sources[at_]?).elim [] fun source =>
    if source.tried.get c.id = some c.stamp then []
    else
      match answer.open with
      | .refused => [.refused at_ c.id c.stamp]
      | .declined => []
      | .rejected => .opened at_ s.nextOpening c.id c.stamp ::
          s.heardOf ⟨at_, s.nextOpening, c.id, c.stamp⟩ false 0
      | .loaded library _ parts => .opened at_ s.nextOpening c.id c.stamp ::
          if library.id ≠ c.id then s.heardOf ⟨at_, s.nextOpening, c.id, c.stamp⟩ parts 0 else []
  | .offer at_ c opening library _ parts => (s.sources[at_]?).elim [] fun source =>
    if s.registry.Admits source.name library then []
    else s.heardOf ⟨at_, opening, c.id, c.stamp⟩ parts 0
  | _ => []

/-- Sources are told so much more, and so many libraries are closed more. -/
structure Tells (s s' : Leases) (events : List SourceEvent) (leases : List ℕ) : Prop where
  trace : s'.trace = s.trace ++ events
  closed : s'.closed = s.closed ++ leases
  called : s'.called = s.called

theorem Tells.nil (htrace : s'.trace = s.trace) (hclosed : s'.closed = s.closed)
    (hcalled : s'.called = s.called) : Tells s s' [] [] :=
  ⟨htrace.trans (List.append_nil _).symm, hclosed.trans (List.append_nil _).symm, hcalled⟩

theorem hear_tells (s : Leases) (o : Opening) (parts : Bool) (holds : ℕ) :
    Tells s (s.hear o.at_ o.number o.id o.stamp parts holds) (s.heardOf o parts holds) [] := by
  rw [hear, heardOf, hearsAt]
  split
  · exact ⟨rfl, (List.append_nil _).symm, rfl⟩
  · exact .nil rfl rfl rfl

theorem absorb_tells (s : Leases) (path : Path) (source : String) (canonical : Path)
    (opened : Ranked.Opened) (kept : Kept) :
    Tells s (s.absorb path source canonical opened kept).2 [] [] := by
  rw [Leases.absorb]
  split
  · exact .nil rfl rfl rfl
  · exact .nil rfl rfl rfl

theorem withdraw_tells (s t : Leases) (at_ : ℕ) (source : Source) (id : String) (h : Tells t s [] []) :
    Tells t (s.withdraw at_ source id) [] [] := by
  rw [Leases.withdraw]
  split
  · exact h
  · simp only
    split
    · exact ⟨h.trace, h.closed, h.called⟩
    · exact ⟨h.trace, h.closed, h.called⟩

theorem offered_tells (s : Leases) {at_ : ℕ} {source : Source} (c : Candidate) (opening : ℕ)
    (library : Ranked.LibraryView) (slot parts : Bool) (canonical : Path) :
    Tells s (s.offered at_ source c opening library slot parts canonical)
      (if s.registry.Admits source.name library then []
      else s.heardOf ⟨at_, opening, c.id, c.stamp⟩ parts 0) [] := by
  have hiff := @Ranked.Registry.absorb_loaded_iff s.registry (servedPath source.name c.id) source.name
    canonical library
  rw [offered, absorb]
  split
  · next one t heq =>
    split at heq
    · next loaded registry hloaded =>
      cases heq
      rw [if_pos (hiff.mp ⟨_, _, hloaded⟩)]
      exact .nil rfl rfl rfl
    · next hnot _ =>
      cases heq
      exact (hnot one rfl).elim
  · next loading t hnot heq =>
    split at heq
    · cases heq
      exact absurd rfl (hnot _)
    · next loading' registry hloading habsorb =>
      cases heq
      have hrefused : ¬ s.registry.Admits source.name library := by
        intro hadmits
        obtain ⟨one, registry', hloaded⟩ := hiff.mpr hadmits
        rw [hloaded] at habsorb
        exact hnot one (Prod.mk.inj habsorb).1.symm
      rw [if_neg hrefused]
      exact hear_tells s ⟨at_, opening, c.id, c.stamp⟩ parts 0

theorem candidate_tells (s : Leases) {at_ : ℕ} {source : Source} (hsource : s.sources[at_]? = some source)
    (c : Candidate) (answer : Answer) :
    Tells s (s.candidate at_ source c answer.open) (s.eventsOf answer (.candidate at_ c)) [] := by
  have hsame : ({ source with tried := source.tried.insert c.id c.stamp } : Source).hears = source.hears :=
    rfl
  have hopened : ∀ (t : Leases) (parts : Bool),
      Tells s t [.opened at_ s.nextOpening c.id c.stamp] [] →
      t.sources = s.sources.set at_ { source with tried := source.tried.insert c.id c.stamp } →
      Tells s (t.hear at_ s.nextOpening c.id c.stamp parts 0) (.opened at_ s.nextOpening c.id c.stamp ::
        s.heardOf ⟨at_, s.nextOpening, c.id, c.stamp⟩ parts 0) [] := by
    intro t parts ht hsources
    have hheard : t.heardOf ⟨at_, s.nextOpening, c.id, c.stamp⟩ parts 0 =
        s.heardOf ⟨at_, s.nextOpening, c.id, c.stamp⟩ parts 0 := by
      rw [heardOf, heardOf, hearsAt, hsources, hearsAt_set hsource hsame at_]
      rfl
    have hhear := hear_tells t ⟨at_, s.nextOpening, c.id, c.stamp⟩ parts 0
    refine ⟨?_, hhear.closed.trans ((List.append_nil _).trans ht.closed), hhear.called.trans ht.called⟩
    rw [← hheard, ← List.singleton_append, ← List.append_assoc, ← ht.trace]
    exact hhear.trace
  rw [Leases.candidate]
  simp only [eventsOf, hsource, Option.elim_some]
  split
  · exact .nil rfl rfl rfl
  · cases answer.open with
    | refused => exact ⟨rfl, (List.append_nil _).symm, rfl⟩
    | declined => exact .nil rfl rfl rfl
    | rejected => exact hopened _ false ⟨rfl, (List.append_nil _).symm, rfl⟩ rfl
    | loaded library slot parts =>
      simp only
      split
      · exact hopened _ parts ⟨rfl, (List.append_nil _).symm, rfl⟩ rfl
      · exact ⟨rfl, (List.append_nil _).symm, rfl⟩

/-- What a task tells sources, and closes, comes behind what there was before. -/
theorem perform_tells (s : Leases) (answer : Answer) (task : Task) :
    Tells s (s.perform answer task) (s.eventsOf answer task) (closing [task]) := by
  have hsame : Tells s s [] [] := .nil rfl rfl rfl
  cases task with
  | collect => exact .nil rfl rfl rfl
  | settle key lease =>
    simp only [perform]
    split
    · exact hsame
    · cases s.kept lease with
      | none => exact hsame
      | some kept =>
        rw [Option.elim_some]
        split
        · exact .nil rfl rfl rfl
        · split
          · exact .nil rfl rfl rfl
          · exact hsame
  | askLeaving key lease =>
    simp only [perform]
    split
    · exact .nil rfl rfl rfl
    · exact hsame
  | drop lease => exact .nil rfl rfl rfl
  | close lease =>
    simp only [perform, eventsOf]
    cases s.kept lease with
    | none => exact ⟨(List.append_nil _).symm, rfl, rfl⟩
    | some kept =>
      obtain ⟨origin, slot, parts⟩ := kept
      cases origin with
      | served at_ opening id stamp =>
        have hhear := hear_tells { s with closed := s.closed ++ [lease] } ⟨at_, opening, id, stamp⟩
          (parts && decide (0 < s.count lease)) (s.count lease)
        exact ⟨hhear.trace, hhear.closed.trans (List.append_nil _), hhear.called⟩
      | _ => exact ⟨(List.append_nil _).symm, rfl, rfl⟩
  | retire key =>
    simp only [perform]
    cases s.registry.loaded.find? (·.key = key) with
    | none => exact hsame
    | some one =>
      rw [Option.elim_some]
      split
      · exact .nil rfl rfl rfl
      · exact .nil rfl rfl rfl
  | unload key =>
    simp only [perform]
    split
    · exact .nil rfl rfl rfl
    · split
      · exact .nil rfl rfl rfl
      · exact .nil rfl rfl rfl
  | holds key lease =>
    simp only [perform]
    split
    · exact .nil rfl rfl rfl
    · split
      · exact .nil rfl rfl rfl
      · split
        · exact .nil rfl rfl rfl
        · exact .nil rfl rfl rfl
  | ask key lease =>
    simp only [perform]
    split
    · exact .nil rfl rfl rfl
    · exact .nil rfl rfl rfl
  | refuse why => exact .nil rfl rfl rfl
  | take key lease =>
    simp only [perform]
    cases s.registry.loaded.find? (·.key = key) with
    | none => exact hsame
    | some one => exact .nil rfl rfl rfl
  | load path source =>
    simp only [perform]
    split
    · exact hsame
    · exact hsame
    · exact absorb_tells ..
  | registerLocal name =>
    simp only [perform]
    split
    · exact hsame
    · exact hsame
    · exact absorb_tells ..
  | refreshSource at_ =>
    simp only [perform, eventsOf]
    cases s.sources[at_]? with
    | none => exact hsame
    | some source =>
      cases answer.list with
      | none => exact hsame
      | some listed => exact ⟨rfl, (List.append_nil _).symm, rfl⟩
  | gone at_ id =>
    simp only [perform]
    cases s.sources[at_]? with
    | none => exact hsame
    | some source => exact withdraw_tells _ s _ _ _ (.nil rfl rfl rfl)
  | candidate at_ c =>
    simp only [perform]
    cases hsource : s.sources[at_]? with
    | none =>
      simp only [eventsOf, hsource]
      exact hsame
    | some source => exact candidate_tells s hsource c answer
  | withdraw at_ id =>
    simp only [perform]
    cases s.sources[at_]? with
    | none => exact hsame
    | some source => exact withdraw_tells _ s _ _ _ hsame
  | offer at_ c opening library slot parts =>
    simp only [perform, eventsOf]
    cases s.sources[at_]? with
    | none => exact hsame
    | some source => exact offered_tells s c opening library slot parts answer.canonical

/-- What a step tells sources. -/
def told (s : Leases) : Act → List SourceEvent
  | .perform answer =>
    match s.todo with
    | [] => []
    | task :: rest => eventsOf { s with todo := rest } answer task
  | _ => []

variable {act : Act} {answer : Answer} {task : Task} {rest : List Task} {lease : ℕ}

theorem told_perform (htodo : s.todo = task :: rest) :
    s.told (.perform answer) = eventsOf { s with todo := rest } answer task := by
  simp only [told, htodo]

theorem told_beside (h : act.beside = true) : s.told act = [] := by
  cases act with
  | perform answer => cases h
  | _ => rfl

theorem holdAll_tells (leases : List ℕ) (s : Leases) : Tells s (leases.foldl Leases.hold s) [] [] := by
  induction leases generalizing s with
  | nil => exact .nil rfl rfl rfl
  | cons lease leases ih => exact ⟨(ih _).trace, (ih _).closed, (ih _).called⟩

theorem step_trace (h : step s act = some s') : s'.trace = s.trace ++ s.told act := by
  have hnil : s.trace = s.trace ++ [] := (List.append_nil _).symm
  cases step_comes h with
  | call call hact =>
    rw [hact]
    exact hnil
  | addSource source hact | letGo lease hact =>
    rw [told_beside hact]
    exact hnil
  | hold leases hact =>
    rw [told_beside hact]
    exact (holdAll_tells leases s).trace
  | perform answer task rest hact htodo =>
    rw [hact, told_perform htodo]
    exact (perform_tells ..).trace

/-- How often a library is held that a source is told is closed. -/
def SourceEvent.held : SourceEvent → ℕ
  | .closed _ _ _ _ _ holds => holds
  | _ => 0

/-- A source is told of a library that nothing holds. -/
def Freed (s : Leases) : Prop := ∀ e ∈ s.trace, e.held = 0

theorem held_heardOf (s : Leases) (o : Opening) (parts : Bool) {holds : ℕ} (hholds : holds = 0) :
    ∀ e ∈ s.heardOf o parts holds, e.held = 0 := by
  rw [heardOf]
  split
  · intro e he
    rw [List.mem_singleton.mp he]
    exact hholds
  · nofun

/-- Whatever a task tells a source of, nothing holds it. -/
theorem Task.held (hs : Reckoned s) (htodo : s.todo = task :: rest) (answer : Answer) :
    ∀ e ∈ eventsOf { s with todo := rest } answer task, e.held = 0 := by
  cases task with
  | close lease =>
    simp only [eventsOf]
    split
    · exact held_heardOf _ _ _ (hs.free htodo)
    · nofun
  | refreshSource at_ =>
    simp only [eventsOf]
    split
    · intro e he
      rw [List.mem_singleton.mp he]
      rfl
    · nofun
  | candidate at_ c =>
    simp only [eventsOf]
    cases s.sources[at_]? with
    | none => nofun
    | some source =>
      rw [Option.elim_some]
      split
      · nofun
      · cases answer.open with
        | refused => exact List.forall_mem_singleton.mpr rfl
        | declined => nofun
        | rejected => exact List.forall_mem_cons.mpr ⟨rfl, held_heardOf _ _ _ rfl⟩
        | loaded library slot parts =>
          refine List.forall_mem_cons.mpr ⟨rfl, ?_⟩
          split
          · exact held_heardOf _ _ _ rfl
          · nofun
  | offer at_ c opening library slot parts =>
    simp only [eventsOf]
    cases s.sources[at_]? with
    | none => nofun
    | some source =>
      rw [Option.elim_some]
      split
      · nofun
      · exact held_heardOf _ _ _ rfl
  | _ => nofun

theorem freed_step : Lib.Kept step fun s => Reckoned s ∧ Freed s := by
  refine reckoned_step.and fun s act s' hs h hstep => ?_
  rw [Freed, step_trace hstep, List.forall_mem_append]
  refine ⟨h, ?_⟩
  cases step_comes hstep with
  | call call hact =>
    rw [hact]
    nofun
  | addSource source hact | letGo lease hact | hold leases hact =>
    rw [told_beside hact]
    nofun
  | perform answer task rest hact htodo =>
    rw [hact, told_perform htodo]
    exact Task.held hs htodo answer

/-- Whether the host calls. -/
def Act.calls : Act → Bool
  | .call _ => true
  | _ => false

theorem step_closed (h : step s act = some s') :
    ((∃ lease rest, s.todo = .close lease :: rest ∧ s'.closed = s.closed ++ [lease]) ∨
      s'.closed = s.closed) ∧ (act.calls = false → s'.called = s.called) := by
  cases step_comes h with
  | call call hact =>
    rw [hact]
    exact ⟨.inr rfl, nofun⟩
  | addSource | letGo => exact ⟨.inr rfl, fun _ => rfl⟩
  | hold leases =>
    have htells := holdAll_tells leases s
    exact ⟨.inr (htells.closed.trans (List.append_nil _)), fun _ => htells.called⟩
  | perform answer task rest hact htodo =>
    have htells := perform_tells { s with todo := rest } answer task
    refine ⟨?_, fun _ => htells.called⟩
    cases task with
    | close lease => exact .inl ⟨lease, rest, htodo, htells.closed⟩
    | _ => exact .inr (htells.closed.trans (List.append_nil _))

theorem closed_run {acts : List Act} (h : Lib.run step s acts = some s')
    (hlease : lease ∈ s.closed) : lease ∈ s'.closed := by
  have hkept : Lib.Kept step fun s => lease ∈ s.closed := by
    intro s act s' hin hstep
    rcases (step_closed hstep).1 with ⟨other, rest, -, hclosed⟩ | hclosed
    · rw [hclosed]
      exact List.mem_append_left _ hin
    · rw [hclosed]
      exact hin
  exact hkept.run hlease h

theorem called_run {acts : List Act} (h : Lib.run step s acts = some s')
    (hacts : ∀ act ∈ acts, act.calls = false) : s'.called = s.called := by
  induction acts generalizing s with
  | nil =>
    cases h
    rfl
  | cons act acts ih =>
    obtain ⟨m, hstep, hrest⟩ := Lib.run_cons.mp h
    rw [ih hrest fun other hother => hacts other (List.mem_cons_of_mem _ hother)]
    exact (step_closed hstep).2 (hacts act (List.mem_cons_self ..))

/-- Along every run, a library is closed, and its source told so, only where nothing holds it, and
nothing can hold it from then on; an unload that is refused leaves the libraries, the providers and
what the services read as they were when it was called. -/
theorem closed_unreached (key libraryKey : KeyTemplate) (acts : List Act)
    (h : Lib.run step (start key libraryKey) acts = some s) :
    (∀ (act : Act) (s' : Leases), step s act = some s' → ∀ lease ∈ s'.closed, lease ∉ s.closed →
      lease ∉ s.outside ∧ s.count lease = 0) ∧
    (∀ e ∈ s.trace, e.held = 0) ∧
    (∀ (more : List Act) (s' : Leases), Lib.run step s more = some s' → ∀ lease ∈ s.closed,
      lease ∉ s'.outside ∧ ¬ s'.Reaches lease ∧ lease ∉ s'.registry.providers.map (·.hold)) ∧
    (∀ (library : String) (more : List Act) (s' : Leases) (why : Refusal),
      (∀ act ∈ more, act.calls = false) →
      Lib.run step s (.call (.unload library) :: more) = some s' →
      s'.answer = some (.refused why) → s'.todo = [] ∧ s'.registry = s.registry) := by
  obtain ⟨hs, hfreed⟩ := freed_step.run ⟨reckoned_start key libraryKey, nofun⟩ h
  refine ⟨fun act s' hstep lease hlease hnot => ?_, hfreed, fun more s' hmore lease hlease => ?_,
    fun library more s' why hacts hmore hanswer => ?_⟩
  · rcases (step_closed hstep).1 with ⟨other, rest, htodo, hclosed⟩ | hclosed
    · rw [hclosed] at hlease
      cases List.mem_singleton.mp ((List.mem_append.mp hlease).resolve_left hnot)
      refine ⟨(hs.sealed ?_).outside, hs.free htodo⟩
      rw [htodo]
      exact List.mem_append_left _ (List.mem_cons_self ..)
    · rw [hclosed] at hlease
      exact absurd hlease hnot
  · have hs' := reckoned_step.run hs hmore
    have hsealed := hs'.sealed (List.mem_append_right _ (closed_run hmore hlease))
    exact ⟨hsealed.outside, hs'.unreached hsealed.loaded hsealed.outside, hsealed.providers⟩
  · have hs' := reckoned_step.run hs hmore
    obtain ⟨m, hstep, hrest⟩ := Lib.run_cons.mp hmore
    have hcalled : s'.called = s.registry := by
      rw [called_run hrest hacts]
      simp only [step] at hstep
      split at hstep
      · cases hstep
        rfl
      · cases hstep
    rcases hs'.stage with ⟨-, -, hrefused⟩ | ⟨-, -, -, -, -, -, hnone⟩ | ⟨-, -, -, -, -, -, -, hnone⟩ |
      ⟨-, -, -, -, -, hnone⟩
    · obtain ⟨htodo, hsame⟩ := hrefused why hanswer
      exact ⟨htodo, hsame.trans hcalled⟩
    · rw [hnone] at hanswer
      cases hanswer
    · rw [hnone] at hanswer
      cases hanswer
    · rw [hnone] at hanswer
      cases hanswer

/-- A library a source serves: unloading it is refused while a handle is held, and closes it then. -/
theorem closed_unreached_handle :
    let answer : Answer := ⟨true, .ofText "", .ofText "", .error "", false, some [⟨"a", "1"⟩],
      .loaded ⟨"a", "1", [⟨⟨"p", "P", none⟩, ["k"]⟩]⟩ false true⟩
    ∃ s : Leases, Lib.run step (start .default .default)
      ([.addSource "src" true, .call .refresh] ++ List.replicate 5 (.perform answer) ++
        [.handle 0, .call (.unload "a")] ++ List.replicate 4 (.perform answer) ++
        [.letGo 0, .call (.unload "a")] ++ List.replicate 6 (.perform answer)) = some s ∧
      s.closed = [0] ∧ s.trace.length = 3 ∧ (∀ e ∈ s.trace, e.held = 0) ∧
      ∀ (more : List Act) (s' : Leases), Lib.run step s more = some s' → ∀ lease ∈ s.closed,
        lease ∉ s'.outside := by
  intro answer
  have hends : (Lib.run step (start .default .default)
      ([.addSource "src" true, .call .refresh] ++ List.replicate 5 (.perform answer) ++
        [.handle 0, .call (.unload "a")] ++ List.replicate 4 (.perform answer) ++
        [.letGo 0, .call (.unload "a")] ++ List.replicate 6 (.perform answer))).map
          (fun s => (s.closed, s.trace.length)) = some ([0], 3) := by
    decide +kernel
  obtain ⟨s, hrun, hends⟩ := Option.map_eq_some_iff.mp hends
  obtain ⟨-, hfreed, hsealed, -⟩ := closed_unreached .default .default _ hrun
  exact ⟨s, hrun, (Prod.mk.inj hends).1, (Prod.mk.inj hends).2, hfreed,
    fun more s' hmore lease hlease => (hsealed more s' hmore lease hlease).1⟩

/-- Whether the parts of a library are still there that a source is told is closed. -/
def SourceEvent.partsThere : SourceEvent → Bool
  | .closed _ _ _ _ parts _ => parts
  | _ => false

/-- Whether a library that has parts calls itself by the id it was listed under. -/
def Offer.fits (id : String) : Offer → Bool
  | .loaded library _ true => library.id = id
  | _ => true

/-- Whether a library with parts that a source serves, and wants to hear of, is kept at this task. -/
def Task.Keeps (s : Leases) (answer : Answer) : Task → Prop
  | .candidate at_ c => ∀ source ∈ s.sources[at_]?, source.hears = true →
      source.tried.get c.id ≠ some c.stamp → answer.open.fits c.id = true
  | .offer at_ _ _ library _ parts => ∀ source ∈ s.sources[at_]?, source.hears = true →
      parts = true → s.registry.Admits source.name library
  | _ => True

instance (s : Leases) (answer : Answer) : (task : Task) → Decidable (task.Keeps s answer)
  | .candidate _ _ => inferInstanceAs (Decidable (∀ source ∈ _, _ → _ → _))
  | .offer .. => inferInstanceAs (Decidable (∀ source ∈ _, _ → _ → _))
  | .collect | .settle .. | .askLeaving .. | .drop .. | .close .. | .retire .. | .unload ..
  | .holds .. | .ask .. | .refuse .. | .take .. | .load .. | .registerLocal .. | .refreshSource ..
  | .gone .. | .withdraw .. => inferInstanceAs (Decidable True)

/-- Whether a step keeps what it opened with parts. -/
def Keeps (s : Leases) : Act → Prop
  | .perform answer => ∀ task ∈ s.todo.head?, task.Keeps s answer
  | _ => True

instance (s : Leases) : (act : Act) → Decidable (s.Keeps act)
  | .perform _ => inferInstanceAs (Decidable (∀ task ∈ _, _))
  | .call .. | .addSource .. | .handle .. | .get .. | .list .. | .clone .. | .letGo .. =>
    inferInstanceAs (Decidable True)

/-- What a source is promised: it hears of what it opened, once and under the id and the stamp it was
listed under, of nothing else, and where nothing of it is left; once a call is over it heard of
whatever no library has its code of. -/
structure Promised (s : Leases) : Prop where
  told : Told s.trace
  free : ∀ e ∈ s.trace, e.held = 0 ∧ e.partsThere = false
  kept : s.todo = [] → ∀ o ∈ opens s.trace, s.hearsAt o.at_ = true → o ∈ closes s.trace ∨
    ∃ lease ∈ s.registry.loaded.map (·.lease) ++ s.leaving.map Prod.snd, ∃ kept,
      s.kept lease = some kept ∧ kept.origin.opening = some o

theorem partsThere_heardOf (s : Leases) (o : Opening) (parts : Bool) (holds : ℕ) :
    (∀ e ∈ s.heardOf o parts holds, e.partsThere = false) ↔ (s.hearsAt o.at_ = true → parts = false) := by
  rw [heardOf]
  split
  · next hhears => simp [SourceEvent.partsThere, hhears]
  · next hdeaf => simp [hdeaf]

theorem hearsAt_of_some {at_ : ℕ} {source : Source} (hsource : s.sources[at_]? = some source) :
    s.hearsAt at_ = source.hears := by
  rw [hearsAt, hsource]
  rfl

/-- A task tells of parts that are there exactly where a library with parts is not kept. -/
theorem Task.keeps_iff (hs : Reckoned s) {task : Task} {rest : List Task} (htodo : s.todo = task :: rest)
    (answer : Answer) : (∀ e ∈ eventsOf { s with todo := rest } answer task, e.partsThere = false) ↔
      task.Keeps s answer := by
  cases task with
  | close lease =>
    have hfree : s.count lease = 0 := hs.free htodo
    simp only [eventsOf, Task.Keeps, iff_true]
    split
    · rw [partsThere_heardOf]
      intro _
      simp [hfree]
    · nofun
  | refreshSource at_ =>
    simp only [eventsOf, Task.Keeps, iff_true]
    split
    · intro e he
      rw [List.mem_singleton.mp he]
      rfl
    · nofun
  | candidate at_ c =>
    simp only [eventsOf, Task.Keeps]
    cases hsource : s.sources[at_]? with
    | none => simp
    | some source =>
      have hhears : hearsAt { s with todo := rest } at_ = source.hears := hearsAt_of_some hsource
      simp only [Option.elim_some, Option.mem_def, Option.some.injEq, forall_eq']
      split
      · next htried => simp [htried]
      · next htried =>
        cases answer.open with
        | refused => simp [Offer.fits, SourceEvent.partsThere]
        | declined => simp [Offer.fits]
        | rejected =>
          rw [List.forall_mem_cons, partsThere_heardOf]
          simp [SourceEvent.partsThere, Offer.fits]
        | loaded library slot parts =>
          have hopened : (SourceEvent.opened at_ s.nextOpening c.id c.stamp).partsThere = false := rfl
          rw [List.forall_mem_cons, and_iff_right hopened]
          split
          · next hother =>
            rw [partsThere_heardOf, hhears]
            cases parts with
            | false => simp [Offer.fits]
            | true => simp [Offer.fits, hother, htried]
          · next hsame =>
            have hid : library.id = c.id := not_not.mp hsame
            cases parts with
            | false => simp [Offer.fits]
            | true => simp [Offer.fits, hid]
  | offer at_ c opening library slot parts =>
    simp only [eventsOf, Task.Keeps]
    cases hsource : s.sources[at_]? with
    | none => simp
    | some source =>
      have hhears : hearsAt { s with todo := rest } at_ = source.hears := hearsAt_of_some hsource
      simp only [Option.elim_some, Option.mem_def, Option.some.injEq, forall_eq']
      split
      · next hadmits => simp [hadmits]
      · next hrefused =>
        rw [partsThere_heardOf, hhears]
        cases parts with
        | false => simp
        | true => simp [hrefused]
  | _ => simp [eventsOf, Task.Keeps]

theorem keeps_iff (hs : Reckoned s) (act : Act) :
    (∀ e ∈ s.told act, e.partsThere = false) ↔ s.Keeps act := by
  cases act with
  | perform answer =>
    cases htodo : s.todo with
    | nil => simp [told, Keeps, htodo]
    | cons task rest =>
      simp only [told, Keeps, htodo, List.head?_cons, Option.mem_def, Option.some.injEq, forall_eq']
      exact Task.keeps_iff hs htodo answer
  | _ => simp [told, Keeps]

theorem trace_run {acts : List Act} (h : Lib.run step s acts = some s') {e : SourceEvent}
    (he : e ∈ s.trace) : e ∈ s'.trace := by
  have hkept : Lib.Kept step fun s => e ∈ s.trace := by
    intro s act s' hin hstep
    rw [step_trace hstep]
    exact List.mem_append_left _ hin
  exact hkept.run he h

theorem partsGone_iff (key libraryKey : KeyTemplate) (acts : List Act)
    (h : Lib.run step (start key libraryKey) acts = some s) :
    (∀ e ∈ s.trace, e.partsThere = false) ↔
      Lib.run (Lib.only Keeps step) (start key libraryKey) acts = some s := by
  have hiff : ∀ (s : Leases) (act : Act) (s' : Leases),
      (Reckoned s ∧ ∀ e ∈ s.trace, e.partsThere = false) → step s act = some s' →
      ((Reckoned s' ∧ ∀ e ∈ s'.trace, e.partsThere = false) ↔ s.Keeps act) := by
    intro s act s' hs hstep
    rw [← keeps_iff hs.1 act, step_trace hstep, List.forall_mem_append]
    constructor
    · exact fun hall => hall.2.2
    · exact fun hnew => ⟨reckoned_step s act s' hs.1 hstep, hs.2, hnew⟩
  rw [← Lib.all_prefixes_iff hiff ⟨reckoned_start key libraryKey, nofun⟩ h]
  constructor
  · intro hgone before after m hacts hbefore
    refine ⟨reckoned_step.run (reckoned_start key libraryKey) hbefore, fun e he => ?_⟩
    rw [hacts, Lib.run_append] at h
    obtain ⟨m', hm', hafter⟩ := h
    rw [hbefore] at hm'
    cases hm'
    exact hgone e (trace_run hafter he)
  · intro hall
    exact (hall acts [] s (List.append_nil _).symm h).2

/-- In every run, sources are promised all of it exactly where each library with parts that is opened
well is kept: it calls itself by the id it was listed under, and the registry admits it. -/
theorem promised_iff (key libraryKey : KeyTemplate) (acts : List Act)
    (h : Lib.run step (start key libraryKey) acts = some s) :
    Promised s ↔ Lib.run (Lib.only Keeps step) (start key libraryKey) acts = some s := by
  rw [← partsGone_iff key libraryKey acts h]
  obtain ⟨-, htraced⟩ := traced_step.run ⟨reckoned_start key libraryKey, traced_start key libraryKey⟩ h
  obtain ⟨-, hfreed⟩ := freed_step.run ⟨reckoned_start key libraryKey, nofun⟩ h
  constructor
  · exact fun hpromised e he => (hpromised.free e he).2
  · intro hgone
    refine ⟨htraced.told, fun e he => ⟨hfreed e he, hgone e he⟩, fun htodo o ho hhears => ?_⟩
    rcases List.mem_append.mp (htraced.all o ho hhears) with hin | hin
    · exact .inl hin
    · right
      rw [unclosed, living, htodo] at hin
      obtain ⟨lease, hlease, heq⟩ := List.mem_filterMap.mp hin
      obtain ⟨kept, hkept, horigin⟩ := Option.bind_eq_some_iff.mp heq
      have hnil : closing [] = [] := rfl
      rw [hnil, List.append_nil] at hlease
      exact ⟨lease, hlease, kept, hkept, horigin⟩

/-- A source lists one id and opens a library of another: it is told of it while the parts are there. -/
theorem partsThere_otherId :
    ¬ ∀ (key libraryKey : KeyTemplate) (acts : List Act) (s : Leases),
      Lib.run step (start key libraryKey) acts = some s → Promised s := by
  intro hall
  have hends : (Lib.run step (start .default .default) ([.addSource "src" true, .call .refresh] ++
      List.replicate 3 (.perform ⟨true, .ofText "", .ofText "", .error "", false, some [⟨"a", "1"⟩],
        .loaded ⟨"b", "1", []⟩ false true⟩))).map (·.trace) =
      some [.listed 0 [⟨"a", "1"⟩], .opened 0 0 "a" "1", .closed 0 0 "a" "1" true 0] := by
    decide +kernel
  obtain ⟨s, hrun, htrace⟩ := Option.map_eq_some_iff.mp hends
  have hfree := (hall .default .default _ s hrun).free (.closed 0 0 "a" "1" true 0)
  have hthere := (hfree (by simp [htrace])).2
  cases hthere

/-- The library is kept: the parts go with it. -/
theorem promised_iff_kept : ∃ s : Leases,
    Lib.run step (start .default .default) ([.addSource "src" true, .call .refresh] ++
      List.replicate 5 (.perform ⟨true, .ofText "", .ofText "", .error "", false, some [⟨"a", "1"⟩],
        .loaded ⟨"a", "1", []⟩ false true⟩) ++ [.call (.unload "a")] ++
      List.replicate 6 (.perform ⟨true, .ofText "", .ofText "", .error "", false, none, .declined⟩)) =
        some s ∧ s.trace.length = 3 ∧ Promised s := by
  have hends : (Lib.run (Lib.only Keeps step) (start .default .default)
      ([.addSource "src" true, .call .refresh] ++
        List.replicate 5 (.perform ⟨true, .ofText "", .ofText "", .error "", false, some [⟨"a", "1"⟩],
          .loaded ⟨"a", "1", []⟩ false true⟩) ++ [.call (.unload "a")] ++
        List.replicate 6 (.perform ⟨true, .ofText "", .ofText "", .error "", false, none, .declined⟩))).map
          (·.trace.length) = some 3 := by
    decide +kernel
  obtain ⟨s, hrun, hlength⟩ := Option.map_eq_some_iff.mp hends
  exact ⟨s, Lib.run_of_only hrun, hlength,
    (promised_iff .default .default _ (Lib.run_of_only hrun)).mpr hrun⟩

end Leases

end Guatiao.Library
