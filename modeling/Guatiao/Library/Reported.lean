import Guatiao.Library.Refresh

/-!
# What a refresh reports

Every library a refresh leaves in the registry was there before, or is reported as loaded. And a
provider names the library it was registered with: the one that has its lease.
-/

namespace Guatiao.Library

open Lib

namespace Registry

variable {r r' : Registry}

/-- A provider is of the library whose lease it holds, by that library's id. -/
def Named (r : Registry) : Prop :=
  ∀ p ∈ r.providers, ∃ l ∈ r.loaded, l.lease = p.hold ∧ l.id = p.library

theorem named_new : Named new := fun _ h => absurd h List.not_mem_nil

theorem named_absorb (h : Sound r) (hnamed : Named r) (path : Path) (source : String)
    (canonical : Path) (opened : Opened) : Named (r.absorb path source canonical opened).2 := by
  cases houtcome : (r.absorb path source canonical opened).1 with
  | loaded one =>
    obtain ⟨library, taken, -, -, -, hone, hr'⟩ := absorb_loaded h.byKey
      (show r.absorb path source canonical opened = (.loaded one, _) by rw [← houtcome])
    rw [hr']
    intro p hp
    rcases List.mem_append.mp hp with hold | hnew
    · obtain ⟨l, hl, hrest⟩ := hnamed p hold
      exact ⟨l, List.mem_append_left _ hl, hrest⟩
    · obtain ⟨t, -, rfl⟩ := List.mem_map.mp hnew
      exact ⟨one, List.mem_append_right _ (List.mem_singleton.mpr rfl), by simp [hone, provided]⟩
  | skipped why =>
    rwa [absorb_refused (by simp [houtcome])]
  | error e =>
    rwa [absorb_refused (by simp [houtcome])]

theorem named_takeLibrary (h : Sound r) (hnamed : Named r) {key : String} {retired : Retired}
    (htake : r.takeLibrary key = some (retired, r')) : Named r' := by
  cases hone : r.loaded.find? (·.key = key) with
  | none => simp [takeLibrary, hone] at htake
  | some one =>
    rw [takeLibrary_found hone, Option.some.injEq, Prod.mk.injEq] at htake
    obtain ⟨-, rfl⟩ := htake
    intro p hp
    obtain ⟨hp₀, hfrom⟩ := List.mem_filter.mp hp
    obtain ⟨l, hl, hlease, hid⟩ := hnamed p hp₀
    refine ⟨l, (h.mem_eraseP hone).mpr ⟨hl, ?_⟩, hlease, hid⟩
    rintro rfl
    obtain ⟨l', hl', hlease', hpath, -⟩ := h.owned p hp₀
    obtain rfl := h.eq_of_lease hl' hl (hlease'.trans hlease.symm)
    exact (of_decide_eq_true hfrom) hpath.symm

/-- Whatever a host does, a provider is of the library whose lease it holds. -/
theorem named_step (h : Sound r) (hnamed : Named r) {act : Act} (hstep : step r act = some r') :
    Named r' := by
  cases act with
  | load path source want canonical opened =>
    obtain rfl := Option.some.inj hstep
    unfold loadFrom
    split
    · exact hnamed
    · split
      · exact hnamed
      · exact named_absorb h hnamed _ _ _ _
  | registerLocal name want canonical opened =>
    obtain rfl := Option.some.inj hstep
    unfold registerLocal
    split
    · exact hnamed
    · exact named_absorb h hnamed _ _ _ _
  | absorb path source canonical opened =>
    obtain rfl := Option.some.inj hstep
    exact named_absorb h hnamed _ _ _ _
  | retire key =>
    obtain rfl := Option.some.inj hstep
    cases htake : r.takeLibrary key with
    | none => exact hnamed
    | some taken =>
      obtain ⟨retired, r'⟩ := taken
      exact named_takeLibrary h hnamed htake
  | keyedBy template =>
    obtain rfl := Option.some.inj hstep
    simp only [keyedBy]
    split
    · intro p hp
      obtain ⟨p', hp', rfl⟩ := List.mem_map.mp hp
      exact hnamed p' hp'
    · exact hnamed
  | librariesKeyedBy template =>
    obtain rfl := Option.some.inj hstep
    simp only [librariesKeyedBy]
    split
    · intro p hp
      obtain ⟨l, hl, hrest⟩ := hnamed p hp
      exact ⟨_, List.mem_map_of_mem hl, hrest⟩
    · exact hnamed

end Registry

namespace Refreshing

variable {s : Refreshing} {began : Registry}

/-- The keys of what has been loaded so far. -/
def loadedKeys (s : Refreshing) : List String := s.report.loaded.map Served.key

/-- What is loaded was so when a refresh began, or is reported. -/
structure Told (began : Registry) (s : Refreshing) : Prop where
  sound : s.registry.Sound
  named : s.registry.Named
  told : ∀ l ∈ s.registry.loaded, l ∈ began.loaded ∨ l.key ∈ s.loadedKeys

theorem Told.withdraw (h : Told began s) (source id : String) : Told began (s.withdraw source id) := by
  unfold Refreshing.withdraw
  split
  · exact h
  · next stamp hserving =>
    have hrest : Told began { s with serving := s.serving.remove id } := ⟨h.sound, h.named, h.told⟩
    cases hfind : s.registry.loaded.find? (·.path = servedPath source id) with
    | none =>
      rwa [retireAt_none (s := { s with serving := s.serving.remove id }) stamp hfind]
    | some one =>
      have htake := Registry.takeLibrary_found (h.sound.find_key (List.mem_of_find?_eq_some hfind))
      refine ⟨sound_retireAt (s := { s with serving := s.serving.remove id }) h.sound .., ?_, ?_⟩
      · simp only [Refreshing.retireAt, hfind, htake]
        exact Registry.named_takeLibrary h.sound h.named htake
      · simp only [Refreshing.retireAt, hfind, htake]
        exact fun l hl => h.told l (List.mem_of_mem_eraseP hl)

theorem Told.absorb (h : Told began s) (source : String) (canonical : Path) (c : Candidate)
    (opened : Opened) : Told began (s.absorb source canonical c opened) := by
  have hregistry := absorb_registry s source canonical c opened
  refine ⟨?_, ?_, ?_⟩
  · rw [hregistry]
    exact Registry.sound_absorb h.sound ..
  · rw [hregistry]
    exact Registry.named_absorb h.sound h.named _ _ _ _
  · rw [hregistry]
    cases houtcome : s.registry.absorb (servedPath source c.id) source canonical opened with
    | mk loading r =>
      cases loading with
      | loaded one =>
        obtain ⟨library, taken, -, -, -, -, hr⟩ := Registry.absorb_loaded h.sound.byKey houtcome
        have hkeys : (s.absorb source canonical c opened).loadedKeys = s.loadedKeys ++ [one.key] := by
          simp [Refreshing.absorb, houtcome, loadedKeys]
        intro l hl
        rw [hr] at hl
        rw [hkeys]
        rcases List.mem_append.mp hl with hold | hnew
        · exact (h.told l hold).imp_right (List.mem_append_left _)
        · rw [List.mem_singleton.mp hnew]
          exact .inr (List.mem_append_right _ (List.mem_singleton.mpr rfl))
      | skipped why =>
        obtain rfl : r = s.registry := by
          have hsame : (s.registry.absorb (servedPath source c.id) source canonical opened).2 =
              s.registry := Registry.absorb_refused (by simp [houtcome])
          rwa [houtcome] at hsame
        simpa [Refreshing.absorb, houtcome, loadedKeys] using h.told
      | error e =>
        obtain rfl : r = s.registry := by
          have hsame : (s.registry.absorb (servedPath source c.id) source canonical opened).2 =
              s.registry := Registry.absorb_refused (by simp [houtcome])
          rwa [houtcome] at hsame
        simpa [Refreshing.absorb, houtcome, loadedKeys, refuse] using h.told

theorem Told.candidate (h : Told began s) (source : String) (answer : Answer) (c : Candidate) :
    Told began (s.candidate source answer c) := by
  by_cases hopens : ∃ library, s.Opens answer c library
  · obtain ⟨library, hopens⟩ := hopens
    rw [candidate_opens hopens]
    have hrest : Told began { s with tried := s.tried.insert c.id c.stamp } :=
      ⟨h.sound, h.named, h.told⟩
    exact (hrest.withdraw source c.id).absorb ..
  · have hpassed := candidate_passed source fun library hlib => hopens ⟨library, hlib⟩
    refine ⟨?_, ?_, ?_⟩
    · rw [hpassed.1]
      exact h.sound
    · rw [hpassed.1]
      exact h.named
    · rw [hpassed.1, loadedKeys, hpassed.2.2.1]
      exact h.told

theorem Told.follow (h : Told began s) (source : String) (answer : Answer) (listed : List Candidate) :
    Told began (s.follow source answer listed) :=
  follow_rule (Told began) (fun _ _ _ hs => ⟨hs.sound, hs.named, hs.told⟩)
    (fun s id _ _ _ _ hs =>
      have hrest : Told began { s with tried := s.tried.remove id } := ⟨hs.sound, hs.named, hs.told⟩
      hrest.withdraw source id)
    (fun _ c _ _ _ hs => hs.candidate source answer c) h

end Refreshing

namespace Sources

variable {s s' : Sources}

/-- The keys a refresh reports as loaded. -/
def loadedKeys (refreshed : Refreshed) : List String := refreshed.loaded.map Served.key

theorem refreshSource_told (h : s.registry.Sound) (hnamed : s.registry.Named) (at_ : ℕ)
    (answer : Answer) : (s.refreshSource at_ answer).2.registry.Sound ∧
      (s.refreshSource at_ answer).2.registry.Named ∧
      ∀ l ∈ (s.refreshSource at_ answer).2.registry.loaded,
        l ∈ s.registry.loaded ∨ l.key ∈ loadedKeys (s.refreshSource at_ answer).1 := by
  simp only [refreshSource]
  split
  · exact ⟨h, hnamed, fun l hl => .inl hl⟩
  · split
    · exact ⟨h, hnamed, fun l hl => .inl hl⟩
    · next st _ _ listed wrong _ =>
      have hbegan : Refreshing.Told s.registry (s.refreshing st (wrong ++ answer.wrongNotes)) :=
        ⟨h, hnamed, fun l hl => .inl hl⟩
      have hdone := hbegan.follow st.name answer listed
      exact ⟨hdone.sound, hdone.named, hdone.told⟩

theorem refresh_told (h : s.registry.Sound) (hnamed : s.registry.Named) (answers : ℕ → Answer) :
    (s.refresh answers).2.registry.Sound ∧ (s.refresh answers).2.registry.Named ∧
      ∀ l ∈ (s.refresh answers).2.registry.loaded,
        l ∈ s.registry.loaded ∨ l.key ∈ loadedKeys (s.refresh answers).1 := by
  suffices hall : ∀ (ats : List ℕ) (out : Refreshed × Sources), out.2.registry.Sound →
      out.2.registry.Named →
      (∀ l ∈ out.2.registry.loaded, l ∈ s.registry.loaded ∨ l.key ∈ loadedKeys out.1) →
      let done := ats.foldl (fun out at_ =>
        (out.1.append (out.2.refreshSource at_ (answers at_)).1,
          (out.2.refreshSource at_ (answers at_)).2)) out
      done.2.registry.Sound ∧ done.2.registry.Named ∧
        ∀ l ∈ done.2.registry.loaded, l ∈ s.registry.loaded ∨ l.key ∈ loadedKeys done.1 from
    hall _ (.empty, s) h hnamed fun l hl => .inl hl
  intro ats
  induction ats with
  | nil => exact fun out hsound hnamed htold => ⟨hsound, hnamed, htold⟩
  | cons at_ rest ih =>
    intro out hsound hnamed htold
    obtain ⟨hsound', hnamed', htold'⟩ := refreshSource_told hsound hnamed at_ (answers at_)
    apply ih (out.1.append (out.2.refreshSource at_ (answers at_)).1,
      (out.2.refreshSource at_ (answers at_)).2) hsound' hnamed'
    intro l hl
    simp only [loadedKeys, Refreshed.append, List.map_append, List.mem_append]
    rcases htold' l hl with hbefore | hnew
    · exact (htold l hbefore).imp_right .inl
    · exact .inr (.inr hnew)

theorem named_step (h : s.registry.Sound) (hnamed : s.registry.Named) {act : Act}
    (hstep : step s act = some s') : s'.registry.Named := by
  cases act with
  | host act =>
    obtain ⟨registry, hregistry, rfl⟩ := Option.map_eq_some_iff.mp hstep
    exact Registry.named_step h hnamed hregistry
  | addSource name =>
    simp only [step, addSource] at hstep
    split at hstep
    · cases hstep
    · obtain rfl := Option.some.inj hstep
      exact hnamed
  | refreshSource at_ answer =>
    obtain rfl := Option.some.inj hstep
    exact (refreshSource_told h hnamed at_ answer).2.1

end Sources

end Guatiao.Library
