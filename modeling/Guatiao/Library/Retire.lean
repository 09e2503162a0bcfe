import Guatiao.Lib.Machine
import Guatiao.Library.Registry

/-!
# What retiring a library takes with it

Every provider's lease is a loaded library's, and the path it was recorded under is that
library's. Retiring goes by the path. Two libraries loaded under one path, as can happen
once the path has come to resolve elsewhere, leave together, but for the record.
-/

namespace Guatiao.Library

open Lib

namespace Registry

/-- What holds between any two calls. -/
structure Sound (r : Registry) : Prop where
  libraryKeys : (r.loaded.map Loaded.key).Nodup
  keys : (r.providers.map Provider.key).Nodup
  byKey : r.byKey = index Provider.key r.providers
  leases : (r.loaded.map Loaded.lease).Nodup
  below : ∀ l ∈ r.loaded, l.lease < r.nextLease
  /-- A provider's library is loaded, from where the provider was recorded to be. -/
  owned : ∀ p ∈ r.providers, ∃ l ∈ r.loaded, l.lease = p.hold ∧ l.path = p.from ∧ l.source = p.source

theorem sound_new : Sound new where
  libraryKeys := .nil
  keys := .nil
  byKey := rfl
  leases := .nil
  below := nofun
  owned := nofun

variable {r r' : Registry}

variable {key source : String} {p : Provider} {l one : Loaded} {path : Path}

theorem Sound.provider_iff (h : Sound r) :
    r.provider key = some p ↔ p ∈ r.providers ∧ p.key = key := by
  rw [provider, h.byKey]
  exact find_index h.keys

theorem Sound.eq_of_lease (h : Sound r) {l' : Loaded} (hl : l ∈ r.loaded) (hl' : l' ∈ r.loaded)
    (heq : l.lease = l'.lease) : l = l' :=
  List.inj_on_of_nodup_map h.leases hl hl' heq

theorem Sound.from_eq (h : Sound r) (hl : l ∈ r.loaded)
    (hp : p ∈ r.providers) (hhold : p.hold = l.lease) : p.from = l.path := by
  obtain ⟨l', hl', hlease, hpath, -⟩ := h.owned p hp
  rw [← hpath, h.eq_of_lease hl' hl (hlease.trans hhold)]

theorem push_all {r : Registry} (hbyKey : r.byKey = index Provider.key r.providers)
    (more : List Provider) : more.foldl push r = { r with
      providers := r.providers ++ more
      byKey := index Provider.key (r.providers ++ more) } := by
  induction more generalizing r with
  | nil =>
    rw [List.append_nil, ← hbyKey]
    rfl
  | cons p rest ih =>
    have hone : (r.push p).byKey = index Provider.key (r.push p).providers := by
      simp only [push, hbyKey, index_append_singleton]
    rw [List.foldl_cons, ih hone]
    simp only [push, List.append_assoc, List.cons_append, List.nil_append]

theorem take_ok {library : LibraryView} {views : List ProviderView}
    {taken out : List (ProviderView × String)} (h : r.take path source library views taken = .ok out)
    (hnodup : (taken.map Prod.snd).Nodup) (hnew : ∀ t ∈ taken, r.provider t.2 = none) :
    (out.map Prod.snd).Nodup ∧ ∀ t ∈ out, r.provider t.2 = none := by
  induction views generalizing taken with
  | nil =>
    cases h
    exact ⟨hnodup, hnew⟩
  | cons view rest ih =>
    simp only [take] at h
    split at h
    · next hholder =>
      unfold holder at hholder
      split at hholder
      · cases hholder
      · next hnone =>
        rw [Option.map_eq_none_iff, List.find?_eq_none] at hholder
        refine ih h ?_ fun t ht => ?_
        · rw [List.map_append, List.nodup_append]
          refine ⟨hnodup, List.nodup_singleton _, fun k hk k' hk' heq => ?_⟩
          obtain ⟨t, ht, rfl⟩ := List.mem_map.mp hk
          rw [List.map_singleton, List.mem_singleton] at hk'
          exact hholder t ht (by simpa using heq.trans hk')
        · rcases List.mem_append.mp ht with ht | ht
          · exact hnew t ht
          · rw [List.mem_singleton.mp ht]
            exact hnone
    · split at h
      · exact ih h hnodup hnew
      · cases h

theorem absorb_loaded {canonical : Path} {opened : Opened}
    (hbyKey : r.byKey = index Provider.key r.providers)
    (h : r.absorb path source canonical opened = (.loaded one, r')) :
    ∃ library taken, opened = .loaded library ∧
      r.loaded.find? (·.key = r.libraryKeyOf source library) = none ∧
      r.take path source library library.providers [] = .ok taken ∧
      one = ⟨path, r.libraryKeyOf source library, library.id, library.version, source,
        taken.length, canonical, r.nextLease⟩ ∧
      r' = { r with
        loaded := r.loaded ++ [one]
        providers := r.providers ++ taken.map (provided path source library r.nextLease)
        byKey := index Provider.key
          (r.providers ++ taken.map (provided path source library r.nextLease))
        nextLease := r.nextLease + 1 } := by
  cases opened with
  | loaded library =>
    simp only [absorb] at h
    split at h
    · cases h
    · next hnone =>
      split at h
      · cases h
      · next taken htaken =>
        rw [push_all hbyKey] at h
        simp only [Prod.mk.injEq, Loading.loaded.injEq] at h
        obtain ⟨hone, hr'⟩ := h
        subst hone
        exact ⟨library, taken, rfl, hnone, htaken, rfl, hr'.symm⟩
  | _ => cases h

theorem absorb_refused {canonical : Path} {opened : Opened}
    (h : ∀ one, (r.absorb path source canonical opened).1 ≠ .loaded one) :
    (r.absorb path source canonical opened).2 = r := by
  cases opened with
  | loaded library =>
    simp only [absorb] at h ⊢
    split at h
    · rfl
    · split at h
      · rfl
      · exact absurd rfl (h _)
  | _ => rfl

theorem sound_absorb (h : Sound r) (path : Path) (source : String) (canonical : Path)
    (opened : Opened) : Sound (r.absorb path source canonical opened).2 := by
  cases houtcome : (r.absorb path source canonical opened).1 with
  | loaded one =>
    obtain ⟨library, taken, -, hfresh, htaken, hone, hr'⟩ := absorb_loaded h.byKey
      (show r.absorb path source canonical opened = (.loaded one, _) by rw [← houtcome])
    obtain ⟨hnodup, hnew⟩ := take_ok htaken .nil nofun
    rw [hr']
    have hkeys : (taken.map (provided path source library r.nextLease)).map Provider.key =
        taken.map Prod.snd := by
      rw [List.map_map]
      rfl
    refine ⟨?_, ?_, rfl, ?_, fun l hl => ?_, fun p hp => ?_⟩
    · rw [List.map_append, List.nodup_append]
      refine ⟨h.libraryKeys, List.nodup_singleton _, fun k hk k' hk' heq => ?_⟩
      obtain ⟨l, hl, rfl⟩ := List.mem_map.mp hk
      rw [List.map_singleton, List.mem_singleton, hone] at hk'
      rw [List.find?_eq_none] at hfresh
      exact hfresh l hl (by simpa using heq.trans hk')
    · rw [List.map_append, hkeys, List.nodup_append]
      refine ⟨h.keys, hnodup, fun k hk k' hk' heq => ?_⟩
      obtain ⟨p, hp, rfl⟩ := List.mem_map.mp hk
      obtain ⟨t, ht, rfl⟩ := List.mem_map.mp hk'
      have hfound := h.provider_iff.mpr ⟨hp, heq⟩
      rw [hnew t ht] at hfound
      cases hfound
    · rw [List.map_append, List.nodup_append]
      refine ⟨h.leases, List.nodup_singleton _, fun k hk k' hk' heq => ?_⟩
      obtain ⟨l, hl, rfl⟩ := List.mem_map.mp hk
      rw [List.map_singleton, List.mem_singleton, hone] at hk'
      have hlt := h.below l hl
      have hsame : l.lease = r.nextLease := heq.trans hk'
      omega
    · rcases List.mem_append.mp hl with hl | hl
      · exact Nat.lt_succ_of_lt (h.below l hl)
      · rw [List.mem_singleton.mp hl, hone]
        exact Nat.lt_succ_self _
    · rcases List.mem_append.mp hp with hp | hp
      · obtain ⟨l, hl, howns⟩ := h.owned p hp
        exact ⟨l, List.mem_append_left _ hl, howns⟩
      · obtain ⟨t, -, rfl⟩ := List.mem_map.mp hp
        refine ⟨one, List.mem_append_right _ (List.mem_singleton_self _), ?_⟩
        rw [hone]
        exact ⟨rfl, rfl, rfl⟩
  | skipped why =>
    rw [absorb_refused (by rw [houtcome]; exact nofun)]
    exact h
  | error e =>
    rw [absorb_refused (by rw [houtcome]; exact nofun)]
    exact h

theorem sound_loadFrom (h : Sound r) (path : Path) (source : String) (want canonical : Path)
    (opened : Except String Opened) : Sound (r.loadFrom path source want canonical opened).2 := by
  unfold loadFrom
  split
  · exact h
  · split
    · exact h
    · exact sound_absorb h path source canonical _

theorem sound_registerLocal (h : Sound r) (name : String) (want canonical : Path)
    (opened : Opened) : Sound (r.registerLocal name want canonical opened).2 := by
  unfold registerLocal
  split
  · exact h
  · exact sound_absorb h _ _ canonical opened

theorem takeLibrary_found (hone : r.loaded.find? (·.key = key) = some one) :
    r.takeLibrary key = some
      (⟨key, one.id, one.version,
        r.providers.length - (r.providers.filter (·.from ≠ one.path)).length⟩,
      { r with
        loaded := r.loaded.eraseP (·.key = key)
        providers := r.providers.filter (·.from ≠ one.path)
        byKey := index Provider.key (r.providers.filter (·.from ≠ one.path)) }) := by
  rw [takeLibrary, hone]
  rfl

theorem Sound.mem_eraseP (h : Sound r) (hone : r.loaded.find? (·.key = key) = some one) :
    l ∈ r.loaded.eraseP (·.key = key) ↔ l ∈ r.loaded ∧ l ≠ one := by
  have hmem : one ∈ r.loaded := List.mem_of_find?_eq_some hone
  have hkey : one.key = key := by simpa using List.find?_some hone
  constructor
  · intro hl
    have hin : l ∈ r.loaded := List.mem_of_mem_eraseP hl
    refine ⟨hin, fun heq => ?_⟩
    have hnodup : r.loaded.Nodup := h.libraryKeys.of_map _
    obtain ⟨hd, as, bs, -, hp, hsplit, herase⟩ :=
      List.exists_of_eraseP (p := fun l => decide (l.key = key)) hmem (by simpa using hkey)
    have hhead : hd = one := by
      apply List.inj_on_of_nodup_map h.libraryKeys _ hmem
      · rw [hkey]
        simpa using hp
      · rw [hsplit]
        simp only [List.mem_append, List.mem_cons, true_or, or_true]
    rw [hsplit, hhead] at hnodup
    rw [herase, heq] at hl
    have hnot := (List.nodup_middle.mp hnodup).notMem
    exact hnot hl
  · rintro ⟨hl, hne⟩
    refine (List.mem_eraseP_of_neg fun hp => hne ?_).mpr hl
    apply List.inj_on_of_nodup_map h.libraryKeys hl hmem
    rw [hkey]
    simpa using hp

theorem sound_takeLibrary (h : Sound r) {retired : Retired}
    (htake : r.takeLibrary key = some (retired, r')) : Sound r' := by
  cases hone : r.loaded.find? (·.key = key) with
  | none =>
    rw [takeLibrary, hone] at htake
    cases htake
  | some one =>
    rw [takeLibrary_found hone, Option.some.injEq, Prod.mk.injEq] at htake
    rw [← htake.2]
    refine ⟨h.libraryKeys.sublist ?_, h.keys.sublist ?_, rfl, h.leases.sublist ?_, fun l hl => ?_,
      fun p hp => ?_⟩
    · exact (List.eraseP_sublist).map _
    · exact (List.filter_sublist).map _
    · exact (List.eraseP_sublist).map _
    · exact h.below l (List.mem_of_mem_eraseP hl)
    · obtain ⟨hp, hfrom⟩ := List.mem_filter.mp hp
      obtain ⟨l, hl, hlease, hpath, hsource⟩ := h.owned p hp
      refine ⟨l, (h.mem_eraseP hone).mpr ⟨hl, fun heq => ?_⟩, hlease, hpath, hsource⟩
      rw [heq] at hpath
      simp only [ne_eq, decide_eq_true_eq] at hfrom
      exact hfrom hpath.symm

theorem sound_keyedBy (h : Sound r) (template : KeyTemplate) : Sound (r.keyedBy template) := by
  simp only [keyedBy]
  split
  · next hnodup =>
    refine ⟨h.libraryKeys, hnodup, rfl, h.leases, h.below, fun p hp => ?_⟩
    obtain ⟨q, hq, rfl⟩ := List.mem_map.mp hp
    exact h.owned q hq
  · exact h

theorem sound_librariesKeyedBy (h : Sound r) (template : KeyTemplate) :
    Sound (r.librariesKeyedBy template) := by
  simp only [librariesKeyedBy]
  split
  · next hnodup =>
    refine ⟨hnodup, h.keys, h.byKey, ?_, fun l hl => ?_, fun p hp => ?_⟩
    · rw [List.map_map]
      exact h.leases
    · obtain ⟨l', hl', rfl⟩ := List.mem_map.mp hl
      exact h.below l' hl'
    · obtain ⟨l, hl, howns⟩ := h.owned p hp
      exact ⟨_, List.mem_map_of_mem hl, howns⟩
  · exact h

theorem sound_step : Kept step Sound := by
  intro r act r' h hstep
  cases act with
  | load path source want canonical opened =>
    cases hstep
    exact sound_loadFrom h path source want canonical opened
  | registerLocal name want canonical opened =>
    cases hstep
    exact sound_registerLocal h name want canonical opened
  | absorb path source canonical opened =>
    cases hstep
    exact sound_absorb h path source canonical opened
  | retire key =>
    simp only [step, Option.some.injEq] at hstep
    cases htake : r.takeLibrary key with
    | none =>
      rw [htake] at hstep
      exact hstep ▸ h
    | some out =>
      rw [htake] at hstep
      exact hstep ▸ sound_takeLibrary h htake
  | keyedBy template =>
    cases hstep
    exact sound_keyedBy h template
  | librariesKeyedBy template =>
    cases hstep
    exact sound_librariesKeyedBy h template

/-- No other library under this one's path has a provider. -/
def Alone (r : Registry) (one : Loaded) : Prop :=
  ∀ l ∈ r.loaded, l.path = one.path → l.lease ≠ one.lease → ∀ p ∈ r.providers, p.hold ≠ l.lease

instance (r : Registry) (one : Loaded) : Decidable (r.Alone one) := by
  unfold Alone
  infer_instance

/-- The providers under a library's path are its own, where no other library there has any. -/
theorem Sound.from_iff (h : Sound r) (hone : one ∈ r.loaded) (halone : r.Alone one) (hp : p ∈ r.providers) :
    p.from = one.path ↔ p.hold = one.lease := by
  constructor
  · intro hfrom
    obtain ⟨l, hl, hlease, hpath, -⟩ := h.owned p hp
    by_contra hhold
    exact halone l hl (hpath.trans hfrom) (fun heq => hhold (hlease.symm.trans heq)) p hp
      hlease.symm
  · intro hhold
    exact h.from_eq hone hp hhold

/-- The providers `one` registered leave, and are counted; every other is found under its key
as before. -/
def TakesItsOwn (r : Registry) (one : Loaded) (retired : Retired) (r' : Registry) : Prop :=
  r'.providers = r.providers.filter (·.hold ≠ one.lease) ∧
    retired.providers = r.providers.countP (·.hold = one.lease) ∧
    ∀ p ∈ r.providers, p.hold ≠ one.lease → r'.provider p.key = some p

theorem length_sub_filter {α : Type} (P : α → Prop) [DecidablePred P] (xs : List α) :
    xs.length - (xs.filter fun x => ¬ P x).length = xs.countP fun x => P x := by
  have hsplit := List.length_eq_countP_add_countP (fun x => decide (P x)) (l := xs)
  rw [← List.countP_eq_length_filter]
  simp only [Bool.not_eq_true, decide_eq_false_iff_not, decide_not] at hsplit ⊢
  omega

theorem Sound.takesItsOwn_iff (h : Sound r) {retired : Retired}
    (hone : r.loaded.find? (·.key = key) = some one) (htake : r.takeLibrary key = some (retired, r')) :
    r.TakesItsOwn one retired r' ↔ r.Alone one := by
  have hmem : one ∈ r.loaded := List.mem_of_find?_eq_some hone
  have hsound : Sound r' := sound_takeLibrary h htake
  rw [takeLibrary_found hone, Option.some.injEq, Prod.mk.injEq] at htake
  obtain ⟨hretired, hr'⟩ := htake
  constructor
  · rintro ⟨hproviders, -, -⟩ l hl hpath hlease p hp hhold
    -- The other library's provider would leave by its path, but stay by its lease.
    have hin : p ∈ r'.providers := by
      rw [hproviders, List.mem_filter]
      refine ⟨hp, ?_⟩
      rw [hhold]
      simpa using hlease
    rw [← hr'] at hin
    have hstays := (List.mem_filter.mp hin).2
    rw [h.from_eq hl hp hhold, hpath] at hstays
    simp at hstays
  · intro halone
    have hsame : r.providers.filter (·.from ≠ one.path) = r.providers.filter (·.hold ≠ one.lease) :=
      List.filter_congr fun p hp => by simp only [ne_eq, h.from_iff hmem halone hp]
    refine ⟨?_, ?_, fun p hp hhold => ?_⟩
    · rw [← hr']
      exact hsame
    · rw [← hretired]
      simp only
      rw [hsame]
      exact length_sub_filter (·.hold = one.lease) r.providers
    · refine hsound.provider_iff.mpr ⟨?_, rfl⟩
      rw [← hr']
      refine List.mem_filter.mpr ⟨hp, ?_⟩
      simp only [ne_eq, h.from_iff hmem halone hp]
      simpa using hhold

/-- In every state a host's calls come to, retiring a library removes exactly the providers it
registered, answers their count and leaves every other found under its key, just where no other
library recorded under its path has a provider. -/
theorem retire_takesItsOwn {acts : List Act} (hrun : run step new acts = some r) {key : String}
    {one : Loaded} (hone : r.loaded.find? (·.key = key) = some one) {retired : Retired}
    (htake : r.takeLibrary key = some (retired, r')) :
    r.TakesItsOwn one retired r' ↔ r.Alone one :=
  (sound_step.run sound_new hrun).takesItsOwn_iff hone htake

instance (r : Registry) (one : Loaded) (retired : Retired) (r' : Registry) :
    Decidable (r.TakesItsOwn one retired r') := by
  unfold TakesItsOwn
  infer_instance

/-- A library of one provider. -/
def small (id : String) : Except String Opened := .ok (.loaded ⟨id, "1", [⟨id ++ "-p", "", none⟩]⟩)

/-- Two libraries are loaded, each from a path of its own, and one is retired. -/
theorem retire_takesItsOwn_two : ∃ r one retired r',
    run step new [.load (.ofText "a") "" (.ofText "/a") (.ofText "/a") (small "x"),
      .load (.ofText "b") "" (.ofText "/b") (.ofText "/b") (small "y")] = some r ∧
    r.takeLibrary "x" = some (retired, r') ∧ r.TakesItsOwn one retired r' := by
  obtain ⟨r, hrun⟩ : ∃ r, run step new [.load (.ofText "a") "" (.ofText "/a") (.ofText "/a")
      (small "x"), .load (.ofText "b") "" (.ofText "/b") (.ofText "/b") (small "y")] = some r :=
    ⟨_, rfl⟩
  have hone : r.loaded.find? (·.key = "x") =
      some ⟨.ofText "a", "x", "x", "1", "", 1, .ofText "/a", 0⟩ := by
    cases hrun
    decide +kernel
  have halone : r.Alone ⟨.ofText "a", "x", "x", "1", "", 1, .ofText "/a", 0⟩ := by
    cases hrun
    decide +kernel
  exact ⟨r, _, _, _, hrun, takeLibrary_found hone,
    (retire_takesItsOwn hrun hone (takeLibrary_found hone)).mpr halone⟩

/-- The path `a` leads to another file at the second load: the library loaded first takes the
second one's provider with it. -/
theorem retire_takes_another : ∃ r one retired r',
    run step new [.load (.ofText "a") "" (.ofText "/v1") (.ofText "/v1") (small "x"),
      .load (.ofText "a") "" (.ofText "/v2") (.ofText "/v2") (small "y")] = some r ∧
    r.loaded.find? (·.key = "x") = some one ∧ r.takeLibrary "x" = some (retired, r') ∧
    ¬ r.TakesItsOwn one retired r' := by
  obtain ⟨r, hrun⟩ : ∃ r, run step new [.load (.ofText "a") "" (.ofText "/v1") (.ofText "/v1")
      (small "x"), .load (.ofText "a") "" (.ofText "/v2") (.ofText "/v2") (small "y")] = some r :=
    ⟨_, rfl⟩
  have hone : r.loaded.find? (·.key = "x") =
      some ⟨.ofText "a", "x", "x", "1", "", 1, .ofText "/v1", 0⟩ := by
    cases hrun
    decide +kernel
  refine ⟨r, _, _, _, hrun, hone, takeLibrary_found hone, ?_⟩
  cases hrun
  decide +kernel

end Registry

end Guatiao.Library
