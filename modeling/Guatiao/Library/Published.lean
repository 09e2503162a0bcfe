import Guatiao.Lib.Machine
import Guatiao.Library.Ranked

/-!
# What a registry keeps between calls

Keys are unique and filed in the places of their providers, library keys are unique, every provider
has the priority last set for its id, and the snapshot shows the providers in their order. Every
call keeps this; a call that is refused changes nothing.
-/

namespace Guatiao.Library.Ranked

open Lib

/-- A snapshot shows providers in their order: each by an entry with its library's lease, under its
key, with one hold for each library that has one. -/
structure Snapshot.Shows (s : Snapshot) (providers : List Provider) : Prop where
  length : s.entries.length = providers.length
  entry : ∀ (i : ℕ) (p : Provider), providers[i]? = some p → ∃ e : SnapshotEntry,
    s.entries[i]? = some e ∧ e.kinds = p.kinds ∧ e.built = p.built ∧ s.leases[e.lease]? = some p.hold
  byKey : s.byKey = index (fun p : Provider => p.key) providers
  leases : s.leases.Nodup
  held : ∀ lease, lease ∈ s.leases ↔ ∃ p ∈ providers, p.hold = lease

theorem Snapshot.shows_empty : Snapshot.empty.Shows [] where
  length := rfl
  entry i p h := by simp at h
  byKey := rfl
  leases := List.nodup_nil
  held lease := by simp [Snapshot.empty]

/-- A provider more is shown behind the others. -/
theorem Snapshot.Shows.add {s : Snapshot} {providers : List Provider} (h : s.Shows providers)
    (p : Provider) : (s.add p).Shows (providers ++ [p]) := by
  have hheld : ∃ held, held = (s.leases.findIdx? (· == p.hold)).getD s.leases.length ∧
      ((held < s.leases.length ∧ s.leases[held]? = some p.hold) ∨
        (held = s.leases.length ∧ p.hold ∉ s.leases)) := by
    refine ⟨_, rfl, ?_⟩
    cases hfind : s.leases.findIdx? (· == p.hold) with
    | none =>
      right
      refine ⟨rfl, fun hmem => ?_⟩
      have hnone := List.findIdx?_eq_none_iff.mp hfind p.hold hmem
      simp at hnone
    | some i =>
      left
      obtain ⟨hlt, heq, -⟩ := List.findIdx?_eq_some_iff_getElem.mp hfind
      refine ⟨hlt, ?_⟩
      rw [Option.getD_some, List.getElem?_eq_getElem hlt]
      simpa using heq
  obtain ⟨held, hdef, hcase⟩ := hheld
  have hadd : s.add p = ⟨if held < s.leases.length then s.leases else s.leases ++ [p.hold],
      s.byKey.insert p.key s.entries.length, s.entries ++ [⟨p.kinds, held, p.built⟩]⟩ := by
    rw [hdef]
    rfl
  have hgrown : ∀ (i l : ℕ), s.leases[i]? = some l → (s.add p).leases[i]? = some l := by
    intro i l hl
    rw [hadd]
    simp only
    split
    · exact hl
    · rw [List.getElem?_append_left (List.getElem?_eq_some_iff.mp hl).1]
      exact hl
  have hown : (s.add p).leases[held]? = some p.hold := by
    rcases hcase with ⟨-, hl⟩ | ⟨heq, -⟩
    · exact hgrown _ _ hl
    · rw [hadd]
      simp [heq]
  constructor
  · rw [hadd]
    simp [h.length]
  · intro i q hq
    rw [List.getElem?_append] at hq
    split at hq
    · obtain ⟨e, he, hkinds, hbuilt, hlease⟩ := h.entry i q hq
      refine ⟨e, ?_, hkinds, hbuilt, hgrown _ _ hlease⟩
      rw [hadd]
      simp only
      rw [List.getElem?_append_left (List.getElem?_eq_some_iff.mp he).1]
      exact he
    · next hge =>
      obtain ⟨hlt, heq⟩ := List.getElem?_eq_some_iff.mp hq
      rw [List.length_singleton] at hlt
      have hi : i = s.entries.length := by
        have hlength := h.length
        omega
      have hqp : p = q := by simpa using heq
      refine ⟨⟨p.kinds, held, p.built⟩, ?_, by rw [hqp], by rw [hqp], by rw [← hqp]; exact hown⟩
      rw [hadd, hi]
      exact List.getElem?_concat_length
  · rw [hadd, index_append_singleton, h.byKey, h.length]
  · rw [hadd]
    simp only
    split
    · exact h.leases
    · next hge =>
      rcases hcase with ⟨hlt, -⟩ | ⟨-, hnot⟩
      · exact absurd hlt hge
      · rw [List.nodup_append]
        refine ⟨h.leases, List.nodup_singleton _, fun l hl l' hl' heq => ?_⟩
        rw [List.mem_singleton.mp hl'] at heq
        exact hnot (heq ▸ hl)
  · intro lease
    have hmem : lease ∈ (s.add p).leases ↔ lease ∈ s.leases ∨ lease = p.hold := by
      rw [hadd]
      simp only
      split
      · next hlt =>
        rcases hcase with ⟨-, hl⟩ | ⟨heq, -⟩
        · constructor
          · exact .inl
          · rintro (hl' | rfl)
            · exact hl'
            · exact List.mem_of_getElem? hl
        · omega
      · simp
    rw [hmem, h.held]
    constructor
    · rintro (⟨q, hq, rfl⟩ | rfl)
      · exact ⟨q, List.mem_append_left _ hq, rfl⟩
      · exact ⟨p, by simp, rfl⟩
    · rintro ⟨q, hq, rfl⟩
      rcases List.mem_append.mp hq with hq | hq
      · exact .inl ⟨q, hq, rfl⟩
      · exact .inr (by rw [List.mem_singleton.mp hq])

theorem shows_foldl (providers : List Provider) :
    (providers.foldl Snapshot.add .empty).Shows providers := by
  induction providers using List.reverseRecOn with
  | nil => exact Snapshot.shows_empty
  | append_singleton providers p ih =>
    rw [List.foldl_append]
    exact ih.add p

/-- Whether a provider goes before another: by its priority, then by its key. -/
def Before (a b : Provider) : Prop :=
  b.priority < a.priority ∨ a.priority = b.priority ∧ a.key < b.key

theorem ranked_before {providers : List Provider} (h : (providers.map (·.key)).Nodup) :
    (ranked providers).Pairwise Before := by
  have hperm : (ranked providers).Perm providers := List.mergeSort_perm _ _
  have hsorted : (ranked providers).Pairwise fun a b => ahead a b = true := by
    apply List.pairwise_mergeSort
    · intro a b c hab hbc
      simp only [ahead, Bool.or_eq_true, decide_eq_true_eq, Bool.and_eq_true, beq_iff_eq] at *
      rcases hab with hab | ⟨hab, hkey⟩ <;> rcases hbc with hbc | ⟨hbc, hkey'⟩
      · exact .inl (hbc.trans hab)
      · exact .inl (hbc ▸ hab)
      · exact .inl (hab ▸ hbc)
      · exact .inr ⟨hab.trans hbc, hkey.trans hkey'⟩
    · intro a b
      simp only [ahead, Bool.or_eq_true, decide_eq_true_eq, Bool.and_eq_true, beq_iff_eq]
      rcases lt_trichotomy a.priority b.priority with hlt | heq | hgt
      · exact .inr (.inl hlt)
      · rcases le_total a.key b.key with hle | hle
        · exact .inl (.inr ⟨heq, hle⟩)
        · exact .inr (.inr ⟨heq.symm, hle⟩)
      · exact .inl (.inl hgt)
  have hkeys : (ranked providers).Pairwise fun a b => a.key ≠ b.key :=
    List.pairwise_map.mp ((hperm.map _).nodup_iff.mpr h)
  apply (hsorted.and hkeys).imp
  rintro a b ⟨hahead, hne⟩
  simp only [ahead, Bool.or_eq_true, decide_eq_true_eq, Bool.and_eq_true, beq_iff_eq] at hahead
  rcases hahead with hlt | ⟨heq, hle⟩
  · exact .inl hlt
  · exact .inr ⟨heq, lt_of_le_of_ne hle hne⟩

namespace Registry

/-- What holds between any two calls. -/
structure Sound (r : Registry) : Prop where
  keys : (r.providers.map (·.key)).Nodup
  byKey : r.byKey = index (fun p : Provider => p.key) r.providers
  libraryKeys : (r.loaded.map (·.key)).Nodup
  priorities : ∀ p ∈ r.providers, p.priority = r.priority p.id
  snapshot : r.snapshot = (ranked r.providers).foldl Snapshot.add .empty

theorem sound_new : Sound new where
  keys := .nil
  byKey := rfl
  libraryKeys := .nil
  priorities p hp := absurd hp List.not_mem_nil
  snapshot := by simp [new, ranked]

variable {r : Registry}

theorem sound_publish (hkeys : (r.providers.map (·.key)).Nodup)
    (hbyKey : r.byKey = index (fun p : Provider => p.key) r.providers)
    (hlibraryKeys : (r.loaded.map (·.key)).Nodup)
    (hpriorities : ∀ p ∈ r.providers, p.priority = r.priority p.id) : Sound r.publish where
  keys := hkeys
  byKey := hbyKey
  libraryKeys := hlibraryKeys
  priorities := hpriorities
  snapshot := rfl

theorem Sound.provider_iff (h : Sound r) {key : String} {p : Provider} :
    r.provider key = some p ↔ p ∈ r.providers ∧ p.key = key := by
  rw [provider, h.byKey]
  exact find_index h.keys

theorem take_ok {path : Path} {source : String} {library : LibraryView} {views : List ProviderView}
    {taken out : List (ProviderView × String)} {skipped passed : List PassedOver}
    (h : r.take path source library views taken skipped = .ok (out, passed))
    (hnodup : (taken.map Prod.snd).Nodup) (hnew : ∀ t ∈ taken, r.provider t.2 = none) :
    (out.map Prod.snd).Nodup ∧ ∀ t ∈ out, r.provider t.2 = none := by
  induction views generalizing taken skipped with
  | nil =>
    obtain ⟨rfl, -⟩ := Prod.mk.inj (Except.ok.inj h)
    exact ⟨hnodup, hnew⟩
  | cons view rest ih =>
    simp only [take] at h
    split at h
    · next hholder =>
      unfold holder at hholder
      split at hholder
      · cases hholder
      · next hnone =>
        rw [Option.map_eq_none_iff, List.find?_eq_none] at hholder
        apply ih h
        · rw [List.map_append, List.nodup_append]
          refine ⟨hnodup, List.nodup_singleton _, fun k hk k' hk' heq => ?_⟩
          obtain ⟨t, ht, rfl⟩ := List.mem_map.mp hk
          rw [List.map_singleton, List.mem_singleton] at hk'
          exact hholder t ht (by simpa using heq.trans hk')
        · intro t ht
          rcases List.mem_append.mp ht with ht | ht
          · exact hnew t ht
          · rw [List.mem_singleton.mp ht]
            exact hnone
    · split at h
      · exact ih h hnodup hnew
      · cases h

theorem push_all {r : Registry} (hbyKey : r.byKey = index (fun p : Provider => p.key) r.providers)
    (more : List Provider) : more.foldl push r = { r with
      providers := r.providers ++ more
      byKey := index (fun p : Provider => p.key) (r.providers ++ more) } := by
  induction more generalizing r with
  | nil =>
    rw [List.append_nil, ← hbyKey]
    rfl
  | cons p rest ih =>
    have hone : (r.push p).byKey = index (fun p : Provider => p.key) (r.push p).providers := by
      simp only [push, hbyKey, index_append_singleton]
    rw [List.foldl_cons, ih hone]
    simp only [push, List.append_assoc, List.cons_append, List.nil_append]

theorem sound_absorb (h : Sound r) (path : Path) (source : String) (canonical : Path)
    (opened : Opened) : Sound (r.absorb path source canonical opened).2 := by
  cases opened with
  | loaded library =>
    simp only [absorb]
    split
    · exact h
    · next hfresh =>
      split
      · exact h
      · next taken skipped htaken =>
        obtain ⟨hnodup, hnew⟩ := take_ok htaken .nil fun t ht => absurd ht List.not_mem_nil
        have hkeys : (taken.zipIdx.map (r.provided path source library)).map (·.key) =
            taken.map Prod.snd := by
          rw [List.map_map]
          have hfst : taken.map Prod.snd = (taken.zipIdx.map Prod.fst).map Prod.snd := by
            rw [List.zipIdx_map_fst]
          rw [hfst, List.map_map]
          rfl
        rw [push_all h.byKey]
        apply sound_publish
        · simp only [List.map_append, hkeys, List.nodup_append]
          refine ⟨h.keys, hnodup, fun k hk k' hk' heq => ?_⟩
          obtain ⟨p, hp, rfl⟩ := List.mem_map.mp hk
          obtain ⟨t, ht, rfl⟩ := List.mem_map.mp hk'
          have hfound := h.provider_iff.mpr ⟨hp, heq⟩
          rw [hnew t ht] at hfound
          cases hfound
        · rfl
        · simp only [List.map_append, List.map_cons, List.map_nil, List.nodup_append]
          refine ⟨h.libraryKeys, List.nodup_singleton _, fun k hk k' hk' heq => ?_⟩
          obtain ⟨l, hl, rfl⟩ := List.mem_map.mp hk
          rw [List.mem_singleton] at hk'
          rw [List.find?_eq_none] at hfresh
          exact hfresh l hl (by simpa using heq.trans hk')
        · intro p hp
          rcases List.mem_append.mp hp with hp | hp
          · exact h.priorities p hp
          · obtain ⟨t, -, rfl⟩ := List.mem_map.mp hp
            rfl
  | _ => exact h

theorem sound_retire (h : Sound r) (key : String) : Sound (r.retire key).2 := by
  unfold retire
  split
  · exact h
  · apply sound_publish
    · exact h.keys.sublist (List.filter_sublist.map _)
    · rfl
    · exact h.libraryKeys.sublist (List.eraseP_sublist.map _)
    · exact fun p hp => h.priorities p (List.mem_filter.mp hp).1

theorem fileFrom_ok {xs : List String} {filed : SortedMap String ℕ} (before : List String)
    (hbefore : before.Nodup) (h : fileFrom before.length xs (index id before) = .ok filed) :
    (before ++ xs).Nodup ∧ filed = index id (before ++ xs) := by
  induction xs generalizing before with
  | nil =>
    rw [List.append_nil]
    exact ⟨hbefore, (Except.ok.inj h).symm⟩
  | cons key rest ih =>
    simp only [fileFrom] at h
    split at h
    · cases h
    · next hfree =>
      have hnot : key ∉ before := by
        intro hmem
        obtain ⟨i, hi⟩ := List.mem_iff_getElem?.mp hmem
        have hget : (index id before).get key = some i :=
          (get_index (by rw [List.map_id]; exact hbefore)).mpr ⟨key, hi, rfl⟩
        rw [hget] at hfree
        exact hfree rfl
      have hlonger : (before ++ [key]).Nodup := by
        rw [List.nodup_append]
        refine ⟨hbefore, List.nodup_singleton _, fun k hk k' hk' heq => ?_⟩
        rw [List.mem_singleton.mp hk'] at heq
        exact hnot (heq ▸ hk)
      have hfile : fileFrom (before ++ [key]).length rest (index id (before ++ [key])) = .ok filed := by
        rw [index_append_singleton, List.length_append]
        exact h
      have hrest := ih _ hlonger hfile
      rw [List.append_assoc] at hrest
      exact hrest

theorem fileFrom_error {xs : List String} {e : KeyError} (before : List String)
    (h : fileFrom before.length xs (index id before) = .error e) : ¬(before ++ xs).Nodup := by
  intro hnodup
  induction xs generalizing before with
  | nil => cases h
  | cons key rest ih =>
    have hsplit : before ++ key :: rest = before ++ [key] ++ rest := by simp
    have hbefore : (before.map id).Nodup := by
      rw [List.map_id]
      exact hnodup.of_append_left
    simp only [fileFrom] at h
    split at h
    · next htaken =>
      obtain ⟨i, hi⟩ := Option.isSome_iff_exists.mp htaken
      obtain ⟨k, hk, rfl⟩ := (get_index hbefore).mp hi
      exact List.disjoint_of_nodup_append hnodup (List.mem_of_getElem? hk) (List.mem_cons_self ..)
    · apply ih (before ++ [key])
      · rw [index_append_singleton, List.length_append]
        exact h
      · rw [← hsplit]
        exact hnodup

theorem index_map {X : Type} (key : X → String) (xs : List X) :
    index id (xs.map key) = index key xs := by
  simp [index, List.zipIdx_map, List.foldl_map]

theorem sound_keyedBy (h : Sound r) (template : KeyTemplate) : Sound (r.keyedBy template).2 := by
  simp only [keyedBy]
  split
  · exact h
  · next byKey hfiled =>
    obtain ⟨hnodup, hindex⟩ := fileFrom_ok [] .nil hfiled
    rw [List.nil_append] at hnodup hindex
    have hzip : r.providers.zipWith (fun p key => { p with key := key })
        (r.providers.map fun p => template.render p.fields) =
          r.providers.map fun p => { p with key := template.render p.fields } := by
      rw [List.zipWith_map_right, List.zipWith_self]
    have hkeys : (r.providers.map fun p => { p with key := template.render p.fields }).map (·.key) =
        r.providers.map fun p => template.render p.fields := by
      rw [List.map_map]
      rfl
    rw [hzip]
    apply sound_publish
    · simp only [hkeys]
      exact hnodup
    · rw [hindex, ← hkeys, index_map]
    · exact h.libraryKeys
    · intro p hp
      obtain ⟨q, hq, rfl⟩ := List.mem_map.mp hp
      exact h.priorities q hq

theorem sound_librariesKeyedBy (h : Sound r) (template : KeyTemplate) :
    Sound (r.librariesKeyedBy template).2 := by
  unfold librariesKeyedBy
  split
  · exact h
  · next byKey hfiled =>
    obtain ⟨hnodup, -⟩ := fileFrom_ok [] .nil hfiled
    rw [List.nil_append] at hnodup
    refine ⟨h.keys, h.byKey, ?_, h.priorities, h.snapshot⟩
    rw [List.map_map]
    exact hnodup

theorem sound_setPriority (h : Sound r) (id : String) (priority : ℤ) :
    Sound (r.setPriority id priority) := by
  have hkeys : (r.providers.map fun p => if p.id = id then { p with priority := priority } else p).map
      (·.key) = r.providers.map (·.key) := by
    rw [List.map_map]
    apply List.map_congr_left
    intro p _
    simp only [Function.comp_apply]
    split <;> rfl
  apply sound_publish
  · simp only [hkeys]
    exact h.keys
  · rw [← index_map]
    simp only [hkeys]
    rw [index_map]
    exact h.byKey
  · exact h.libraryKeys
  · intro p hp
    obtain ⟨q, hq, rfl⟩ := List.mem_map.mp hp
    simp only [Registry.priority, SortedMap.get_insert]
    by_cases hid : q.id = id
    · simp [hid]
    · simp only [if_neg hid]
      exact h.priorities q hq

theorem sound_step : Kept step Sound := by
  intro r act r' h hstep
  cases act with
  | absorb path source canonical opened =>
    obtain rfl := Option.some.inj hstep
    exact sound_absorb h path source canonical opened
  | retire key =>
    obtain rfl := Option.some.inj hstep
    exact sound_retire h key
  | keyedBy template =>
    obtain rfl := Option.some.inj hstep
    exact sound_keyedBy h template
  | librariesKeyedBy template =>
    obtain rfl := Option.some.inj hstep
    exact sound_librariesKeyedBy h template
  | setPriority id priority =>
    obtain rfl := Option.some.inj hstep
    exact sound_setPriority h id priority

/-- What a call leaves an id ranked. -/
def Act.ranks (id : String) (last : ℤ) : Act → ℤ
  | .setPriority other priority => if other = id then priority else last
  | _ => last

/-- What the calls of a run last ranked an id: zero where none did. -/
def lastSet (id : String) (acts : List Act) : ℤ := acts.foldl (Act.ranks id) 0

theorem priorities_push (more : List Provider) (r : Registry) :
    (more.foldl push r).priorities = r.priorities := by
  induction more generalizing r with
  | nil => rfl
  | cons p rest ih =>
    rw [List.foldl_cons, ih]
    rfl

theorem priorities_absorb (path : Path) (source : String) (canonical : Path) (opened : Opened) :
    (r.absorb path source canonical opened).2.priorities = r.priorities := by
  cases opened with
  | loaded library =>
    simp only [absorb]
    split
    · rfl
    · split
      · rfl
      · exact priorities_push _ r
  | _ => rfl

theorem priority_step {r' : Registry} {act : Act} (h : step r act = some r') (id : String) :
    r'.priority id = act.ranks id (r.priority id) := by
  cases act with
  | absorb path source canonical opened =>
    obtain rfl := Option.some.inj h
    simp only [priority, priorities_absorb, Act.ranks]
  | retire key =>
    obtain rfl := Option.some.inj h
    simp only [retire]
    split <;> rfl
  | keyedBy template =>
    obtain rfl := Option.some.inj h
    simp only [keyedBy]
    split <;> rfl
  | librariesKeyedBy template =>
    obtain rfl := Option.some.inj h
    simp only [librariesKeyedBy]
    split <;> rfl
  | setPriority other priority =>
    obtain rfl := Option.some.inj h
    simp only [setPriority, publish, Registry.priority, SortedMap.get_insert, Act.ranks]
    by_cases hid : other = id
    · simp [hid]
    · rw [if_neg (Ne.symm hid), if_neg hid]

theorem priority_run {r' : Registry} {acts : List Act} (h : run step r acts = some r')
    (id : String) : r'.priority id = acts.foldl (Act.ranks id) (r.priority id) := by
  induction acts generalizing r with
  | nil =>
    cases h
    rfl
  | cons act rest ih =>
    obtain ⟨m, hstep, hrest⟩ := run_cons.mp h
    rw [ih hrest, priority_step hstep, List.foldl_cons]

/-- After every run of calls the provider keys are distinct, and the index leads from each to its
place and from nothing else; the library keys are distinct; each provider is ranked as the run last
ranked its id; and the snapshot shows the providers from the best to the last. -/
theorem published (acts : List Act) (h : run step new acts = some r) :
    (r.providers.map (·.key)).Nodup ∧
    (∀ key i, r.byKey.get key = some i ↔ ∃ p, r.providers[i]? = some p ∧ p.key = key) ∧
    (r.loaded.map (·.key)).Nodup ∧
    (∀ p ∈ r.providers, p.priority = lastSet p.id acts) ∧
    ∃ order : List Provider,
      order.Perm r.providers ∧ order.Pairwise Before ∧ r.snapshot.Shows order := by
  have hsound : Sound r := sound_step.run sound_new h
  refine ⟨hsound.keys, fun key i => ?_, hsound.libraryKeys, fun p hp => ?_, ranked r.providers,
    List.mergeSort_perm _ _, ranked_before hsound.keys, ?_⟩
  · rw [hsound.byKey]
    exact get_index hsound.keys
  · rw [hsound.priorities p hp, priority_run h]
    rfl
  · rw [hsound.snapshot]
    exact shows_foldl _

/-- A library with two providers, ranked before and after it is loaded. -/
theorem published_two : ∃ r : Registry, run step new [.setPriority "b" 2,
      .absorb (.ofText "a.so") "" (.ofText "a.so")
        (.loaded ⟨"lib", "1", [⟨⟨"a", "A", none⟩, ["source"]⟩, ⟨⟨"b", "B", none⟩, []⟩]⟩),
      .setPriority "a" 3] = some r ∧ r.providers.map (·.priority) = [3, 2] ∧
    (r.providers.map (·.key)).Nodup := by
  refine ⟨_, rfl, by decide, ?_⟩
  apply (published [.setPriority "b" 2,
    .absorb (.ofText "a.so") "" (.ofText "a.so")
      (.loaded ⟨"lib", "1", [⟨⟨"a", "A", none⟩, ["source"]⟩, ⟨⟨"b", "B", none⟩, []⟩]⟩),
    .setPriority "a" 3] ?_).1
  rfl

/-- A load that is passed over or refused leaves the registry as it was, and so does a template by
which two have one key. -/
theorem refused (r : Registry) :
    (∀ (path canonical : Path) (source : String) (opened : Opened),
      (∀ one, (r.absorb path source canonical opened).1 ≠ .loaded one) →
        (r.absorb path source canonical opened).2 = r) ∧
    (∀ (template : KeyTemplate) (e : KeyError), (r.keyedBy template).1 = .error e →
      ¬(r.providers.map fun p => template.render p.fields).Nodup ∧ (r.keyedBy template).2 = r) ∧
    ∀ (template : KeyTemplate) (e : KeyError), (r.librariesKeyedBy template).1 = .error e →
      ¬(r.loaded.map fun l => template.render l.fields).Nodup ∧
        (r.librariesKeyedBy template).2 = r := by
  refine ⟨fun path canonical source opened hnot => ?_, fun template e he => ?_,
    fun template e he => ?_⟩
  · cases opened with
    | loaded library =>
      simp only [absorb] at hnot ⊢
      cases hfound : r.loaded.find? (·.key = r.libraryKey.render
        (.ofLibrary library.id library.version source)) with
      | some already => simp only
      | none =>
        simp only [hfound] at hnot ⊢
        cases htaken : r.take path source library library.providers [] [] with
        | error e => simp only
        | ok out =>
          simp only [htaken] at hnot
          exact absurd rfl (hnot _)
    | _ => rfl
  · simp only [keyedBy] at he ⊢
    split at he
    · next e' hfiled =>
      exact ⟨fileFrom_error [] hfiled, rfl⟩
    · cases he
  · simp only [librariesKeyedBy] at he ⊢
    split at he
    · next e' hfiled =>
      exact ⟨fileFrom_error [] hfiled, rfl⟩
    · cases he

/-- Two providers of one library, named by their library. -/
theorem refused_collision :
    ∃ r : Registry, run step new [.absorb (.ofText "a.so") "" (.ofText "a.so")
        (.loaded ⟨"lib", "1", [⟨⟨"a", "A", none⟩, []⟩, ⟨⟨"b", "B", none⟩, []⟩]⟩)] = some r ∧
      (r.keyedBy [.field .library]).2 = r :=
  ⟨_, rfl, ((refused _).2.1 [.field .library] (.collides "lib") (by rfl)).2⟩

end Registry

end Guatiao.Library.Ranked
