import Guatiao.Lib.Yields
import Guatiao.Merge.Merge

/-!
# What a merge builds

Under each key and at each position of the result, what the two sides had there decides
what there is now. And what is built from maps with distinct keys has distinct keys.
-/

namespace Guatiao.Merge

open Lib

section Plain

variable {T : Type}

variable {later earlier : List (String × T)}

theorem get_mergeKept {child : String → T → T → Except MergeError T}
    {out merged : List (String × T)} (h : mergeKept child later earlier out = .ok merged)
    (hnodup : (AssocList.keys earlier).Nodup) (key : String) :
    (AssocList.get key earlier = none → AssocList.get key merged = AssocList.get key out) ∧
      ∀ e, AssocList.get key earlier = some e →
        match AssocList.get key later with
        | some l => ∃ c, child key e l = .ok c ∧ AssocList.get key merged = some c
        | none => AssocList.get key merged = some e := by
  induction earlier generalizing out with
  | nil =>
    cases h
    refine ⟨fun _ => rfl, fun e he => ?_⟩
    cases he
  | cons p rest ih =>
    obtain ⟨k, v⟩ := p
    rw [AssocList.keys_cons, List.nodup_cons] at hnodup
    simp only [mergeKept] at h
    simp only [AssocList.get]
    by_cases hk : k = key
    · subst hk
      have hrest : AssocList.get k rest = none := AssocList.get_eq_none_iff.mpr hnodup.1
      rw [if_pos rfl]
      refine ⟨fun hnone => absurd hnone (Option.some_ne_none v), ?_⟩
      rintro e ⟨⟩
      cases hl : AssocList.get k later with
      | none =>
        rw [hl] at h
        have := (ih h hnodup.2).1 hrest
        rwa [AssocList.get_set_self] at this
      | some l =>
        simp only [hl] at h
        cases hc : child k v l with
        | error e =>
          rw [hc] at h
          cases h
        | ok c =>
          rw [hc] at h
          have := (ih h hnodup.2).1 hrest
          rw [AssocList.get_set_self] at this
          exact ⟨c, hc, this⟩
    · rw [if_neg hk]
      have hstep : ∃ c, mergeKept child later rest (AssocList.set k c out) = .ok merged := by
        cases hl : AssocList.get k later with
        | none =>
          rw [hl] at h
          exact ⟨v, h⟩
        | some l =>
          simp only [hl] at h
          cases hc : child k v l with
          | error e =>
            rw [hc] at h
            cases h
          | ok c =>
            rw [hc] at h
            exact ⟨c, h⟩
      obtain ⟨c, h⟩ := hstep
      have := ih h hnodup.2
      rwa [AssocList.get_set_of_ne (Ne.symm hk)] at this

theorem get_mergeNew {out : List (String × T)}
    (hnodup : (AssocList.keys later).Nodup) (key : String) :
    AssocList.get key (mergeNew earlier later out) =
      if (AssocList.get key earlier).isSome then AssocList.get key out
      else (AssocList.get key later).or (AssocList.get key out) := by
  induction later generalizing out with
  | nil => simp [mergeNew]
  | cons p rest ih =>
    obtain ⟨k, v⟩ := p
    rw [AssocList.keys_cons, List.nodup_cons] at hnodup
    simp only [mergeNew, AssocList.get]
    by_cases hk : k = key
    · subst hk
      have hrest : AssocList.get k rest = none := AssocList.get_eq_none_iff.mpr hnodup.1
      rw [if_pos rfl]
      split
      · next hcontains =>
        rw [AssocList.contains] at hcontains
        rw [ih hnodup.2, if_pos hcontains, if_pos hcontains]
      · next hcontains =>
        rw [AssocList.contains] at hcontains
        rw [ih hnodup.2, if_neg hcontains, if_neg hcontains, hrest, AssocList.get_set_self]
        rfl
    · rw [if_neg hk]
      split
      · exact ih hnodup.2
      · rw [ih hnodup.2, AssocList.get_set_of_ne (Ne.symm hk)]

theorem get_mergeMapsRecursively {child : String → T → T → Except MergeError T}
    {merged : List (String × T)}
    (h : mergeMapsRecursively child earlier later = .ok merged)
    (hearlier : (AssocList.keys earlier).Nodup) (hlater : (AssocList.keys later).Nodup)
    (key : String) :
    match AssocList.get key earlier, AssocList.get key later with
    | some e, some l => ∃ c, child key e l = .ok c ∧ AssocList.get key merged = some c
    | some e, none => AssocList.get key merged = some e
    | none, l => AssocList.get key merged = l := by
  unfold mergeMapsRecursively at h
  cases hkept : mergeKept child later earlier [] with
  | error e =>
    rw [hkept] at h
    cases h
  | ok kept =>
    rw [hkept] at h
    cases h
    obtain ⟨hnone, hsome⟩ := get_mergeKept hkept hearlier key
    rw [get_mergeNew hlater]
    cases he : AssocList.get key earlier with
    | none =>
      rw [hnone he]
      simp
    | some e =>
      have := hsome e he
      cases hl : AssocList.get key later with
      | none =>
        rw [hl] at this
        simpa using this
      | some l =>
        rw [hl] at this
        simpa using this

theorem getElem?_overwritePositionally {merge : T → T → Except MergeError T}
    {earlier later merged : List T} (h : overwritePositionally merge earlier later = .ok merged)
    (at_ : ℕ) :
    match earlier[at_]?, later[at_]? with
    | some e, some l => ∃ c, merge e l = .ok c ∧ merged[at_]? = some c
    | some e, none => merged[at_]? = some e
    | none, l => merged[at_]? = l := by
  induction earlier generalizing later merged at_ with
  | nil =>
    cases later <;> cases h <;> simp
  | cons e earlier ih =>
    cases later with
    | nil =>
      cases h
      cases (e :: earlier)[at_]? <;> simp
    | cons l later =>
      simp only [overwritePositionally] at h
      cases hc : merge e l with
      | error e' =>
        rw [hc] at h
        cases h
      | ok c =>
        rw [hc] at h
        cases hrest : overwritePositionally merge earlier later with
        | error e' =>
          rw [hrest] at h
          cases h
        | ok rest =>
          rw [hrest] at h
          cases h
          cases at_ with
          | zero => exact ⟨c, hc, rfl⟩
          | succ at_ => simpa using ih hrest at_

end Plain

section Get

variable {T : Type} [Node T]

open Node

theorem get_replaceEntries {out later : List (String × T)}
    (hnodup : (AssocList.keys later).Nodup) (key : String) :
    AssocList.get key (replaceEntries out later) =
      match AssocList.get key later with
      | some v =>
        if kind v = .absent ∧ (AssocList.get key out).isSome then AssocList.get key out else some v
      | none => AssocList.get key out := by
  induction later generalizing out with
  | nil => rfl
  | cons p rest ih =>
    obtain ⟨k, v⟩ := p
    rw [AssocList.keys_cons, List.nodup_cons] at hnodup
    simp only [replaceEntries, AssocList.get]
    by_cases hk : k = key
    · subst hk
      have hrest : AssocList.get k rest = none := AssocList.get_eq_none_iff.mpr hnodup.1
      rw [if_pos rfl]
      by_cases hkeep : kind v = .absent ∧ (AssocList.get k out).isSome
      · rw [if_pos (by simpa [AssocList.contains] using hkeep), ih hnodup.2, hrest]
        exact (if_pos hkeep).symm
      · rw [if_neg (by simpa [AssocList.contains] using hkeep), ih hnodup.2, hrest]
        simp only [AssocList.get_set_self]
        exact (if_neg hkeep).symm
    · rw [if_neg hk]
      split
      · exact ih hnodup.2
      · rw [ih hnodup.2, AssocList.get_set_of_ne (Ne.symm hk)]

variable {later built : List T} {options : MergeOptions} {below : Step T} {path : List String} {item : T}

theorem pushUnique_eq_self (h : ∀ item ∈ later, isMap item = false ∧ held built item = true) :
    pushUnique built later = built := by
  induction later with
  | nil => rfl
  | cons item rest ih =>
    obtain ⟨hmap, hheld⟩ := h item (List.mem_cons_self ..)
    rw [pushUnique, hmap, hheld]
    exact ih fun i hi => h i (List.mem_cons_of_mem _ hi)

theorem mergePositions_of_noMaps {merge : String → T → T → Except MergeError T}
    (h : ∀ item ∈ later, isMap item = false) (at_ : ℕ) (built : List T) :
    mergePositions merge later at_ built = .ok built := by
  induction built generalizing at_ with
  | nil => rfl
  | cons item rest ih =>
    have hpartner : partner later item at_ = none := by
      unfold partner
      cases hget : later[at_]? with
      | none => rfl
      | some l => simp [Option.filter, h l (List.mem_of_getElem? hget)]
    rw [mergePositions, hpartner, ih]
    rfl

theorem leftOver_of_noMaps
    (h : ∀ item ∈ later, isMap item = false) : leftOver built later = [] := by
  unfold leftOver
  rw [List.map_eq_nil_iff, List.filter_eq_nil_iff]
  rintro ⟨l, at_⟩ hmem
  simp [h l (List.fst_mem_of_mem_zipIdx hmem)]

theorem unionLists_eq_self {earlier : List T}
    (h : ∀ item ∈ later, isMap item = false ∧ held earlier item = true) :
    unionLists options below path earlier later = .ok earlier := by
  have hmaps := fun item hitem => (h item hitem).1
  unfold unionLists
  rw [pushUnique_eq_self h]
  split
  · rw [mergePositions_of_noMaps hmaps, leftOver_of_noMaps hmaps]
    exact congrArg Except.ok (List.append_nil earlier)
  · rw [List.filter_eq_nil_iff.mpr fun item hitem => by simp [hmaps item hitem], List.append_nil]

theorem mem_pushUnique
    (h : item ∈ pushUnique built later) : item ∈ built ∨ item ∈ later ∧ isMap item = false := by
  induction later generalizing built with
  | nil => exact .inl h
  | cons i rest ih =>
    simp only [pushUnique] at h
    split at h
    · next hpush =>
      rcases ih h with h | ⟨h, hmap⟩
      · rcases List.mem_append.mp h with h | h
        · exact .inl h
        · rw [List.mem_singleton.mp h]
          exact .inr ⟨List.mem_cons_self .., by simp_all⟩
      · exact .inr ⟨List.mem_cons_of_mem _ h, hmap⟩
    · rcases ih h with h | ⟨h, hmap⟩
      · exact .inl h
      · exact .inr ⟨List.mem_cons_of_mem _ h, hmap⟩

theorem mem_leftOver (h : item ∈ leftOver built later) :
    item ∈ later := by
  obtain ⟨⟨l, at_⟩, hmem, rfl⟩ := List.mem_map.mp h
  exact List.fst_mem_of_mem_zipIdx (List.mem_filter.mp hmem).1

theorem mergePositions_of_builtNoMaps {merge : String → T → T → Except MergeError T}
    (h : ∀ item ∈ built, isMap item = false) (at_ : ℕ) :
    mergePositions merge later at_ built = .ok built := by
  induction built generalizing at_ with
  | nil => rfl
  | cons item rest ih =>
    have hpartner : partner later item at_ = none := by
      unfold partner
      cases later[at_]? with
      | none => rfl
      | some l => simp [Option.filter, h item (List.mem_cons_self ..)]
    rw [mergePositions, hpartner, ih fun i hi => h i (List.mem_cons_of_mem _ hi)]
    rfl

theorem mem_unionLists_nil {merged : List T} (h : unionLists options below path [] later = .ok merged)
    (hitem : item ∈ merged) : item ∈ later := by
  have hbuilt : ∀ i ∈ pushUnique [] later, i ∈ later ∧ isMap i = false := fun i hi =>
    (mem_pushUnique hi).resolve_left (by simp)
  unfold unionLists at h
  split at h
  · rw [mergePositions_of_builtNoMaps fun i hi => (hbuilt i hi).2] at h
    cases h
    rcases List.mem_append.mp hitem with hitem | hitem
    · exact (hbuilt item hitem).1
    · exact mem_leftOver hitem
  · cases h
    rcases List.mem_append.mp hitem with hitem | hitem
    · exact (hbuilt item hitem).1
    · exact (List.mem_filter.mp hitem).1

theorem prefix_pushUnique (built later : List T) : built <+: pushUnique built later := by
  induction later generalizing built with
  | nil => exact List.prefix_refl _
  | cons item rest ih =>
    rw [pushUnique]
    split
    · exact (List.prefix_append built [item]).trans (ih _)
    · exact ih built

theorem mem_leftOver_of_isMap (hbuilt : ∀ item ∈ built, isMap item = false) (hitem : item ∈ later)
    (hmap : isMap item = true) : item ∈ leftOver built later := by
  obtain ⟨at_, hat⟩ := List.mem_iff_getElem?.mp hitem
  refine List.mem_map.mpr ⟨(item, at_), List.mem_filter.mpr ⟨?_, ?_⟩, rfl⟩
  · exact List.mk_mem_zipIdx_iff_getElem?.mpr hat
  · have hpartner : ∀ i ∈ built[at_]?, (partner later i at_).isSome = false := by
      intro i hi
      simp [partner, hat, hbuilt i (List.mem_of_getElem? hi), Option.filter]
    have hany : (built[at_]?).any (fun i => (partner later i at_).isSome) = false := by
      cases hget : built[at_]? with
      | none => rfl
      | some i => exact hpartner i hget
    simp only [hmap, hany, Bool.not_false, Bool.and_self]

theorem unionLists_nil_ne_nil {merged : List T} (h : unionLists options below path [] later = .ok merged)
    (hlater : later ≠ []) : merged ≠ [] := by
  have hbuilt : ∀ i ∈ pushUnique [] later, isMap i = false := fun i hi =>
    ((mem_pushUnique hi).resolve_left (by simp)).2
  cases later with
  | nil => exact absurd rfl hlater
  | cons item rest =>
    by_cases hmap : isMap item = true
    · -- A map is left over, there being no map to merge it into.
      have hmem : item ∈ merged := by
        unfold unionLists at h
        split at h
        · rw [mergePositions_of_builtNoMaps hbuilt] at h
          cases h
          exact List.mem_append_right _ (mem_leftOver_of_isMap hbuilt (List.mem_cons_self ..) hmap)
        · cases h
          exact List.mem_append_right _ (List.mem_filter.mpr ⟨List.mem_cons_self .., hmap⟩)
      exact List.ne_nil_of_mem hmem
    · have hne : pushUnique [] (item :: rest) ≠ [] := by
        intro hnil
        have hpush : pushUnique [] (item :: rest) = pushUnique [item] rest := by
          simp [pushUnique, held, hmap]
        have hstarts := prefix_pushUnique [item] rest
        rw [← hpush, hnil] at hstarts
        simp at hstarts
      unfold unionLists at h
      split at h
      · rw [mergePositions_of_builtNoMaps hbuilt] at h
        cases h
        simp [hne]
      · cases h
        simp [hne]

end Get

section Distinct

theorem distinct_set {key : String} {v : Value} {out : List Entry}
    (hout : (Value.map out).Distinct) (hv : v.Distinct) :
    (Value.map (AssocList.set key v out)).Distinct := by
  obtain ⟨hnodup, hvalues⟩ := Value.distinct_map.mp hout
  refine Value.distinct_map.mpr ⟨AssocList.nodup_keys_set hnodup, fun k w hmem => ?_⟩
  have hget := AssocList.get_of_mem (AssocList.nodup_keys_set hnodup) hmem
  by_cases hk : k = key
  · rw [hk, AssocList.get_set_self] at hget
    cases hget
    exact hv
  · rw [AssocList.get_set_of_ne hk] at hget
    exact hvalues k w (AssocList.mem_of_get hget)

theorem distinct_replaceEntries {out later : List Entry} (hout : (Value.map out).Distinct)
    (hlater : ∀ k v, (k, v) ∈ later → v.Distinct) :
    (Value.map (replaceEntries out later)).Distinct := by
  induction later generalizing out with
  | nil => exact hout
  | cons p rest ih =>
    have hrest := fun k v h => hlater k v (List.mem_cons_of_mem _ h)
    simp only [replaceEntries]
    split
    · exact ih hout hrest
    · exact ih (distinct_set hout (hlater p.1 p.2 (List.mem_cons_self ..))) hrest

/-- A merge of two values with distinct keys that gives such a value. -/
private def Keeps (merge : Value → Value → Except MergeError Value) : Prop :=
  ∀ e l m, merge e l = .ok m → e.Distinct → l.Distinct → m.Distinct

theorem distinct_overwritePositionally {merge : Value → Value → Except MergeError Value}
    (hmerge : Keeps merge) {earlier later out : List Value}
    (h : overwritePositionally merge earlier later = .ok out) (hearlier : ∀ v ∈ earlier, v.Distinct)
    (hlater : ∀ v ∈ later, v.Distinct) : ∀ v ∈ out, v.Distinct := by
  intro v hv
  obtain ⟨at_, hat⟩ := List.mem_iff_getElem?.mp hv
  have hget := getElem?_overwritePositionally h at_
  cases he : earlier[at_]? with
  | none =>
    rw [he] at hget
    dsimp only at hget
    exact hlater v (List.mem_of_getElem? (hget.symm.trans hat))
  | some e =>
    cases hl : later[at_]? with
    | none =>
      rw [he, hl] at hget
      exact hearlier v (List.mem_of_getElem? (he.trans (hget.symm.trans hat)))
    | some l =>
      rw [he, hl] at hget
      obtain ⟨c, hc, hmerged⟩ := hget
      rw [hat] at hmerged
      cases hmerged
      exact hmerge e l v hc (hearlier e (List.mem_of_getElem? he))
        (hlater l (List.mem_of_getElem? hl))

theorem distinct_mergeSimple (levels : ℕ) : Keeps (mergeSimple levels) := by
  induction levels with
  | zero => exact fun _ _ _ h => nomatch h
  | succ levels ih =>
    intro e l m h he hl
    simp only [mergeSimple] at h
    split at h
    · cases h
      exact he
    · split at h
      · cases h
        exact hl
      · cases l with
        | list later =>
          cases e with
          | list earlier =>
            obtain ⟨out, hout, h⟩ := bind_eq_ok h
            cases h
            exact Value.distinct_list.mpr (distinct_overwritePositionally ih hout
              (Value.distinct_list.mp he) (Value.distinct_list.mp hl))
          | _ => cases h; exact hl
        | map later =>
          cases e with
          | map earlier =>
            cases h
            exact distinct_replaceEntries he (Value.distinct_map.mp hl).2
          | _ => cases h; exact hl
        | _ => cases e <;> cases h <;> exact hl

theorem distinct_mergeKept {child : String → Value → Value → Except MergeError Value}
    (hchild : ∀ key, Keeps (child key)) {later earlier out merged : List Entry}
    (h : mergeKept child later earlier out = .ok merged) (hout : (Value.map out).Distinct)
    (hearlier : ∀ k v, (k, v) ∈ earlier → v.Distinct) (hlater : ∀ k v, (k, v) ∈ later → v.Distinct) :
    (Value.map merged).Distinct := by
  induction earlier generalizing out with
  | nil =>
    cases h
    exact hout
  | cons p rest ih =>
    obtain ⟨key, v⟩ := p
    have hv := hearlier key v (List.mem_cons_self ..)
    have hrest := fun k w h => hearlier k w (List.mem_cons_of_mem _ h)
    simp only [mergeKept] at h
    cases hl : AssocList.get key later with
    | none =>
      rw [hl] at h
      exact ih h (distinct_set hout hv) hrest
    | some l =>
      simp only [hl] at h
      obtain ⟨c, hc, h⟩ := bind_eq_ok h
      exact ih h (distinct_set hout (hchild key v l c hc hv (hlater key l (AssocList.mem_of_get hl))))
        hrest

theorem distinct_mergeNew {earlier later out : List Entry} (hout : (Value.map out).Distinct)
    (hlater : ∀ k v, (k, v) ∈ later → v.Distinct) :
    (Value.map (mergeNew earlier later out)).Distinct := by
  induction later generalizing out with
  | nil => exact hout
  | cons p rest ih =>
    have hrest := fun k v h => hlater k v (List.mem_cons_of_mem _ h)
    simp only [mergeNew]
    split
    · exact ih hout hrest
    · exact ih (distinct_set hout (hlater p.1 p.2 (List.mem_cons_self ..))) hrest

theorem distinct_entries {v : Value} (h : v.Distinct) :
    ∀ k w, (k, w) ∈ (v.asMap.getD []) → w.Distinct := by
  intro k w hmem
  cases v with
  | map entries => exact (Value.distinct_map.mp h).2 k w hmem
  | _ => cases hmem

variable {one two : Step Value}

theorem distinct_mergeMaps (hone : ∀ path, Keeps (one path)) (path : List String) :
    Keeps (mergeMaps one path) := by
  intro e l m h he hl
  obtain ⟨out, hout, h⟩ := bind_eq_ok h
  obtain ⟨kept, hkept, hout⟩ := bind_eq_ok hout
  cases hout
  cases h
  refine distinct_mergeNew (distinct_mergeKept (fun key => hone (path ++ [key])) hkept ?_
    (distinct_entries he) (distinct_entries hl)) (distinct_entries hl)
  exact Value.distinct_map.mpr ⟨List.nodup_nil, by simp⟩

variable {path : List String}

theorem distinct_absorbListOfMaps (hone : ∀ path, Keeps (one path)) {mode : MergeMode}
    {result m : Value} {list : List Value}
    (h : absorbListOfMaps mode one path result list = .ok m) (hresult : result.Distinct)
    (hlist : ∀ v ∈ list, v.Distinct) : m.Distinct := by
  induction list generalizing result with
  | nil =>
    cases h
    exact hresult
  | cons item rest ih =>
    unfold absorbListOfMaps at h
    split at h
    · obtain ⟨folded, hfolded, h⟩ := bind_eq_ok h
      exact ih h (distinct_mergeMaps hone path _ _ _ hfolded hresult
        (hlist item (List.mem_cons_self ..))) fun v hv => hlist v (List.mem_cons_of_mem _ hv)
    · cases h

theorem distinct_mergePositions {merge : String → Value → Value → Except MergeError Value}
    (hmerge : ∀ at_, Keeps (merge at_)) {later built out : List Value} {at_ : ℕ}
    (h : mergePositions merge later at_ built = .ok out) (hbuilt : ∀ v ∈ built, v.Distinct)
    (hlater : ∀ v ∈ later, v.Distinct) : ∀ v ∈ out, v.Distinct := by
  induction built generalizing at_ out with
  | nil =>
    cases h
    simp
  | cons item rest ih =>
    have hitem := hbuilt item (List.mem_cons_self ..)
    have hrest := fun v hv => hbuilt v (List.mem_cons_of_mem _ hv)
    have hstep : ∃ c more, mergePositions merge later (at_ + 1) rest = .ok more ∧
        out = c :: more ∧ c.Distinct := by
      simp only [mergePositions] at h
      cases hp : partner later item at_ with
      | none =>
        simp only [hp] at h
        obtain ⟨c, hc, h⟩ := bind_eq_ok h
        cases hc
        obtain ⟨more, hmore, h⟩ := bind_eq_ok h
        cases h
        exact ⟨item, more, hmore, rfl, hitem⟩
      | some l =>
        simp only [hp] at h
        obtain ⟨c, hc, h⟩ := bind_eq_ok h
        obtain ⟨more, hmore, h⟩ := bind_eq_ok h
        cases h
        have hl : l ∈ later := List.mem_of_getElem? (Option.filter_eq_some_iff.mp hp).1
        exact ⟨c, more, hmore, rfl, hmerge _ item l c hc hitem (hlater l hl)⟩
    obtain ⟨c, more, hmore, rfl, hc⟩ := hstep
    intro v hv
    rcases List.mem_cons.mp hv with rfl | hv
    · exact hc
    · exact ih hmore hrest v hv

theorem distinct_unionLists (hone : ∀ path, Keeps (one path)) {options : MergeOptions}
    {earlier later out : List Value}
    (h : unionLists options one path earlier later = .ok out) (hearlier : ∀ v ∈ earlier, v.Distinct)
    (hlater : ∀ v ∈ later, v.Distinct) : ∀ v ∈ out, v.Distinct := by
  have hbuilt : ∀ v ∈ pushUnique earlier later, v.Distinct := fun v hv =>
    (mem_pushUnique hv).elim (hearlier v) fun hv => hlater v hv.1
  unfold unionLists at h
  intro v hv
  split at h
  · obtain ⟨merged, hmerged, h⟩ := bind_eq_ok h
    cases h
    rcases List.mem_append.mp hv with hv | hv
    · exact distinct_mergePositions (fun at_ => distinct_mergeMaps hone (path ++ [at_])) hmerged
        hbuilt hlater v hv
    · exact hlater v (mem_leftOver hv)
  · cases h
    rcases List.mem_append.mp hv with hv | hv
    · exact hbuilt v hv
    · exact hlater v (List.mem_filter.mp hv).1

theorem distinct_mergeSubstitute (hone : ∀ path, Keeps (one path))
    (htwo : ∀ path, Keeps (two path)) (path : List String) :
    Keeps (mergeSubstitute one two path) := by
  intro e l m h he hl
  cases e with
  | map earlier =>
    cases l with
    | map later => exact distinct_mergeMaps hone path _ _ _ h he hl
    | list later => exact distinct_absorbListOfMaps htwo h he (Value.distinct_list.mp hl)
    | _ => cases h
  | _ => cases l <;> cases h <;> exact hl

theorem distinct_mergeDeep (hone : ∀ path, Keeps (one path))
    (htwo : ∀ path, Keeps (two path)) (options : MergeOptions) (path : List String) :
    Keeps (mergeDeep options one two path) := by
  intro e l m h he hl
  unfold mergeDeep at h
  split at h
  · cases h
    exact hl
  · cases e with
    | map earlier =>
      cases l with
      | map later => exact distinct_mergeMaps hone path _ _ _ h he hl
      | list later => exact distinct_absorbListOfMaps htwo h he (Value.distinct_list.mp hl)
      | _ => cases h; exact hl
    | list earlier =>
      cases l with
      | list later =>
        obtain ⟨out, hout, h⟩ := bind_eq_ok h
        cases h
        exact Value.distinct_list.mpr (distinct_unionLists htwo hout (Value.distinct_list.mp he)
          (Value.distinct_list.mp hl))
      | map => cases h
      | _ => cases h; exact hl
    | _ => cases l <;> cases h <;> exact hl

theorem distinct_mergeStep (hone : ∀ path, Keeps (one path))
    (htwo : ∀ path, Keeps (two path)) (ctx : Context) (levels : ℕ) (path : List String) :
    Keeps (mergeStep ctx levels one two path) := by
  intro e l m h he hl
  unfold mergeStep at h
  split at h
  · cases h
    exact he
  · split at h
    · cases h
      exact hl
    · split at h
      · exact distinct_mergeSimple levels e l m h he hl
      · exact distinct_mergeSubstitute hone htwo path e l m h he hl
      · exact distinct_mergeDeep hone htwo ctx.options path e l m h he hl

theorem keeps_tooDeep (path : List String) : Keeps (tooDeep path) := by
  intro e l m h
  cases h

theorem keeps_mergeValue (ctx : Context) (levels : ℕ) (path : List String) :
    Keeps (mergeValue ctx levels path) := by
  induction levels using Nat.strongRecOn generalizing path with
  | ind levels ih =>
    match levels with
    | 0 => exact keeps_tooDeep path
    | 1 => exact distinct_mergeStep keeps_tooDeep keeps_tooDeep ctx 1 path
    | levels + 2 =>
      exact distinct_mergeStep (ih (levels + 1) (by omega)) (ih levels (by omega)) ctx (levels + 2)
        path

theorem distinct_mergeValue {ctx : Context} {levels : ℕ} {e l m : Value}
    (h : mergeValue ctx levels path e l = .ok m) (he : e.Distinct) (hl : l.Distinct) :
    m.Distinct :=
  keeps_mergeValue ctx levels path e l m h he hl

end Distinct

end Guatiao.Merge
