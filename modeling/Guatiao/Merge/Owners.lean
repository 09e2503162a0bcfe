import Guatiao.Merge.Provenance

/-!
# Who supplied a leaf

A value together with who supplied each of its leaves is also a tree a merge can work
on: what is copied keeps its owner. Forgetting the owners of the merged tree gives the
merged value, so this says of each leaf which layer it really came from.
-/

namespace Guatiao.Merge

open Lib

/-- A value, and who supplied its leaf at each place. -/
@[ext]
structure Owned where
  value : Value
  owner : List String → String

namespace Owned

/-- What is under a segment, with the owners beneath it. -/
def under (o : Owned) (segment : String) (c : Value) : Owned :=
  ⟨c, fun rest => o.owner (segment :: rest)⟩

/-- The owners of a container's leaves, from its children's. -/
def gather (top : String) (below : List (String × Owned)) : List String → String
  | [] => top
  | segment :: rest => ((AssocList.get segment below).map fun o => o.owner rest).getD top

end Owned

instance : Node Owned where
  value := Owned.value
  entries o := o.value.asMap.map fun entries => entries.map fun p => (p.1, o.under p.1 p.2)
  items o := o.value.asList.map fun items =>
    (indexed items).map fun p => o.under p.1 p.2
  withEntries later entries :=
    ⟨.map (AssocList.mapValues Owned.value entries), Owned.gather (later.owner []) entries⟩
  withItems later items :=
    ⟨.list (items.map Owned.value), Owned.gather (later.owner []) (indexed items)⟩
  layer label v := ⟨v, fun _ => label⟩

/-- What a merge answers, without owners. -/
abbrev forget (x : Except MergeError Owned) : Except MergeError Value := x.map Owned.value

section Forget

open Node

@[simp] theorem value_owned (o : Owned) : Node.value o = o.value := rfl

@[simp] theorem value_value (v : Value) : Node.value v = v := rfl

@[simp] theorem kind_value (o : Owned) : kind o.value = kind o := rfl

theorem mapValues_under (o : Owned) (entries : List Entry) :
    AssocList.mapValues Owned.value (entries.map fun p => (p.1, o.under p.1 p.2)) = entries := by
  rw [AssocList.mapValues, List.map_map]
  exact List.map_id _

@[simp] theorem entries_value (o : Owned) :
    entries o.value = (entries o).map (AssocList.mapValues Owned.value) := by
  change o.value.asMap = (o.value.asMap.map _).map _
  cases o.value.asMap with
  | none => rfl
  | some es => exact congrArg some (mapValues_under o es).symm

theorem indexedFrom_map_snd {α : Type*} (items : List α) (start : ℕ) :
    (indexedFrom start items).map Prod.snd = items := by
  induction items generalizing start with
  | nil => rfl
  | cons v rest ih => simp [indexedFrom, ih]

@[simp] theorem items_value (o : Owned) :
    items o.value = (items o).map (List.map Owned.value) := by
  change o.value.asList = (o.value.asList.map _).map _
  cases o.value.asList with
  | none => rfl
  | some xs =>
    refine congrArg some ?_
    rw [List.map_map]
    exact (indexedFrom_map_snd xs 0).symm

@[simp] theorem withEntries_value (later : Owned) (es : List (String × Owned)) :
    (withEntries later es).value = withEntries later.value (AssocList.mapValues Owned.value es) := rfl

@[simp] theorem withItems_value (later : Owned) (xs : List Owned) :
    (withItems later xs).value = withItems later.value (xs.map Owned.value) := rfl

@[simp] theorem isMap_value (o : Owned) : isMap o.value = isMap o := by simp [isMap]

theorem getD_entries_value (o : Owned) :
    (entries o.value).getD [] = AssocList.mapValues Owned.value ((entries o).getD []) := by
  rw [entries_value]
  cases entries o <;> rfl

@[simp] theorem sharesAKey_value (a b : Owned) : sharesAKey a.value b.value = sharesAKey a b := by
  unfold sharesAKey
  rw [getD_entries_value, getD_entries_value]
  rw [AssocList.mapValues, List.any_map]
  exact List.any_congr rfl fun p => AssocList.contains_mapValues ..

theorem replaceEntries_value (out later : List (String × Owned)) :
    replaceEntries (AssocList.mapValues Owned.value out) (AssocList.mapValues Owned.value later) =
      AssocList.mapValues Owned.value (replaceEntries out later) := by
  induction later generalizing out with
  | nil => rfl
  | cons p rest ih =>
    simp only [AssocList.mapValues_cons, replaceEntries, AssocList.contains_mapValues, kind_value]
    split
    · exact ih out
    · rw [AssocList.set_mapValues, ih]

theorem map_bind {α β γ : Type} (x : Except MergeError α) (f : α → Except MergeError β)
    (g : β → γ) : (x >>= f).map g = x >>= fun a => (f a).map g := by
  cases x <;> rfl

theorem bind_map {α β γ : Type} (x : Except MergeError α) (g : α → β)
    (f : β → Except MergeError γ) : x.map g >>= f = x >>= fun a => f (g a) := by
  cases x <;> rfl

variable {merge : Owned → Owned → Except MergeError Owned}
  {merge' : Value → Value → Except MergeError Value}

theorem overwritePositionally_value
    (hmerge : ∀ e l, merge' e.value l.value = forget (merge e l)) (earlier later : List Owned) :
    overwritePositionally merge' (earlier.map Owned.value) (later.map Owned.value) =
      (overwritePositionally merge earlier later).map (List.map Owned.value) := by
  induction earlier generalizing later with
  | nil => cases later <;> rfl
  | cons e earlier ih =>
    cases later with
    | nil => rfl
    | cons l later =>
      simp only [List.map_cons, overwritePositionally, hmerge, ih, map_bind, bind_map]
      rfl

theorem mergeSimple_value (levels : ℕ) (earlier later : Owned) :
    mergeSimple levels earlier.value later.value = forget (mergeSimple levels earlier later) := by
  induction levels generalizing earlier later with
  | zero => rfl
  | succ levels ih =>
    simp only [mergeSimple, kind_value, items_value, entries_value]
    split
    · rfl
    · split
      · rfl
      · cases items later with
        | none =>
          cases entries later with
          | none => rfl
          | some laterEntries =>
            cases entries earlier with
            | none => rfl
            | some earlierEntries =>
              exact congrArg (fun es => Except.ok (Value.map es))
                (replaceEntries_value earlierEntries laterEntries)
        | some laterItems =>
          cases items earlier with
          | none =>
            cases entries later <;> cases entries earlier <;> rfl
          | some earlierItems =>
            simp only [Option.map_some, overwritePositionally_value ih, map_bind, bind_map]
            rfl

variable {child : String → Owned → Owned → Except MergeError Owned}
  {child' : String → Value → Value → Except MergeError Value}

theorem mergeKept_value
    (hchild : ∀ key e l, child' key e.value l.value = forget (child key e l))
    (later earlier out : List (String × Owned)) :
    mergeKept child' (AssocList.mapValues Owned.value later)
        (AssocList.mapValues Owned.value earlier) (AssocList.mapValues Owned.value out) =
      (mergeKept child later earlier out).map (AssocList.mapValues Owned.value) := by
  induction earlier generalizing out with
  | nil => rfl
  | cons p rest ih =>
    simp only [AssocList.mapValues_cons, mergeKept, AssocList.get_mapValues]
    cases AssocList.get p.1 later with
    | none =>
      change mergeKept _ _ _ (AssocList.set p.1 p.2.value _) = _
      rw [AssocList.set_mapValues, ih]
      rfl
    | some l =>
      simp only [Option.map_some, hchild, bind_map, map_bind, AssocList.set_mapValues, ih]

theorem mergeNew_value (earlier later out : List (String × Owned)) :
    mergeNew (AssocList.mapValues Owned.value earlier) (AssocList.mapValues Owned.value later)
        (AssocList.mapValues Owned.value out) =
      AssocList.mapValues Owned.value (mergeNew earlier later out) := by
  induction later generalizing out with
  | nil => rfl
  | cons p rest ih =>
    simp only [AssocList.mapValues_cons, mergeNew, AssocList.contains_mapValues]
    split
    · exact ih out
    · rw [AssocList.set_mapValues, ih]

variable {one two : Step Owned} {one' two' : Step Value}

theorem mergeMaps_value
    (hone : ∀ path e l, one' path e.value l.value = forget (one path e l)) (path : List String)
    (earlier later : Owned) :
    mergeMaps one' path earlier.value later.value = forget (mergeMaps one path earlier later) := by
  have hkept := mergeKept_value (fun key => hone (path ++ [key]))
    ((entries later).getD []) ((entries earlier).getD []) []
  rw [AssocList.mapValues_nil] at hkept
  simp only [mergeMaps, mergeMapsRecursively, getD_entries_value, hkept, map_bind, bind_map,
    bind_assoc, pure_bind, mergeNew_value]
  rfl

theorem absorbListOfMaps_value
    (hone : ∀ path e l, one' path e.value l.value = forget (one path e l)) (mode : MergeMode)
    (path : List String) (result : Owned) (list : List Owned) :
    absorbListOfMaps mode one' path result.value (list.map Owned.value) =
      forget (absorbListOfMaps mode one path result list) := by
  induction list generalizing result with
  | nil => rfl
  | cons item rest ih =>
    simp only [List.map_cons, absorbListOfMaps, isMap_value, kind_value]
    split
    · rw [mergeMaps_value hone]
      simp only [forget, map_bind, bind_map]
      exact congrArg _ (funext fun folded => ih folded)
    · rfl

theorem mergeSubstitute_value
    (hone : ∀ path e l, one' path e.value l.value = forget (one path e l))
    (htwo : ∀ path e l, two' path e.value l.value = forget (two path e l)) (path : List String)
    (earlier later : Owned) :
    mergeSubstitute one' two' path earlier.value later.value =
      forget (mergeSubstitute one two path earlier later) := by
  simp only [mergeSubstitute, entries_value, items_value, kind_value]
  cases entries earlier with
  | none => cases entries later <;> rfl
  | some earlierEntries =>
    cases entries later with
    | some laterEntries => exact mergeMaps_value hone path earlier later
    | none =>
      cases items later with
      | none => rfl
      | some laterItems => exact absorbListOfMaps_value htwo _ path earlier laterItems

theorem held_value (built : List Owned) (item : Owned) :
    held (built.map Owned.value) item.value = held built item := by
  simp [held, List.any_map, Function.comp_def]

theorem pushUnique_value (built later : List Owned) :
    pushUnique (built.map Owned.value) (later.map Owned.value) =
      (pushUnique built later).map Owned.value := by
  induction later generalizing built with
  | nil => rfl
  | cons item rest ih =>
    simp only [List.map_cons, pushUnique, isMap_value, held_value]
    split
    · rw [← ih, List.map_append, List.map_singleton]
    · exact ih built

theorem partner_value (later : List Owned) (item : Owned) (at_ : ℕ) :
    partner (later.map Owned.value) item.value at_ = (partner later item at_).map Owned.value := by
  unfold partner
  rw [List.getElem?_map, Option.filter_map]
  congr 1
  simp [Function.comp_def]

theorem mergePositions_value
    (hchild : ∀ key e l, child' key e.value l.value = forget (child key e l)) (later : List Owned)
    (at_ : ℕ) (built : List Owned) :
    mergePositions child' (later.map Owned.value) at_ (built.map Owned.value) =
      (mergePositions child later at_ built).map (List.map Owned.value) := by
  induction built generalizing at_ with
  | nil => rfl
  | cons item rest ih =>
    simp only [List.map_cons, mergePositions, partner_value, ih]
    cases partner later item at_ with
    | none => cases mergePositions child later (at_ + 1) rest <;> rfl
    | some l =>
      simp only [Option.map_some, hchild, bind_map, map_bind]
      rfl

theorem leftOver_value (built later : List Owned) :
    leftOver (built.map Owned.value) (later.map Owned.value) =
      (leftOver built later).map Owned.value := by
  unfold leftOver
  rw [List.zipIdx_map, List.filter_map, List.map_map, List.map_map]
  congr 1
  refine List.filter_congr fun p _ => ?_
  simp [List.getElem?_map, Option.any_map, partner_value]

theorem unionLists_value
    (hone : ∀ path e l, one' path e.value l.value = forget (one path e l)) (options : MergeOptions)
    (path : List String) (earlier later : List Owned) :
    unionLists options one' path (earlier.map Owned.value) (later.map Owned.value) =
      (unionLists options one path earlier later).map (List.map Owned.value) := by
  have hpositions := mergePositions_value
    (fun at_ => mergeMaps_value hone (path ++ [at_])) later 0 (pushUnique earlier later)
  simp only [unionLists, pushUnique_value, hpositions, leftOver_value]
  split
  · simp only [bind_map, map_bind]
    refine congrArg _ (funext fun merged => ?_)
    exact congrArg Except.ok (List.map_append).symm
  · refine congrArg Except.ok ?_
    rw [List.map_append, List.filter_map]
    congr 2
    exact congrArg (List.filter · later) (funext isMap_value)

theorem mergeDeep_value
    (hone : ∀ path e l, one' path e.value l.value = forget (one path e l))
    (htwo : ∀ path e l, two' path e.value l.value = forget (two path e l)) (options : MergeOptions)
    (path : List String) (earlier later : Owned) :
    mergeDeep options one' two' path earlier.value later.value =
      forget (mergeDeep options one two path earlier later) := by
  simp only [mergeDeep, entries_value, items_value, kind_value]
  split
  · rfl
  · cases hel : entries later <;> cases hil : items later <;> cases hie : items earlier <;>
      cases hee : entries earlier <;> try rfl
    all_goals
      first
      | exact mergeMaps_value hone path earlier later
      | exact absorbListOfMaps_value htwo _ path earlier _
      | (simp only [Option.map_some, unionLists_value htwo, bind_map, map_bind]
         rfl)

theorem mergeStep_value
    (hone : ∀ path e l, one' path e.value l.value = forget (one path e l))
    (htwo : ∀ path e l, two' path e.value l.value = forget (two path e l)) (ctx : Context)
    (levels : ℕ) (path : List String) (earlier later : Owned) :
    mergeStep ctx levels one' two' path earlier.value later.value =
      forget (mergeStep ctx levels one two path earlier later) := by
  unfold mergeStep
  by_cases hlater : kind later = .absent
  · rw [if_pos hlater, if_pos (kind_value later ▸ hlater)]
    rfl
  · rw [if_neg hlater, if_neg (kind_value later ▸ hlater)]
    by_cases hearlier : kind earlier = .absent
    · rw [if_pos hearlier, if_pos (kind_value earlier ▸ hearlier)]
      rfl
    · rw [if_neg hearlier, if_neg (kind_value earlier ▸ hearlier)]
      split
      · exact mergeSimple_value levels earlier later
      · exact mergeSubstitute_value hone htwo path earlier later
      · exact mergeDeep_value hone htwo ctx.options path earlier later

theorem mergeValue_value (ctx : Context) (levels : ℕ) (path : List String) (earlier later : Owned) :
    mergeValue ctx levels path earlier.value later.value =
      forget (mergeValue ctx levels path earlier later) := by
  induction levels using Nat.strong_induction_on generalizing path earlier later with
  | _ levels ih =>
    match levels with
    | 0 => rfl
    | 1 => exact mergeStep_value (fun _ _ _ => rfl) (fun _ _ _ => rfl) ctx 1 path earlier later
    | levels + 2 =>
      exact mergeStep_value (ih (levels + 1) (by omega)) (ih levels (by omega)) ctx (levels + 2)
        path earlier later

end Forget

/-- What a fold over owned values has come to, without owners. -/
private def forgetFold (acc : Option Owned × Provenance) : Option Value × Provenance :=
  (acc.1.map Owned.value, acc.2)

theorem mergeLayer_value (ctx : Context) (acc : Option Owned × Provenance)
    (layer : String × Value) :
    mergeLayer ctx (forgetFold acc) layer = (mergeLayer ctx acc layer).map forgetFold := by
  obtain ⟨previous, p⟩ := acc
  cases previous with
  | none => rfl
  | some previous =>
    have h := mergeValue_value ctx maxDepth [] previous (Node.layer layer.1 layer.2)
    simp only [mergeLayer, forgetFold, Option.map_some]
    change mergeValue ctx maxDepth [] previous.value layer.2 >>= _ = _
    change mergeValue ctx maxDepth [] previous.value layer.2 = _ at h
    rw [h]
    cases mergeValue ctx maxDepth [] previous (Node.layer layer.1 layer.2) <;> rfl

theorem foldlM_mergeLayer_value (ctx : Context) (layers : List (String × Value))
    (acc : Option Owned × Provenance) :
    layers.foldlM (mergeLayer ctx) (forgetFold acc) =
      (layers.foldlM (mergeLayer ctx) acc).map forgetFold := by
  induction layers generalizing acc with
  | nil => rfl
  | cons layer rest ih =>
    rw [List.foldlM_cons, List.foldlM_cons, mergeLayer_value]
    cases mergeLayer ctx acc layer with
    | error e => rfl
    | ok acc => exact ih acc

theorem mergeLayersWith_value {ctx : Context} {layers : List (String × Value)} {owned : Owned}
    {p : Provenance} (h : mergeLayersWith ctx layers = .ok (owned, p)) :
    mergeLayersWith ctx layers = .ok (owned.value, p) := by
  unfold mergeLayersWith at h ⊢
  rw [show ((none, SortedMap.empty) : Option Value × Provenance) =
    forgetFold (none, SortedMap.empty) from rfl, foldlM_mergeLayer_value]
  cases hfold : layers.foldlM (mergeLayer (T := Owned) ctx) (none, SortedMap.empty) with
  | error e =>
    rw [hfold] at h
    cases h
  | ok acc =>
    rw [hfold] at h
    obtain ⟨accumulated, p'⟩ := acc
    cases h
    cases accumulated <;> rfl

theorem mergeLayersWith_owned {ctx : Context} {layers : List (String × Value)} {merged : Value}
    {p : Provenance} (h : mergeLayersWith ctx layers = .ok (merged, p)) :
    ∃ owned : Owned, mergeLayersWith ctx layers = .ok (owned, p) ∧ owned.value = merged := by
  unfold mergeLayersWith at h
  rw [show ((none, SortedMap.empty) : Option Value × Provenance) =
    forgetFold (none, SortedMap.empty) from rfl, foldlM_mergeLayer_value] at h
  unfold mergeLayersWith
  cases hfold : layers.foldlM (mergeLayer (T := Owned) ctx) (none, SortedMap.empty) with
  | error e =>
    rw [hfold] at h
    cases h
  | ok acc =>
    rw [hfold] at h
    obtain ⟨accumulated, p'⟩ := acc
    cases h
    refine ⟨_, rfl, ?_⟩
    cases accumulated <;> rfl

end Guatiao.Merge
