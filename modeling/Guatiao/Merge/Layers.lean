import Guatiao.Merge.InStep
import Mathlib.Data.List.Induction

/-!
# Provenance of folded layers

A fold of layers none of which slips answers every place with the layer its leaves came
from, and where no list is united its record is exactly the leaves. A layer that gives an
empty map its first keys already slips: the place keeps the layer of the empty map.
-/

namespace Guatiao.Merge

open Lib Provenance

/-- No layer, where it is merged into what those before it come to, slips. -/
def InStep (ctx : Context) (layers : List (String × Value)) : Prop :=
  ∀ front label layer back (previous : Value) p, layers = front ++ (label, layer) :: back →
    front ≠ [] → mergeLayersWith ctx front = .ok (previous, p) → ¬Slips ctx [] previous layer

section Layers

variable {T : Type} [Node T] {ctx : Context}

theorem foldlM_isSome {layers : List (String × Value)} {acc acc' : Option T × Provenance}
    (h : layers.foldlM (mergeLayer ctx) acc = .ok acc') (hsome : acc.1.isSome ∨ layers ≠ []) :
    acc'.1.isSome := by
  induction layers generalizing acc with
  | nil =>
    cases h
    exact hsome.resolve_right fun h => h rfl
  | cons layer rest ih =>
    rw [List.foldlM_cons] at h
    obtain ⟨mid, hmid, h⟩ := bind_eq_ok h
    refine ih h (.inl ?_)
    obtain ⟨previous, p⟩ := acc
    cases previous with
    | none =>
      cases hmid
      rfl
    | some previous =>
      obtain ⟨merged, -, hmid⟩ := bind_eq_ok hmid
      cases hmid
      rfl

theorem mergeLayersWith_append {front : List (String × Value)} {label : String}
    {layer : Value} {merged : T} {p : Provenance} (hfront : front ≠ [])
    (h : mergeLayersWith ctx (front ++ [(label, layer)]) = .ok (merged, p)) :
    ∃ (previous : T) (p' : Provenance), mergeLayersWith ctx front = .ok (previous, p') ∧
      mergeValue ctx maxDepth [] previous (Node.layer label layer) = .ok merged ∧
      p = recordClaims ctx label maxDepth [] (Node.value previous) layer p' := by
  obtain ⟨acc, hacc, h⟩ := bind_eq_ok h
  rw [List.foldlM_append] at hacc
  obtain ⟨⟨accumulated, p'⟩, hmid, hacc⟩ := bind_eq_ok hacc
  cases accumulated with
  | none => cases foldlM_isSome hmid (.inr hfront)
  | some previous =>
    rw [List.foldlM_cons] at hacc
    obtain ⟨acc', hstep, hacc⟩ := bind_eq_ok hacc
    cases hacc
    obtain ⟨merged', hmerged, hstep⟩ := bind_eq_ok hstep
    cases hstep
    cases h
    refine ⟨previous, p', ?_, hmerged, rfl⟩
    unfold mergeLayersWith
    rw [hmid]
    rfl

end Layers

theorem tracked_mergeLayersWith {ctx : Context} {exact : Prop}
    {layers : List (String × Value)} {owned : Owned} {p : Provenance}
    (hexact : exact → ∀ path, ctx.modeAt path ≠ .deep)
    (hshallow : exact → ∀ l ∈ layers, ShallowFrom maxDepth l.2)
    (hdistinct : ∀ l ∈ layers, l.2.Distinct) (hstep : InStep ctx layers) (hne : layers ≠ [])
    (h : mergeLayersWith ctx layers = .ok (owned, p)) :
    Tracked ctx exact p false [] owned ∧ owned.value.Distinct := by
  induction layers using List.reverseRecOn generalizing owned p with
  | nil => exact absurd rfl hne
  | append_singleton front l ih =>
    obtain ⟨label, layer⟩ := l
    have hlast : (label, layer) ∈ front ++ [(label, layer)] := by simp
    by_cases hfront : front = []
    · subst hfront
      cases h
      refine ⟨tracked_claim rfl (hdistinct _ hlast) (fun h => hshallow h _ hlast) ?_,
        hdistinct _ hlast⟩
      exact fun k _ => SortedMap.get_empty k
    · obtain ⟨previous, p', hprevious, hmerged, rfl⟩ := mergeLayersWith_append hfront h
      have hsub : ∀ l ∈ front, l ∈ front ++ [(label, layer)] := fun l hl =>
        List.mem_append_left _ hl
      have hstepfront : InStep ctx front := by
        intro front' label' layer' back previous p heq hne hfolded
        exact hstep front' label' layer' (back ++ [(label, layer)]) previous p (by simp [heq]) hne
          hfolded
      obtain ⟨htracked, hprevdistinct⟩ := ih (fun h l hl => hshallow h l (hsub l hl))
        (fun l hl => hdistinct l (hsub l hl)) hstepfront hfront hprevious
      have hvalue : mergeLayersWith ctx front = .ok (previous.value, p') :=
        mergeLayersWith_value hprevious
      refine ⟨?_, ?_⟩
      · exact recorded_mergeValue hexact maxDepth p' [] previous owned layer rfl
          (hstep front label layer [] previous.value p' rfl hfront hvalue) hprevdistinct
          (hdistinct _ hlast) (fun h => hshallow h _ hlast) htracked hmerged
      · have hmergedvalue := mergeValue_value ctx maxDepth [] previous (Node.layer label layer)
        rw [hmerged] at hmergedvalue
        exact distinct_mergeValue hmergedvalue hprevdistinct (hdistinct _ hlast)

/-- The record of a fold of layers none of which slips answers a place with one layer only
where that layer supplied every leaf of the merged value, and, where no list is united and
no layer goes past the levels a walk does, it is exactly the leaves, each with the last
layer that supplied it. -/
theorem mergeLayersWith_provenance {ctx : Context} {layers : List (String × Value)}
    {merged : Value} {p : Provenance} (hdistinct : ∀ l ∈ layers, l.2.Distinct)
    (hstep : InStep ctx layers) (h : mergeLayersWith ctx layers = .ok (merged, p)) :
    ∃ owned : Owned, mergeLayersWith ctx layers = .ok (owned, p) ∧ owned.value = merged ∧
      (∀ path label rest, p.sourceOf path = .layer label → path <+: rest → LeafAt merged rest →
        owned.owner rest = label) ∧
      (layers ≠ [] → (∀ path, ctx.modeAt path ≠ .deep) →
        (∀ l ∈ layers, ShallowFrom maxDepth l.2) → ∀ rest label,
          p.get rest = some label ↔ LeafAt merged rest ∧ owned.owner rest = label) := by
  obtain ⟨owned, howned, rfl⟩ := mergeLayersWith_owned h
  refine ⟨owned, howned, rfl, fun path label rest hsource hrest hleaf => ?_,
    fun hne hmode hshallow rest label => ?_⟩
  · by_cases hne : layers = []
    · subst hne
      cases howned
      obtain hget | ⟨-, -, k, l, -, hget⟩ := sourceOf_layer hsource
      · cases hget
      · cases hget
    · exact (tracked_mergeLayersWith False.elim False.elim hdistinct hstep hne
        howned).1.sourceOf hsource hrest hleaf
  · have htracked : Tracked ctx True p false [] owned :=
      (tracked_mergeLayersWith (fun _ => hmode) (fun _ => hshallow) hdistinct hstep hne howned).1
    exact htracked.get_iff trivial

/-- Two flat layers, the second over a key of the first. -/
private def flatLayers : List (String × Value) :=
  [("system", .map [("a", .string "x"), ("b", .string "y")]), ("user", .map [("a", .string "z")])]

private def substituting : Context := ⟨.substitute, ⟨false⟩, []⟩

theorem flatLayers_inStep : InStep substituting flatLayers := by
  intro front label layer back previous p heq hne hfolded hslips
  match front, heq with
  | [], _ => exact hne rfl
  | [first], heq =>
    cases heq
    cases hfolded
    cases hslips with
    | @entry _ _ _ _ key e l _ he hl h =>
      have hkey : "a" = key := by
        by_contra hkey
        simp [AssocList.get, hkey] at hl
      subst hkey
      cases he
      cases hl
      cases h
  | first :: second :: third, heq =>
    have := congrArg List.length heq
    simp [flatLayers] at this

/-- A key both layers have is the later's, one only the earlier has is the earlier's. -/
theorem mergeLayersWith_provenance_sample : ∃ (merged : Value) (p : Provenance) (owned : Owned),
    mergeLayersWith substituting flatLayers = .ok (merged, p) ∧
      mergeLayersWith substituting flatLayers = .ok (owned, p) ∧
      ∀ rest label, p.get rest = some label ↔ LeafAt merged rest ∧ owned.owner rest = label := by
  have hdistinct : ∀ l ∈ flatLayers, l.2.Distinct := by
    intro l hl
    simp only [flatLayers, List.mem_cons, List.not_mem_nil, or_false] at hl
    rcases hl with rfl | rfl <;>
      simp only [Value.Distinct, Value.Everywhere, Value.EverywhereEntries] <;> simp
  have hshallow : ∀ l ∈ flatLayers, ShallowFrom maxDepth l.2 := by
    intro l hl
    refine shallowFrom_of_depth ?_
    simp only [flatLayers, List.mem_cons, List.not_mem_nil, or_false] at hl
    rcases hl with rfl | rfl <;> decide
  cases h : mergeLayersWith (T := Value) substituting flatLayers with
  | error e =>
    have hok : (mergeLayersWith (T := Value) substituting flatLayers).isOk = true := by
      decide +kernel
    rw [h] at hok
    cases hok
  | ok result =>
    obtain ⟨merged, p⟩ := result
    obtain ⟨owned, howned, -, -, hexact⟩ :=
      mergeLayersWith_provenance hdistinct flatLayers_inStep h
    refine ⟨merged, p, owned, rfl, howned, hexact (List.cons_ne_nil _ _) (fun path => ?_) hshallow⟩
    intro hdeep
    cases hdeep

/-- An empty map, and a layer that gives it a key. -/
private def growingLayers : List (String × Value) :=
  [("system", .map [("a", .map [])]), ("user", .map [("a", .map [("x", .bool true)])])]

/-- A place is answered with one layer though the leaf beneath it came from another, and
is recorded though it is no leaf. -/
theorem mergeLayersWith_stale : ∃ (merged : Value) (p : Provenance) (owned : Owned),
    mergeLayersWith substituting growingLayers = .ok (merged, p) ∧
      mergeLayersWith substituting growingLayers = .ok (owned, p) ∧
      p.sourceOf ["a"] = .layer "system" ∧ LeafAt merged ["a", "x"] ∧
      owned.owner ["a", "x"] = "user" ∧ p.get ["a"] = some "system" ∧ ¬LeafAt merged ["a"] := by
  have hcheck : ((mergeLayersWith (T := Owned) substituting growingLayers).toOption.any
      fun (owned, p) => decide (p.sourceOf ["a"] = .layer "system" ∧
        LeafAt owned.value ["a", "x"] ∧ owned.owner ["a", "x"] = "user" ∧
        p.get ["a"] = some "system" ∧ ¬LeafAt owned.value ["a"])) = true := by decide +kernel
  cases h : mergeLayersWith (T := Owned) substituting growingLayers with
  | error e =>
    rw [h] at hcheck
    cases hcheck
  | ok result =>
    obtain ⟨owned, p⟩ := result
    rw [h] at hcheck
    exact ⟨owned.value, p, owned, mergeLayersWith_value h, rfl, of_decide_eq_true hcheck⟩

end Guatiao.Merge
