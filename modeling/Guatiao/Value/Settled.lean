import Guatiao.Value.Settle
import Mathlib.Data.List.Forall2

/-!
# What a settle keeps

A settle keeps a tree's content wherever it stops. One that goes through leaves the tree home, as far as
its nodes pass their doors, and leaves marked what was marked.
-/

namespace Guatiao.Settling

open Lib Change Stored

variable (how : Settling)

theorem settleChild_keeps : how.settleChild.Keeps content := by
  intro v n
  cases v <;> rfl

/-- A block's bytes, whatever holds them. -/
def bare (b : Block) : Block := ⟨b.data, ⟨none, 0⟩⟩

theorem content_entries (entries : List (Block × Stored)) (held : Held) :
    (Stored.map entries held).content = .map (entries.map (Prod.map bare content)) ⟨none, 0⟩ := content_map entries held

theorem settleInto_keeps : how.settleInto.Keeps content := by
  intro v n
  cases v with
  | list items held =>
    rw [settleInto]
    cases harray : how.settleArray items.length held n with
    | mk held' k =>
      cases k with
      | none => rw [content_list, content_list]
      | some k =>
        have hitems := how.settleChild_keeps.each items k
        exact (content_list _ _).trans ((congrArg (Stored.list · ⟨none, 0⟩) hitems).trans (content_list items held).symm)
  | map entries held =>
    rw [settleInto]
    cases harray : how.settleArray entries.length held n with
    | mk held' k =>
      cases k with
      | none => rw [content_map, content_map]
      | some k =>
        have hkey : how.settleText.Keeps bare := fun _ _ => rfl
        have hentries := ((hkey.first (d := content)).andThen how.settleChild_keeps.second).each entries k
        exact (content_entries _ _).trans ((congrArg (Stored.map · ⟨none, 0⟩) hentries).trans
          (content_entries entries held).symm)
  | _ => rfl

theorem isContainer_content (v : Stored) : v.content.isContainer = v.isContainer := by
  cases v <;> rfl

theorem refill_content {items items' held : List Stored} (hitems : items'.map content = items.map content)
    (hheld : held.map content = (items.filter isContainer).map content) :
    (refill isContainer items' held).map content = items.map content := by
  rw [map_refill isContainer_content, hitems, hheld, refill_map isContainer_content]
  exact List.map_congr_left fun v _ => by split <;> rfl

theorem content_putBack {v w : Stored} {held : List Stored} (h : w.content = v.content)
    (hheld : held.map content = (v.children.filter isContainer).map content) :
    (w.putBack held).content = v.content := by
  have htag : w.tagNumber = v.tagNumber := by
    rw [← tagNumber_content w, h, tagNumber_content]
  cases sameKind htag with
  | list items' items held' held'' =>
    rw [content_list, content_list] at h
    rw [putBack, content_list, content_list, refill_content (list.inj h).1 hheld]
  | map entries' entries held' held'' =>
    rw [content_entries, content_entries] at h
    have hentries := (map.inj h).1
    have hkeys := congrArg (List.map Prod.fst) hentries
    have hvalues := congrArg (List.map Prod.snd) hentries
    have hfst (entries : List (Block × Stored)) :
        (entries.map (Prod.map bare content)).map Prod.fst = (entries.map Prod.fst).map bare := by
      rw [List.map_map, List.map_map]
      rfl
    have hsnd (entries : List (Block × Stored)) :
        (entries.map (Prod.map bare content)).map Prod.snd = (entries.map Prod.snd).map content := by
      rw [List.map_map, List.map_map]
      rfl
    rw [hfst, hfst] at hkeys
    rw [hsnd, hsnd] at hvalues
    rw [putBack, content_entries, content_entries, ← List.zip_map, hkeys, refill_content hvalues hheld,
      ← hfst, ← hsnd, ← List.zip_of_prod rfl rfl]
  | _ => exact h

theorem settleDrain_keeps : how.settleDrain.Keeps (List.map content) := by
  intro stack
  induction stack using containers.stack_induction with
  | nil =>
    intro n
    rw [settleDrain]
  | cons v rest ih =>
    intro n
    have hv := how.settleInto_keeps v n
    rw [settleDrain]
    cases hinto : how.settleInto v n with
    | mk w k =>
      rw [hinto] at hv
      cases k with
      | none => exact congrArg (· :: rest.map content) hv
      | some k =>
        have hafter := ih k
        rw [List.map_append] at hafter
        have hlength : (containers.next v).length = ((containers.next v).map content).length := by
          rw [List.length_map]
        have htake := congrArg (List.take (containers.next v).length) hafter
        have hdrop := congrArg (List.drop (containers.next v).length) hafter
        rw [← List.map_take, hlength, List.take_left, ← hlength] at htake
        rw [← List.map_drop, hlength, List.drop_left, ← hlength] at hdrop
        refine congrArg₂ List.cons (content_putBack hv ?_) hdrop
        rw [List.map_reverse, htake, show containers.next v = (v.children.filter isContainer).reverse from rfl,
          List.map_reverse, List.reverse_reverse]

theorem settleValue_keeps : how.settleValue.Keeps content := by
  intro v n
  rw [settleValue]
  cases v.isContainer with
  | true =>
    have hstack := how.settleDrain_keeps [v] n
    rw [if_pos rfl]
    cases hdrain : how.settleDrain [v] n with
    | mk stack k =>
      rw [hdrain] at hstack
      cases stack with
      | nil => rfl
      | cons w rest => exact (List.cons.inj hstack).1
  | false => exact how.settleChild_keeps v n

theorem holds_settledHeld (b : Held) (len : ℕ) :
    how.home.holds (how.settledHeld (how.home.settle how.allocators b.alloc) len b).alloc = true := by
  rw [Home.settle]
  by_cases hholds : how.home.holds b.alloc = true
  · rw [if_pos hholds]
    exact hholds
  · rw [if_neg hholds]
    split <;> simp [settledHeld, home, Home.keeping, Home.holds, isRecorded]

theorem holds_arrayHeld (b : Held) (len : ℕ) : how.home.holds (how.arrayHeld len b).alloc = true := by
  rw [arrayHeld, arraySettle]
  by_cases hliteral : b.cap = 0 ∧ 0 < len
  · rw [if_pos hliteral]
    simp [settledHeld, home, Home.keeping, Home.holds, isRecorded]
  · rw [if_neg hliteral]
    exact how.holds_settledHeld b len

theorem atHome_settled (v : Stored) : (how.settled v).atHome how.home = v.passes := by
  have hblock (b : Block) : how.home.holds (how.blockHeld b).alloc = true := how.holds_settledHeld b.held b.data.length
  cases v with
  | list items held => exact how.holds_arrayHeld held items.length
  | map entries held =>
    rw [settled, rehold, reholdEntries_eq, atHome, passes, holds_arrayHeld, Bool.and_true, List.all_map, List.all_map]
    have hkeys : entries.all ((fun e : Block × Stored => how.home.holds e.1.held.alloc) ∘
        fun e => (⟨e.1.data, how.blockHeld e.1⟩, rehold how.blockHeld how.arrayHeld e.2)) = true := by
      rw [List.all_eq_true]
      exact fun e _ => hblock e.1
    rw [hkeys, Bool.and_true]
    rfl
  | number digits => simp [settled, rehold, atHome, leafHomed, passes, hblock]
  | string text => simp [settled, rehold, atHome, leafHomed, passes, hblock]
  | bytes buffer => exact hblock buffer
  | _ => rfl

theorem recordedBy_settled (v : Stored) :
    (how.settled v).recordedBy how.allocators (some how.alloc) = true ↔ v.WellFormed := by
  rw [recordedBy, valueHome_eq, everyHome, settled, nodes_rehold, List.all_map, List.all_eq_true]
  refine forall₂_congr fun n _ => ?_
  rw [Function.comp_apply, ← how.atHome_settled n]
  rfl

/-- Whether what was marked at one node still is at another, but for the array of a container that has
elements and no array of its own. -/
def KeepsMarks (a : Allocators) (v w : Stored) : Prop :=
  List.Forall₂ (fun m m' => m = true → m' = true) ((v.marks a).drop v.isLiteral.toNat)
    ((w.marks a).drop v.isLiteral.toNat)

theorem livesInWiping_settledHeld (b : Held) (len : ℕ) (h : how.allocators.livesInWiping b.alloc = true) :
    how.allocators.livesInWiping (how.settledHeld (how.home.settle how.allocators b.alloc) len b).alloc = true := by
  rw [Home.settle]
  split
  · exact h
  · rw [h, if_pos (by rfl)]
    exact how.allocators.marked_wiping

theorem keepsMarks_settled (v : Stored) : KeepsMarks how.allocators v (how.settled v) := by
  have hblock (b : Block) (h : how.allocators.livesInWiping b.held.alloc = true) :
      how.allocators.livesInWiping (how.blockHeld b).alloc = true :=
    how.livesInWiping_settledHeld b.held b.data.length h
  have harray (held : Held) (len : ℕ) (hown : ¬ (held.cap = 0 ∧ 0 < len))
      (h : how.allocators.livesInWiping held.alloc = true) :
      how.allocators.livesInWiping (how.arrayHeld len held).alloc = true := by
    rw [arrayHeld, arraySettle, if_neg hown]
    exact how.livesInWiping_settledHeld held len h
  cases v with
  | number digits => exact .cons (hblock digits) .nil
  | string text => exact .cons (hblock text) .nil
  | bytes buffer => exact .cons (hblock buffer) .nil
  | list items held =>
    rw [KeepsMarks]
    cases hliteral : (Stored.list items held).isLiteral with
    | true => exact .nil
    | false =>
      refine .cons (harray held items.length fun hown => ?_) .nil
      simp [isLiteral, hown.1, List.length_pos_iff.mp hown.2] at hliteral
  | map entries held =>
    have hkeys : List.Forall₂ (fun m m' => m = true → m' = true)
        (entries.map fun e => how.allocators.livesInWiping e.1.held.alloc)
        (entries.map fun e => how.allocators.livesInWiping (how.blockHeld e.1).alloc) := by
      rw [List.forall₂_map_left_iff, List.forall₂_map_right_iff, List.forall₂_same]
      exact fun e _ => hblock e.1
    rw [KeepsMarks, settled, rehold, reholdEntries_eq, marks, marks, List.map_map]
    cases hliteral : (Stored.map entries held).isLiteral with
    | true => exact hkeys
    | false =>
      refine .cons (harray held entries.length fun hown => ?_) hkeys
      simp [isLiteral, hown.1, List.length_pos_iff.mp hown.2] at hliteral
  | _ => exact .nil

theorem nodes_settled (v : Stored) :
    List.Forall₂ (KeepsMarks how.allocators) v.nodes (how.settled v).nodes := by
  rw [settled, nodes_rehold, List.forall₂_map_right_iff, List.forall₂_same]
  exact fun n _ => how.keepsMarks_settled n

end Guatiao.Settling
