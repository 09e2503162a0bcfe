import Guatiao.Value.Copied

/-!
# What settling and copying keep

A settled tree and a copied one have the content of the original, and what was marked in the original
is marked in them.
-/

namespace Guatiao

open Lib Stored

namespace Stored

variable {block : Block → Held} {array : ℕ → Held → Held}

theorem content_rehold (v : Stored) : (v.rehold block array).content = v.content := by
  induction v with
  | list items held ih =>
    rw [rehold, reholdItems_eq, content_list, content_list, List.map_map]
    exact congrArg (Stored.list · ⟨none, 0⟩) (List.map_congr_left fun v hv => ih v hv)
  | map entries held ih =>
    rw [rehold, reholdEntries_eq, content_map, content_map, List.map_map]
    refine congrArg (Stored.map · ⟨none, 0⟩) (List.map_congr_left fun e he => ?_)
    rw [Function.comp_apply, ih e.1 e.2 he]
  | _ => rfl

theorem marks_anchored (a : Allocators) (v : Stored) : v.anchored.marks a = v.marks a := by
  cases v with
  | map entries held =>
    rw [anchored, rehold, reholdEntries_eq, marks, marks, List.map_map]
    rfl
  | _ => rfl

end Stored

namespace Copy

variable (how : Copy)

theorem content_copied (v : Stored) : (how.copied v).content = v.content := by
  induction v with
  | list items held ih =>
    rw [copied, copiedItems_eq, content_list, content_list, List.map_map]
    exact congrArg (Stored.list · ⟨none, 0⟩) (List.map_congr_left fun v hv => ih v hv)
  | map entries held ih =>
    rw [copied, copiedEntries_eq, content_map, content_map, List.map_map]
    refine congrArg (Stored.map · ⟨none, 0⟩) (List.map_congr_left fun e he => ?_)
    rw [Function.comp_apply, ih e.1 e.2 he]
  | _ => rfl

theorem children_copied (v : Stored) : (how.copied v).children = v.children.map how.copied := by
  cases v with
  | list items held => rw [copied, children, children, copiedItems_eq]
  | map entries held =>
    rw [copied, children, children, copiedEntries_eq, List.map_map, List.map_map]
    rfl
  | _ => rfl

theorem nodes_copied (v : Stored) : (how.copied v).nodes = v.nodes.map how.copied :=
  inOrder.visits_map how.copied how.children_copied [v]

theorem marked_home {recorded : Option ℕ} (hkeeps : how.keepsSecrets = true) :
    how.allocators.marked (how.home recorded) =
      (how.allocators.marked how.alloc || how.allocators.livesInWiping recorded) := by
  rw [home, hkeeps, Bool.true_and]
  cases how.allocators.livesInWiping recorded with
  | true => rw [if_pos rfl, Bool.or_true, how.allocators.marked_wiping]
  | false => rw [if_neg Bool.false_ne_true, Bool.or_false]

theorem marked_mapHome {entries : List (Block × Stored)} {held : Held} (hkeeps : how.keepsSecrets = true) :
    how.allocators.marked (how.mapHome entries held) =
      (how.allocators.marked how.alloc || ((Stored.map entries held).marks how.allocators).any id) := by
  rw [mapHome, hkeeps, Bool.true_and, marks, List.any_cons, List.any_map, Function.id_comp, id_eq]
  cases hkeys : entries.any fun e => how.allocators.livesInWiping e.1.held.alloc with
  | true =>
    rw [if_pos rfl, how.allocators.marked_wiping, Bool.or_true, Bool.or_true]
  | false =>
    rw [if_neg Bool.false_ne_true, how.marked_home hkeeps, Bool.or_false]

/-- A node's copy is marked throughout when anything the node is made of is, or when the allocator asked
for is the wiping one; otherwise not at all. -/
theorem marks_copied (hkeeps : how.keepsSecrets = true) (v : Stored) :
    (how.copied v).marks how.allocators = (v.marks how.allocators).map fun _ =>
      how.allocators.marked how.alloc || (v.marks how.allocators).any id := by
  have hone (held : Held) : how.allocators.livesInWiping (some (how.home held.alloc)) =
      (how.allocators.marked how.alloc || [how.allocators.livesInWiping held.alloc].any id) := by
    rw [List.any_cons, List.any_nil, Bool.or_false]
    exact how.marked_home hkeeps
  cases v with
  | number digits => exact congrArg (fun b => [b]) (hone digits.held)
  | string text => exact congrArg (fun b => [b]) (hone text.held)
  | bytes buffer => exact congrArg (fun b => [b]) (hone buffer.held)
  | list items held => exact congrArg (fun b => [b]) (hone held)
  | map entries held =>
    have hmap : how.allocators.livesInWiping (some (how.mapHome entries held)) = _ := how.marked_mapHome hkeeps
    rw [copied, copiedEntries_eq, marks, List.map_map, hmap, marks, List.map_cons, List.map_map]
    refine congrArg (_ :: ·) (List.map_congr_left fun e _ => ?_)
    exact hmap
  | _ => rfl

end Copy

theorem equal_of_content {v w : Stored} (h : w.content = v.content) : equal (.values w v) = true :=
  (equal_iff _).mpr h

/-- A settle that goes through gives an equal tree, home when every node passes its door, in which what
was marked still is; so does a copy, which marks a map with a marked key throughout; and judged by
recursion as far as it goes, or over a stack, a tree is home alike. -/
theorem settle_copy :
    (∀ (how : Settling) (v w : Stored) (n m : ℕ), how.settleValue v n = (w, some m) →
      equal (.values w v) = true ∧
      (w.recordedBy how.allocators (some how.alloc) = true ↔ v.WellFormed) ∧
      List.Forall₂ (Settling.KeepsMarks how.allocators) v.nodes w.nodes) ∧
    (∀ (a : Allocators) (grants : ℕ → ℕ → Bool) (alloc : ℕ) (v w : Stored) (n m : ℕ),
      copyValue a grants alloc v n = .ok (w, m) →
      equal (.values w v) = true ∧
      List.Forall₂ (fun x y => y.marks a = (x.marks a).map fun _ => a.marked alloc || (x.marks a).any id)
        v.nodes w.nodes) ∧
    ∀ (home : Home) (v : Stored) (depth : ℕ) (answer : Bool), v.shallow home depth = some answer →
      answer = v.drained home := by
  refine ⟨fun how v w n m h => ?_, fun a grants alloc v w n m h => ?_, fun home v depth answer h => ?_⟩
  · have hsettled := how.settleValue_does h
    have hcontent := how.settleValue_keeps v n
    rw [h] at hcontent
    refine ⟨equal_of_content hcontent, ?_, ?_⟩
    · rw [hsettled, how.recordedBy_settled v]
    · rw [hsettled]
      exact how.nodes_settled v
  · let how := Copy.mk a alloc true grants
    have hcopied := how.copyValueHow_eq h
    have hnodes : w.nodes.map anchored = v.nodes.map how.copied := by
      rw [← how.nodes_copied v, ← hcopied, anchored, nodes_rehold]
    refine ⟨equal_of_content ?_, ?_⟩
    · rw [← content_rehold w, show w.rehold _ _ = how.copied v from hcopied, how.content_copied]
    · have hpairs : List.Forall₂ (fun x y => how.copied x = anchored y) v.nodes w.nodes := by
        rw [← List.forall₂_map_right_iff (R := fun x y => how.copied x = y), hnodes,
          List.forall₂_map_right_iff, List.forall₂_same]
        exact fun x _ => rfl
      refine hpairs.imp fun x y hxy => ?_
      rw [← marks_anchored, ← hxy]
      exact how.marks_copied rfl x
  · exact shallow_eq_drained home v h

/-- One wiping allocator among others. -/
def oneWiping : Allocators := ⟨1, fun address => address == 1, rfl⟩

/-- A secret in a list another allocator made. -/
def secretList : Stored := .list [.string ⟨[0x61], ⟨some 1, 8⟩⟩, .number ⟨[0x37], ⟨some 3, 8⟩⟩] ⟨some 3, 4⟩

theorem settleValue_secretList : (Settling.mk oneWiping 2 fun _ => true).settleValue secretList 0 =
    (.list [.string ⟨[0x61], ⟨some 1, 8⟩⟩, .number ⟨[0x37], ⟨some 2, 1⟩⟩] ⟨some 2, 2⟩, some 2) := by
  have hinto : (Settling.mk oneWiping 2 fun _ => true).settleInto secretList 0 =
      (.list [.string ⟨[0x61], ⟨some 1, 8⟩⟩, .number ⟨[0x37], ⟨some 2, 1⟩⟩] ⟨some 2, 2⟩, some 2) := rfl
  rw [Settling.settleValue, if_pos (by rfl), Settling.settleDrain, hinto]
  simp only [show containers.next secretList = [] from rfl, List.append_nil, Settling.settleDrain]
  rfl

theorem copyValue_secretList : copyValue oneWiping (fun _ _ => true) 2 secretList 0 =
    .ok (.list [.string ⟨[0x61], ⟨some 1, 8⟩⟩, .number ⟨[0x37], ⟨some 2, 8⟩⟩] ⟨some 2, 4⟩, 3) := by
  let how : Copy := ⟨oneWiping, 2, true, fun _ _ => true⟩
  let root (built left : List Stored) : Copying := ⟨.list built left, ⟨some 2, 4⟩, none, 2⟩
  let text : Stored := .string ⟨[0x61], ⟨some 1, 8⟩⟩
  let digits (alloc : ℕ) : Stored := .number ⟨[0x37], ⟨some alloc, 8⟩⟩
  have hrun : how.filling.run (root [] [text, digits 3], [], 1) = .ok (root [text, digits 2] [], 3) := by
    have hfirst : how.filling.body (root [] [text, digits 3], [], 1) = .inr (root [text] [digits 3], [], 2) := rfl
    have hsecond : how.filling.body (root [text] [digits 3], [], 2) = .inr (root [text, digits 2] [], [], 3) := rfl
    have hlast : how.filling.body (root [text, digits 2] [], [], 3) = .inl (.ok (root [text, digits 2] [], 3)) := rfl
    rw [how.filling.run_of_turn hfirst, how.filling.run_of_turn hsecond, how.filling.run_of_stop hlast]
  exact congrArg (Except.map fun p : Copying × ℕ => (p.1.intoValue, p.2)) hrun

/-- A secret settled, copied and judged. -/
theorem settle_copy_secretList :
    (List.Forall₂ (Settling.KeepsMarks oneWiping) secretList.nodes
      (Stored.list [.string ⟨[0x61], ⟨some 1, 8⟩⟩, .number ⟨[0x37], ⟨some 2, 1⟩⟩] ⟨some 2, 2⟩).nodes) ∧
    equal (.values (.list [.string ⟨[0x61], ⟨some 1, 8⟩⟩, .number ⟨[0x37], ⟨some 2, 8⟩⟩] ⟨some 2, 4⟩)
      secretList) = true ∧
    false = secretList.drained (.keeping oneWiping (some 2)) :=
  ⟨(settle_copy.1 _ _ _ _ _ settleValue_secretList).2.2, (settle_copy.2.1 _ _ _ _ _ _ _ copyValue_secretList).1,
    settle_copy.2.2 _ _ 1 _ (by decide)⟩

/-- A node whose tag is not known settles, and is never home. -/
theorem not_settle_copy : ¬ ∀ (how : Settling) (v w : Stored) (n m : ℕ), how.settleValue v n = (w, some m) →
    w.recordedBy how.allocators (some how.alloc) = true := by
  intro h
  have hhome := h ⟨oneWiping, 2, fun _ => true⟩ (.unknown 8 (by decide)) (.unknown 8 (by decide)) 0 0 rfl
  exact absurd hhome (by decide)

end Guatiao
