import Guatiao.Value.Stored

/-!
# Equality and hashing

Two trees are compared, and a tree is hashed, over a stack of what is left. Trees are equal when they
are the same but for what holds their blocks, and then they feed a hasher the same input.
-/

namespace Guatiao.Stored

open Lib

/-- Two things to compare. -/
inductive Pair
  | values (a b : Stored)
  | lists (a b : List Stored)
  | maps (a b : List (Block × Stored))

namespace Pair

/-- Whether two nodes are the same themselves; what they hold is left to compare. -/
def sameNode (a b : Stored) : Bool :=
  if a.tagNumber ≠ b.tagNumber then false
  else
    match a, b with
    | .bool x, .bool y => x == y
    | .number x, .number y => x.data == y.data
    | .string x, .string y => x.data == y.data
    | .bytes x, .bytes y => x.data == y.data
    | _, _ => true

/-- Whether a pair is the same itself. -/
def same : Pair → Bool
  | .values a b => sameNode a b
  | .lists a b => a.length == b.length
  | .maps a b => a.length == b.length && (a.zip b).all fun (x, y) => x.1.data == y.1.data

/-- What a pair leaves to compare, the top of the stack first. -/
def next : Pair → List Pair
  | .values a b =>
    match a, b with
    | .list x _, .list y _ => [.lists x y]
    | .map x _, .map y _ => [.maps x y]
    | _, _ => []
  | .lists a b => ((a.zip b).map fun (x, y) => .values x y).reverse
  | .maps a b => ((a.zip b).map fun (x, y) => .values x.2 y.2).reverse

/-- How much is left to compare under a pair. -/
def size : Pair → ℕ
  | .values a _ => 2 * a.size
  | .lists a _ => 2 * sizeItems a + 1
  | .maps a _ => 2 * sizeEntries a + 1

theorem size_lists (a b : List Stored) :
    (((a.zip b).map fun (x, y) => values x y).map size).sum ≤ 2 * sizeItems a := by
  induction a generalizing b with
  | nil => simp
  | cons x a ih =>
    cases b with
    | nil => simp
    | cons y b =>
      have hrest := ih b
      simp only [List.zip_cons_cons, List.map_cons, List.sum_cons, sizeItems, size] at hrest ⊢
      omega

theorem size_maps (a b : List (Block × Stored)) :
    (((a.zip b).map fun (x, y) => values x.2 y.2).map size).sum ≤ 2 * sizeEntries a := by
  induction a generalizing b with
  | nil => simp
  | cons x a ih =>
    cases b with
    | nil => simp
    | cons y b =>
      have hrest := ih b
      simp only [List.zip_cons_cons, List.map_cons, List.sum_cons, sizeEntries, size] at hrest ⊢
      omega

theorem size_next (p : Pair) : (p.next.map size).sum < p.size := by
  cases p with
  | values a b =>
    have hpos : 0 < a.size := by
      cases a <;> simp only [Stored.size] <;> omega
    unfold next
    dsimp only
    split
    · rw [List.map_singleton, List.sum_singleton, size, size, Stored.size]
      omega
    · rw [List.map_singleton, List.sum_singleton, size, size, Stored.size]
      omega
    · rw [List.map_nil, List.sum_nil, size]
      omega
  | lists a b =>
    rw [next, List.map_reverse, List.sum_reverse]
    exact Nat.lt_succ_of_le (size_lists a b)
  | maps a b =>
    rw [next, List.map_reverse, List.sum_reverse]
    exact Nat.lt_succ_of_le (size_maps a b)

/-- The walk over pairs. -/
def descent : Descent Pair := ⟨next, size, size_next⟩

end Pair

/-- Whether two things, and everything under them, are equal. -/
def equal (first : Pair) : Bool :=
  (Pair.descent.walk (fun (_ : Unit) p => if p.same then some () else none) [first] ()).isSome

theorem equal_iff_next (p : Pair) : equal p = true ↔ p.same = true ∧ ∀ q ∈ p.next, equal q = true := by
  have h := Pair.descent.all_singleton Pair.same p
  rw [show equal p = Pair.descent.all Pair.same [p] from rfl, h, Bool.and_eq_true, List.all_eq_true]
  rfl

theorem content_list (items : List Stored) (held : Held) :
    (Stored.list items held).content = .list (items.map content) ⟨none, 0⟩ := by
  rw [content, rehold, reholdItems_eq]

theorem content_map (entries : List (Block × Stored)) (held : Held) : (Stored.map entries held).content =
    .map (entries.map fun e => (⟨e.1.data, ⟨none, 0⟩⟩, e.2.content)) ⟨none, 0⟩ := by
  rw [content, rehold, reholdEntries_eq]

theorem zip_content (a b : List Stored) : a.map content = b.map content ↔
    a.length = b.length ∧ ∀ p ∈ a.zip b, p.1.content = p.2.content := by
  induction a generalizing b with
  | nil => cases b <;> simp
  | cons x a ih =>
    cases b with
    | nil => simp
    | cons y b =>
      simp only [List.map_cons, List.cons.injEq, ih, List.length_cons, Nat.add_right_cancel_iff,
        List.zip_cons_cons, List.forall_mem_cons]
      exact and_left_comm

theorem zip_entries (a b : List (Block × Stored)) :
    a.map (fun e => ((⟨e.1.data, ⟨none, 0⟩⟩ : Block), e.2.content)) =
        b.map (fun e => ((⟨e.1.data, ⟨none, 0⟩⟩ : Block), e.2.content)) ↔
      a.length = b.length ∧ ∀ p ∈ a.zip b, p.1.1.data = p.2.1.data ∧ p.1.2.content = p.2.2.content := by
  induction a generalizing b with
  | nil => cases b <;> simp
  | cons x a ih =>
    cases b with
    | nil => simp
    | cons y b =>
      simp only [List.map_cons, List.cons.injEq, ih, List.length_cons, Nat.add_right_cancel_iff,
        List.zip_cons_cons, List.forall_mem_cons, Prod.mk.injEq, Block.mk.injEq, and_true]
      tauto

/-- What a pair has to have in common. -/
def Pair.Alike : Pair → Prop
  | .values a b => a.content = b.content
  | .lists a b => a.map content = b.map content
  | .maps a b => a.map (fun e => ((⟨e.1.data, ⟨none, 0⟩⟩ : Block), e.2.content)) =
      b.map (fun e => ((⟨e.1.data, ⟨none, 0⟩⟩ : Block), e.2.content))

/-- Two nodes of one kind. -/
inductive SameKind : Stored → Stored → Prop
  | absent : SameKind .absent .absent
  | null : SameKind .null .null
  | bool (x y : Bool) : SameKind (.bool x) (.bool y)
  | number (x y : Block) : SameKind (.number x) (.number y)
  | string (x y : Block) : SameKind (.string x) (.string y)
  | bytes (x y : Block) : SameKind (.bytes x) (.bytes y)
  | list (x y : List Stored) (h h' : Held) : SameKind (.list x h) (.list y h')
  | map (x y : List (Block × Stored)) (h h' : Held) : SameKind (.map x h) (.map y h')
  | unknown (tag : UInt32) (strange strange' : 8 ≤ tag.toNat) :
    SameKind (.unknown tag strange) (.unknown tag strange')

theorem sameKind {a b : Stored} (h : a.tagNumber = b.tagNumber) : SameKind a b := by
  cases a with
  | unknown tag strange =>
    cases b with
    | unknown tag' strange' =>
      cases h
      exact .unknown tag strange strange'
    | _ =>
      have hlt := congrArg UInt32.toNat h
      simp [tagNumber] at hlt
      omega
  | _ =>
    cases b with
    | unknown tag' strange' =>
      have hlt := congrArg UInt32.toNat h
      simp [tagNumber] at hlt
      omega
    | _ => first | constructor | simp [tagNumber] at h

theorem tagNumber_content (v : Stored) : v.content.tagNumber = v.tagNumber := by
  cases v <;> rfl

theorem alike_values (a b : Stored) : (Pair.values a b).Alike ↔
    Pair.sameNode a b = true ∧ ∀ q ∈ (Pair.values a b).next, q.Alike := by
  by_cases htag : a.tagNumber = b.tagNumber
  · cases sameKind htag with
    | list x y h h' => simp [Pair.Alike, Pair.sameNode, Pair.next, tagNumber, content_list]
    | map x y h h' => simp [Pair.Alike, Pair.sameNode, Pair.next, tagNumber, content_map]
    | _ => simp [Pair.Alike, Pair.sameNode, Pair.next, tagNumber, content, rehold]
  · refine ⟨fun h => absurd ?_ htag, fun h => ?_⟩
    · rw [← tagNumber_content a, ← tagNumber_content b]
      exact congrArg tagNumber h
    · have hsame := h.1
      simp [Pair.sameNode, htag] at hsame

theorem equal_iff (p : Pair) : equal p = true ↔ p.Alike := by
  induction p using Pair.descent.induction with
  | below p ih =>
    have hnext : (∀ q ∈ p.next, equal q = true) ↔ ∀ q ∈ p.next, q.Alike :=
      forall₂_congr ih
    rw [equal_iff_next, hnext]
    cases p with
    | values a b => exact (alike_values a b).symm
    | lists a b =>
      simp only [Pair.same, Pair.next, beq_iff_eq, List.mem_reverse, List.mem_map, forall_exists_index,
        and_imp, forall_apply_eq_imp_iff₂, Pair.Alike, zip_content]
    | maps a b =>
      simp only [Pair.same, Pair.next, beq_iff_eq, List.mem_reverse, List.mem_map, forall_exists_index,
        and_imp, forall_apply_eq_imp_iff₂, Pair.Alike, zip_entries, Bool.and_eq_true, List.all_eq_true,
        and_assoc, forall_and]

/-- Anything that can be fed. -/
structure Hasher (S : Type) where
  writeU8 : S → UInt8 → S
  writeU32 : S → UInt32 → S
  writeUsize : S → ℕ → S
  write : S → List UInt8 → S

variable {S : Type}

namespace Hasher

/-- Bytes with their length first, so where one run ends is part of the input. -/
def bytes (H : Hasher S) (s : S) (data : List UInt8) : S := H.write (H.writeUsize s data.length) data

/-- What a node feeds: its kind, and its own part. -/
def node (H : Hasher S) (s : S) (v : Stored) : S :=
  let s := H.writeU32 s v.tagNumber
  match v with
  | .absent | .null | .unknown _ _ => s
  | .bool b => H.writeU8 s (if b then 1 else 0)
  | .string text => H.bytes s text.data
  | .number digits => H.bytes s digits.data
  | .bytes buffer => H.bytes s buffer.data
  | .list items _ => H.writeUsize s items.length
  | .map entries _ => entries.foldl (fun s e => H.bytes s e.1.data) (H.writeUsize s entries.length)

end Hasher

/-- Feeds a value, and everything under it. -/
def hash (H : Hasher S) (v : Stored) (s : S) : S :=
  Id.run (inOrder.walk (fun s n => pure (H.node s n)) [v] s)

theorem hash_eq (H : Hasher S) (v : Stored) (s : S) : hash H v s = v.nodes.foldl H.node s := by
  rw [hash, Descent.walk_eq, List.foldlM_pure]
  rfl

theorem node_content (H : Hasher S) (s : S) (v : Stored) : H.node s v.content = H.node s v := by
  cases v with
  | list items held =>
    rw [content_list, Hasher.node, Hasher.node, List.length_map]
    rfl
  | map entries held =>
    rw [content_map, Hasher.node, Hasher.node, List.foldl_map, List.length_map]
    rfl
  | _ => rfl

theorem hash_content (H : Hasher S) (v : Stored) (s : S) : hash H v.content s = hash H v s := by
  rw [hash_eq, hash_eq, content, nodes_rehold, List.foldl_map]
  exact congrArg (fun f => v.nodes.foldl f s) (funext₂ fun s n => node_content H s n)

/-- Equality is an equivalence of trees of any depth, and equal trees feed any hasher the same. -/
theorem equal_hash : (Equivalence fun a b : Stored => equal (.values a b) = true) ∧
    ∀ a b : Stored, equal (.values a b) = true →
      ∀ (S : Type) (H : Hasher S) (s : S), hash H a s = hash H b s := by
  have hiff (a b : Stored) : equal (.values a b) = true ↔ a.content = b.content := equal_iff _
  refine ⟨⟨fun a => (hiff a a).mpr rfl, fun {a b} h => ?_, fun {a b c} hab hbc => ?_⟩, fun a b h S H s => ?_⟩
  · exact (hiff b a).mpr ((hiff a b).mp h).symm
  · exact (hiff a c).mpr (((hiff a b).mp hab).trans ((hiff b c).mp hbc))
  · rw [← hash_content H a, (hiff a b).mp h, hash_content]

end Guatiao.Stored
