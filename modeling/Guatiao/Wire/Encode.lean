import Guatiao.Lib.Leb128
import Guatiao.Lib.Loop
import Guatiao.Value.Tree

/-!
# Encoding a value

Every node is its tag's byte and then its body; a length or a count is an unsigned
LEB128, and a map's entries keep their order. `encode` is the loop of the source over
an explicit stack of what is left of each open container; `wire` is the encoding by
recursion over the tree, and the loop writes it.
-/

namespace Guatiao.Wire

open Lib

/-- An unsigned LEB128, the shortest form: seven bits a byte, lowest first. -/
def putLen (n : ℕ) : List UInt8 :=
  let byte := UInt8.ofNat (n &&& 0x7f)
  if n >>> 7 = 0 then [byte] else (byte ||| 0x80) :: putLen (n >>> 7)
termination_by n
decreasing_by
  rw [Nat.shiftRight_eq_div_pow] at *
  omega

theorem high_bit (n : ℕ) :
    UInt8.ofNat (n % 128) ||| 0x80 = UInt8.ofNat (n % 128 + 128) := by
  have h : ∀ k : Fin 128, UInt8.ofNat k.val ||| 0x80 = UInt8.ofNat (k.val + 128) := by decide
  exact h ⟨n % 128, Nat.mod_lt _ (by decide)⟩

theorem putLen_eq (n : ℕ) : putLen n = Leb128.encode n := by
  induction n using Nat.strong_induction_on with
  | _ n ih =>
    have hlow : n &&& 0x7f = n % 128 := Nat.and_two_pow_sub_one_eq_mod n 7
    have hhigh : n >>> 7 = n / 128 := Nat.shiftRight_eq_div_pow n 7
    rw [putLen, Leb128.encode, hlow, hhigh]
    by_cases hsmall : n < 128
    · rw [if_pos (by omega), if_pos hsmall, Nat.mod_eq_of_lt hsmall]
    · rw [if_neg (by omega), if_neg hsmall, ih (n / 128) (by omega), high_bit]

theorem putLen_ne_nil (n : ℕ) : putLen n ≠ [] := by
  rw [putLen_eq]
  exact Leb128.encode_ne_nil n

/-- Bytes behind their length. -/
def putBytes (data : List UInt8) : List UInt8 := putLen data.length ++ data

/-- What is left of a container being written. -/
inductive Left where
  | items (rest : List Value)
  | entries (rest : List Entry)

/-- Writes one node's tag and body; a container answers what is left of it. -/
def nodeInto (node : Value) (out : List UInt8) : Option Left × List UInt8 :=
  let out := out ++ [node.tag.toByte]
  match node with
  | .absent | .null => (none, out)
  | .bool b => (none, out ++ [if b then 1 else 0])
  | .number n => (none, out ++ putBytes (asBytes n.text))
  | .string text => (none, out ++ putBytes (asBytes text))
  | .bytes data => (none, out ++ putBytes data)
  | .list items => (some (.items items), out ++ putLen items.length)
  | .map entries => (some (.entries entries), out ++ putLen entries.length)

/-- The state of the encoding loop: the containers open, innermost first, the node to
write next, and the bytes written. -/
structure Encoding where
  stack : List Left
  next : Option Value
  out : List UInt8

/-- The second half of a turn: goes on with the innermost container, whose next
element is written next, or which is done. -/
def advance (stack : List Left) (out : List UInt8) : List UInt8 ⊕ Encoding :=
  match stack with
  | [] => .inl out
  | .items [] :: below => .inr ⟨below, none, out⟩
  | .items (item :: rest) :: below => .inr ⟨.items rest :: below, some item, out⟩
  | .entries [] :: below => .inr ⟨below, none, out⟩
  | .entries ((key, value) :: rest) :: below =>
    .inr ⟨.entries rest :: below, some value, out ++ putBytes (asBytes key)⟩

/-- One turn of the encoding loop. -/
def encodeTurn (s : Encoding) : List UInt8 ⊕ Encoding :=
  match s.next with
  | none => advance s.stack s.out
  | some node =>
    match nodeInto node s.out with
    | (none, out) => advance s.stack out
    | (some opened, out) => advance (opened :: s.stack) out

mutual

/-- How many turns a node takes at most. -/
def turns : Value → ℕ
  | .list items => 1 + turnsItems items
  | .map entries => 1 + turnsEntries entries
  | _ => 1

/-- How many turns a list's items take at most. -/
def turnsItems : List Value → ℕ
  | [] => 0
  | v :: rest => 1 + turns v + turnsItems rest

/-- How many turns a map's entries take at most. -/
def turnsEntries : List (String × Value) → ℕ
  | [] => 0
  | (_, v) :: rest => 1 + turns v + turnsEntries rest

end

/-- How many turns an open container takes at most. -/
def Left.turns : Left → ℕ
  | .items rest => 1 + turnsItems rest
  | .entries rest => 1 + turnsEntries rest

/-- How many turns a state of the loop takes at most. -/
def Encoding.turns (s : Encoding) : ℕ :=
  (s.next.map Wire.turns).getD 0 + (s.stack.map Left.turns).sum

theorem advance_turns {stack : List Left} {out : List UInt8} {s : Encoding}
    (h : advance stack out = .inr s) : s.turns < (stack.map Left.turns).sum := by
  unfold advance at h
  split at h <;> cases h <;>
    simp [Encoding.turns, Left.turns, turnsItems, turnsEntries] <;> omega

theorem nodeInto_turns {node : Value} {out out' : List UInt8} {opened : Left}
    (h : nodeInto node out = (some opened, out')) : opened.turns = turns node := by
  cases node <;> simp only [nodeInto, Prod.mk.injEq, reduceCtorEq, false_and] at h
  · rw [← Option.some.inj h.1]
    rfl
  · rw [← Option.some.inj h.1]
    rfl

/-- The encoding loop. -/
def encodeLoop : Loop Encoding (List UInt8) where
  body := encodeTurn
  measure := Encoding.turns
  decreases := by
    intro s s' h
    unfold encodeTurn at h
    cases hnext : s.next with
    | none =>
      rw [hnext] at h
      have := advance_turns h
      simpa [Encoding.turns, hnext] using this
    | some node =>
      simp only [hnext] at h
      split at h
      · next out hnode =>
        have := advance_turns h
        have hpos : 0 < turns node := by cases node <;> simp only [turns] <;> omega
        simp only [Encoding.turns, hnext, Option.map_some, Option.getD_some] at this ⊢
        omega
      · next opened out hnode =>
        have := advance_turns h
        rw [List.map_cons, List.sum_cons, nodeInto_turns hnode] at this
        simpa [Encoding.turns, hnext] using this

/-- Appends `value` to `out`. Every tree of the model passes its own doors, so nothing
is refused. -/
def encode (value : Value) (out : List UInt8) : List UInt8 :=
  encodeLoop.run ⟨[], some value, out⟩

/-- The bytes of a value. -/
def toBytes (value : Value) : List UInt8 := encode value []

mutual

/-- A value's bytes, by recursion over the tree. -/
def wire : Value → List UInt8
  | .absent => [Tag.absent.toByte]
  | .null => [Tag.null.toByte]
  | .bool b => [Tag.bool.toByte, if b then 1 else 0]
  | .number n => Tag.number.toByte :: putBytes (asBytes n.text)
  | .string text => Tag.string.toByte :: putBytes (asBytes text)
  | .bytes data => Tag.bytes.toByte :: putBytes data
  | .list items => Tag.list.toByte :: (putLen items.length ++ wireItems items)
  | .map entries => Tag.map.toByte :: (putLen entries.length ++ wireEntries entries)

/-- The bytes of a list's items. -/
def wireItems : List Value → List UInt8
  | [] => []
  | v :: rest => wire v ++ wireItems rest

/-- The bytes of a map's entries. -/
def wireEntries : List (String × Value) → List UInt8
  | [] => []
  | (key, v) :: rest => putBytes (asBytes key) ++ wire v ++ wireEntries rest

end

theorem wireItems_append (xs ys : List Value) :
    wireItems (xs ++ ys) = wireItems xs ++ wireItems ys := by
  induction xs with
  | nil => rfl
  | cons v rest ih => simp [wireItems, ih]

theorem wireEntries_append (xs ys : List Entry) :
    wireEntries (xs ++ ys) = wireEntries xs ++ wireEntries ys := by
  induction xs with
  | nil => rfl
  | cons p rest ih =>
    obtain ⟨key, v⟩ := p
    simp [wireEntries, ih]

/-- The bytes an open container has still to write. -/
def Left.wire : Left → List UInt8
  | .items rest => wireItems rest
  | .entries rest => wireEntries rest

/-- The bytes a state of the loop ends with. -/
def Encoding.wire (s : Encoding) : List UInt8 :=
  s.out ++ (s.next.map Wire.wire).getD [] ++ (s.stack.map Left.wire).flatten

theorem advance_stop {stack : List Left} {out a : List UInt8}
    (h : advance stack out = .inl a) : out ++ (stack.map Left.wire).flatten = a := by
  unfold advance at h
  split at h <;> cases h
  simp

theorem advance_turn {stack : List Left} {out : List UInt8} {s : Encoding}
    (h : advance stack out = .inr s) : s.wire = out ++ (stack.map Left.wire).flatten := by
  unfold advance at h
  split at h <;> cases h <;>
    simp [Encoding.wire, Left.wire, wireItems, wireEntries]

theorem nodeInto_wire (node : Value) (out : List UInt8) :
    (nodeInto node out).2 ++ ((nodeInto node out).1.map Left.wire).getD [] =
      out ++ wire node := by
  cases node <;> simp [nodeInto, wire, Left.wire, Value.tag]

theorem encodeTurn_wire (s : Encoding) :
    ∃ stack out, encodeTurn s = advance stack out ∧
      out ++ (stack.map Left.wire).flatten = s.wire := by
  unfold encodeTurn Encoding.wire
  cases hnext : s.next with
  | none => exact ⟨s.stack, s.out, rfl, by simp⟩
  | some node =>
    have hnode := nodeInto_wire node s.out
    rcases hinto : nodeInto node s.out with ⟨_ | opened, out⟩
    · simp only [hinto, Option.map_none, Option.getD_none, List.append_nil] at hnode
      exact ⟨s.stack, out, by simp only [hinto], by simp [hnode]⟩
    · simp only [hinto, Option.map_some, Option.getD_some] at hnode
      refine ⟨opened :: s.stack, out, by simp only [hinto], ?_⟩
      rw [List.map_cons, List.flatten_cons, ← List.append_assoc, hnode]
      simp

theorem encode_eq (v : Value) (out : List UInt8) : encode v out = out ++ wire v := by
  have hrun := encodeLoop.run_eq (I := fun _ => True) (f := Encoding.wire)
    (by
      intro s s' _ h
      obtain ⟨stack, out, hadvance, hwire⟩ := encodeTurn_wire s
      rw [← hwire]
      exact ⟨trivial, advance_turn (hadvance ▸ h)⟩)
    (by
      intro s a _ h
      obtain ⟨stack, out, hadvance, hwire⟩ := encodeTurn_wire s
      rw [← hwire]
      exact advance_stop (hadvance ▸ h))
    (s := ⟨[], some v, out⟩) trivial
  simpa [Encoding.wire, encode] using hrun

theorem toBytes_eq (v : Value) : toBytes v = wire v := by
  simpa [toBytes] using encode_eq v []

theorem wire_length_pos (v : Value) : 0 < (wire v).length := by
  cases v <;> simp [wire]

end Guatiao.Wire
