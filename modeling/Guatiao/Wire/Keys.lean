import Guatiao.Value.Tree

/-!
# Telling a wide map's keys apart

A map counting more than `LINEAR` keys keeps the hash of each key it holds: a hash
not seen before is a new key, and one seen before is a repeat only if the bytes of an
earlier key match. The hash and its seeds are the ones the code computes, and the
answer is the same for every choice of seeds.
-/

namespace Guatiao.Wire

/-- A map counting more than this many keys checks each against a set. -/
def LINEAR : ℕ := 16

/-- The seeds a hash is made under. -/
structure Seeded where
  s0 : UInt64
  s1 : UInt64

/-- Both halves of the 128-bit product of two words, folded together. -/
def fold (a b : UInt64) : UInt64 :=
  let p := a.toNat * b.toNat
  UInt64.ofNat p ^^^ UInt64.ofNat (p >>> 64)

/-- The odd constant the hash multiplies by. -/
def hashMultiplier : UInt64 := 0x9e3779b97f4a7c15

/-- Up to eight bytes as a little-endian word. -/
def word (bytes : List UInt8) : UInt64 :=
  bytes.foldr (fun b w => (w <<< 8) ||| b.toUInt64) 0

/-- The hash of the words not yet folded in, and of what is left past the last. -/
def Seeded.hashWords (seeds : Seeded) (h : UInt64) : List UInt8 → UInt64
  | b0 :: b1 :: b2 :: b3 :: b4 :: b5 :: b6 :: b7 :: rest =>
    let w := word [b0, b1, b2, b3, b4, b5, b6, b7]
    seeds.hashWords (fold (h ^^^ w) (seeds.s1 ^^^ hashMultiplier)) rest
  | [] => h
  | rest => fold (h ^^^ word rest) seeds.s1

/-- The hash of a key's bytes: a multiply-and-fold per eight bytes. -/
def Seeded.hashOne (seeds : Seeded) (key : List UInt8) : UInt64 :=
  fold (seeds.hashWords (seeds.s0 ^^^ UInt64.ofNat key.length * hashMultiplier) key)
    (seeds.s0 ^^^ hashMultiplier)

/-- The hashes of one wide map's keys. -/
structure KeySet where
  seeds : Seeded
  hashes : List UInt64

/-- A set holding nothing yet. -/
def KeySet.new (seeds : Seeded) : KeySet := ⟨seeds, []⟩

/-- Adds a key's hash: false when an earlier key had the same, and only the bytes can
then tell whether it is the same key. -/
def KeySet.insert (set : KeySet) (key : List UInt8) : Bool × KeySet :=
  let h := set.seeds.hashOne key
  (!set.hashes.contains h, { set with hashes := h :: set.hashes })

/-- The set holds the hash of every key of a list. -/
def KeySet.Covers (set : KeySet) (keys : List String) : Prop :=
  ∀ k ∈ keys, set.seeds.hashOne (asBytes k) ∈ set.hashes

theorem KeySet.new_covers (seeds : Seeded) : (KeySet.new seeds).Covers [] := by
  intro k hk
  cases hk

theorem KeySet.Covers.insert {set : KeySet} {keys : List String} (h : set.Covers keys)
    (key : String) : (set.insert (asBytes key)).2.Covers (keys ++ [key]) := by
  intro k hk
  simp only [List.mem_append, List.mem_singleton] at hk
  rcases hk with hk | rfl
  · exact List.mem_cons_of_mem _ (h k hk)
  · exact List.mem_cons_self ..

/-- The duplicate check of a hashed map is the check by the bytes alone: a hash seen
for the first time is a key seen for the first time. -/
theorem KeySet.Covers.repeated_iff {set : KeySet} {keys : List String} (h : set.Covers keys)
    (key : String) (p : Bool) (hp : p = true ↔ key ∈ keys) :
    (!(set.insert (asBytes key)).1 && p) = p := by
  cases p with
  | false => simp
  | true =>
    have hmem := h key (hp.mp rfl)
    simp [KeySet.insert, hmem]

end Guatiao.Wire
