import Mathlib

/-!
# Machine arithmetic

An operation on machine integers answers its exact result where that fits the type, and is an
overflow elsewhere. A conversion with `as` keeps the low bits.
-/

namespace Guatiao.Lib

/-- An exact result that does not fit its type. -/
inductive Overflow
  | overflow
  deriving DecidableEq, Repr

/-- A signed result in so many bits. -/
def signed (bits : ℕ) (x : ℤ) : Except Overflow ℤ :=
  if -(2 ^ (bits - 1)) ≤ x ∧ x < 2 ^ (bits - 1) then .ok x else .error .overflow

/-- An unsigned result in so many bits. -/
def unsigned (bits : ℕ) (n : ℕ) : Except Overflow ℕ :=
  if n < 2 ^ bits then .ok n else .error .overflow

/-- A number's low bits, as an unsigned number. -/
def lowBits (bits : ℕ) (x : ℤ) : ℕ := (x % 2 ^ bits).toNat

/-- A number's low bits, as a signed number. -/
def lowSigned (bits : ℕ) (x : ℤ) : ℤ := (x + 2 ^ (bits - 1)) % 2 ^ bits - 2 ^ (bits - 1)

/-- A result in an `i64`. -/
def i64 (x : ℤ) : Except Overflow ℤ := signed 64 x

/-- A result in an `i128`. -/
def i128 (x : ℤ) : Except Overflow ℤ := signed 128 x

/-- A result in a `u64`. -/
def u64 (n : ℕ) : Except Overflow ℕ := unsigned 64 n

variable {bits : ℕ} {x : ℤ}

theorem signed_ok (hlo : -(2 ^ (bits - 1)) ≤ x) (hhi : x < 2 ^ (bits - 1)) :
    signed bits x = .ok x := if_pos ⟨hlo, hhi⟩

theorem i64_ok (hlo : -9223372036854775808 ≤ x) (hhi : x < 9223372036854775808) :
    i64 x = .ok x := signed_ok hlo hhi

theorem i128_ok (hlo : -170141183460469231731687303715884105728 ≤ x)
    (hhi : x < 170141183460469231731687303715884105728) : i128 x = .ok x := signed_ok hlo hhi

theorem lowBits_eq {n : ℕ} (h : n < 2 ^ bits) : lowBits bits n = n := by
  have hn : ((n : ℤ) % 2 ^ bits) = ((n % 2 ^ bits : ℕ) : ℤ) := by push_cast; rfl
  rw [lowBits, hn, Int.toNat_natCast, Nat.mod_eq_of_lt h]

theorem lowBits_toNat (h0 : 0 ≤ x) (h : x < 2 ^ bits) : lowBits bits x = x.toNat := by
  rw [lowBits, Int.emod_eq_of_lt h0 h]

end Guatiao.Lib
