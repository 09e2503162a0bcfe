import Mathlib.Data.List.Basic
import Mathlib.Algebra.Order.Ring.Nat
import Mathlib.Tactic.Ring

/-!
# Unsigned LEB128 in its shortest form

A number is written as its base-128 digits, lowest first, every byte but the last
with its high bit set. Each number has one spelling in which the last digit is not a
zero that could be left out. `encode` writes that spelling, `value` reads any, and
the two are inverse on the shortest ones.
-/

namespace Guatiao.Lib.Leb128

/-- The shortest spelling of a number. -/
def encode (n : ℕ) : List UInt8 :=
  if n < 128 then [UInt8.ofNat n] else UInt8.ofNat (n % 128 + 128) :: encode (n / 128)
termination_by n

/-- The number some bytes spell, lowest digit first. -/
def value : List UInt8 → ℕ
  | [] => 0
  | b :: bs => b.toNat % 128 + 128 * value bs

/-- Bytes that are the shortest spelling of some number: each byte but the last
continues, and the last is not a digit that could be dropped. -/
inductive Shortest : List UInt8 → Prop
  | last (b : UInt8) (hb : b.toNat < 128) : Shortest [b]
  | more (b : UInt8) (bs : List UInt8) (hb : 128 ≤ b.toNat) (hbs : Shortest bs)
      (hne : bs ≠ [0]) : Shortest (b :: bs)

theorem Shortest.ne_nil {bs : List UInt8} (h : Shortest bs) : bs ≠ [] := by
  cases h <;> simp

theorem Shortest.value_pos {bs : List UInt8} (h : Shortest bs) (hne : bs ≠ [0]) :
    0 < value bs := by
  induction h with
  | last b hb =>
    have hb0 : b.toNat ≠ 0 := by
      intro h0
      exact hne (by rw [List.cons.injEq]; exact ⟨UInt8.toNat_inj.mp h0, rfl⟩)
    simp only [value]
    omega
  | more b bs hb hbs hbs0 ih =>
    have hpos := ih hbs0
    simp only [value]
    omega

theorem toNat_ofNat {n : ℕ} (h : n < 256) : (UInt8.ofNat n).toNat = n := by
  simp [Nat.mod_eq_of_lt h]

theorem value_encode (n : ℕ) : value (encode n) = n := by
  induction n using Nat.strong_induction_on with
  | _ n ih =>
    rw [encode]
    split
    · next h => simp only [value, toNat_ofNat (show n < 256 by omega)]; omega
    · next h =>
      simp only [value, ih (n / 128) (by omega), toNat_ofNat (show n % 128 + 128 < 256 by omega)]
      omega

theorem encode_eq_zero {n : ℕ} (h : encode n = [0]) : n = 0 := by
  have hv := value_encode n
  rw [h] at hv
  simpa [value] using hv.symm

theorem shortest_encode (n : ℕ) : Shortest (encode n) := by
  induction n using Nat.strong_induction_on with
  | _ n ih =>
    rw [encode]
    split
    · next h => exact .last _ (by rw [toNat_ofNat (by omega)]; exact h)
    · next h =>
      refine .more _ _ ?_ (ih (n / 128) (by omega)) ?_
      · rw [toNat_ofNat (by omega)]; omega
      · intro h0
        have := encode_eq_zero h0
        omega

theorem Shortest.encode_value {bs : List UInt8} (h : Shortest bs) : encode (value bs) = bs := by
  induction h with
  | last b hb =>
    rw [encode, if_pos (by simp only [value]; omega)]
    simp [value, Nat.mod_eq_of_lt hb]
  | more b bs hb hbs hne ih =>
    have hpos := hbs.value_pos hne
    have hlt := b.toNat_lt
    have hdiv : value (b :: bs) / 128 = value bs := by simp only [value]; omega
    have hmod : value (b :: bs) % 128 + 128 = b.toNat := by simp only [value]; omega
    rw [encode, if_neg (by simp only [value]; omega), hdiv, ih, hmod]
    simp

theorem encode_ne_nil (n : ℕ) : encode n ≠ [] := (shortest_encode n).ne_nil

end Guatiao.Lib.Leb128
