import Mathlib.Data.Nat.Digits.Lemmas

/-!
# Numbers as decimal bytes

A number is written with its decimal digits in ASCII, padded with zeros to a width where one is
asked for, and digits are read back from the left. A width's digits and the numbers below its power
of ten are the same thing.
-/

namespace Guatiao.Lib

/-- Whether a byte is an ASCII digit. -/
def asciiDigit (b : UInt8) : Bool := 48 ≤ b && b ≤ 57

/-- The byte of a digit. -/
def digitByte (d : ℕ) : UInt8 := UInt8.ofNat (48 + d)

/-- The digit of a byte. -/
def byteDigit (b : UInt8) : ℕ := b.toNat - 48

/-- The number some digits write. -/
def valueOf (bytes : List UInt8) : ℕ := bytes.foldl (fun v b => v * 10 + byteDigit b) 0

/-- A number's decimal digits. -/
def decimal (n : ℕ) : List UInt8 := (Nat.toDigits 10 n).map fun c => UInt8.ofNat c.toNat

/-- A number's decimal digits behind the zeros that fill a width. -/
def padded (width n : ℕ) : List UInt8 :=
  List.replicate (width - (decimal n).length) 48 ++ decimal n

/-- A number's last digits, so many. -/
def fixed : ℕ → ℕ → List UInt8
  | 0, _ => []
  | width + 1, n => fixed width (n / 10) ++ [digitByte (n % 10)]

variable {b : UInt8} {bytes : List UInt8} {n width : ℕ}

theorem asciiDigit_iff : asciiDigit b = true ↔ 48 ≤ b.toNat ∧ b.toNat ≤ 57 := by
  simp only [asciiDigit, Bool.and_eq_true, decide_eq_true_eq, UInt8.le_iff_toNat_le]
  rfl

theorem digitByte_toNat (h : n < 10) : (digitByte n).toNat = 48 + n := by
  rw [digitByte, UInt8.toNat_ofNat', Nat.mod_eq_of_lt (by omega)]

@[simp] theorem asciiDigit_digitByte (h : n < 10) : asciiDigit (digitByte n) = true := by
  rw [asciiDigit_iff, digitByte_toNat h]
  omega

theorem byteDigit_digitByte (h : n < 10) : byteDigit (digitByte n) = n := by
  rw [byteDigit, digitByte_toNat h]
  omega

theorem byteDigit_lt (h : asciiDigit b = true) : byteDigit b < 10 := by
  have hb := asciiDigit_iff.mp h
  unfold byteDigit
  omega

theorem digitByte_byteDigit (h : asciiDigit b = true) : digitByte (byteDigit b) = b := by
  have hb := asciiDigit_iff.mp h
  apply UInt8.toNat_inj.mp
  rw [digitByte_toNat (byteDigit_lt h), byteDigit]
  omega

theorem valueOf_concat (bytes : List UInt8) (b : UInt8) :
    valueOf (bytes ++ [b]) = valueOf bytes * 10 + byteDigit b := by
  rw [valueOf, List.foldl_append]
  rfl

theorem foldl_valueOf (v : ℕ) (bytes : List UInt8) :
    bytes.foldl (fun v b => v * 10 + byteDigit b) v = v * 10 ^ bytes.length + valueOf bytes := by
  induction bytes using List.reverseRecOn with
  | nil => simp [valueOf]
  | append_singleton bytes b ih =>
    rw [List.foldl_append, ih, valueOf_concat, List.length_append, List.length_singleton, pow_succ]
    simp only [List.foldl_cons, List.foldl_nil]
    ring

theorem valueOf_append (xs ys : List UInt8) :
    valueOf (xs ++ ys) = valueOf xs * 10 ^ ys.length + valueOf ys := by
  rw [valueOf, List.foldl_append]
  exact foldl_valueOf _ ys

theorem valueOf_cons (b : UInt8) (bytes : List UInt8) :
    valueOf (b :: bytes) = byteDigit b * 10 ^ bytes.length + valueOf bytes := by
  rw [← List.singleton_append, valueOf_append]
  simp [valueOf]

theorem valueOf_lt (h : ∀ b ∈ bytes, asciiDigit b = true) : valueOf bytes < 10 ^ bytes.length := by
  induction bytes using List.reverseRecOn with
  | nil => decide
  | append_singleton bytes b ih =>
    have hbytes := ih fun b hb => h b (List.mem_append_left _ hb)
    have hb := byteDigit_lt (h b (List.mem_append_right _ (List.mem_singleton_self b)))
    rw [valueOf_concat, List.length_append, List.length_singleton, pow_succ]
    omega

theorem valueOf_replicate_zero (k : ℕ) : valueOf (List.replicate k 48) = 0 := by
  induction k with
  | zero => rfl
  | succ k ih =>
    rw [List.replicate_succ, valueOf_cons, ih, show byteDigit 48 = 0 from rfl, zero_mul]

@[simp] theorem length_fixed (width n : ℕ) : (fixed width n).length = width := by
  induction width generalizing n with
  | zero => rfl
  | succ width ih => simp [fixed, ih]

theorem all_fixed (width n : ℕ) : ∀ b ∈ fixed width n, asciiDigit b = true := by
  induction width generalizing n with
  | zero => exact fun b hb => absurd hb (List.not_mem_nil)
  | succ width ih =>
    intro b hb
    rcases List.mem_append.mp hb with hmem | hmem
    · exact ih _ b hmem
    · rw [List.mem_singleton.mp hmem]
      exact asciiDigit_digitByte (by omega)

theorem valueOf_fixed (h : n < 10 ^ width) : valueOf (fixed width n) = n := by
  induction width generalizing n with
  | zero =>
    rw [pow_zero, Nat.lt_one_iff] at h
    rw [h]
    rfl
  | succ width ih =>
    have hdiv : n / 10 < 10 ^ width := by
      rw [pow_succ] at h
      omega
    rw [fixed, valueOf_concat, ih hdiv, byteDigit_digitByte (by omega)]
    omega

theorem fixed_valueOf (h : ∀ b ∈ bytes, asciiDigit b = true) :
    fixed bytes.length (valueOf bytes) = bytes := by
  induction bytes using List.reverseRecOn with
  | nil => rfl
  | append_singleton bytes b ih =>
    have hb := h b (List.mem_append_right _ (List.mem_singleton_self b))
    have hlt := byteDigit_lt hb
    rw [List.length_append, List.length_singleton, fixed, valueOf_concat]
    rw [show (valueOf bytes * 10 + byteDigit b) / 10 = valueOf bytes by omega]
    rw [show (valueOf bytes * 10 + byteDigit b) % 10 = byteDigit b by omega]
    rw [ih fun b hb => h b (List.mem_append_left _ hb), digitByte_byteDigit hb]

theorem decimal_of_lt (h : n < 10) : decimal n = [digitByte n] := by
  rw [decimal, Nat.toDigits_of_lt_base h]
  interval_cases n <;> decide

theorem decimal_of_ge (h : 10 ≤ n) : decimal n = decimal (n / 10) ++ [digitByte (n % 10)] := by
  have hlt : n % 10 < 10 := Nat.mod_lt _ (by omega)
  rw [decimal, Nat.toDigits_of_base_le (by omega) h, List.map_append, ← decimal]
  congr 1
  generalize n % 10 = d at hlt
  interval_cases d <;> decide

theorem decimal_eq_fixed (n : ℕ) :
    decimal n = fixed (decimal n).length n ∧ n < 10 ^ (decimal n).length ∧
      0 < (decimal n).length := by
  induction n using Nat.strong_induction_on with
  | _ n ih =>
    by_cases h : n < 10
    · rw [decimal_of_lt h]
      refine ⟨?_, by simpa using h, Nat.one_pos⟩
      simp [fixed, Nat.mod_eq_of_lt h]
    · obtain ⟨heq, hlt, -⟩ := ih (n / 10) (by omega) 
      rw [decimal_of_ge (by omega), List.length_append, List.length_singleton, fixed, ← heq, pow_succ]
      exact ⟨rfl, by omega, Nat.succ_pos _⟩

theorem decimal_ne_nil (n : ℕ) : decimal n ≠ [] :=
  List.length_pos_iff.mp (decimal_eq_fixed n).2.2

theorem all_decimal (n : ℕ) : ∀ b ∈ decimal n, asciiDigit b = true := by
  rw [(decimal_eq_fixed n).1]
  exact all_fixed _ n

@[simp] theorem valueOf_decimal (n : ℕ) : valueOf (decimal n) = n := by
  obtain ⟨heq, hlt, -⟩ := decimal_eq_fixed n
  rw [heq]
  exact valueOf_fixed hlt

theorem length_decimal_le (hwidth : 0 < width) (h : n < 10 ^ width) :
    (decimal n).length ≤ width := by
  induction width generalizing n with
  | zero => exact absurd hwidth (lt_irrefl 0)
  | succ width ih =>
    by_cases hlt : n < 10
    · rw [decimal_of_lt hlt]
      exact Nat.succ_pos width
    · have hdiv : n / 10 < 10 ^ width := by
        rw [pow_succ] at h
        omega
      have hpos : 0 < width := by
        apply Nat.pos_of_ne_zero
        intro hzero
        rw [hzero, pow_zero] at hdiv
        omega
      rw [decimal_of_ge (by omega), List.length_append, List.length_singleton]
      exact Nat.succ_le_succ (ih hpos hdiv)

theorem padded_eq_fixed (hwidth : 0 < width) (h : n < 10 ^ width) : padded width n = fixed width n := by
  have hlen := length_decimal_le hwidth h
  have hall : ∀ b ∈ padded width n, asciiDigit b = true := by
    intro b hb
    rcases List.mem_append.mp hb with hmem | hmem
    · rw [(List.mem_replicate.mp hmem).2]
      rfl
    · exact all_decimal n b hmem
  have hvalue : valueOf (padded width n) = n := by
    rw [padded, valueOf_append, valueOf_replicate_zero, valueOf_decimal]
    omega
  have hlength : (padded width n).length = width := by
    rw [padded, List.length_append, List.length_replicate]
    omega
  have := fixed_valueOf hall
  rw [hvalue, hlength] at this
  exact this.symm

end Guatiao.Lib
