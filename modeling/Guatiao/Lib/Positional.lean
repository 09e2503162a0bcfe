import Mathlib.Algebra.Order.Field.Rat
import Mathlib.Tactic.Linarith
import Mathlib.Tactic.FieldSimp
import Mathlib.Tactic.Positivity
import Mathlib.Tactic.Ring

/-!
# Numbers written in a base

Digits after the point denote a fraction. Without a zero at the end, digit strings are ordered as
words are, a prefix first, exactly as the fractions they denote; with no zero at the front either, an
exponent comes before the digits.
-/

namespace Guatiao.Lib.Positional

variable {base : ℕ}

/-- The fraction some digits after the point denote. -/
def fraction (base : ℕ) : List ℕ → ℚ
  | [] => 0
  | d :: rest => (d + fraction base rest) / base

/-- The whole number some digits denote. -/
def number (base : ℕ) (digits : List ℕ) : ℕ := digits.foldl (fun n d => n * base + d) 0

/-- Digit strings in the order of words: a prefix comes first. -/
def lex : List ℕ → List ℕ → Ordering
  | [], [] => .eq
  | [], _ :: _ => .lt
  | _ :: _, [] => .gt
  | x :: xs, y :: ys => (Ord.compare x y).then (lex xs ys)

theorem fraction_append (hbase : 0 < base) (xs ys : List ℕ) :
    fraction base (xs ++ ys) = fraction base xs + fraction base ys / base ^ xs.length := by
  have hne : (base : ℚ) ≠ 0 := by positivity
  induction xs with
  | nil => simp [fraction]
  | cons x xs ih =>
    rw [List.cons_append, fraction, fraction, ih, List.length_cons, pow_succ]
    field_simp
    ring

theorem fraction_append_zeros (hbase : 0 < base) (xs : List ℕ) (n : ℕ) :
    fraction base (xs ++ List.replicate n 0) = fraction base xs := by
  have hzeros : fraction base (List.replicate n 0) = 0 := by
    induction n with
    | zero => rfl
    | succ n ih => simp [List.replicate_succ, fraction, ih]
  simp [fraction_append hbase, hzeros]

theorem number_eq (hbase : 0 < base) (digits : List ℕ) :
    (number base digits : ℚ) = fraction base digits * base ^ digits.length := by
  have hne : (base : ℚ) ≠ 0 := by positivity
  have hfrom (n : ℕ) : ((digits.foldl (fun n d => n * base + d) n : ℕ) : ℚ) =
      n * base ^ digits.length + fraction base digits * base ^ digits.length := by
    induction digits generalizing n with
    | nil => simp [fraction]
    | cons d digits ih =>
      rw [List.foldl_cons, ih, fraction, List.length_cons, pow_succ]
      push_cast
      field_simp
      ring
  simpa [number] using hfrom 0

theorem number_append (digits : List ℕ) (d : ℕ) :
    number base (digits ++ [d]) = number base digits * base + d := by
  rw [number, List.foldl_append]
  rfl

variable {xs ys : List ℕ}

theorem fraction_nonneg (base : ℕ) (xs : List ℕ) : 0 ≤ fraction base xs := by
  induction xs with
  | nil => exact le_refl 0
  | cons x xs ih =>
    rw [fraction]
    positivity

theorem fraction_lt_one (hbase : 0 < base) (hxs : ∀ x ∈ xs, x < base) : fraction base xs < 1 := by
  induction xs with
  | nil => exact one_pos
  | cons x xs ih =>
    have htail := ih fun y hy => hxs y (List.mem_cons_of_mem _ hy)
    have hx : (x : ℚ) + 1 ≤ base := by exact_mod_cast hxs x List.mem_cons_self
    rw [fraction, div_lt_one (by positivity)]
    linarith

theorem le_fraction_cons {x : ℕ} (hx : x ≠ 0) : 1 / (base : ℚ) ≤ fraction base (x :: xs) := by
  have h1 : (1 : ℚ) ≤ x := by exact_mod_cast Nat.one_le_iff_ne_zero.mpr hx
  have htail := fraction_nonneg base xs
  rw [fraction]
  apply div_le_div_of_nonneg_right _ (Nat.cast_nonneg base)
  linarith

theorem fraction_pos (hbase : 0 < base) (hne : xs ≠ []) (hlast : xs.getLast? ≠ some 0) :
    0 < fraction base xs := by
  induction xs with
  | nil => exact absurd rfl hne
  | cons x xs ih =>
    rw [fraction]
    cases xs with
    | nil =>
      have hx : x ≠ 0 := by simpa using hlast
      have hx' : 0 < x := Nat.pos_of_ne_zero hx
      simp only [fraction, add_zero]
      positivity
    | cons y ys =>
      have htail := ih (by simp) (by simpa using hlast)
      positivity

theorem lex_eq_cmp (hbase : 0 < base) (hxs : ∀ x ∈ xs, x < base) (hys : ∀ y ∈ ys, y < base)
    (hx0 : xs.getLast? ≠ some 0) (hy0 : ys.getLast? ≠ some 0) :
    lex xs ys = cmp (fraction base xs) (fraction base ys) := by
  have hpos : (0 : ℚ) < base := by exact_mod_cast hbase
  induction xs generalizing ys with
  | nil =>
    cases ys with
    | nil => exact (cmp_self_eq_eq _).symm
    | cons y ys =>
      exact ((cmp_eq_lt_iff _ _).mpr (fraction_pos hbase (by simp) hy0)).symm
  | cons x xs ih =>
    cases ys with
    | nil => exact ((cmp_eq_gt_iff _ _).mpr (fraction_pos hbase (by simp) hx0)).symm
    | cons y ys =>
      have hlast {z : ℕ} {zs : List ℕ} (h : (z :: zs).getLast? ≠ some 0) : zs.getLast? ≠ some 0 := by
        cases zs with
        | nil => simp
        | cons w zs => simpa using h
      have htail := ih (fun z hz => hxs z (List.mem_cons_of_mem _ hz))
        (fun z hz => hys z (List.mem_cons_of_mem _ hz)) (hlast hx0) (hlast hy0)
      have hx1 := fraction_lt_one hbase fun z hz => hxs z (List.mem_cons_of_mem _ hz)
      have hy1 := fraction_lt_one hbase fun z hz => hys z (List.mem_cons_of_mem _ hz)
      have hx0' := fraction_nonneg base xs
      have hy0' := fraction_nonneg base ys
      rw [lex, fraction, fraction]
      rcases lt_trichotomy x y with hlt | rfl | hgt
      · have hle : (x : ℚ) + 1 ≤ y := by exact_mod_cast hlt
        rw [compare_lt_iff_lt.mpr hlt]
        exact ((cmp_eq_lt_iff _ _).mpr (div_lt_div_of_pos_right (by linarith) hpos)).symm
      · rw [compare_eq_iff_eq.mpr rfl, Ordering.eq_then, htail, div_eq_mul_inv, div_eq_mul_inv,
          cmp_mul_pos_right (inv_pos.mpr hpos), cmp_add_left]
      · have hle : (y : ℚ) + 1 ≤ x := by exact_mod_cast hgt
        rw [compare_gt_iff_gt.mpr hgt]
        exact ((cmp_eq_gt_iff _ _).mpr (div_lt_div_of_pos_right (by linarith) hpos)).symm

/-- A number is ordered by its exponent first, when its digits start with none that is zero. -/
theorem cmp_scientific (hbase : 1 < base) (hxs : ∀ x ∈ xs, x < base) (hys : ∀ y ∈ ys, y < base)
    (hx0 : xs.getLast? ≠ some 0) (hy0 : ys.getLast? ≠ some 0) (hxne : xs ≠ []) (hyne : ys ≠ [])
    (hxh : xs.head? ≠ some 0) (hyh : ys.head? ≠ some 0) (e e' : ℤ) :
    (Ord.compare e e').then (lex xs ys) =
      cmp (fraction base xs * (base : ℚ) ^ e) (fraction base ys * (base : ℚ) ^ e') := by
  have hbase0 : 0 < base := by omega
  have hpos : (0 : ℚ) < base := by exact_mod_cast hbase0
  have hone : (1 : ℚ) < base := by exact_mod_cast hbase
  -- A smaller exponent leaves a number under the first place of the larger.
  have hless {xs ys : List ℕ} (hxs : ∀ x ∈ xs, x < base) (hyne : ys ≠ []) (hyh : ys.head? ≠ some 0)
      {e e' : ℤ} (h : e < e') :
      fraction base xs * (base : ℚ) ^ e < fraction base ys * (base : ℚ) ^ e' := by
    obtain ⟨y, rest, rfl⟩ := List.exists_cons_of_ne_nil hyne
    have hfirst : 1 / (base : ℚ) ≤ fraction base (y :: rest) :=
      le_fraction_cons (by simpa using hyh)
    calc fraction base xs * (base : ℚ) ^ e
        < 1 * (base : ℚ) ^ e := by
          exact mul_lt_mul_of_pos_right (fraction_lt_one hbase0 hxs) (zpow_pos hpos e)
      _ ≤ 1 * (base : ℚ) ^ (e' - 1) := by
          exact mul_le_mul_of_nonneg_left (zpow_le_zpow_right₀ hone.le (by omega)) zero_le_one
      _ = 1 / (base : ℚ) * (base : ℚ) ^ e' := by
          rw [zpow_sub₀ hpos.ne', zpow_one]
          ring
      _ ≤ fraction base (y :: rest) * (base : ℚ) ^ e' := by
          exact mul_le_mul_of_nonneg_right hfirst (zpow_pos hpos e').le
  rcases lt_trichotomy e e' with h | rfl | h
  · rw [compare_lt_iff_lt.mpr h]
    exact ((cmp_eq_lt_iff _ _).mpr (hless hxs hyne hyh h)).symm
  · rw [compare_eq_iff_eq.mpr rfl, Ordering.eq_then, lex_eq_cmp hbase0 hxs hys hx0 hy0,
      cmp_mul_pos_right (zpow_pos hpos e)]
  · rw [compare_gt_iff_gt.mpr h]
    exact ((cmp_eq_gt_iff _ _).mpr (hless hys hxne hxh h)).symm

/-- Digits with none that is zero at the end are a whole number exactly when the point is moved past
all of them. -/
theorem exists_int_iff (hbase : 1 < base) (hne : xs ≠ []) (hxs : ∀ x ∈ xs, x < base)
    (hlast : xs.getLast? ≠ some 0) (e : ℤ) :
    (∃ z : ℤ, (z : ℚ) = fraction base xs * (base : ℚ) ^ e) ↔ (xs.length : ℤ) ≤ e := by
  have hbase0 : 0 < base := by omega
  have hpos : (0 : ℚ) < base := by exact_mod_cast hbase0
  have hsplit : fraction base xs * (base : ℚ) ^ e =
      number base xs * (base : ℚ) ^ (e - xs.length) := by
    rw [number_eq hbase0, zpow_sub₀ hpos.ne', zpow_natCast]
    field_simp
  rw [hsplit]
  constructor
  · rintro ⟨z, hz⟩
    by_contra hlt
    obtain ⟨k, hk⟩ : ∃ k : ℕ, (e - xs.length : ℤ) = -((k : ℤ) + 1) :=
      ⟨(xs.length - e - 1).toNat, by omega⟩
    -- The number is a multiple of the base, so its last digit is zero.
    have hmul : z * (base : ℤ) ^ (k + 1) = number base xs := by
      have : (z : ℚ) * (base : ℚ) ^ (k + 1) = number base xs := by
        rw [hz, hk, zpow_neg]
        norm_cast
        rw [mul_assoc, inv_mul_cancel₀ (by positivity), mul_one]
      exact_mod_cast this
    obtain ⟨front, d, rfl⟩ : ∃ front d, xs = front ++ [d] :=
      ⟨_, _, (List.dropLast_append_getLast hne).symm⟩
    have hd : d ≠ 0 := by simpa using hlast
    have hdlt : d < base := hxs d (by simp)
    have hdvd : (base : ℤ) ∣ number base (front ++ [d]) := ⟨z * (base : ℤ) ^ k, by
      rw [← hmul]
      ring⟩
    rw [number_append] at hdvd
    have hdvd' : base ∣ number base front * base + d := by exact_mod_cast hdvd
    have := Nat.le_of_dvd (Nat.pos_of_ne_zero hd)
      ((Nat.dvd_add_right (Dvd.intro_left _ rfl)).mp hdvd')
    omega
  · intro hle
    refine ⟨number base xs * (base : ℤ) ^ (e - xs.length).toNat, ?_⟩
    push_cast
    rw [← zpow_natCast, Int.toNat_of_nonneg (by omega)]

end Guatiao.Lib.Positional
