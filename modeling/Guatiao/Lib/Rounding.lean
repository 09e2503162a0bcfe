import Mathlib.Algebra.Order.Field.Power
import Mathlib.Data.Int.Log
import Mathlib.Data.Rat.Floor
import Mathlib.Tactic.Linarith
import Mathlib.Tactic.Positivity
import Mathlib.Tactic.Ring

/-!
# Rationals rounded to a binary format

A binary format rounds to the nearest multiple of a power of two that leaves so many bits, with a
least power, and overflows past its greatest number. Numbers of few enough digits in another base
stay apart where the format is at its full precision.
-/

namespace Guatiao.Lib

/-- The nearest integer, of two as near the even one. -/
def nearest (q : ℚ) : ℤ :=
  if q - ⌊q⌋ < 1 / 2 then ⌊q⌋
  else if 1 / 2 < q - ⌊q⌋ then ⌊q⌋ + 1
  else if ⌊q⌋ % 2 = 0 then ⌊q⌋ else ⌊q⌋ + 1

theorem abs_nearest_sub_le (q : ℚ) : |(nearest q : ℚ) - q| ≤ 1 / 2 := by
  have hlo := Int.floor_le q
  have hhi := Int.lt_floor_add_one q
  unfold nearest
  split_ifs <;> push_cast <;> rw [abs_le] <;> constructor <;> linarith

@[simp] theorem nearest_zero : nearest 0 = 0 := by simp [nearest]

/-- What a format rounds to. -/
inductive Rounded
  | finite (q : ℚ)
  | infinite (negative : Bool)
  deriving DecidableEq

/-- A binary format: its bits, the power of its last place at the least, and the first power of two
past its numbers. -/
structure Format where
  precision : ℕ
  least : ℤ
  top : ℤ
  precise : 1 < precision
  fits : least + precision < top

namespace Format

variable (f : Format) (q : ℚ)

/-- The power of the last place of a number. -/
def place : ℤ := max f.least (Int.log 2 |q| - (f.precision - 1))

/-- The nearest number of the format, with no greatest. -/
def near : ℚ := nearest (q / 2 ^ f.place q) * 2 ^ f.place q

/-- Where the format overflows: half way from its greatest number to the next. -/
def limit : ℚ := 2 ^ f.top - 2 ^ (f.top - f.precision - 1)

/-- A rational rounded. -/
def round : Rounded :=
  if f.limit ≤ |q| then .infinite (q < 0) else .finite (f.near q)

variable {f} {q}

theorem abs_near_sub_le (f : Format) (q : ℚ) : |f.near q - q| ≤ 2 ^ f.place q / 2 := by
  have hpos : (0 : ℚ) < 2 ^ f.place q := by positivity
  have h := abs_nearest_sub_le (q / 2 ^ f.place q)
  calc |f.near q - q|
      = |(nearest (q / 2 ^ f.place q) : ℚ) - q / 2 ^ f.place q| * 2 ^ f.place q := by
        rw [near, ← abs_of_pos hpos, ← abs_mul, abs_of_pos hpos, sub_mul, div_mul_cancel₀ _ hpos.ne']
    _ ≤ 1 / 2 * 2 ^ f.place q := mul_le_mul_of_nonneg_right h hpos.le
    _ = 2 ^ f.place q / 2 := by ring

/-- A number the format has all its bits for. -/
def Normal (f : Format) (q : ℚ) : Prop := 2 ^ (f.least + f.precision - 1) ≤ |q|

theorem Normal.pos (h : f.Normal q) : 0 < |q| := lt_of_lt_of_le (by positivity) h

theorem Normal.abs_near_sub_le (h : f.Normal q) : |f.near q - q| ≤ |q| / 2 ^ f.precision := by
  have hlog : f.least + f.precision - 1 ≤ Int.log 2 |q| :=
    (Int.zpow_le_iff_le_log one_lt_two h.pos).mp (by exact_mod_cast h)
  have hplace : f.place q = Int.log 2 |q| - (f.precision - 1) := max_eq_right (by omega)
  have hself : (2 : ℚ) ^ Int.log 2 |q| ≤ |q| := by
    exact_mod_cast Int.zpow_log_le_self one_lt_two h.pos
  calc |f.near q - q| ≤ 2 ^ f.place q / 2 := Format.abs_near_sub_le f q
    _ = 2 ^ Int.log 2 |q| / 2 ^ f.precision := by
        rw [hplace, zpow_sub₀ two_ne_zero, zpow_sub₀ two_ne_zero, zpow_natCast, zpow_one]
        ring
    _ ≤ |q| / 2 ^ f.precision := div_le_div_of_nonneg_right hself (by positivity)

/-- A number under the format's full precision, or just past it. -/
def Small (f : Format) (q : ℚ) : Prop := |q| < 2 ^ (f.least + f.precision)

theorem Small.near_eq (h : f.Small q) : f.near q = nearest (q / 2 ^ f.least) * 2 ^ f.least := by
  by_cases hq : q = 0
  · simp [near, hq]
  · have hlog : Int.log 2 |q| < f.least + f.precision :=
      (Int.lt_zpow_iff_log_lt one_lt_two (abs_pos.mpr hq)).mp (by exact_mod_cast h)
    have hplace : f.place q = f.least := max_eq_left (by omega)
    rw [near, hplace]

theorem Small.lt_limit (h : f.Small q) : |q| < f.limit := by
  have hfits := f.fits
  have hprecise := f.precise
  refine lt_of_lt_of_le h ?_
  have hhalf : (2 : ℚ) ^ (f.top - f.precision - 1) ≤ 2 ^ (f.top - 1) :=
    zpow_le_zpow_right₀ one_le_two (by omega)
  have hbound : (2 : ℚ) ^ (f.least + f.precision) ≤ 2 ^ (f.top - 1) :=
    zpow_le_zpow_right₀ one_le_two (by omega)
  have htop : (2 : ℚ) ^ f.top = 2 * 2 ^ (f.top - 1) := by
    rw [zpow_sub₀ two_ne_zero, zpow_one]
    ring
  rw [limit, htop]
  linarith

/-- A number that is not small stays apart from one under the full precision. -/
theorem near_ne_of_not_small {p : ℚ} (hq : ¬ f.Small q) (hp : ¬ f.Normal p) :
    f.near q ≠ f.near p := by
  intro heq
  have hprecise := f.precise
  have hlarge : (2 : ℚ) ^ (f.least + f.precision) ≤ |q| := not_lt.mp hq
  have hlow : |p| < 2 ^ (f.least + f.precision - 1) := not_le.mp hp
  have hone : (2 : ℚ) ^ (f.least + f.precision) = 2 * 2 ^ (f.least + f.precision - 1) := by
    rw [zpow_sub₀ two_ne_zero, zpow_one]
    ring
  have hnormal : f.Normal q := by
    have : (0 : ℚ) < 2 ^ (f.least + f.precision - 1) := by positivity
    unfold Normal
    linarith
  have hsmall : f.Small p := by
    have : (0 : ℚ) < 2 ^ (f.least + f.precision - 1) := by positivity
    unfold Small
    linarith
  have hleast : (2 : ℚ) * 2 ^ f.least ≤ 2 ^ (f.least + f.precision - 1) := by
    calc (2 : ℚ) * 2 ^ f.least = 2 ^ (f.least + 1) := by
          rw [zpow_add₀ two_ne_zero, zpow_one]
          ring
      _ ≤ 2 ^ (f.least + f.precision - 1) := zpow_le_zpow_right₀ one_le_two (by omega)
  have hnear : |f.near p - p| ≤ 2 ^ f.least / 2 := by
    have hpos : (0 : ℚ) < 2 ^ f.least := by positivity
    have h := abs_nearest_sub_le (p / 2 ^ f.least)
    calc |f.near p - p| = |(nearest (p / 2 ^ f.least) : ℚ) - p / 2 ^ f.least| * 2 ^ f.least := by
          rw [hsmall.near_eq, ← abs_of_pos hpos, ← abs_mul, abs_of_pos hpos, sub_mul,
            div_mul_cancel₀ _ hpos.ne']
      _ ≤ 1 / 2 * 2 ^ f.least := mul_le_mul_of_nonneg_right h hpos.le
      _ = 2 ^ f.least / 2 := by ring
  have hquarter : |q| / 2 ^ f.precision ≤ |q| / 4 := by
    apply div_le_div_of_nonneg_left (abs_nonneg q) (by norm_num)
    calc (4 : ℚ) = 2 ^ 2 := by norm_num
      _ ≤ 2 ^ f.precision := pow_le_pow_right₀ one_le_two hprecise
  -- Three quarters of the one is more than five quarters of the other's bound.
  have hqfar : |q| - |q| / 4 ≤ |f.near q| := by
    have h1 := hnormal.abs_near_sub_le
    have h2 := abs_sub_abs_le_abs_sub q (f.near q)
    rw [abs_sub_comm] at h2
    linarith
  have hpnear : |f.near p| ≤ |p| + 2 ^ f.least / 2 := by
    have h2 := abs_sub_abs_le_abs_sub (f.near p) p
    linarith
  rw [heq] at hqfar
  have : (0 : ℚ) < 2 ^ f.least := by positivity
  linarith

/-- A number of so many digits in a base. -/
def Short (base k : ℕ) (q : ℚ) : Prop := ∃ (a : ℤ) (e : ℤ), |a| < base ^ k ∧ q = a * (base : ℚ) ^ e

theorem Short.apart {base k : ℕ} (hbase : 1 < base) {x y : ℚ} (hx : Short base k x)
    (hy : Short base k y) (hne : x ≠ y) :
    |x| < base ^ k * |x - y| ∨ |y| < base ^ k * |x - y| := by
  -- The one with the smaller exponent is under as many of the steps both are multiples of.
  have hstep {a b : ℤ} {e e' : ℤ} (ha : |a| < (base : ℤ) ^ k) (hle : e ≤ e')
      (hne : (a : ℚ) * (base : ℚ) ^ e ≠ b * (base : ℚ) ^ e') :
      |(a : ℚ) * (base : ℚ) ^ e| < base ^ k * |(a : ℚ) * (base : ℚ) ^ e - b * (base : ℚ) ^ e'| := by
    have hpos : (0 : ℚ) < (base : ℚ) := by positivity
    have hscale : (0 : ℚ) < (base : ℚ) ^ e := by positivity
    have hsplit : (base : ℚ) ^ e' = (base : ℚ) ^ (e' - e).toNat * (base : ℚ) ^ e := by
      rw [← zpow_natCast, Int.toNat_of_nonneg (by omega), ← zpow_add₀ hpos.ne']
      congr 1
      ring
    have hdiff : (a : ℚ) * (base : ℚ) ^ e - b * (base : ℚ) ^ e' =
        ((a - b * (base : ℤ) ^ (e' - e).toNat : ℤ) : ℚ) * (base : ℚ) ^ e := by
      rw [hsplit]
      push_cast
      ring
    have hint : a - b * (base : ℤ) ^ (e' - e).toNat ≠ 0 := by
      intro h
      rw [h] at hdiff
      apply hne
      rw [Int.cast_zero, zero_mul] at hdiff
      exact sub_eq_zero.mp hdiff
    have hone : (1 : ℚ) ≤ |((a - b * (base : ℤ) ^ (e' - e).toNat : ℤ) : ℚ)| := by
      exact_mod_cast Int.one_le_abs hint
    have ha' : |(a : ℚ)| < (base : ℚ) ^ k := by exact_mod_cast ha
    rw [hdiff, abs_mul, abs_mul, abs_of_pos hscale]
    calc |(a : ℚ)| * (base : ℚ) ^ e < (base : ℚ) ^ k * (base : ℚ) ^ e :=
          mul_lt_mul_of_pos_right ha' hscale
      _ = (base : ℚ) ^ k * (1 * (base : ℚ) ^ e) := by rw [one_mul]
      _ ≤ _ := by
          apply mul_le_mul_of_nonneg_left _ (by positivity)
          exact mul_le_mul_of_nonneg_right hone hscale.le
  obtain ⟨a, e, ha, rfl⟩ := hx
  obtain ⟨b, e', hb, rfl⟩ := hy
  rcases le_total e e' with h | h
  · exact .inl (hstep ha h hne)
  · rw [abs_sub_comm]
    exact .inr (hstep hb h hne.symm)

theorem Normal.eq_of_near_eq {base k : ℕ} (hbase : 1 < base) (hk : 2 * base ^ k < 2 ^ f.precision)
    {x y : ℚ} (hx : f.Normal x) (hy : f.Normal y) (hxs : Short base k x) (hys : Short base k y)
    (h : f.near x = f.near y) : x = y := by
  by_contra hne
  have hpos : (0 : ℚ) < |x - y| := abs_pos.mpr (sub_ne_zero.mpr hne)
  have hclose : |x - y| ≤ (|x| + |y|) / 2 ^ f.precision := by
    have h1 := hx.abs_near_sub_le
    have h2 := hy.abs_near_sub_le
    have h3 : |x - y| ≤ |x - f.near x| + |f.near x - y| := abs_sub_le x (f.near x) y
    rw [abs_sub_comm x (f.near x), h] at h3
    rw [h] at h1
    rw [add_div]
    linarith
  have hdiff1 := abs_sub_abs_le_abs_sub x y
  have hdiff2 := abs_sub_abs_le_abs_sub y x
  rw [abs_sub_comm] at hdiff2
  have hp : (0 : ℚ) < 2 ^ f.precision := by positivity
  have hk' : 2 * (base : ℚ) ^ k + 1 ≤ 2 ^ f.precision := by exact_mod_cast hk
  have hmul : |x - y| * 2 ^ f.precision ≤ |x| + |y| := by
    rwa [le_div_iff₀ hp] at hclose
  have hmore : |x - y| * (2 * (base : ℚ) ^ k + 1) ≤ |x - y| * 2 ^ f.precision :=
    mul_le_mul_of_nonneg_left hk' hpos.le
  rcases Short.apart hbase hxs hys hne with hapart | hapart <;> linarith

/-- Where a format conflates numbers: past its limit on one side, or at one multiple of its least
place. -/
def Conflates (f : Format) (x y : ℚ) : Prop :=
  (f.limit ≤ x ∧ f.limit ≤ y) ∨ (x ≤ -f.limit ∧ y ≤ -f.limit) ∨
    (f.Small x ∧ f.Small y ∧ nearest (x / 2 ^ f.least) = nearest (y / 2 ^ f.least))

theorem limit_pos (f : Format) : 0 < f.limit := by
  have hprecise := f.precise
  have hlt : (2 : ℚ) ^ (f.top - f.precision - 1) < 2 ^ f.top :=
    zpow_lt_zpow_right₀ one_lt_two (by omega)
  unfold limit
  linarith

theorem Conflates.round_eq {x y : ℚ} (h : f.Conflates x y) : f.round x = f.round y := by
  have hlimit := f.limit_pos
  rcases h with ⟨hx, hy⟩ | ⟨hx, hy⟩ | ⟨hx, hy, heq⟩
  · rw [round, round, if_pos (hx.trans (le_abs_self x)), if_pos (hy.trans (le_abs_self y)),
      decide_eq_false (not_lt.mpr (hlimit.le.trans hx)),
      decide_eq_false (not_lt.mpr (hlimit.le.trans hy))]
  · have hx' : f.limit ≤ |x| := (le_neg_of_le_neg hx).trans (neg_le_abs x)
    have hy' : f.limit ≤ |y| := (le_neg_of_le_neg hy).trans (neg_le_abs y)
    rw [round, round, if_pos hx', if_pos hy', decide_eq_true (show x < 0 by linarith),
      decide_eq_true (show y < 0 by linarith)]
  · rw [round, round, if_neg (not_le.mpr hx.lt_limit), if_neg (not_le.mpr hy.lt_limit),
      hx.near_eq, hy.near_eq, heq]

theorem eq_or_conflates {base k : ℕ} (hbase : 1 < base) (hk : 2 * base ^ k < 2 ^ f.precision)
    {x y : ℚ} (hxs : Short base k x) (hys : Short base k y) (h : f.round x = f.round y) :
    x = y ∨ f.Conflates x y := by
  unfold round at h
  by_cases hx : f.limit ≤ |x| <;> by_cases hy : f.limit ≤ |y| <;>
    simp only [hx, hy, if_true, if_false, Rounded.infinite.injEq, Rounded.finite.injEq,
      reduceCtorEq, decide_eq_decide] at h
  · right
    by_cases hneg : x < 0
    · rw [abs_of_neg hneg] at hx
      rw [abs_of_neg (h.mp hneg)] at hy
      exact .inr (.inl ⟨le_neg_of_le_neg hx, le_neg_of_le_neg hy⟩)
    · have hneg' : ¬ y < 0 := fun h' => hneg (h.mpr h')
      rw [abs_of_nonneg (not_lt.mp hneg)] at hx
      rw [abs_of_nonneg (not_lt.mp hneg')] at hy
      exact .inl ⟨hx, hy⟩
  · by_cases hsmall : f.Small x ∧ f.Small y
    · obtain ⟨hxsmall, hysmall⟩ := hsmall
      have hleast : (2 : ℚ) ^ f.least ≠ 0 := by positivity
      rw [hxsmall.near_eq, hysmall.near_eq] at h
      exact .inr (.inr (.inr ⟨hxsmall, hysmall, by exact_mod_cast mul_right_cancel₀ hleast h⟩))
    · left
      have hnormal (z : ℚ) (hz : ¬ f.Small z) : f.Normal z := by
        refine le_trans (zpow_le_zpow_right₀ one_le_two (by omega)) (not_lt.mp hz)
      rcases not_and_or.mp hsmall with hns | hns
      · by_cases hny : f.Normal y
        · exact (hnormal x hns).eq_of_near_eq hbase hk hny hxs hys h
        · exact absurd h (near_ne_of_not_small hns hny)
      · by_cases hnx : f.Normal x
        · exact hnx.eq_of_near_eq hbase hk (hnormal y hns) hxs hys h
        · exact absurd h.symm (near_ne_of_not_small hns hnx)

end Format

end Guatiao.Lib

/-!
## The numbers a binary format holds

What a number is rounded to is so many bits shifted, and such a number is rounded to itself. Among the
natural numbers these are the ones with no more bits than the format's, but for zeros at the end.
-/

namespace Guatiao.Lib

@[simp] theorem nearest_intCast (z : ℤ) : nearest z = z := by simp [nearest]

theorem nearest_nonneg {q : ℚ} (h : 0 ≤ q) : 0 ≤ nearest q := by
  have hfloor := Int.floor_nonneg.mpr h
  unfold nearest
  split_ifs <;> omega

theorem abs_nearest_le {q : ℚ} {k : ℤ} (h : |q| < k) : |nearest q| ≤ k := by
  have hnear := abs_nearest_sub_le q
  have hlt : (|nearest q| : ℚ) < k + 1 := by
    calc |(nearest q : ℚ)| = |(nearest q - q) + q| := by rw [sub_add_cancel]
      _ ≤ |(nearest q : ℚ) - q| + |q| := abs_add_le _ _
      _ < k + 1 := by linarith
  have hint : |nearest q| < k + 1 := by exact_mod_cast hlt
  omega

namespace Format

variable {f : Format} {q : ℚ}

/-- A number of the format's bits, shifted no lower than its least place. -/
def Holds (f : Format) (q : ℚ) : Prop :=
  ∃ m e : ℤ, |m| ≤ 2 ^ f.precision ∧ f.least ≤ e ∧ q = m * 2 ^ e

theorem place_le {m e : ℤ} (hne : m ≠ 0) (hm : |m| < 2 ^ f.precision) (he : f.least ≤ e) :
    f.place (m * 2 ^ e) ≤ e := by
  have hpos : (0 : ℚ) < |(m : ℚ) * 2 ^ e| := by positivity
  have hlt : |(m : ℚ) * 2 ^ e| < ((2 : ℕ) : ℚ) ^ (f.precision + e) := by
    have hmq : |(m : ℚ)| < 2 ^ f.precision := by exact_mod_cast hm
    rw [abs_mul, abs_of_pos (by positivity : (0 : ℚ) < 2 ^ e), Nat.cast_ofNat,
      zpow_add₀ two_ne_zero, zpow_natCast]
    exact mul_lt_mul_of_pos_right hmq (by positivity)
  have hlog := (Int.lt_zpow_iff_log_lt one_lt_two hpos).mp hlt
  rw [place]
  omega

theorem near_of_bits {m e : ℤ} (hm : |m| < 2 ^ f.precision) (he : f.least ≤ e) :
    f.near (m * 2 ^ e) = m * 2 ^ e := by
  by_cases hzero : m = 0
  · simp [near, hzero]
  · obtain ⟨k, hk⟩ := Int.eq_ofNat_of_zero_le (sub_nonneg.mpr (place_le hzero hm he))
    set p := f.place (m * 2 ^ e) with hp
    have hdiv : (m : ℚ) * 2 ^ e / 2 ^ p = ((m * 2 ^ k : ℤ) : ℚ) := by
      rw [mul_div_assoc, ← zpow_sub₀ two_ne_zero, hk]
      push_cast
      rw [zpow_natCast]
    have hpos : (0 : ℚ) < 2 ^ p := by positivity
    rw [near, ← hp, hdiv, nearest_intCast, ← hdiv, div_mul_cancel₀ _ hpos.ne']

theorem Holds.near_eq (h : f.Holds q) : f.near q = q := by
  obtain ⟨m, e, hm, he, rfl⟩ := h
  rcases hm.lt_or_eq with hlt | heq
  · exact near_of_bits hlt he
  · -- one bit more is a bit shifted
    have hprecise := f.precise
    have hone : |m.sign| < 2 ^ f.precision := by
      calc |m.sign| ≤ 1 := by rcases Int.sign_trichotomy m with h | h | h <;> simp [h]
        _ < 2 ^ f.precision := one_lt_pow₀ one_lt_two (by omega)
    have hshift : (m : ℚ) * 2 ^ e = m.sign * 2 ^ (e + f.precision) := by
      have hsign : m = m.sign * 2 ^ f.precision := by rw [← heq, Int.sign_mul_abs]
      rw [zpow_add₀ two_ne_zero, zpow_natCast, mul_comm (2 ^ e), ← mul_assoc]
      congr 1
      exact_mod_cast hsign
    rw [hshift]
    exact near_of_bits hone (by omega)

theorem abs_nearest_place_le (f : Format) (q : ℚ) :
    |nearest (q / 2 ^ f.place q)| ≤ 2 ^ f.precision := by
  have hself : |q| < 2 ^ (Int.log 2 |q| + 1) := by
    exact_mod_cast Int.lt_zpow_succ_log_self one_lt_two |q|
  have hexp : Int.log 2 |q| + 1 ≤ f.precision + f.place q := by
    have := le_max_right f.least (Int.log 2 |q| - (f.precision - 1))
    rw [place]
    omega
  have hlt : |q / 2 ^ f.place q| < ((2 ^ f.precision : ℤ) : ℚ) := by
    rw [abs_div, abs_of_pos (by positivity : (0 : ℚ) < 2 ^ f.place q), div_lt_iff₀ (by positivity)]
    push_cast
    calc |q| < 2 ^ (Int.log 2 |q| + 1) := hself
      _ ≤ 2 ^ ((f.precision : ℤ) + f.place q) := zpow_le_zpow_right₀ one_le_two hexp
      _ = 2 ^ f.precision * 2 ^ f.place q := by rw [zpow_add₀ two_ne_zero, zpow_natCast]
  exact abs_nearest_le hlt

theorem near_nonneg (h : 0 ≤ q) : 0 ≤ f.near q :=
  mul_nonneg (by exact_mod_cast nearest_nonneg (div_nonneg h (by positivity))) (by positivity)

/-- A natural number with no more bits than the format's, but for zeros at the end. -/
def HoldsNat (f : Format) (n : ℕ) : Prop := ∃ m e : ℕ, m ≤ 2 ^ f.precision ∧ n = m * 2 ^ e

theorem HoldsNat.holds (hleast : f.least ≤ 0) {n : ℕ} (h : f.HoldsNat n) : f.Holds n := by
  obtain ⟨m, e, hm, rfl⟩ := h
  refine ⟨m, e, ?_, by omega, by push_cast; rw [zpow_natCast]⟩
  rw [Int.abs_natCast]
  exact_mod_cast hm

theorem near_natCast (f : Format) (n : ℕ) : ∃ r : ℕ, f.near n = r ∧ f.HoldsNat r := by
  obtain ⟨m, hm⟩ : ∃ m : ℕ, nearest (n / 2 ^ f.place n) = m :=
    Int.eq_ofNat_of_zero_le (nearest_nonneg (by positivity))
  have hbits : m ≤ 2 ^ f.precision := by
    have hle := abs_nearest_place_le f n
    rw [hm, Int.abs_natCast] at hle
    exact_mod_cast hle
  rcases le_or_gt 0 (f.place n) with hplace | hplace
  · obtain ⟨e, he⟩ := Int.eq_ofNat_of_zero_le hplace
    have hnear : f.near n = ((m * 2 ^ e : ℕ) : ℚ) := by
      rw [near, hm, he]
      push_cast
      rw [zpow_natCast]
    exact ⟨m * 2 ^ e, hnear, m, e, hbits, rfl⟩
  · -- all the places of a whole number are there
    obtain ⟨k, hk⟩ := Int.eq_ofNat_of_zero_le (neg_nonneg.mpr hplace.le)
    have hdiv : (n : ℚ) / 2 ^ f.place n = ((n * 2 ^ k : ℤ) : ℚ) := by
      rw [div_eq_mul_inv, ← zpow_neg, hk]
      push_cast
      rw [zpow_natCast]
    have hnear : f.near n = n := by
      rw [near, hdiv, nearest_intCast, ← hdiv, div_mul_cancel₀ _ (by positivity)]
    have hn : n * 2 ^ k = m := by
      rw [hdiv, nearest_intCast] at hm
      exact_mod_cast hm
    have hle : n ≤ m := hn ▸ Nat.le_mul_of_pos_right n (by positivity)
    exact ⟨n, hnear, n, 0, hle.trans hbits, by rw [pow_zero, mul_one]⟩

theorem near_natCast_iff (hleast : f.least ≤ 0) (n : ℕ) : f.near n = n ↔ f.HoldsNat n := by
  refine ⟨fun h => ?_, fun h => (h.holds hleast).near_eq⟩
  obtain ⟨r, hr, hholds⟩ := near_natCast f n
  have heq : r = n := by exact_mod_cast hr.symm.trans h
  rwa [← heq]

end Format

end Guatiao.Lib
