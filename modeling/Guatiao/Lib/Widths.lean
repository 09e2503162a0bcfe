import Mathlib.Data.Nat.Bitwise
import Mathlib.Data.Nat.Log
import Mathlib.Tactic.Ring

/-!
# The two widths of floats

A float is given by its bits: the sign, the exponent and the fraction. `narrow` rounds one of eight
bytes to the nearest of four, ties to even, and `widen` is the exact way back, so that a number comes
back from four bytes unchanged exactly if four bytes hold it.
-/

namespace Guatiao.Lib

/-- A number without its last bits, rounded to the nearest, ties to even. -/
def shiftNear (m shift : ℕ) : ℕ :=
  let q := m / 2 ^ shift
  let half := 2 * (m % 2 ^ shift)
  if half < 2 ^ shift then q else if 2 ^ shift < half then q + 1 else q + q % 2

/-- What of a float of eight bytes is left without its sign, in four. -/
def narrowUnsigned (m : ℕ) : ℕ :=
  let exponent := m / 2 ^ 52
  let fraction := m % 2 ^ 52
  if exponent = 2047 then
    -- A NaN stays one, and is quiet.
    if fraction = 0 then 255 * 2 ^ 23 else 511 * 2 ^ 22 + fraction / 2 ^ 29 % 2 ^ 22
  else
    let significand := if exponent = 0 then fraction else 2 ^ 52 + fraction
    min (255 * 2 ^ 23) ((exponent - 897) * 2 ^ 23 + shiftNear significand (29 + (897 - exponent)))

/-- A float of four bytes without its sign, in eight. -/
def widenUnsigned (m : ℕ) : ℕ :=
  let exponent := m / 2 ^ 23
  let fraction := m % 2 ^ 23
  if exponent = 255 then
    if fraction = 0 then 2047 * 2 ^ 52 else 4095 * 2 ^ 51 + fraction % 2 ^ 22 * 2 ^ 29
  else if exponent = 0 then
    if fraction = 0 then 0
    else (Nat.log 2 fraction + 873) * 2 ^ 52 + fraction * 2 ^ (52 - Nat.log 2 fraction)
  else (exponent + 896) * 2 ^ 52 + fraction * 2 ^ 29

/-- `as f32`. -/
def narrow (f : UInt64) : UInt32 :=
  .ofNat (f.toNat / 2 ^ 63 * 2 ^ 31 + narrowUnsigned (f.toNat % 2 ^ 63))

/-- `f64::from`. -/
def widen (g : UInt32) : UInt64 :=
  .ofNat (g.toNat / 2 ^ 31 * 2 ^ 63 + widenUnsigned (g.toNat % 2 ^ 31))

/-- Whether a float of eight bytes is no number. -/
def isNaN (f : UInt64) : Bool := 2047 * 2 ^ 52 < f.toNat % 2 ^ 63

-- A third, the half of the least number, one past the greatest and a signalling NaN.
example : (widen (narrow 0x3fd5555555555555), narrow 0x3690000000000000, narrow 0xc7efffffffffffff,
    narrow 0x7ff0000000000001) = (0x3fd5555560000000, 0, 0xff800000, 0x7fc00000) := by
  decide +kernel

theorem shiftNear_mul (q shift : ℕ) : shiftNear (q * 2 ^ shift) shift = q := by
  have hpos : 0 < 2 ^ shift := Nat.two_pow_pos shift
  simp only [shiftNear, Nat.mul_div_cancel _ hpos, Nat.mul_mod_left, mul_zero, if_pos hpos]

theorem shiftNear_zero (shift : ℕ) : shiftNear 0 shift = 0 := by
  have h := shiftNear_mul 0 shift
  rwa [zero_mul] at h

theorem widened_fraction {m : ℕ} (hm : m ≠ 0) (h : m < 2 ^ 23) :
    Nat.log 2 m < 23 ∧ 2 ^ 52 ≤ m * 2 ^ (52 - Nat.log 2 m) ∧
      m * 2 ^ (52 - Nat.log 2 m) < 2 * 2 ^ 52 := by
  have hlog : Nat.log 2 m < 23 := Nat.log_lt_of_lt_pow hm h
  refine ⟨hlog, ?_, ?_⟩
  · calc 2 ^ 52 = 2 ^ Nat.log 2 m * 2 ^ (52 - Nat.log 2 m) := by rw [← pow_add]; congr 1; omega
      _ ≤ m * 2 ^ (52 - Nat.log 2 m) := Nat.mul_le_mul_right _ (Nat.pow_log_le_self 2 hm)
  · calc m * 2 ^ (52 - Nat.log 2 m) < 2 ^ (Nat.log 2 m + 1) * 2 ^ (52 - Nat.log 2 m) :=
          Nat.mul_lt_mul_of_pos_right (Nat.lt_pow_succ_log_self one_lt_two m) (Nat.two_pow_pos _)
      _ = 2 * 2 ^ 52 := by rw [← pow_add, ← pow_succ']; congr 1; omega

theorem widenUnsigned_le_iff {m : ℕ} (h : m < 2 ^ 31) :
    widenUnsigned m < 2 ^ 63 ∧ (widenUnsigned m ≤ 2047 * 2 ^ 52 ↔ m ≤ 255 * 2 ^ 23) := by
  have hfraction : m % 2 ^ 23 < 2 ^ 23 := Nat.mod_lt _ (by norm_num)
  unfold widenUnsigned
  dsimp only
  split_ifs with hlast hzero hleast hnone
  · omega
  · omega
  · omega
  · obtain ⟨hlog, -, hlt⟩ := widened_fraction hnone hfraction
    omega
  · omega

theorem narrowUnsigned_lt (m : ℕ) : narrowUnsigned m < 2 ^ 31 := by
  unfold narrowUnsigned
  dsimp only
  split_ifs <;> omega

theorem lt_narrowUnsigned {m : ℕ} (h : 2047 * 2 ^ 52 < m) (hm : m < 2 ^ 63) :
    255 * 2 ^ 23 < narrowUnsigned m := by
  unfold narrowUnsigned
  dsimp only
  rw [if_pos (by omega), if_neg (by omega)]
  omega

theorem narrowUnsigned_widenUnsigned {m : ℕ} (h : m ≤ 255 * 2 ^ 23) :
    narrowUnsigned (widenUnsigned m) = m := by
  have hfraction : m % 2 ^ 23 < 2 ^ 23 := Nat.mod_lt _ (by norm_num)
  unfold widenUnsigned
  dsimp only
  split_ifs with hlast hzero hleast hnone
  · rw [show m = 255 * 2 ^ 23 by omega]
    decide
  · omega
  · have hm : m = 0 := by omega
    unfold narrowUnsigned
    dsimp only
    rw [Nat.zero_div, if_neg (by omega), Nat.zero_mod, if_pos rfl, shiftNear_zero, hm]
    rfl
  · have hm : m % 2 ^ 23 = m := by omega
    rw [hm] at hnone hfraction ⊢
    obtain ⟨hlog, hle, hlt⟩ := widened_fraction hnone hfraction
    generalize Nat.log 2 m = k at *
    have hexponent : ((k + 873) * 2 ^ 52 + m * 2 ^ (52 - k)) / 2 ^ 52 = k + 874 := by omega
    have hsignificand :
        2 ^ 52 + ((k + 873) * 2 ^ 52 + m * 2 ^ (52 - k)) % 2 ^ 52 = m * 2 ^ (52 - k) := by omega
    have hshift : 29 + (897 - (k + 874)) = 52 - k := by omega
    unfold narrowUnsigned
    dsimp only
    rw [hexponent, if_neg (by omega), if_neg (by omega), hsignificand, hshift, shiftNear_mul]
    omega
  · have hexponent :
        ((m / 2 ^ 23 + 896) * 2 ^ 52 + m % 2 ^ 23 * 2 ^ 29) / 2 ^ 52 = m / 2 ^ 23 + 896 := by omega
    have hsignificand : 2 ^ 52 + ((m / 2 ^ 23 + 896) * 2 ^ 52 + m % 2 ^ 23 * 2 ^ 29) % 2 ^ 52 =
        (2 ^ 23 + m % 2 ^ 23) * 2 ^ 29 := by omega
    have hshift : 29 + (897 - (m / 2 ^ 23 + 896)) = 29 := by omega
    unfold narrowUnsigned
    dsimp only
    rw [hexponent, if_neg (by omega), if_neg (by omega), hsignificand, hshift, shiftNear_mul]
    omega

theorem toNat_widen (g : UInt32) :
    (widen g).toNat = g.toNat / 2 ^ 31 * 2 ^ 63 + widenUnsigned (g.toNat % 2 ^ 31) := by
  have hlt := (widenUnsigned_le_iff (Nat.mod_lt g.toNat (show 0 < 2 ^ 31 by norm_num))).1
  have hg : g.toNat < 2 ^ 32 := g.toNat_lt
  exact UInt64.toNat_ofNat_of_lt' (show _ < 2 ^ 64 by omega)

theorem toNat_narrow (f : UInt64) :
    (narrow f).toNat = f.toNat / 2 ^ 63 * 2 ^ 31 + narrowUnsigned (f.toNat % 2 ^ 63) := by
  have hlt := narrowUnsigned_lt (f.toNat % 2 ^ 63)
  have hf : f.toNat < 2 ^ 64 := f.toNat_lt
  exact UInt32.toNat_ofNat_of_lt' (show _ < 2 ^ 32 by omega)

theorem isNaN_widen (g : UInt32) : isNaN (widen g) = true ↔ 255 * 2 ^ 23 < g.toNat % 2 ^ 31 := by
  obtain ⟨hlt, hle⟩ := widenUnsigned_le_iff (Nat.mod_lt g.toNat (show 0 < 2 ^ 31 by norm_num))
  have hunsigned : (widen g).toNat % 2 ^ 63 = widenUnsigned (g.toNat % 2 ^ 31) := by
    rw [toNat_widen]
    omega
  rw [isNaN, hunsigned, decide_eq_true_iff]
  omega

theorem narrow_widen {g : UInt32} (h : isNaN (widen g) = false) : narrow (widen g) = g := by
  have hle : g.toNat % 2 ^ 31 ≤ 255 * 2 ^ 23 := by
    rw [← not_lt, ← isNaN_widen, h]
    exact Bool.false_ne_true
  have hlt := (widenUnsigned_le_iff (Nat.mod_lt g.toNat (show 0 < 2 ^ 31 by norm_num))).1
  have hwide := toNat_widen g
  have hunsigned : (widen g).toNat % 2 ^ 63 = widenUnsigned (g.toNat % 2 ^ 31) := by omega
  have hsign : (widen g).toNat / 2 ^ 63 = g.toNat / 2 ^ 31 := by omega
  apply UInt32.toNat_inj.mp
  rw [toNat_narrow, hunsigned, hsign, narrowUnsigned_widenUnsigned hle, Nat.div_add_mod']

theorem widen_narrow_iff {f : UInt64} (h : isNaN f = false) :
    widen (narrow f) = f ↔ ∃ g, widen g = f := by
  refine ⟨fun heq => ⟨narrow f, heq⟩, ?_⟩
  rintro ⟨g, rfl⟩
  rw [narrow_widen h]

theorem isNaN_widen_narrow {f : UInt64} (h : isNaN f = true) : isNaN (widen (narrow f)) = true := by
  have hlt := lt_narrowUnsigned (of_decide_eq_true h) (Nat.mod_lt _ (by norm_num))
  have hbound := narrowUnsigned_lt (f.toNat % 2 ^ 63)
  have hunsigned : (narrow f).toNat % 2 ^ 31 = narrowUnsigned (f.toNat % 2 ^ 63) := by
    rw [toNat_narrow]
    omega
  rw [isNaN_widen, hunsigned]
  exact hlt

end Guatiao.Lib
