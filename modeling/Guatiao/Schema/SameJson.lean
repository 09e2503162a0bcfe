import Guatiao.Lib.Rounding
import Guatiao.Schema.Rational

/-!
# Values that are the same JSON

Numbers are the same when their texts are, or when both are short and one `f64`. An `f64` is told
from the rational it is rounded from, so short numbers it conflates are called the same though they
denote different rationals.
-/

namespace Guatiao.Schema

open Lib

/-- The format of an `f64`. -/
def f64 : Format where
  precision := 53
  least := -1074
  top := 1024
  precise := by decide
  fits := by decide

/-- The arithmetic of `f64` reads each number as what it is rounded to, and equals what is. -/
structure Rounds (doubles : Doubles) where
  rounded : doubles.F → Rounded
  parse : ∀ text, isNumber text = true →
    ∃ p, doubles.parse text = some p ∧ rounded p = f64.round (rational text)
  equal : ∀ text text' p q, isNumber text = true → isNumber text' = true →
    doubles.parse text = some p → doubles.parse text' = some q →
      (doubles.equal p q = true ↔ rounded p = rounded q)

/-- A text of no more than fifteen bytes. -/
def ShortText (text : String) : Prop := (asBytes text).length ≤ 15

instance (text : String) : Decidable (ShortText text) :=
  inferInstanceAs (Decidable ((asBytes text).length ≤ 15))

theorem length_digits_le (bytes : List UInt8) : (Spelling.read bytes).digits.length ≤ bytes.length := by
  set mantissa := (if (bytes.head? == some 0x2d) = true then bytes.tail else bytes).takeWhile
    fun b => !isExponentLetter b with hmantissa
  have hdigits : (Spelling.read bytes).digits =
      mantissa.takeWhile (· != 0x2e) ++ (mantissa.dropWhile (· != 0x2e)).tail := rfl
  have hsplit := congrArg List.length
    (List.takeWhile_append_dropWhile (p := fun b => b != 0x2e) (l := mantissa))
  rw [List.length_append] at hsplit
  have hrest : mantissa.length ≤
      (if (bytes.head? == some 0x2d) = true then bytes.tail else bytes).length :=
    (List.takeWhile_prefix _).length_le
  have htail : (if (bytes.head? == some 0x2d) = true then bytes.tail else bytes).length ≤
      bytes.length := by
    split
    · rw [List.length_tail]
      omega
    · exact le_refl _
  rw [hdigits, List.length_append, List.length_tail]
  omega

theorem number_lt {ds : List ℕ} (h : ∀ d ∈ ds, d < 10) : Positional.number 10 ds < 10 ^ ds.length := by
  have hfraction := Positional.fraction_lt_one (by decide) h
  have hnumber := Positional.number_eq (by decide : 0 < 10) ds
  have hlt : (Positional.number 10 ds : ℚ) < ((10 ^ ds.length : ℕ) : ℚ) := by
    rw [hnumber]
    push_cast
    exact mul_lt_of_lt_one_left (by positivity) hfraction
  exact_mod_cast hlt

theorem short_rational {text : String} (hvalid : isNumber text = true) (hshort : ShortText text) :
    Format.Short 10 15 (rational text) := by
  set s := Spelling.read (asBytes text) with hs
  have hlt : Positional.number 10 (s.digits.map digitOf) < 10 ^ 15 := by
    have hdigits : ∀ d ∈ s.digits.map digitOf, d < 10 := by
      intro d hd
      obtain ⟨b, hb, rfl⟩ := List.mem_map.mp hd
      exact digitOf_lt ((digits_read hvalid).1 b hb)
    have hlen : (s.digits.map digitOf).length ≤ 15 := by
      rw [List.length_map]
      exact (length_digits_le _).trans hshort
    exact (number_lt hdigits).trans_le (Nat.pow_le_pow_right (by decide) hlen)
  refine ⟨(if s.negative then -1 else 1) * Positional.number 10 (s.digits.map digitOf),
    s.exponent - s.fraction.length, ?_, ?_⟩
  · have habs : |((if s.negative then -1 else 1) *
        (Positional.number 10 (s.digits.map digitOf) : ℤ) : ℤ)| =
        Positional.number 10 (s.digits.map digitOf) := by
      cases s.negative <;> simp
    rw [habs]
    exact_mod_cast hlt
  · have hvalue : rational text = (if s.negative then -1 else 1) *
        Positional.number 10 (s.digits.map digitOf) * 10 ^ (s.exponent - s.fraction.length) := rfl
    rw [hvalue]
    cases s.negative <;> simp

variable {doubles : Doubles}

theorem sameJson_number (r : Rounds doubles) (m n : Number) :
    sameJson doubles (.number m) (.number n) = true ↔
      m.text = n.text ∨ ShortText m.text ∧ ShortText n.text ∧
        f64.round (rational m.text) = f64.round (rational n.text) := by
  obtain ⟨p, hp, hpr⟩ := r.parse m.text m.valid
  obtain ⟨q, hq, hqr⟩ := r.parse n.text n.valid
  have hequal := r.equal m.text n.text p q m.valid n.valid hp hq
  rw [hpr, hqr] at hequal
  simp only [sameJson, asNumber, hp, hq, Bool.or_eq_true, beq_iff_eq, Bool.and_eq_true,
    decide_eq_true_eq, hequal, ShortText]
  tauto

theorem sameJson_other {a b : Value} (h : asNumber a = none ∨ asNumber b = none) :
    sameJson doubles a b = true ↔ a = b := by
  unfold sameJson
  split
  next x y hx hy =>
    rcases h with h | h
    · rw [h] at hx
      cases hx
    · rw [h] at hy
      cases hy
  next => exact beq_iff_eq

theorem eq_number_of_asNumber {a : Value} {text : String} (h : asNumber a = some text) :
    ∃ n : Number, a = .number n := by
  cases a with
  | number n => exact ⟨n, rfl⟩
  | _ => cases h

theorem number_of_sameJson {m : Number} {b : Value} (h : sameJson doubles (.number m) b = true) :
    ∃ n : Number, b = .number n := by
  cases hb : asNumber b with
  | some text => exact eq_number_of_asNumber hb
  | none => exact ⟨m, ((sameJson_other (.inr hb)).mp h).symm⟩

theorem sameJson_comm (r : Rounds doubles) (a b : Value) :
    sameJson doubles a b = true ↔ sameJson doubles b a = true := by
  cases ha : asNumber a with
  | none => rw [sameJson_other (.inl ha), sameJson_other (.inr ha), eq_comm]
  | some x =>
    cases hb : asNumber b with
    | none => rw [sameJson_other (.inr hb), sameJson_other (.inl hb), eq_comm]
    | some y =>
      obtain ⟨m, rfl⟩ := eq_number_of_asNumber ha
      obtain ⟨n, rfl⟩ := eq_number_of_asNumber hb
      rw [sameJson_number r, sameJson_number r, eq_comm (a := m.text),
        eq_comm (a := f64.round (rational m.text))]
      tauto

theorem equivalence_sameJson (r : Rounds doubles) :
    Equivalence fun a b => sameJson doubles a b = true where
  refl a := by
    cases ha : asNumber a with
    | none => exact (sameJson_other (.inl ha)).mpr rfl
    | some x =>
      obtain ⟨m, rfl⟩ := eq_number_of_asNumber ha
      exact (sameJson_number r m m).mpr (.inl rfl)
  symm h := (sameJson_comm r ..).mp h
  trans {a b c} hab hbc := by
    cases ha : asNumber a with
    | none =>
      obtain rfl := (sameJson_other (.inl ha)).mp hab
      exact hbc
    | some x =>
      obtain ⟨m, rfl⟩ := eq_number_of_asNumber ha
      obtain ⟨n, rfl⟩ := number_of_sameJson hab
      obtain ⟨k, rfl⟩ := number_of_sameJson hbc
      rw [sameJson_number r] at *
      rcases hab with hab | ⟨hm, hn, hab⟩
      · rwa [hab]
      · rcases hbc with hbc | ⟨-, hk, hbc⟩
        · exact .inr ⟨hm, hbc ▸ hn, hbc ▸ hab⟩
        · exact .inr ⟨hm, hk, hab.trans hbc⟩

/-- Short texts of different rationals that an `f64` conflates: both past its limit on one side, or
both at one multiple of its least place. -/
structure Conflated (x y : String) : Prop where
  differ : rational x ≠ rational y
  short : ShortText x ∧ ShortText y
  conflates : f64.Conflates (rational x) (rational y)

/-- Sameness is an equivalence, and numbers that are the same denote one rational exactly when they
are not short numbers an `f64` conflates. -/
theorem sameJson_sound_iff (r : Rounds doubles) (m n : Number) :
    ((Equivalence fun a b => sameJson doubles a b = true) ∧
        (sameJson doubles (.number m) (.number n) = true → rational m.text = rational n.text)) ↔
      ¬ Conflated m.text n.text := by
  rw [and_iff_right (equivalence_sameJson r), sameJson_number r]
  constructor
  · intro h hconflated
    exact hconflated.differ
      (h (.inr ⟨hconflated.short.1, hconflated.short.2, hconflated.conflates.round_eq⟩))
  · rintro hnot (heq | ⟨hm, hn, hround⟩)
    · rw [heq]
    · have hwide : 2 * 10 ^ 15 < 2 ^ f64.precision := by decide
      rcases Format.eq_or_conflates (by decide) hwide (short_rational m.valid hm)
        (short_rational n.valid hn) hround with heq | hconflates
      · exact heq
      · by_contra hdiffer
        exact hnot ⟨hdiffer, ⟨hm, hn⟩, hconflates⟩

/-- An operation on rounded numbers: rounded, where both are finite. -/
def lifted (op : ℚ → ℚ → ℚ) : Rounded → Rounded → Rounded
  | .finite p, .finite q => f64.round (op p q)
  | .infinite negative, _ => .infinite negative
  | _, .infinite negative => .infinite negative

/-- The arithmetic of `f64` as rationals rounded. -/
def roundedDoubles : Doubles where
  F := Rounded
  parse text := if isNumber text then some (f64.round (rational text)) else none
  isFinite
    | .finite _ => true
    | .infinite _ => false
  equal := fun (p q : Rounded) => decide (p = q)
  lt
    | .finite p, .finite q => p < q
    | .infinite negative, _ => negative
    | .finite _, .infinite negative => !negative
  le
    | .finite p, .finite q => p ≤ q
    | .infinite negative, _ => negative
    | .finite _, .infinite negative => !negative
  div := lifted (· / ·)
  mul := lifted (· * ·)
  sub := lifted (· - ·)
  max := lifted max
  abs
    | .finite p => .finite |p|
    | .infinite _ => .infinite false
  round
    | .finite p => .finite (if 0 ≤ p then ⌊p + 1 / 2⌋ else ⌈p - 1 / 2⌉)
    | .infinite negative => .infinite negative
  fract
    | .finite p => .finite (p - if 0 ≤ p then ⌊p⌋ else ⌈p⌉)
    | .infinite _ => .finite 0
  ofNat n := f64.round n
  epsilon := .finite (1 / 2 ^ 52)
  toInt
    | .finite p => ⌊p⌋
    | .infinite _ => 0
  display _ := ""

/-- Rationals rounded are what each text is read as. -/
def roundedDoubles_rounds : Rounds roundedDoubles where
  rounded := id
  parse text h := ⟨f64.round (rational text), if_pos h, rfl⟩
  equal _ _ p q _ _ _ _ := @decide_eq_true_iff (@Eq Rounded p q) (instDecidableEqRounded p q)

/-- A hundred in two spellings is one number. -/
theorem sameJson_sound_hundred :
    ((Equivalence fun a b => sameJson roundedDoubles a b = true) ∧
        (sameJson roundedDoubles (.number ⟨"1e2", by decide⟩) (.number ⟨"100.0", by decide⟩) = true →
          rational "1e2" = rational "100.0")) ↔
      ¬ Conflated "1e2" "100.0" :=
  sameJson_sound_iff roundedDoubles_rounds ⟨"1e2", by decide⟩ ⟨"100.0", by decide⟩

/-- Numbers past the greatest `f64` are the same, and denote different rationals. -/
theorem not_sound_sameJson :
    sameJson roundedDoubles (.number ⟨"1e400", by decide⟩) (.number ⟨"2e400", by decide⟩) = true ∧
      rational "1e400" ≠ rational "2e400" := by
  have hone : rational "1e400" = 10 ^ 400 := by decide +kernel
  have htwo : rational "2e400" = 2 * 10 ^ 400 := by decide +kernel
  have hlimit : f64.limit ≤ 10 ^ 400 := by
    have htop : f64.limit ≤ 2 ^ (1024 : ℤ) := sub_le_self _ (by positivity)
    calc f64.limit ≤ 2 ^ (1024 : ℤ) := htop
      _ = (2 ^ 128) ^ 8 := by rw [← pow_mul]; rfl
      _ ≤ (10 ^ 50) ^ 8 := pow_le_pow_left₀ (by positivity) (by norm_num) 8
      _ = 10 ^ 400 := by rw [← pow_mul]
  constructor
  · apply (sameJson_number roundedDoubles_rounds _ _).mpr
    refine .inr ⟨by decide, by decide, Format.Conflates.round_eq (.inl ⟨?_, ?_⟩)⟩
    · exact hlimit.trans hone.ge
    · refine hlimit.trans (le_trans ?_ htwo.ge)
      exact le_mul_of_one_le_left (by positivity) one_le_two
  · rw [hone, htwo]
    norm_num

end Guatiao.Schema
