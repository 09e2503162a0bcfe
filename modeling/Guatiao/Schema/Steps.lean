import Guatiao.Schema.SameJson
import Guatiao.Schema.Validate
import Guatiao.Value.Durations

/-!
# Whole numbers counted in steps

A step is read as an `f64` and turned back into a whole number, a value is parsed as it is written. So
a value is held to the step its schema spells exactly when the step is a number an `f64` holds.
-/

namespace Guatiao.Schema

open Lib

theorem rational_of_digits {text : String} {n : ℕ} (h : digitsValue (asBytes text) = some n) :
    rational text = n := by
  obtain ⟨hne, hall, -⟩ := digitsValue_eq_some h
  have hvalue : Positional.number 10 ((asBytes text).map digitOf) = n :=
    Option.some.inj ((digitsValue_of_digits hne hall).symm.trans h)
  have hhead : ((asBytes text).head? == some 0x2d) = false := by
    rw [beq_eq_false_iff_ne]
    intro hminus
    exact (ne_sign (hall _ (List.mem_of_mem_head? hminus))).1 rfl
  have hletters : ∀ b ∈ asBytes text, (!isExponentLetter b) = true := fun b hb => by
    rw [not_exponentLetter (hall b hb)]
    rfl
  have hpoints : ∀ b ∈ asBytes text, (b != 0x2e) = true := fun b hb =>
    bne_iff_ne.mpr (ne_point (hall b hb))
  have hread : Spelling.read (asBytes text) = ⟨false, asBytes text, [], []⟩ := by
    have hletterless := List.takeWhile_eq_self_iff.mpr hletters
    have hpointless := List.takeWhile_eq_self_iff.mpr hpoints
    have hnoletter := List.dropWhile_eq_nil_iff.mpr hletters
    have hnopoint := List.dropWhile_eq_nil_iff.mpr hpoints
    simp only [Spelling.read, hhead, Bool.false_eq_true, if_false, hletterless, hpointless, hnoletter,
      hnopoint, List.tail_nil]
  have hexponent : Spelling.exponent ⟨false, asBytes text, [], []⟩ = 0 := by
    simp [Spelling.exponent, Positional.number]
  rw [rational, hread, Spelling.value, hexponent, Spelling.digits, List.append_nil, hvalue]
  simp

theorem near_step {step : ℕ} (hpos : 0 < step) : ∃ r : ℕ, f64.near step = r ∧ 0 < r ∧
    r < 2 * step ∧ f64.HoldsNat r ∧ (step ∣ r → r = step) := by
  obtain ⟨r, hr, hholds⟩ := Format.near_natCast f64 step
  have hone : (1 : ℚ) ≤ step := by exact_mod_cast hpos
  have habs : |(step : ℚ)| = step := abs_of_nonneg (by positivity)
  have hnormal : f64.Normal step := by
    rw [Format.Normal, habs]
    exact (zpow_le_one_of_nonpos₀ one_le_two (by decide)).trans hone
  have hnear := hnormal.abs_near_sub_le
  rw [hr, habs] at hnear
  have hclose : |((r : ℤ) - step : ℤ)| < step := by
    have hlt : |(r : ℚ) - step| < step :=
      hnear.trans_lt (div_lt_self (by positivity) (one_lt_pow₀ one_lt_two (by decide)))
    exact_mod_cast hlt
  obtain ⟨hlo, hhi⟩ := abs_lt.mp hclose
  refine ⟨r, hr, by omega, by omega, hholds, fun hdvd => ?_⟩
  have hdiff : (step : ℤ) ∣ (r : ℤ) - step :=
    dvd_sub (by exact_mod_cast hdvd) (dvd_refl (step : ℤ))
  have hzero := Int.eq_zero_of_abs_lt_dvd hdiff hclose
  omega

/-- A whole number that fits an `i128`, as a text. -/
def Whole128 (text : String) (n : ℤ) : Prop :=
  isIntegerText text = true ∧ parseSigned 128 text = some n

/-- A field of whole numbers that are counted in steps, written in digits, whose schema admits every
whole number otherwise. -/
structure Stepped (engine : Engine) (field : FieldRef) (step : ℕ) : Prop where
  kind : field.kind = .int
  written : ∃ text, numberUnder Vocab.multipleOf (peel field.schema) = some text ∧
    digitsValue (asBytes text) = some step
  positive : 0 < step
  bounded : step < 9 * 10 ^ 18
  bounds : ∀ text n, Whole128 text n → (Bounds.read (peel field.schema)).admitText text = true
  signs : ∀ text n, Whole128 text n → ¬ ((asBytes text).head? = some 0x2d ∧
    (Bounds.read (peel field.schema)).min.any (fun m => (compare m "0").any Ordering.isGE) = true)
  excludes : ∀ text n, Whole128 text n → ∀ e, excluded field.schema = some e →
    (against roundedDoubles engine (maxDepth - 1) e field.key text).isOk = false

theorem round_natCast {n : ℕ} (h : n < 2 ^ 65) : f64.round n = .finite (f64.near n) := by
  have hlimit : |(n : ℚ)| < f64.limit := by
    rw [abs_of_nonneg (by positivity)]
    calc (n : ℚ) < 2 ^ (65 : ℤ) := by exact_mod_cast h
      _ ≤ 2 ^ (1023 : ℤ) := zpow_le_zpow_right₀ one_le_two (by decide)
      _ ≤ f64.limit := by
        have hlow : (2 : ℚ) ^ (1024 - 53 - 1 : ℤ) ≤ 2 ^ (1023 : ℤ) :=
          zpow_le_zpow_right₀ one_le_two (by decide)
        have htop : (2 : ℚ) ^ (1024 : ℤ) = 2 * 2 ^ (1023 : ℤ) := by
          rw [← zpow_one_add₀ two_ne_zero]
          rfl
        show _ ≤ (2 : ℚ) ^ (1024 : ℤ) - 2 ^ (1024 - 53 - 1 : ℤ)
        rw [htop, two_mul]
        exact le_sub_iff_add_le.mpr (add_le_add (le_refl _) hlow)
  rw [Format.round, if_neg (not_le.mpr hlimit)]

theorem round_of_holds {n : ℕ} (hholds : f64.HoldsNat n) (h : n < 2 ^ 65) :
    f64.round n = .finite n := by
  rw [round_natCast h, (Format.near_natCast_iff (by decide) n).mpr hholds]

/-- A rational as an `f64` that holds it. -/
def asDouble (q : ℚ) : roundedDoubles.F := Rounded.finite q

section Read

variable {engine : Engine} {field : FieldRef} {step r : ℕ}

theorem optStep_of_stepped (h : Stepped engine field step) (hr : f64.near step = r) (hpos : 0 < r) :
    optStep roundedDoubles (peel field.schema) = some (asDouble r) := by
  obtain ⟨text, htext, hdigits⟩ := h.written
  have hround : f64.round (rational text) = .finite r := by
    have hbounded := h.bounded
    rw [rational_of_digits hdigits, round_natCast (by omega), hr]
  have hparse : roundedDoubles.parse text = some (asDouble r) := by
    show (if isNumber text then some (f64.round (rational text)) else none) = _
    rw [if_pos (isNumber_of_numberUnder htext), hround]
    rfl
  have hzero : roundedDoubles.ofNat 0 = asDouble 0 := by
    have := round_of_holds (n := 0) ⟨0, 0, by decide, rfl⟩ (by decide)
    exact_mod_cast this
  rw [optStep, optFloat, htext, Option.bind_some, hparse, Option.filter_eq_some_iff,
    Option.filter_eq_some_iff]
  refine ⟨⟨rfl, rfl⟩, ?_⟩
  rw [hzero]
  exact decide_eq_true (by exact_mod_cast hpos : (0 : ℚ) < r)

theorem validateText_iff (h : Stepped engine field step) (hr : f64.near step = r) (hpos : 0 < r)
    {text : String} {n : ℤ} (hwhole : Whole128 text n) :
    validateText roundedDoubles engine field text = .ok () ↔
      intIsMultiple roundedDoubles text (asDouble r) = true := by
  have hint : intAgainst roundedDoubles (peel field.schema) field.key text =
      if intIsMultiple roundedDoubles text (asDouble r) then .ok ()
      else bad field.key s!"a multiple of {roundedDoubles.display (asDouble r)}" := by
    simp only [intAgainst, hwhole.1, h.bounds text n hwhole, optStep_of_stepped h hr hpos,
      if_neg (h.signs text n hwhole), Bool.not_true, Bool.false_eq_true, if_false]
  have hexcluded : (excluded field.schema).filter
      (fun e => (against roundedDoubles engine (maxDepth - 1) e field.key text).isOk) = none := by
    rw [Option.filter_eq_none_iff]
    intro e he
    rw [h.excludes text n hwhole e he]
    exact Bool.false_ne_true
  have hkind : Kind.read (some field.schema) = .int := h.kind
  show excluding (against roundedDoubles engine (maxDepth - 1)) _ field.schema field.key text = _ ↔ _
  rw [excluding, hexcluded]
  show textAgainst roundedDoubles engine _ field.schema field.key text = .ok () ↔ _
  simp only [textAgainst, hkind, hint]
  split
  · next hmultiple => exact iff_of_true rfl hmultiple
  · next hmultiple => exact iff_of_false (fun hbad => by cases hbad) hmultiple

theorem ofNat_bound : roundedDoubles.ofNat 9000000000000000000 = asDouble (9 * 10 ^ 18) := by
  have hround := round_of_holds (n := 9000000000000000000) ⟨9 * 5 ^ 18, 18, by decide, rfl⟩ (by decide)
  have hcast : ((9000000000000000000 : ℕ) : ℚ) = 9 * 10 ^ 18 := by norm_num
  refine Eq.trans (show roundedDoubles.ofNat 9000000000000000000 = _ from hround) ?_
  rw [hcast]
  rfl

theorem fract_natCast : roundedDoubles.equal (roundedDoubles.fract (asDouble r))
    (roundedDoubles.ofNat 0) = true := by
  have hzero := round_of_holds (n := 0) ⟨0, 0, by decide, rfl⟩ (by decide)
  show decide (Rounded.finite ((r : ℚ) - if 0 ≤ (r : ℚ) then ⌊(r : ℚ)⌋ else ⌈(r : ℚ)⌉) =
    f64.round (0 : ℕ)) = true
  rw [hzero, if_pos (by positivity), Int.floor_natCast]
  simp

theorem toInt_natCast : roundedDoubles.toInt (asDouble r) = r := Int.floor_natCast r

theorem intIsMultiple_of_lt (hlt : r < 9 * 10 ^ 18) {text : String} {n : ℤ}
    (hparse : parseSigned 128 text = some n) :
    intIsMultiple roundedDoubles text (asDouble r) = true ↔ (r : ℤ) ∣ n := by
  have hbound : roundedDoubles.lt (asDouble r) (roundedDoubles.ofNat 9000000000000000000) = true := by
    rw [ofNat_bound]
    exact decide_eq_true (by exact_mod_cast hlt : (r : ℚ) < 9 * 10 ^ 18)
  rw [intIsMultiple, fract_natCast, hbound, hparse, toInt_natCast]
  simp only [Bool.and_self, if_true, Option.all_some, beq_iff_eq]
  exact ⟨Int.dvd_of_tmod_eq_zero, Int.tmod_eq_zero_of_dvd⟩

/-- What a rounded rational is that is not negative. -/
def Rounded.NonNeg : Rounded → Prop
  | .finite q => 0 ≤ q
  | .infinite negative => negative = false

theorem nonNeg_round {q : ℚ} (h : 0 ≤ q) : Rounded.NonNeg (f64.round q) := by
  rw [Format.round]
  split
  · exact decide_eq_false (not_lt.mpr h)
  · exact Format.near_nonneg h

theorem nonNeg_lifted {op : ℚ → ℚ → ℚ} (hop : ∀ p q, 0 ≤ p → 0 ≤ q → 0 ≤ op p q) {a b : Rounded}
    (ha : Rounded.NonNeg a) (hb : Rounded.NonNeg b) : Rounded.NonNeg (lifted op a b) := by
  cases a with
  | infinite => exact ha
  | finite p =>
    cases b with
    | infinite => exact hb
    | finite q => exact nonNeg_round (hop p q ha hb)

theorem le_of_nonNeg {x : roundedDoubles.F} (h : Rounded.NonNeg x) :
    roundedDoubles.le (asDouble 0) x = true := by
  cases x with
  | finite q => exact decide_eq_true h
  | infinite negative =>
    cases h
    rfl

/-- Past the bound the number that was read is a multiple of itself. -/
theorem floatIsMultiple_self (hpos : 0 < r) (hholds : f64.HoldsNat r) (hr : r < 2 ^ 65) :
    floatIsMultiple roundedDoubles (asDouble r) (asDouble r) = true := by
  have hself := round_of_holds hholds hr
  have hone : f64.round 1 = .finite 1 := by
    exact_mod_cast round_of_holds (n := 1) ⟨1, 0, by decide, rfl⟩ (by decide)
  have hzero : f64.round 0 = .finite 0 := by
    exact_mod_cast round_of_holds (n := 0) ⟨0, 0, by decide, rfl⟩ (by decide)
  have hne : (r : ℚ) ≠ 0 := by positivity
  have hdiv : roundedDoubles.div (asDouble r) (asDouble r) = asDouble 1 := by
    show f64.round ((r : ℚ) / r) = _
    rw [div_self hne, hone]
    rfl
  have hround : roundedDoubles.round (asDouble 1) = asDouble 1 := by
    show Rounded.finite (if (0 : ℚ) ≤ 1 then (⌊(1 : ℚ) + 1 / 2⌋ : ℚ) else ⌈(1 : ℚ) - 1 / 2⌉) = _
    rw [if_pos zero_le_one]
    norm_num [asDouble]
  have hmul : roundedDoubles.mul (asDouble 1) (asDouble r) = asDouble r := by
    show f64.round (1 * (r : ℚ)) = _
    rw [one_mul, hself]
    rfl
  have hsub : roundedDoubles.sub (asDouble r) (asDouble r) = asDouble 0 := by
    show f64.round ((r : ℚ) - r) = _
    rw [sub_self, hzero]
    rfl
  have habs : roundedDoubles.abs (asDouble 0) = asDouble 0 := by
    show Rounded.finite |0| = _
    rw [abs_zero]
    rfl
  have htolerance : Rounded.NonNeg (roundedDoubles.mul (roundedDoubles.mul roundedDoubles.epsilon
      (roundedDoubles.max (roundedDoubles.abs (asDouble r)) (roundedDoubles.ofNat 1)))
      (roundedDoubles.ofNat 4)) := by
    have hmax : Rounded.NonNeg (roundedDoubles.max (roundedDoubles.abs (asDouble r))
        (roundedDoubles.ofNat 1)) :=
      nonNeg_lifted (fun p q hp _ => hp.trans (le_max_left p q)) (abs_nonneg (r : ℚ))
        (nonNeg_round (by positivity))
    have hepsilon : Rounded.NonNeg roundedDoubles.epsilon := by
      show (0 : ℚ) ≤ 1 / 2 ^ 52
      positivity
    exact nonNeg_lifted (fun _ _ => mul_nonneg)
      (nonNeg_lifted (fun _ _ => mul_nonneg) hepsilon hmax) (nonNeg_round (by positivity))
  simp only [floatIsMultiple, hdiv, hround, hmul, hsub, habs]
  exact le_of_nonNeg htolerance

theorem whole128_repr (hr : r < 2 ^ 65) : Whole128 r.repr r := by
  have hdigits : ∀ b ∈ asBytes r.repr, isDigit b = true := List.all_eq_true.mp (all_isDigit_repr r)
  refine ⟨?_, ?_⟩
  · rw [isIntegerText, Bool.and_eq_true, Bool.not_eq_true', List.any_eq_false]
    refine ⟨isNumber_toString r, fun b hb => ?_⟩
    have hpoint := ne_point (hdigits b hb)
    have hletter := not_exponentLetter (hdigits b hb)
    simp only [isExponentLetter, Bool.or_eq_false_iff, beq_eq_false_iff_ne] at hletter
    simp [hpoint, hletter]
  · exact @parseSigned_eq _ [] _ _ _ (.inl rfl) hdigits rfl (digitsValue_repr r)
      (.inl (hr.trans_le (Nat.pow_le_pow_right two_pos (by decide))))

theorem validateText_self (h : Stepped engine field step) (hr : f64.near step = r) (hpos : 0 < r)
    (hlt : r < 2 ^ 65) (hholds : f64.HoldsNat r) :
    validateText roundedDoubles engine field r.repr = .ok () := by
  have hwhole := whole128_repr hlt
  rw [validateText_iff h hr hpos hwhole]
  by_cases hbound : r < 9 * 10 ^ 18
  · exact (intIsMultiple_of_lt hbound hwhole.2).mpr (dvd_refl _)
  · have hpast : roundedDoubles.lt (asDouble r) (roundedDoubles.ofNat 9000000000000000000) = false := by
      rw [ofNat_bound]
      refine decide_eq_false (not_lt.mpr ?_)
      exact_mod_cast not_lt.mp hbound
    have hparse : roundedDoubles.parse r.repr = some (asDouble r) := by
      have hnumber : isNumber r.repr = true := isNumber_toString r
      show (if isNumber r.repr then some (f64.round (rational r.repr)) else none) = _
      rw [if_pos hnumber, rational_of_digits (digitsValue_repr r),
        round_of_holds hholds hlt]
      rfl
    rw [intIsMultiple, hpast, Bool.and_false, hparse]
    exact floatIsMultiple_self hpos hholds hlt

end Read

/-- Every whole number is held to the step its schema spells exactly when an `f64` holds the step: a
number of at most fifty-three bits, but for zeros at its end. -/
theorem whole_step_exact_iff (engine : Engine) (field : FieldRef) (step : ℕ)
    (h : Stepped engine field step) :
    (∀ text n, Whole128 text n →
        (validateText roundedDoubles engine field text = .ok () ↔ (step : ℤ) ∣ n)) ↔
      f64.HoldsNat step := by
  obtain ⟨r, hr, hpos, hlt, hholds, hself⟩ := near_step h.positive
  have hbounded := h.bounded
  constructor
  · intro hexact
    have hlt65 : r < 2 ^ 65 := by omega
    have haccepted := validateText_self h hr hpos hlt65 hholds
    have hdvd := (hexact r.repr r (whole128_repr hlt65)).mp haccepted
    rwa [← hself (by exact_mod_cast hdvd)]
  · intro hstep text n hwhole
    have heq : r = step := by
      rw [(Format.near_natCast_iff (by decide) step).mpr hstep] at hr
      exact_mod_cast hr.symm
    subst heq
    rw [validateText_iff h hr hpos hwhole]
    exact intIsMultiple_of_lt hbounded hwhole.2

/-- A field counted in steps, with no other keyword. -/
def steppedField (step : Number) : FieldRef :=
  ⟨"n", .map [("type", .string "integer"), ("multipleOf", .number step)], false⟩

theorem stepped_field {n : Number} {step : ℕ} (hwritten : digitsValue (asBytes n.text) = some step)
    (hpos : 0 < step) (hbounded : step < 9 * 10 ^ 18) :
    Stepped (fun _ => none) (steppedField n) step where
  kind := by rfl
  written := ⟨n.text, by rfl, hwritten⟩
  positive := hpos
  bounded := hbounded
  bounds _ _ _ := by rfl
  signs _ _ _ h := by cases h.2
  excludes _ _ _ _ h := by cases h

theorem whole_step_exact_five : Stepped (fun _ => none) (steppedField ⟨"5", by decide⟩) 5 ∧
    ∀ text n, Whole128 text n →
      (validateText roundedDoubles (fun _ => none) (steppedField ⟨"5", by decide⟩) text = .ok () ↔
        (5 : ℤ) ∣ n) := by
  have h : Stepped (fun _ => none) (steppedField ⟨"5", by decide⟩) 5 :=
    stepped_field (by decide) (by decide) (by decide)
  exact ⟨h, (whole_step_exact_iff (fun _ => none) _ 5 h).mpr ⟨5, 0, by decide, rfl⟩⟩

theorem near_odd : f64.near ((9007199254740993 : ℕ) : ℚ) = ((9007199254740992 : ℕ) : ℚ) := by
  have hlog : Int.log 2 |((9007199254740993 : ℕ) : ℚ)| = 53 := by
    rw [Nat.abs_cast, Int.log_natCast]
    exact_mod_cast Nat.log_eq_of_pow_le_of_lt_pow (by norm_num) (by norm_num)
  have hplace : f64.place ((9007199254740993 : ℕ) : ℚ) = 1 := by
    rw [Format.place, hlog]
    rfl
  have hfloor : ⌊(9007199254740993 : ℚ) / 2⌋ = 4503599627370496 := by
    rw [Int.floor_eq_iff]
    norm_num
  rw [Format.near, hplace, zpow_one]
  push_cast
  rw [nearest, hfloor]
  norm_num

/-- A whole number is accepted that is no multiple of the step its schema spells. -/
theorem not_whole_step_exact : ¬ ∀ (engine : Engine) (field : FieldRef) (step : ℕ),
    Stepped engine field step → ∀ text n, Whole128 text n →
      (validateText roundedDoubles engine field text = .ok () ↔ (step : ℤ) ∣ n) := by
  intro h
  have hstepped : Stepped (fun _ => none) (steppedField ⟨"9007199254740993", by decide⟩)
      9007199254740993 := stepped_field (by decide) (by decide) (by decide)
  have hwhole : Whole128 "9007199254740992" 9007199254740992 := ⟨by decide, by decide⟩
  have haccepted := (validateText_iff hstepped near_odd (by decide) hwhole).mpr
    ((intIsMultiple_of_lt (by decide) hwhole.2).mpr (by decide))
  exact absurd ((h _ _ _ hstepped _ _ hwhole).mp haccepted) (by decide)

end Guatiao.Schema
