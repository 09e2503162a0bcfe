import Guatiao.Lib.Positional
import Mathlib
import Guatiao.Lib.Yields
import Guatiao.Schema.Decimal

/-!
# The rational a number's text denotes

A text in the grammar is a sign, whole digits, a fraction and an exponent, and denotes a rational.
The decimals the comparisons read are a normal form of it, so comparing them is comparing the
rationals, with no width and no rounding.
-/

namespace Guatiao.Schema

open Lib

/-- The digit a byte is. -/
def digitOf (b : UInt8) : ℕ := b.toNat - 0x30

theorem digitOf_lt {b : UInt8} (h : isDigit b = true) : digitOf b < 10 := by
  simp only [isDigit, Bool.and_eq_true, decide_eq_true_eq, UInt8.le_iff_toNat_le] at h
  have h9 : (0x39 : UInt8).toNat = 57 := rfl
  unfold digitOf
  omega

/-- The parts of a number as it is written. -/
structure Spelling where
  negative : Bool
  whole : List UInt8
  fraction : List UInt8
  /-- What stands after the letter. -/
  written : List UInt8

namespace Spelling

/-- The parts of a number's bytes. -/
def read (bytes : List UInt8) : Spelling :=
  let negative := bytes.head? == some 0x2d
  let rest := if negative then bytes.tail else bytes
  let mantissa := rest.takeWhile fun b => !isExponentLetter b
  { negative
    whole := mantissa.takeWhile (· != 0x2e)
    fraction := (mantissa.dropWhile (· != 0x2e)).tail
    written := (rest.dropWhile fun b => !isExponentLetter b).tail }

/-- All the digits of the mantissa. -/
def digits (s : Spelling) : List UInt8 := s.whole ++ s.fraction

/-- The exponent, of any size. -/
def exponent (s : Spelling) : ℤ :=
  let signed := s.written.head? = some 0x2d ∨ s.written.head? = some 0x2b
  let n : ℤ := Positional.number 10 ((if signed then s.written.tail else s.written).map digitOf)
  if s.written.head? = some 0x2d then -n else n

/-- The rational denoted. -/
def value (s : Spelling) : ℚ :=
  (if s.negative then -1 else 1) * Positional.number 10 (s.digits.map digitOf) *
    10 ^ (s.exponent - s.fraction.length)

end Spelling

/-- The rational a text denotes. -/
def rational (text : String) : ℚ := (Spelling.read (asBytes text)).value

/-- The exponent of a text is under the clamp. -/
def SmallExponent (text : String) : Prop :=
  |(Spelling.read (asBytes text)).exponent| < exponentClamp

section Grammar

variable {bytes : List UInt8} {i j : ℕ}

theorem drop_skipDigits (bytes : List UInt8) (i : ℕ) :
    bytes.drop i = (bytes.drop i).takeWhile isDigit ++ bytes.drop (skipDigits bytes i) := by
  have hsplit := List.takeWhile_append_dropWhile (p := isDigit) (l := bytes.drop i)
  have hrest : (bytes.drop i).drop ((bytes.drop i).takeWhile isDigit).length =
      (bytes.drop i).dropWhile isDigit := by
    calc (bytes.drop i).drop ((bytes.drop i).takeWhile isDigit).length
        = ((bytes.drop i).takeWhile isDigit ++ (bytes.drop i).dropWhile isDigit).drop
            ((bytes.drop i).takeWhile isDigit).length := by rw [hsplit]
      _ = (bytes.drop i).dropWhile isDigit := List.drop_left
  rw [skipDigits, ← List.drop_drop, hrest, hsplit]

theorem drop_eq_cons {b : UInt8} (h : bytes[i]? = some b) :
    bytes.drop i = b :: bytes.drop (i + 1) := by
  obtain ⟨hi, rfl⟩ := List.getElem?_eq_some_iff.mp h
  exact List.drop_eq_getElem_cons hi

theorem all_takeWhile_isDigit (l : List UInt8) : ∀ b ∈ l.takeWhile isDigit, isDigit b = true :=
  fun _ hb => List.mem_takeWhile_imp hb

theorem readDigits_ok (h : readDigits bytes i = .ok j) :
    ∃ ds, ds ≠ [] ∧ (∀ b ∈ ds, isDigit b = true) ∧ bytes.drop i = ds ++ bytes.drop j := by
  unfold readDigits at h
  split at h
  next hat =>
    cases h
    refine ⟨_, ?_, all_takeWhile_isDigit _, drop_skipDigits bytes i⟩
    obtain ⟨b, hb, hdigit⟩ := Option.any_eq_true .. |>.mp hat
    rw [drop_eq_cons hb, List.takeWhile_cons_of_pos hdigit]
    exact List.cons_ne_nil _ _
  next => cases h

theorem readInt_ok (h : readInt bytes i = .ok j) :
    ∃ ds, ds ≠ [] ∧ (∀ b ∈ ds, isDigit b = true) ∧ (ds.head? = some 0x30 → ds = [0x30]) ∧
      bytes.drop i = ds ++ bytes.drop j := by
  unfold readInt at h
  split at h
  next => cases h
  next b hb =>
    split at h
    next hzero =>
      cases h
      refine ⟨[b], by simp, ?_, fun _ => by rw [hzero], drop_eq_cons hb⟩
      subst hzero
      simp [isDigit]
    next hzero =>
      split at h
      next hdigit =>
        cases h
        refine ⟨b :: (bytes.drop (i + 1)).takeWhile isDigit, by simp, ?_,
          fun hhead => absurd (Option.some.inj hhead) hzero, ?_⟩
        · rintro c (_ | ⟨_, hc⟩)
          · exact hdigit
          · exact all_takeWhile_isDigit _ c hc
        · rw [drop_eq_cons hb, List.cons_append, ← drop_skipDigits]
      next => cases h

theorem readFrac_ok (h : readFrac bytes i = .ok j) :
    bytes.drop i = bytes.drop j ∨
      ∃ ds, ds ≠ [] ∧ (∀ b ∈ ds, isDigit b = true) ∧ bytes.drop i = 0x2e :: ds ++ bytes.drop j := by
  unfold readFrac at h
  split at h
  next hpoint =>
    obtain ⟨ds, hne, hall, hdrop⟩ := readDigits_ok h
    exact .inr ⟨ds, hne, hall, by rw [drop_eq_cons hpoint, hdrop, List.cons_append]⟩
  next =>
    cases h
    exact .inl rfl

/-- What may stand before an exponent's digits. -/
def IsSign (sign : List UInt8) : Prop := sign = [] ∨ sign = [0x2d] ∨ sign = [0x2b]

theorem readExp_ok (h : readExp bytes i = .ok j) :
    bytes.drop i = bytes.drop j ∨
      ∃ letter sign ds, isExponentLetter letter = true ∧ IsSign sign ∧ ds ≠ [] ∧
        (∀ b ∈ ds, isDigit b = true) ∧ bytes.drop i = letter :: (sign ++ ds) ++ bytes.drop j := by
  unfold readExp at h
  split at h
  next hletter =>
    obtain ⟨letter, hat, hexp⟩ : ∃ letter, bytes[i]? = some letter ∧
        isExponentLetter letter = true := by
      rcases hletter with h | h
      · exact ⟨_, h, rfl⟩
      · exact ⟨_, h, rfl⟩
    refine .inr ⟨letter, ?_⟩
    split at h
    next hsign =>
      obtain ⟨sign, hsign, hat'⟩ : ∃ sign, IsSign [sign] ∧ bytes[i + 1]? = some sign := by
        rcases hsign with h | h
        · exact ⟨_, .inr (.inr rfl), h⟩
        · exact ⟨_, .inr (.inl rfl), h⟩
      obtain ⟨ds, hne, hall, hdrop⟩ := readDigits_ok h
      refine ⟨[sign], ds, hexp, hsign, hne, hall, ?_⟩
      rw [drop_eq_cons hat, drop_eq_cons hat', hdrop]
      rfl
    next =>
      obtain ⟨ds, hne, hall, hdrop⟩ := readDigits_ok h
      refine ⟨[], ds, hexp, .inl rfl, hne, hall, ?_⟩
      rw [drop_eq_cons hat, hdrop, List.nil_append, List.cons_append]
  next =>
    cases h
    exact .inl rfl

theorem not_exponentLetter {b : UInt8} (h : isDigit b = true) : isExponentLetter b = false := by
  simp only [isDigit, Bool.and_eq_true, decide_eq_true_eq, UInt8.le_iff_toNat_le] at h
  have h9 : (0x39 : UInt8).toNat = 57 := rfl
  simp only [isExponentLetter, Bool.or_eq_false_iff, beq_eq_false_iff_ne, ne_eq]
  constructor
  · rintro rfl
    simp at h
  · rintro rfl
    simp at h

theorem ne_point {b : UInt8} (h : isDigit b = true) : b ≠ 0x2e := by
  rintro rfl
  simp [isDigit] at h

theorem takeWhile_append_eq {α : Type} {p : α → Bool} (xs ys : List α) (hxs : ∀ x ∈ xs, p x = true)
    (hys : ∀ y ∈ ys.head?, p y = false) :
    (xs ++ ys).takeWhile p = xs ∧ (xs ++ ys).dropWhile p = ys := by
  rw [List.takeWhile_append_of_pos hxs, List.dropWhile_append_of_pos hxs]
  cases ys with
  | nil => simp
  | cons y ys =>
    have hy : p y = false := hys y rfl
    simp [hy]

/-- What follows a number's minus sign, if there is one. -/
def afterSign (bytes : List UInt8) : List UInt8 :=
  if bytes.head? == some 0x2d then bytes.tail else bytes

/-- The parts of a number in the grammar: digits, a point with digits after it, a letter with an
exponent after it. -/
theorem parts_of_validate (h : (validateJsonNumber bytes).isOk = true) : ∃ whole point exp,
    afterSign bytes = whole ++ point ++ exp ∧ whole ≠ [] ∧ (∀ b ∈ whole, isDigit b = true) ∧
      (whole.head? = some 0x30 → whole = [0x30]) ∧
      (point = [] ∨ ∃ ds, ds ≠ [] ∧ (∀ b ∈ ds, isDigit b = true) ∧ point = 0x2e :: ds) ∧
      (exp = [] ∨ ∃ letter sign ds, isExponentLetter letter = true ∧ IsSign sign ∧ ds ≠ [] ∧
        (∀ b ∈ ds, isDigit b = true) ∧ exp = letter :: (sign ++ ds)) := by
  obtain ⟨u, hu⟩ : ∃ u, validateJsonNumber bytes = .ok u := by
    cases hv : validateJsonNumber bytes with
    | ok u => exact ⟨u, rfl⟩
    | error e => simp [hv, Except.isOk, Except.toBool] at h
  obtain ⟨i, hi, hu⟩ := Lib.bind_eq_ok hu
  obtain ⟨j, hj, hu⟩ := Lib.bind_eq_ok hu
  obtain ⟨k, hk, hu⟩ := Lib.bind_eq_ok hu
  have hend : bytes.drop k = [] := by
    split at hu
    next hlen => exact List.drop_eq_nil_of_le hlen.ge
    next => cases hu
  obtain ⟨whole, hne, hwhole, hzero, hint⟩ := readInt_ok hi
  have hrest : afterSign bytes = whole ++ bytes.drop i := by
    rw [← hint, afterSign]
    cases bytes with
    | nil => rfl
    | cons b rest => by_cases hb : b = 0x2d <;> simp [hb]
  obtain ⟨exp, hexp, hexpshape⟩ : ∃ exp, bytes.drop j = exp ∧ (exp = [] ∨ ∃ letter sign ds,
      isExponentLetter letter = true ∧ IsSign sign ∧ ds ≠ [] ∧ (∀ b ∈ ds, isDigit b = true) ∧
        exp = letter :: (sign ++ ds)) := by
    rcases readExp_ok hk with hk | ⟨letter, sign, ds, hletter, hsign, hds, hall, hk⟩
    · exact ⟨[], hk.trans hend, .inl rfl⟩
    · rw [hend, List.append_nil] at hk
      exact ⟨_, hk, .inr ⟨letter, sign, ds, hletter, hsign, hds, hall, rfl⟩⟩
  rcases readFrac_ok hj with hj | ⟨ds, hdsne, hds, hj⟩
  · exact ⟨whole, [], exp, by rw [hrest, hj, hexp, List.append_nil], hne, hwhole, hzero, .inl rfl,
      hexpshape⟩
  · exact ⟨whole, 0x2e :: ds, exp, by rw [hrest, hj, hexp, List.append_assoc], hne, hwhole,
      hzero, .inr ⟨ds, hdsne, hds, rfl⟩, hexpshape⟩

/-- What the parts of a number in the grammar are read as: the mantissa is digits, some before its
point, and what stands after a letter is an exponent. -/
theorem read_of_validate (h : (validateJsonNumber bytes).isOk = true) :
    ((∀ b ∈ (Spelling.read bytes).digits, isDigit b = true) ∧ (Spelling.read bytes).whole ≠ []) ∧
      ((∀ b ∈ afterSign bytes, isExponentLetter b = false) ∨ ∃ sign ds, IsSign sign ∧ ds ≠ [] ∧
        (∀ b ∈ ds, isDigit b = true) ∧ (Spelling.read bytes).written = sign ++ ds) := by
  obtain ⟨whole, point, exp, hrest, hne, hwhole, -, hpoint, hexp⟩ := parts_of_validate h
  have hletters : ∀ b ∈ whole ++ point, isExponentLetter b = false := by
    intro b hb
    rcases List.mem_append.mp hb with hb | hb
    · exact not_exponentLetter (hwhole b hb)
    · rcases hpoint with rfl | ⟨ds, -, hds, rfl⟩
      · cases hb
      · rcases List.mem_cons.mp hb with rfl | hb
        · rfl
        · exact not_exponentLetter (hds b hb)
  have hexphead : ∀ b ∈ exp.head?, (!isExponentLetter b) = false := by
    rcases hexp with rfl | ⟨letter, sign, ds, hletter, -, -, -, rfl⟩
    · simp
    · simpa using hletter
  have hmantissa := takeWhile_append_eq (p := fun b => !isExponentLetter b) (whole ++ point) exp
    (fun b hb => by rw [hletters b hb]; rfl) hexphead
  have hpointhead : ∀ b ∈ point.head?, (b != 0x2e) = false := by
    rcases hpoint with rfl | ⟨ds, -, -, rfl⟩ <;> simp
  have hparts := takeWhile_append_eq (p := fun b => b != 0x2e) whole point
    (fun b hb => by simpa using ne_point (hwhole b hb)) hpointhead
  have hread : (Spelling.read bytes).whole = whole ∧ (Spelling.read bytes).fraction = point.tail ∧
      (Spelling.read bytes).written = exp.tail := by
    simp only [Spelling.read]
    rw [← afterSign, hrest, hmantissa.1, hmantissa.2, hparts.1, hparts.2]
    exact ⟨rfl, rfl, rfl⟩
  rw [Spelling.digits, hread.1, hread.2.1, hread.2.2]
  refine ⟨⟨fun b hb => ?_, hne⟩, ?_⟩
  · rcases List.mem_append.mp hb with hb | hb
    · exact hwhole b hb
    · rcases hpoint with rfl | ⟨ds, -, hds, rfl⟩
      · cases hb
      · exact hds b hb
  · rcases hexp with rfl | ⟨letter, sign, ds, -, hsign, hds, hall, rfl⟩
    · rw [hrest, List.append_nil]
      exact .inl hletters
    · exact .inr ⟨sign, ds, hsign, hds, hall, rfl⟩

theorem digits_read (h : (validateJsonNumber bytes).isOk = true) :
    (∀ b ∈ (Spelling.read bytes).digits, isDigit b = true) ∧ (Spelling.read bytes).whole ≠ [] :=
  (read_of_validate h).1

end Grammar

/-- A normal decimal: its digits have no zero at either end, and zero has no sign. -/
structure Decimal.Normal (d : Decimal) : Prop where
  digits : ∀ b ∈ d.digits, isDigit b = true
  head : d.digits.head? ≠ some 0x30
  last : d.digits.getLast? ≠ some 0x30
  negative : d.negative = true → d.digits ≠ []

/-- The rational a decimal is. -/
def Decimal.value (d : Decimal) : ℚ :=
  (if d.negative then -1 else 1) *
    (Positional.fraction 10 (d.digits.map digitOf) * 10 ^ d.exponent)

theorem foldl_clamp (bytes : List UInt8) (n : ℕ)
    (h : (((bytes.map digitOf).foldl (fun n d => n * 10 + d) n : ℕ) : ℤ) < exponentClamp) :
    bytes.foldl (fun x b => min (x * 10 + ((b.toNat - 0x30 : ℕ) : ℤ)) exponentClamp) (n : ℤ) =
      ((bytes.map digitOf).foldl (fun n d => n * 10 + d) n : ℕ) := by
  have hmono (ds : List ℕ) (n : ℕ) : n ≤ ds.foldl (fun n d => n * 10 + d) n := by
    induction ds generalizing n with
    | nil => exact le_refl n
    | cons d ds ih =>
      rw [List.foldl_cons]
      have := ih (n * 10 + d)
      omega
  induction bytes generalizing n with
  | nil => rfl
  | cons b bytes ih =>
    rw [List.map_cons, List.foldl_cons] at h ⊢
    have hle := hmono (bytes.map digitOf) (n * 10 + digitOf b)
    have hmin : min ((n : ℤ) * 10 + ((b.toNat - 0x30 : ℕ) : ℤ)) exponentClamp =
        ((n * 10 + digitOf b : ℕ) : ℤ) := by
      rw [min_eq_left]
      · push_cast
        rfl
      · have : ((n * 10 + digitOf b : ℕ) : ℤ) < exponentClamp := by omega
        push_cast at this
        exact this.le
    rw [List.foldl_cons, hmin]
    exact ih _ h

theorem readExponent_eq {s : Spelling} (h : |s.exponent| < exponentClamp) :
    readExponent s.written = s.exponent := by
  have hfold : ∀ bytes : List UInt8,
      (Positional.number 10 (bytes.map digitOf) : ℤ) < exponentClamp →
      bytes.foldl (fun x b => min (x * 10 + ((b.toNat - 0x30 : ℕ) : ℤ)) exponentClamp) 0 =
        (Positional.number 10 (bytes.map digitOf) : ℕ) := by
    intro bytes hlt
    have h := foldl_clamp bytes 0 hlt
    rwa [Nat.cast_zero] at h
  unfold readExponent Spelling.exponent at *
  by_cases hminus : s.written.head? = some 0x2d
  · simp only [hminus, if_true, true_or, abs_neg, Nat.abs_cast] at h ⊢
    rw [hfold _ h]
  · simp only [hminus, if_false, Nat.abs_cast] at h ⊢
    rw [hfold _ h]

theorem fraction_drop_zeros (bytes : List UInt8) :
    Positional.fraction 10 (bytes.map digitOf) =
      Positional.fraction 10
        ((bytes.drop (bytes.takeWhile (· == 0x30)).length).map digitOf) /
        10 ^ (bytes.takeWhile (· == 0x30)).length := by
  induction bytes with
  | nil => simp
  | cons b bytes ih =>
    by_cases hb : b = 0x30
    · subst hb
      rw [List.takeWhile_cons_of_pos (by rfl), List.length_cons, List.drop_succ_cons, List.map_cons,
        Positional.fraction, ih, show digitOf 0x30 = 0 from rfl, pow_succ]
      simp only [Nat.cast_zero, zero_add, Nat.cast_ofNat]
      rw [div_div]
    · rw [List.takeWhile_cons_of_neg (by simpa using hb)]
      simp

theorem fraction_rdropWhile (bytes : List UInt8) :
    Positional.fraction 10 ((bytes.rdropWhile (· == 0x30)).map digitOf) =
      Positional.fraction 10 (bytes.map digitOf) := by
  induction bytes using List.reverseRecOn with
  | nil => rfl
  | append_singleton bytes b ih =>
    rw [List.rdropWhile_concat]
    split
    next hb =>
      have hzero : digitOf b = 0 := by
        rw [beq_iff_eq.mp hb]
        rfl
      rw [ih, List.map_append, List.map_singleton, hzero]
      exact (Positional.fraction_append_zeros (by decide) _ 1).symm
    next => rfl

theorem head?_drop_zeros (bytes : List UInt8) :
    (bytes.drop (bytes.takeWhile (· == 0x30)).length).head? ≠ some 0x30 := by
  induction bytes with
  | nil => simp
  | cons b bytes ih =>
    by_cases hb : b = 0x30
    · subst hb
      rw [List.takeWhile_cons_of_pos (by rfl), List.length_cons, List.drop_succ_cons]
      exact ih
    · rw [List.takeWhile_cons_of_neg (by simpa using hb)]
      simpa using hb

theorem getLast?_rdropWhile (bytes : List UInt8) :
    (bytes.rdropWhile (· == 0x30)).getLast? ≠ some 0x30 := by
  intro h
  have hne : bytes.rdropWhile (· == 0x30) ≠ [] := by
    intro hnil
    rw [hnil] at h
    cases h
  rw [List.getLast?_eq_some_getLast hne] at h
  exact List.rdropWhile_last_not _ _ hne (by simp [Option.some.inj h])

theorem head?_of_start {xs ys : List UInt8} (h : xs <+: ys) {b : UInt8} (hb : xs.head? = some b) :
    ys.head? = some b := by
  obtain ⟨rest, rfl⟩ := h
  cases xs with
  | nil => cases hb
  | cons x xs => exact hb

section Read

variable {bytes : List UInt8}

theorem normal_read (h : (validateJsonNumber bytes).isOk = true) : (Decimal.read bytes).Normal where
  digits b hb := by
    have hsub := List.IsPrefix.subset (List.rdropWhile_prefix (p := (· == 0x30))
      (l := (Spelling.read bytes).digits.drop
        ((Spelling.read bytes).digits.takeWhile (· == 0x30)).length))
    exact (digits_read h).1 b (List.mem_of_mem_drop (hsub hb))
  head hhead := head?_drop_zeros _ (head?_of_start (List.rdropWhile_prefix ..) hhead)
  last := getLast?_rdropWhile _
  negative hneg hnil := by
    have hsign : (Decimal.read bytes).negative =
        ((Spelling.read bytes).negative && !(Decimal.read bytes).digits.isEmpty) := rfl
    rw [hsign, hnil, List.isEmpty_nil, Bool.not_true, Bool.and_false] at hneg
    cases hneg

theorem value_read (hsmall : |(Spelling.read bytes).exponent| < exponentClamp) :
    (Decimal.read bytes).value = (Spelling.read bytes).value := by
  set s := Spelling.read bytes with hs
  set leading := (s.digits.takeWhile (· == 0x30)).length with hleading
  have hread : Decimal.read bytes =
      ⟨s.negative && !((s.digits.drop leading).rdropWhile (· == 0x30)).isEmpty,
        (s.digits.drop leading).rdropWhile (· == 0x30),
        readExponent s.written + s.whole.length - leading⟩ := rfl
  have hten : (0 : ℚ) < 10 := by norm_num
  have hfraction : Positional.fraction 10 (s.digits.map digitOf) =
      Positional.fraction 10 (((s.digits.drop leading).rdropWhile (· == 0x30)).map digitOf) /
        10 ^ leading := by
    rw [fraction_rdropWhile, ← fraction_drop_zeros]
  have hnumber : (Positional.number 10 (s.digits.map digitOf) : ℚ) *
      10 ^ (s.exponent - s.fraction.length) =
      Positional.fraction 10 (((s.digits.drop leading).rdropWhile (· == 0x30)).map digitOf) *
        10 ^ (s.exponent + s.whole.length - leading) := by
    rw [Positional.number_eq (by decide), hfraction, List.length_map]
    generalize Positional.fraction 10 _ = x
    have hlen : s.digits.length = s.whole.length + s.fraction.length := List.length_append
    calc x / 10 ^ leading * ((10 : ℕ) : ℚ) ^ s.digits.length * 10 ^ (s.exponent - s.fraction.length)
        = x * (10 ^ (-(leading : ℤ)) * 10 ^ (s.digits.length : ℤ) *
            10 ^ (s.exponent - s.fraction.length)) := by
          rw [zpow_neg, zpow_natCast, zpow_natCast, Nat.cast_ofNat]
          ring
      _ = x * 10 ^ (-(leading : ℤ) + s.digits.length + (s.exponent - s.fraction.length)) := by
          rw [zpow_add₀ hten.ne', zpow_add₀ hten.ne']
      _ = x * 10 ^ (s.exponent + s.whole.length - leading) := by
          rw [hlen]
          congr 2
          push_cast
          ring
  rw [hread, Decimal.value, Spelling.value, mul_assoc, hnumber, readExponent_eq hsmall]
  by_cases hempty : (s.digits.drop leading).rdropWhile (· == 0x30) = []
  · simp [hempty, Positional.fraction]
  · simp [hempty]

end Read

theorem digitOf_eq_zero {b : UInt8} (h : isDigit b = true) (hzero : digitOf b = 0) : b = 0x30 := by
  apply UInt8.toNat_inj.mp
  simp only [isDigit, Bool.and_eq_true, decide_eq_true_eq, UInt8.le_iff_toNat_le] at h
  have h0 : (0x30 : UInt8).toNat = 48 := rfl
  unfold digitOf at hzero
  omega

theorem compare_digitOf {x y : UInt8} (hx : isDigit x = true) (hy : isDigit y = true) :
    Ord.compare x y = Ord.compare (digitOf x) (digitOf y) := by
  simp only [isDigit, Bool.and_eq_true, decide_eq_true_eq, UInt8.le_iff_toNat_le] at hx hy
  have h0 : (0x30 : UInt8).toNat = 48 := rfl
  have hnat : Ord.compare (digitOf x) (digitOf y) = Ord.compare x.toNat y.toNat := by
    unfold digitOf
    rcases lt_trichotomy x.toNat y.toNat with h | h | h
    · rw [compare_lt_iff_lt.mpr h, compare_lt_iff_lt]
      omega
    · rw [h, compare_eq_iff_eq.mpr rfl, compare_eq_iff_eq.mpr rfl]
    · rw [compare_gt_iff_gt.mpr h, compare_gt_iff_gt]
      omega
  rw [hnat]
  change compareOfLessAndEq x y = _
  unfold compareOfLessAndEq
  rcases lt_trichotomy x.toNat y.toNat with h | h | h
  · rw [compare_lt_iff_lt.mpr h, if_pos (UInt8.lt_iff_toNat_lt.mpr h)]
  · rw [compare_eq_iff_eq.mpr h, UInt8.toNat_inj.mp h, if_neg (UInt8.lt_irrefl y), if_pos rfl]
  · have hne : x ≠ y := by
      rintro rfl
      exact lt_irrefl _ h
    have hnot : ¬ x < y := fun hlt => lt_asymm h (UInt8.lt_iff_toNat_lt.mp hlt)
    rw [compare_gt_iff_gt.mpr h, if_neg hnot, if_neg hne]

theorem compareBytes_eq_lex {xs ys : List UInt8} (hxs : ∀ b ∈ xs, isDigit b = true)
    (hys : ∀ b ∈ ys, isDigit b = true) :
    compareBytes xs ys = Positional.lex (xs.map digitOf) (ys.map digitOf) := by
  induction xs generalizing ys with
  | nil => cases ys <;> rfl
  | cons x xs ih =>
    cases ys with
    | nil => rfl
    | cons y ys =>
      rw [compareBytes, List.map_cons, List.map_cons, Positional.lex,
        compare_digitOf (hxs x List.mem_cons_self) (hys y List.mem_cons_self),
        ih (fun b hb => hxs b (List.mem_cons_of_mem _ hb)) fun b hb =>
          hys b (List.mem_cons_of_mem _ hb)]

namespace Decimal

variable {a b : Decimal}

theorem Normal.map (h : a.Normal) : (∀ d ∈ a.digits.map digitOf, d < 10) ∧
    (a.digits.map digitOf).head? ≠ some 0 ∧ (a.digits.map digitOf).getLast? ≠ some 0 := by
  refine ⟨?_, ?_, ?_⟩
  · intro d hd
    obtain ⟨b, hb, rfl⟩ := List.mem_map.mp hd
    exact digitOf_lt (h.digits b hb)
  · rw [List.head?_map]
    intro hhead
    obtain ⟨b, hb, hzero⟩ := Option.map_eq_some_iff.mp hhead
    exact h.head (digitOf_eq_zero (h.digits b (List.mem_of_mem_head? hb)) hzero ▸ hb)
  · rw [List.getLast?_map]
    intro hlast
    obtain ⟨b, hb, hzero⟩ := Option.map_eq_some_iff.mp hlast
    exact h.last (digitOf_eq_zero (h.digits b (List.mem_of_mem_getLast? hb)) hzero ▸ hb)

/-- How large a decimal is, its sign apart. -/
def magnitude (a : Decimal) : ℚ := Positional.fraction 10 (a.digits.map digitOf) * 10 ^ a.exponent

theorem value_eq (a : Decimal) : a.value = (if a.negative then -1 else 1) * a.magnitude := rfl

theorem Normal.magnitude_pos (h : a.Normal) (hne : a.digits ≠ []) : 0 < a.magnitude := by
  apply mul_pos
  · exact Positional.fraction_pos (by decide) (by simpa using hne) h.map.2.2
  · exact zpow_pos (by norm_num) _

theorem Normal.value_eq_zero_iff (h : a.Normal) : a.value = 0 ↔ a.digits = [] := by
  constructor
  · intro hzero
    by_contra hne
    have hpos := h.magnitude_pos hne
    rw [value_eq] at hzero
    cases hneg : a.negative with
    | true =>
      simp only [hneg, if_true] at hzero
      linarith
    | false =>
      simp only [hneg, Bool.false_eq_true, if_false] at hzero
      linarith
  · intro hnil
    simp [value_eq, magnitude, hnil, Positional.fraction]

theorem Normal.sign_cases (h : a.Normal) :
    a.digits = [] ∧ a.sign = 0 ∧ a.value = 0 ∨
      a.digits ≠ [] ∧ a.negative = true ∧ a.sign = -1 ∧ a.value = -a.magnitude ∧ a.value < 0 ∨
      a.digits ≠ [] ∧ a.negative = false ∧ a.sign = 1 ∧ a.value = a.magnitude ∧ 0 < a.value := by
  by_cases hnil : a.digits = []
  · exact .inl ⟨hnil, by simp [sign, hnil], h.value_eq_zero_iff.mpr hnil⟩
  · have hpos := h.magnitude_pos hnil
    cases hneg : a.negative with
    | true =>
      refine .inr (.inl ⟨hnil, rfl, by simp [sign, hnil, hneg], by simp [value_eq, hneg], ?_⟩)
      rw [value_eq, hneg, if_pos rfl]
      linarith
    | false =>
      refine .inr (.inr ⟨hnil, rfl, by simp [sign, hnil, hneg], by simp [value_eq, hneg], ?_⟩)
      rw [value_eq, hneg, if_neg Bool.false_ne_true]
      linarith

theorem compare_magnitude (ha : a.Normal) (hb : b.Normal) (hane : a.digits ≠ [])
    (hbne : b.digits ≠ []) :
    (Ord.compare a.exponent b.exponent).then (compareBytes a.digits b.digits) =
      cmp a.magnitude b.magnitude := by
  rw [compareBytes_eq_lex ha.digits hb.digits]
  exact Positional.cmp_scientific (by decide) ha.map.1 hb.map.1 ha.map.2.2 hb.map.2.2
    (by simpa using hane) (by simpa using hbne) ha.map.2.1 hb.map.2.1 _ _

theorem compare_eq_cmp (ha : a.Normal) (hb : b.Normal) : a.compare b = cmp a.value b.value := by
  have hless {x y : ℤ} (h : x < y) : Ord.compare x y = .lt := compare_lt_iff_lt.mpr h
  have hmore {x y : ℤ} (h : y < x) : Ord.compare x y = .gt := compare_gt_iff_gt.mpr h
  unfold Decimal.compare
  rcases ha.sign_cases with ⟨-, hsa, hva⟩ | ⟨hane, hna, hsa, hma, hva⟩ | ⟨hane, hna, hsa, hma, hva⟩ <;>
    rcases hb.sign_cases with
      ⟨-, hsb, hvb⟩ | ⟨hbne, -, hsb, hmb, hvb⟩ | ⟨hbne, -, hsb, hmb, hvb⟩ <;>
    simp only [hsa, hsb]
  case inl.inl => simp [hva, hvb]
  case inl.inr.inl =>
    rw [hmore (by decide), (cmp_eq_gt_iff _ _).mpr (hva ▸ hvb)]
    rfl
  case inl.inr.inr =>
    rw [hless (by decide), (cmp_eq_lt_iff _ _).mpr (hva ▸ hvb)]
    rfl
  case inr.inl.inl =>
    rw [hless (by decide), (cmp_eq_lt_iff _ _).mpr (hvb ▸ hva)]
    rfl
  case inr.inr.inl =>
    rw [hmore (by decide), (cmp_eq_gt_iff _ _).mpr (hvb ▸ hva)]
    rfl
  case inr.inl.inr.inr =>
    rw [hless (by decide), (cmp_eq_lt_iff _ _).mpr (hva.trans hvb)]
    rfl
  case inr.inr.inr.inl =>
    rw [hmore (by decide), (cmp_eq_gt_iff _ _).mpr (hvb.trans hva)]
    rfl
  case inr.inl.inr.inl =>
    simp only [compare_eq_iff_eq.mpr, ne_eq, not_true_eq_false, false_or, hna, if_true]
    rw [if_neg (by decide), compare_magnitude ha hb hane hbne, hma, hmb, cmp_swap]
    rcases lt_trichotomy a.magnitude b.magnitude with h | h | h
    · rw [(cmp_eq_gt_iff _ _).mpr h, (cmp_eq_gt_iff _ _).mpr (neg_lt_neg h)]
    · rw [h, cmp_self_eq_eq, cmp_self_eq_eq]
    · rw [(cmp_eq_lt_iff _ _).mpr h, (cmp_eq_lt_iff _ _).mpr (neg_lt_neg h)]
  case inr.inr.inr.inr =>
    simp only [compare_eq_iff_eq.mpr, ne_eq, not_true_eq_false, false_or, hna, Bool.false_eq_true,
      if_false]
    rw [if_neg (by decide), compare_magnitude ha hb hane hbne, hma, hmb]

theorem Normal.exists_int_iff (h : a.Normal) (hne : a.digits ≠ []) :
    (∃ z : ℤ, (z : ℚ) = a.value) ↔ (a.digits.length : ℤ) ≤ a.exponent := by
  have hmagnitude := Positional.exists_int_iff (by decide) (by simpa using hne) h.map.1 h.map.2.2
    a.exponent
  rw [List.length_map] at hmagnitude
  rw [← hmagnitude]
  rcases h.sign_cases with ⟨hnil, -⟩ | ⟨-, -, -, hvalue, -⟩ | ⟨-, -, -, hvalue, -⟩
  · exact absurd hnil hne
  · rw [hvalue]
    constructor
    · rintro ⟨z, hz⟩
      exact ⟨-z, by rw [Int.cast_neg, hz, neg_neg]; rfl⟩
    · rintro ⟨z, hz⟩
      exact ⟨-z, by rw [Int.cast_neg, hz]; rfl⟩
  · rw [hvalue]
    rfl

end Decimal

section Text

variable {a b : String}

theorem decimal_eq (ha : isNumber a = true) (hea : SmallExponent a) :
    ∃ d, decimal a = some d ∧ d = .read (asBytes a) ∧ d.Normal ∧ d.value = rational a :=
  ⟨_, if_pos ha, rfl, normal_read ha, value_read hea⟩

theorem compare_exact (ha : isNumber a = true) (hb : isNumber b = true) (hea : SmallExponent a)
    (heb : SmallExponent b) : compare a b = some (cmp (rational a) (rational b)) := by
  obtain ⟨d, hd, -, hnd, hvd⟩ := decimal_eq ha hea
  obtain ⟨d', hd', -, hnd', hvd'⟩ := decimal_eq hb heb
  rw [compare, hd, hd', ← hvd, ← hvd', ← Decimal.compare_eq_cmp hnd hnd']
  rfl

theorem exponent_of_zero {bytes : List UInt8} (h : (Decimal.read bytes).digits = [])
    (hsmall : |(Spelling.read bytes).exponent| < exponentClamp) :
    (Decimal.read bytes).exponent =
      (Spelling.read bytes).exponent - (Spelling.read bytes).fraction.length := by
  set s := Spelling.read bytes with hs
  set leading := (s.digits.takeWhile (· == 0x30)).length with hleading
  have hdigits : (s.digits.drop leading).rdropWhile (· == 0x30) = [] := h
  have hexponent : (Decimal.read bytes).exponent =
      readExponent s.written + s.whole.length - leading := rfl
  have hall : ∀ b ∈ s.digits.drop leading, (b == 0x30) = true := List.rdropWhile_eq_nil_iff.mp hdigits
  have hnil : s.digits.drop leading = [] := by
    cases hdrop : s.digits.drop leading with
    | nil => rfl
    | cons b rest =>
      have hb := hall b (by rw [hdrop]; exact List.mem_cons_self)
      have hhead := head?_drop_zeros s.digits
      rw [← hleading, hdrop] at hhead
      exact absurd (congrArg some (beq_iff_eq.mp hb)) hhead
  have hle : leading ≤ s.digits.length := (List.takeWhile_prefix _).length_le
  have hge := List.drop_eq_nil_iff.mp hnil
  have hlen : s.digits.length = s.whole.length + s.fraction.length := List.length_append
  rw [hexponent, readExponent_eq hsmall]
  omega

theorem isWhole_iff (ha : isNumber a = true) (hea : SmallExponent a) :
    (isWhole a = true ↔ ∃ z : ℤ, (z : ℚ) = rational a) ↔
      rational a ≠ 0 ∨ ((Spelling.read (asBytes a)).fraction.length : ℤ) ≤
        (Spelling.read (asBytes a)).exponent := by
  obtain ⟨d, hd, hread, hnormal, hvalue⟩ := decimal_eq ha hea
  have hwhole : isWhole a = true ↔ (d.digits.length : ℤ) ≤ d.exponent := by
    simp [isWhole, hd]
  rw [hwhole, ← hvalue]
  by_cases hne : d.digits = []
  · have hzero : d.value = 0 := hnormal.value_eq_zero_iff.mpr hne
    have hint : ∃ z : ℤ, (z : ℚ) = d.value := ⟨0, by rw [hzero, Int.cast_zero]⟩
    have hexponent := exponent_of_zero (hread ▸ hne) hea
    rw [← hread] at hexponent
    rw [iff_true_right hint, hexponent, hne, List.length_nil, Nat.cast_zero, hzero]
    simp only [ne_eq, not_true_eq_false, false_or]
    omega
  · have hnonzero : d.value ≠ 0 := fun h => hne (hnormal.value_eq_zero_iff.mp h)
    exact iff_of_true (hnormal.exists_int_iff hne).symm (.inl hnonzero)

/-- The keys a number's bounds are under. -/
def boundKeys : List String :=
  [Vocab.minimum, Vocab.maximum, Vocab.exclusiveMinimum, Vocab.exclusiveMaximum]

/-- A rational is within every bound a schema states. -/
structure Bounded (schema : Value) (q : ℚ) : Prop where
  min : ∀ t, numberUnder Vocab.minimum schema = some t → rational t ≤ q
  max : ∀ t, numberUnder Vocab.maximum schema = some t → q ≤ rational t
  exclusiveMin : ∀ t, numberUnder Vocab.exclusiveMinimum schema = some t → rational t < q
  exclusiveMax : ∀ t, numberUnder Vocab.exclusiveMaximum schema = some t → q < rational t

/-- The bounds a schema states have small exponents. -/
def SmallBounds (schema : Value) : Prop :=
  ∀ key ∈ boundKeys, ∀ t, numberUnder key schema = some t → SmallExponent t

theorem isNumber_of_numberUnder {key t : String} {schema : Value}
    (h : numberUnder key schema = some t) : isNumber t = true := by
  obtain ⟨v, -, hv⟩ := Option.bind_eq_some_iff.mp h
  unfold asNumber at hv
  split at hv
  next n =>
    cases hv
    exact n.valid
  next => cases hv

theorem meets_iff {key : String} {schema : Value} {ok : Ordering → Bool} (ha : isNumber a = true)
    (hea : SmallExponent a) (hsmall : ∀ t, numberUnder key schema = some t → SmallExponent t) :
    meets a (numberUnder key schema) ok = true ↔
      ∀ t, numberUnder key schema = some t → ok (cmp (rational a) (rational t)) = true := by
  cases hbound : numberUnder key schema with
  | none => simp [meets]
  | some t =>
    have hcompare := compare_exact ha (isNumber_of_numberUnder hbound) hea (hsmall t hbound)
    simp [meets, hcompare]

theorem admitText_iff {schema : Value} (ha : isNumber a = true) (hea : SmallExponent a)
    (hschema : SmallBounds schema) :
    (Bounds.read schema).admitText a = true ↔ Bounded schema (rational a) := by
  have hmeets (key : String) (hkey : key ∈ boundKeys) (ok : Ordering → Bool) :=
    @meets_iff _ _ _ ok ha hea (hschema key hkey)
  have hge (p q : ℚ) : (cmp p q).isGE = true ↔ q ≤ p := by
    rcases lt_trichotomy p q with h | rfl | h
    · simp [(cmp_eq_lt_iff _ _).mpr h, h]
    · simp [cmp_self_eq_eq]
    · simp [(cmp_eq_gt_iff _ _).mpr h, h.le]
  have hle (p q : ℚ) : (cmp p q).isLE = true ↔ p ≤ q := by
    rcases lt_trichotomy p q with h | rfl | h
    · simp [(cmp_eq_lt_iff _ _).mpr h, h.le]
    · simp [cmp_self_eq_eq]
    · simp [(cmp_eq_gt_iff _ _).mpr h, h]
  have hgt (p q : ℚ) : (cmp p q).isGT = true ↔ q < p := by
    rcases lt_trichotomy p q with h | rfl | h
    · simp [(cmp_eq_lt_iff _ _).mpr h, h.le]
    · simp [cmp_self_eq_eq]
    · simp [(cmp_eq_gt_iff _ _).mpr h, h]
  have hlt (p q : ℚ) : (cmp p q).isLT = true ↔ p < q := by
    rcases lt_trichotomy p q with h | rfl | h
    · simp [(cmp_eq_lt_iff _ _).mpr h, h]
    · simp [cmp_self_eq_eq]
    · simp [(cmp_eq_gt_iff _ _).mpr h, h.le]
  simp only [Bounds.admitText, Bounds.read, Bool.and_eq_true,
    hmeets Vocab.minimum (by simp [boundKeys]), hmeets Vocab.maximum (by simp [boundKeys]),
    hmeets Vocab.exclusiveMinimum (by simp [boundKeys]),
    hmeets Vocab.exclusiveMaximum (by simp [boundKeys]), hge, hle, hgt, hlt]
  constructor
  · rintro ⟨⟨⟨h1, h2⟩, h3⟩, h4⟩
    exact ⟨h1, h2, h3, h4⟩
  · rintro ⟨h1, h2, h3, h4⟩
    exact ⟨⟨⟨h1, h2⟩, h3⟩, h4⟩

/-- Numbers are compared exactly, and told whole exactly, unless one is a zero written with a place
past its point. -/
theorem numbers_exact_iff {schema : Value} (ha : isNumber a = true) (hb : isNumber b = true)
    (hea : SmallExponent a) (heb : SmallExponent b) (hschema : SmallBounds schema) :
    (compare a b = some (cmp (rational a) (rational b)) ∧
        (isWhole a = true ↔ ∃ z : ℤ, (z : ℚ) = rational a) ∧
        ((Bounds.read schema).admitText a = true ↔ Bounded schema (rational a))) ↔
      rational a ≠ 0 ∨ ((Spelling.read (asBytes a)).fraction.length : ℤ) ≤
        (Spelling.read (asBytes a)).exponent := by
  rw [and_iff_right (compare_exact ha hb hea heb), and_iff_left (admitText_iff ha hea hschema)]
  exact isWhole_iff ha hea

/-- A schema of the numbers that are not negative. -/
def notNegative : Value := .map [(Vocab.minimum, .number ⟨"0", by decide⟩)]

/-- A hundred written with an exponent. -/
theorem numbers_exact_hundred :
    (compare "1e2" "99.5" = some (cmp (rational "1e2") (rational "99.5")) ∧
        (isWhole "1e2" = true ↔ ∃ z : ℤ, (z : ℚ) = rational "1e2") ∧
        ((Bounds.read notNegative).admitText "1e2" = true ↔
          Bounded notNegative (rational "1e2"))) ↔
      rational "1e2" ≠ 0 ∨ ((Spelling.read (asBytes "1e2")).fraction.length : ℤ) ≤
        (Spelling.read (asBytes "1e2")).exponent := by
  apply numbers_exact_iff (by decide) (by decide)
  · exact (by decide +kernel : |(Spelling.read (asBytes "1e2")).exponent| < exponentClamp)
  · exact (by decide +kernel : |(Spelling.read (asBytes "99.5")).exponent| < exponentClamp)
  · intro key hkey t ht
    have hzero : |(Spelling.read (asBytes "0")).exponent| < exponentClamp := by decide +kernel
    simp only [boundKeys, List.mem_cons, List.not_mem_nil, or_false] at hkey
    rcases hkey with rfl | rfl | rfl | rfl
    · cases ht
      exact hzero
    · cases ht
    · cases ht
    · cases ht

/-- Zero written with a place past its point is whole, and is not told so. -/
theorem not_isWhole_zero : isNumber "0.0" = true ∧
    |(Spelling.read (asBytes "0.0")).exponent| < exponentClamp ∧
    ¬ (isWhole "0.0" = true ↔ ∃ z : ℤ, (z : ℚ) = rational "0.0") := by
  refine ⟨by decide, by decide +kernel, fun h => ?_⟩
  have hzero : rational "0.0" = 0 := by decide +kernel
  have hwhole := h.mpr ⟨0, by rw [hzero, Int.cast_zero]⟩
  revert hwhole
  decide

end Text

end Guatiao.Schema
