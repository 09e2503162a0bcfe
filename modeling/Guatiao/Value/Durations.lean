import Mathlib
import Guatiao.Lib.Checked
import Guatiao.Schema.Rational
import Guatiao.Value.Convert

/-!
# An exact length of time

A duration is whole seconds and nanoseconds below one. It is read from the two of them, in a list or
under their names, or from a number of seconds, exactly: digits are shifted to the nanosecond and
counted, and what is finer or does not fit is refused.
-/

namespace Guatiao

open Lib Schema

/-- Before the first that passes, and after it. -/
def splitOnce {α : Type} (p : α → Bool) (l : List α) : Option (List α × List α) :=
  (l.findIdx? p).map fun at_ => (l.take at_, l.drop (at_ + 1))

/-- A part of a text, parsed. -/
def parsePart {α : Type} (parse : String → Option α) (bytes : List UInt8) : Option α :=
  (fromUtf8 bytes).bind parse

/-- Ten times over, so many times, in a `u128`. -/
def tenfold (nanos : ℕ) : ℕ → Option ℕ
  | 0 => some nanos
  | times + 1 => (unsigned 128 (nanos * 10)).toOption.bind fun nanos => tenfold nanos times

/-- The mantissa and the exponent. -/
def mantissaOf (rest : List UInt8) : Option (List UInt8 × ℤ) :=
  match splitOnce isExponentLetter rest with
  | some (mantissa, written) => (parsePart (parseSigned 64) written).map fun e => (mantissa, e)
  | none => some (rest, 0)

/-- Digits without their zeros at the ends, as seconds and nanoseconds: they are shifted to the
nanosecond. -/
def shifted (exponent : ℤ) (fraction digits trimmed : List UInt8) : Option (UInt64 × UInt32) := do
  let shift ← (i64 (exponent - lowSigned 64 fraction.length)).toOption
  let shift ← (i64 (shift + 9)).toOption
  let shift ← (i64 (shift + lowSigned 64 (digits.length - trimmed.length))).toOption
  if shift < 0 then none
  else
    let nanos ← parsePart (parseUnsigned 128) trimmed
    let nanos ← tenfold nanos shift.toNat
    let secs ← (u64 (nanos / 1000000000)).toOption
    some (.ofNat secs, .ofNat (nanos % 1000000000))

/-- `seconds_of` -/
def secondsOf (text : String) : Option (UInt64 × UInt32) := do
  let bytes := asBytes text
  let negative := bytes.head? == some 0x2d
  let rest := if negative then bytes.tail else bytes
  let (mantissa, exponent) ← mantissaOf rest
  let (whole, fraction) := (splitOnce (· == 0x2e) mantissa).getD (mantissa, [])
  let digits := (whole ++ fraction).dropWhile (· == 0x30)
  let trimmed := digits.rdropWhile (· == 0x30)
  if trimmed.isEmpty then some (0, 0)
  else if negative then none
  else shifted exponent fraction digits trimmed

/-- A length of time. -/
structure Duration where
  secs : UInt64
  nanos : UInt32
  /-- The nanoseconds are below a second. -/
  subsec : nanos.toNat < 1000000000

namespace Duration

/-- What a refused duration was expected to be. -/
def DURATION : String :=
  "a duration: [seconds, nanoseconds], a non-negative number of seconds no finer than a nanosecond, " ++
    "or \x7b\"secs\", \"nanos\"\x7d"

/-- The seconds and the nanoseconds a value spells. -/
def parts : Value → Except MapError (UInt64 × UInt32)
  | .list [secs, nanos] => do
    let secs ← (IntType.fromValue .u64 secs).mapError (MapError.at_ 0)
    let nanos ← (IntType.fromValue .u32 nanos).mapError (MapError.at_ 1)
    return (.ofNat secs.toNat, .ofNat nanos.toNat)
  | .map entries => do
    let read key := ((Value.map entries).get key).elim (.error (MapError.missingKey key)) .ok
    let secs ← (IntType.fromValue .u64 (← read "secs")).mapError (MapError.under "secs")
    let nanos ← (IntType.fromValue .u32 (← read "nanos")).mapError (MapError.under "nanos")
    return (.ofNat secs.toNat, .ofNat nanos.toNat)
  | .number n => (secondsOf n.text).elim (.error (.bad DURATION)) .ok
  | _ => .error (.bad DURATION)

/-- `Duration::from_value` -/
def fromValue (v : Value) : Except MapError Duration := do
  let (secs, nanos) ← parts v
  if h : nanos.toNat < 1000000000 then return ⟨secs, nanos, h⟩
  else .error (MapError.at_ 1 (.bad "nanoseconds below 1000000000"))

/-- The rational number of seconds a duration is. -/
def seconds (d : Duration) : ℚ := d.secs.toNat + d.nanos.toNat / 1000000000

end Duration

theorem splitOnce_eq {α : Type} (p : α → Bool) (l : List α) :
    splitOnce p l = if l.any p then
      some (l.takeWhile (fun x => !p x), (l.dropWhile fun x => !p x).tail) else none := by
  induction l with
  | nil => rfl
  | cons x l ih =>
    unfold splitOnce at ih ⊢
    rw [List.findIdx?_cons]
    cases hx : p x with
    | true => simp [hx]
    | false =>
      cases hat : l.findIdx? p with
      | none =>
        rw [hat] at ih
        simp only [Option.map_none] at ih
        have hany : l.any p = false := by
          by_contra hany
          rw [if_pos (Bool.not_eq_false _ ▸ hany)] at ih
          cases ih
        simp [hx, hany]
      | some at_ =>
        rw [hat] at ih
        have hany : l.any p = true := by
          by_contra hany
          rw [if_neg hany] at ih
          cases ih
        rw [if_pos hany, Option.map_some, Option.some.injEq, Prod.mk.injEq] at ih
        simp [hx, hany, ih.1, ih.2]

theorem number_foldl (ds : List UInt8) :
    ds.foldl (fun n (b : UInt8) => n * 10 + (b.toNat - 0x30)) 0 =
      Positional.number 10 (ds.map digitOf) := by
  rw [Positional.number, List.foldl_map]
  rfl

variable {ds sign : List UInt8} {n : ℕ}

theorem digitsValue_of_digits (hne : ds ≠ []) (hall : ∀ b ∈ ds, isDigit b = true) :
    digitsValue ds = some (Positional.number 10 (ds.map digitOf)) := by
  have hdigits : (ds.isEmpty || !ds.all isDigit) = false := by
    rw [Bool.or_eq_false_iff, List.isEmpty_eq_false_iff, Bool.not_eq_false', List.all_eq_true]
    exact ⟨hne, hall⟩
  rw [digitsValue, hdigits, number_foldl]
  rfl

theorem toNat_of_isDigit {b : UInt8} (h : isDigit b = true) : 48 ≤ b.toNat ∧ b.toNat ≤ 57 := by
  simpa [isDigit, UInt8.le_iff_toNat_le] using h

theorem parsePart_digits {α : Type} (parse : String → Option α)
    (hsign : IsSign sign) (hall : ∀ b ∈ ds, isDigit b = true) :
    ∃ text, asBytes text = sign ++ ds ∧ parsePart parse (sign ++ ds) = parse text := by
  have hascii : ∀ b ∈ sign ++ ds, b.toNat < 128 := by
    intro b hb
    rcases List.mem_append.mp hb with hb | hb
    · rcases hsign with rfl | rfl | rfl
      · cases hb
      · rw [List.mem_singleton.mp hb]
        decide
      · rw [List.mem_singleton.mp hb]
        decide
    · have := toNat_of_isDigit (hall b hb)
      omega
  obtain ⟨text, hutf8, hbytes⟩ := fromUtf8_of_ascii hascii
  exact ⟨text, hbytes, by rw [parsePart, hutf8, Option.bind_some]⟩

theorem parsePart_unsigned (bits : ℕ) (hne : ds ≠ [])
    (hall : ∀ b ∈ ds, isDigit b = true) : parsePart (parseUnsigned bits) ds =
      if Positional.number 10 (ds.map digitOf) < 2 ^ bits then
        some (Positional.number 10 (ds.map digitOf)) else none := by
  obtain ⟨text, hbytes, hparse⟩ := parsePart_digits (parseUnsigned bits) (.inl rfl) hall
  rw [List.nil_append] at hbytes hparse
  have hplus : ds.head? ≠ some 0x2b := by
    intro hhead
    have := toNat_of_isDigit (hall _ (List.mem_of_mem_head? hhead))
    simp at this
  rw [hparse, parseUnsigned, hbytes]
  simp only [if_neg hplus, digitsValue_of_digits hne hall, Option.filter_some, decide_eq_true_eq]

theorem ne_sign {d : UInt8} (h : isDigit d = true) : d ≠ 0x2d ∧ d ≠ 0x2b := by
  have hd := toNat_of_isDigit h
  constructor <;> rintro rfl <;> simp at hd

theorem exponent_eq {s : Spelling} (hsign : IsSign sign)
    (hall : ∀ b ∈ ds, isDigit b = true) (hwritten : s.written = sign ++ ds) :
    s.exponent = if sign = [0x2d] then -(Positional.number 10 (ds.map digitOf) : ℤ)
      else Positional.number 10 (ds.map digitOf) := by
  unfold Spelling.exponent
  rw [hwritten]
  rcases hsign with rfl | rfl | rfl
  · cases ds with
    | nil => rfl
    | cons d ds =>
      obtain ⟨hminus, hplus⟩ := ne_sign (hall d List.mem_cons_self)
      simp [hminus, hplus]
  · simp
  · simp

theorem parseSigned_eq {bits : ℕ} {text : String} (hsign : IsSign sign)
    (hall : ∀ b ∈ ds, isDigit b = true) (hbytes : asBytes text = sign ++ ds)
    (hvalue : digitsValue ds = some n) (hfits : n < 2 ^ (bits - 1) ∨ sign = [0x2d] ∧ n ≤ 2 ^ (bits - 1)) :
    parseSigned bits text = some (if sign = [0x2d] then -(n : ℤ) else n) := by
  rw [parseSigned, hbytes]
  rcases hsign with rfl | rfl | rfl
  · cases ds with
    | nil => cases hvalue
    | cons d ds =>
      obtain ⟨hminus, hplus⟩ := ne_sign (hall d List.mem_cons_self)
      have hlt : n < 2 ^ (bits - 1) := by simpa using hfits
      simp [hminus, hplus, hvalue, Option.filter_some, hlt]
  · have hle : n ≤ 2 ^ (bits - 1) := by
      rcases hfits with h | ⟨-, h⟩
      · exact h.le
      · exact h
    simp [hvalue, Option.filter_some, hle]
  · have hlt : n < 2 ^ (bits - 1) := by simpa using hfits
    simp [hvalue, Option.filter_some, hlt]

theorem parsePart_exponent {s : Spelling} (hsign : IsSign sign)
    (hne : ds ≠ []) (hall : ∀ b ∈ ds, isDigit b = true) (hwritten : s.written = sign ++ ds)
    (hlo : -2 ^ 63 ≤ s.exponent) (hhi : s.exponent < 2 ^ 63) :
    parsePart (parseSigned 64) s.written = some s.exponent := by
  obtain ⟨text, hbytes, hparse⟩ := parsePart_digits (parseSigned 64) hsign hall
  have hexponent := exponent_eq hsign hall hwritten
  rw [hwritten, hparse, hexponent]
  refine parseSigned_eq hsign hall hbytes (digitsValue_of_digits hne hall) ?_
  by_cases hminus : sign = [0x2d]
  · rw [if_pos hminus] at hexponent
    exact .inr ⟨hminus, by omega⟩
  · rw [if_neg hminus] at hexponent
    exact .inl (by omega)

theorem number_dropWhile (bytes : List UInt8) :
    Positional.number 10 ((bytes.dropWhile (· == 0x30)).map digitOf) =
      Positional.number 10 (bytes.map digitOf) := by
  induction bytes with
  | nil => rfl
  | cons b bytes ih =>
    by_cases hb : b = 0x30
    · subst hb
      rw [List.dropWhile_cons_of_pos (by rfl), ih, List.map_cons, Positional.number,
        Positional.number, List.foldl_cons, show digitOf 0x30 = 0 from rfl]
    · rw [List.dropWhile_cons_of_neg (by simpa using hb)]

theorem number_rdropWhile (bytes : List UInt8) :
    Positional.number 10 (bytes.map digitOf) =
      Positional.number 10 ((bytes.rdropWhile (· == 0x30)).map digitOf) *
        10 ^ (bytes.length - (bytes.rdropWhile (· == 0x30)).length) := by
  induction bytes using List.reverseRecOn with
  | nil => rfl
  | append_singleton bytes b ih =>
    rw [List.rdropWhile_concat]
    split
    next hb =>
      have hle : (bytes.rdropWhile (· == 0x30)).length ≤ bytes.length :=
        (List.rdropWhile_prefix _ bytes).length_le
      have hlen : (bytes ++ [b]).length - (bytes.rdropWhile (· == 0x30)).length =
          bytes.length - (bytes.rdropWhile (· == 0x30)).length + 1 := by
        rw [List.length_append, List.length_singleton]
        omega
      have hzero : digitOf b = 0 := by
        rw [beq_iff_eq.mp hb]
        rfl
      rw [List.map_append, List.map_singleton, hzero, Positional.number_append, ih, hlen, pow_succ]
      ring
    next => simp

theorem not_dvd_number (hne : ds ≠ []) (hall : ∀ b ∈ ds, isDigit b = true)
    (hlast : ds.getLast? ≠ some 0x30) : ¬ 10 ∣ Positional.number 10 (ds.map digitOf) := by
  cases ds using List.reverseRecOn with
  | nil => exact absurd rfl hne
  | append_singleton ds b _ =>
    have hb : isDigit b = true := hall b (by simp)
    have hnonzero : digitOf b ≠ 0 := fun h => hlast (by simp [digitOf_eq_zero hb h])
    have hlt := digitOf_lt hb
    rw [List.map_append, List.map_singleton, Positional.number_append]
    omega

theorem tenfold_eq {nanos : ℕ} (hpos : 0 < nanos) (hlt : nanos < 2 ^ 128) (times : ℕ) :
    tenfold nanos times = if nanos * 10 ^ times < 2 ^ 128 then some (nanos * 10 ^ times) else none := by
  induction times generalizing nanos with
  | zero => rw [tenfold, pow_zero, Nat.mul_one, if_pos hlt]
  | succ times ih =>
    have hpow : nanos * 10 ^ (times + 1) = nanos * 10 * 10 ^ times := by
      rw [pow_succ]
      ring
    rw [tenfold, unsigned, hpow]
    by_cases hten : nanos * 10 < 2 ^ 128
    · rw [if_pos hten]
      exact ih (by omega) hten
    · have hle : nanos * 10 ≤ nanos * 10 * 10 ^ times := Nat.le_mul_of_pos_right _ (by positivity)
      rw [if_neg hten, if_neg (by omega)]
      rfl

theorem mantissaOf_eq {bytes : List UInt8} (hok : (validateJsonNumber bytes).isOk = true)
    (hlo : -2 ^ 63 ≤ (Spelling.read bytes).exponent) (hhi : (Spelling.read bytes).exponent < 2 ^ 63) :
    mantissaOf (afterSign bytes) =
      some ((afterSign bytes).takeWhile fun b => !isExponentLetter b,
        (Spelling.read bytes).exponent) := by
  have hwritten : (Spelling.read bytes).written =
      ((afterSign bytes).dropWhile fun b => !isExponentLetter b).tail := rfl
  rw [mantissaOf, splitOnce_eq]
  rcases (read_of_validate hok).2 with hnone | ⟨sign, ds, hsign, hne, hall, hparts⟩
  · have hany : (afterSign bytes).any isExponentLetter = false := by
      rw [List.any_eq_false]
      intro b hb
      rw [hnone b hb]
      exact Bool.false_ne_true
    have hall : ∀ b ∈ afterSign bytes, (!isExponentLetter b) = true := by
      intro b hb
      rw [hnone b hb]
      rfl
    have htake : (afterSign bytes).takeWhile (fun b => !isExponentLetter b) = afterSign bytes :=
      List.takeWhile_eq_self_iff.mpr hall
    have hdrop : (afterSign bytes).dropWhile (fun b => !isExponentLetter b) = [] :=
      List.dropWhile_eq_nil_iff.mpr hall
    rw [hdrop] at hwritten
    have hzero : (Spelling.read bytes).exponent = 0 := by
      rw [Spelling.exponent, hwritten]
      rfl
    rw [hany, htake, hzero]
    rfl
  · have hany : (afterSign bytes).any isExponentLetter = true := by
      by_contra hany
      have hdrop : (afterSign bytes).dropWhile (fun b => !isExponentLetter b) = [] := by
        rw [List.dropWhile_eq_nil_iff]
        intro b hb
        simp only [Bool.not_eq_true, List.any_eq_false] at hany
        simpa using hany b hb
      rw [hdrop] at hwritten
      rw [hwritten] at hparts
      exact hne (List.append_eq_nil_iff.mp hparts.symm).2
    have hparse := parsePart_exponent hsign hne hall hparts hlo hhi
    rw [hany, if_pos rfl]
    simp only [← hwritten, hparse, Option.map_some]

theorem splitOnce_getD {α : Type} (p : α → Bool) (l : List α) :
    (splitOnce p l).getD (l, []) =
      (l.takeWhile fun x => !p x, (l.dropWhile fun x => !p x).tail) := by
  rw [splitOnce_eq]
  split
  next => rfl
  next hany =>
    have hall : ∀ x ∈ l, (!p x) = true := by
      intro x hx
      simp only [List.any_eq_true, not_exists, not_and] at hany
      simpa using hany x hx
    rw [List.takeWhile_eq_self_iff.mpr hall, List.dropWhile_eq_nil_iff.mpr hall]
    rfl

namespace Schema.Spelling

/-- The digits behind the zeros at the front. -/
def stripped (s : Spelling) : List UInt8 := s.digits.dropWhile (· == 0x30)

/-- The digits between the zeros at the ends. -/
def trimmed (s : Spelling) : List UInt8 := s.stripped.rdropWhile (· == 0x30)

end Schema.Spelling

variable {text : String}

theorem secondsOf_eq (hnum : isNumber text = true)
    (hlo : -2 ^ 63 ≤ (Spelling.read (asBytes text)).exponent)
    (hhi : (Spelling.read (asBytes text)).exponent < 2 ^ 63) :
    secondsOf text = let s := Spelling.read (asBytes text)
      if s.trimmed.isEmpty then some (0, 0)
      else if s.negative then none
      else shifted s.exponent s.fraction s.stripped s.trimmed := by
  have hmantissa := mantissaOf_eq hnum hlo hhi
  unfold afterSign at hmantissa
  unfold secondsOf
  dsimp only
  rw [hmantissa]
  simp only [Option.bind_eq_bind, Option.bind_some, splitOnce_getD]
  rfl

theorem toOption_i64 (x : ℤ) :
    (i64 x).toOption = if -2 ^ 63 ≤ x ∧ x < 2 ^ 63 then some x else none := by
  rw [i64, signed]
  split <;> rfl

theorem toOption_u64 (n : ℕ) : (u64 n).toOption = if n < 2 ^ 64 then some n else none := by
  rw [u64, unsigned]
  split <;> rfl

theorem lowSigned_of_lt {x : ℤ} (h0 : 0 ≤ x) (h : x < 2 ^ 63) : lowSigned 64 x = x := by
  unfold lowSigned
  omega

theorem lt_mul_pow {shift : ℤ} (hpos : 0 < n) (hshift : 2 ^ 63 ≤ shift) :
    2 ^ 64 * 1000000000 ≤ n * 10 ^ shift.toNat := by
  have hthirty : 30 ≤ shift.toNat := by omega
  calc 2 ^ 64 * 1000000000 ≤ 10 ^ 30 := by norm_num
    _ ≤ 10 ^ shift.toNat := Nat.pow_le_pow_right (by decide) hthirty
    _ ≤ n * 10 ^ shift.toNat := Nat.le_mul_of_pos_left _ hpos

/-- Digits shifted to the nanosecond are counted, where they are whole and fit. -/
theorem shifted_eq {exponent shift : ℤ} {fraction digits trimmed : List UInt8}
    (hne : trimmed ≠ []) (hall : ∀ b ∈ trimmed, isDigit b = true)
    (hn : Positional.number 10 (trimmed.map digitOf) = n) (hpos : 0 < n)
    (hshift : exponent - fraction.length + 9 + (digits.length - trimmed.length) = shift)
    (hlo : -2 ^ 63 ≤ exponent) (hhi : exponent < 2 ^ 63) (hfraction : fraction.length < 2 ^ 63)
    (hle : trimmed.length ≤ digits.length) (hdigits : digits.length + 8 ≤ 2 ^ 63) :
    shifted exponent fraction digits trimmed =
      if 0 ≤ shift ∧ n * 10 ^ shift.toNat < 2 ^ 64 * 1000000000 then
        some (.ofNat (n * 10 ^ shift.toNat / 1000000000),
          .ofNat (n * 10 ^ shift.toNat % 1000000000))
      else none := by
  have hlen := List.length_pos_iff.mpr hne
  have hf : lowSigned 64 fraction.length = fraction.length :=
    lowSigned_of_lt (by omega) (by omega)
  have ht : lowSigned 64 ((digits.length : ℤ) - trimmed.length) = digits.length - trimmed.length :=
    lowSigned_of_lt (by omega) (by omega)
  have hlarge (h : 2 ^ 63 ≤ shift) :
      ¬ (0 ≤ shift ∧ n * 10 ^ shift.toNat < 2 ^ 64 * 1000000000) := by
    rintro ⟨-, hlt⟩
    exact absurd (lt_mul_pow hpos h) (Nat.not_le.mpr hlt)
  rw [shifted, hf, ht]
  simp only [toOption_i64, Option.bind_eq_bind]
  -- A step that passes the bottom leaves no room for the zeros to bring it back.
  by_cases ha : -2 ^ 63 ≤ exponent - fraction.length
  case neg =>
    rw [if_neg (fun h => ha h.1), if_neg (fun h => absurd h.1 (by omega))]
    rfl
  rw [if_pos ⟨ha, by omega⟩, Option.bind_some]
  by_cases hb : exponent - fraction.length + 9 < 2 ^ 63
  case neg =>
    rw [if_neg (fun h => hb h.2), if_neg (hlarge (by omega))]
    rfl
  rw [if_pos ⟨by omega, hb⟩, Option.bind_some, hshift]
  by_cases hc : shift < 2 ^ 63
  case neg =>
    rw [if_neg (fun h => hc h.2), if_neg (hlarge (by omega))]
    rfl
  rw [if_pos ⟨by omega, hc⟩, Option.bind_some]
  by_cases hneg : shift < 0
  · rw [if_pos hneg, if_neg (fun h => absurd h.1 (by omega))]
  rw [if_neg hneg, parsePart_unsigned 128 hne hall, hn]
  have hself : n ≤ n * 10 ^ shift.toNat := Nat.le_mul_of_pos_right _ (by positivity)
  have hroom : 2 ^ 64 * 1000000000 ≤ 2 ^ 128 := by norm_num
  by_cases hparse : n < 2 ^ 128
  case neg =>
    rw [if_neg hparse, if_neg (fun h => hparse (by omega))]
    rfl
  rw [if_pos hparse, Option.bind_some, tenfold_eq hpos hparse]
  generalize n * 10 ^ shift.toNat = m at *
  by_cases hfits : m < 2 ^ 128
  case neg =>
    rw [if_neg hfits, if_neg (fun h => hfits (by omega))]
    rfl
  rw [if_pos hfits, Option.bind_some, toOption_u64]
  by_cases hsecs : m < 2 ^ 64 * 1000000000
  · rw [if_pos ((Nat.div_lt_iff_lt_mul (by decide)).mpr hsecs), if_pos ⟨by omega, hsecs⟩]
    rfl
  · rw [if_neg (fun h => hsecs ((Nat.div_lt_iff_lt_mul (by decide)).mp h)), if_neg (fun h => hsecs h.2)]
    rfl

namespace Schema.Spelling

/-- The place of the digits between the zeros, from the nanosecond. -/
def place (s : Spelling) : ℤ :=
  s.exponent - s.fraction.length + 9 + (s.stripped.length - s.trimmed.length)

theorem trimmed_length_le (s : Spelling) : s.trimmed.length ≤ s.stripped.length :=
  (List.rdropWhile_prefix _ s.stripped).length_le

theorem value_nanos (s : Spelling) : s.value * 1000000000 =
    (if s.negative then -1 else 1) *
      (Positional.number 10 (s.trimmed.map digitOf) * 10 ^ s.place) := by
  have hten : (10 : ℚ) ≠ 0 := by norm_num
  have hle := s.trimmed_length_le
  have hnumber : Positional.number 10 (s.digits.map digitOf) =
      Positional.number 10 (s.trimmed.map digitOf) * 10 ^ (s.stripped.length - s.trimmed.length) := by
    rw [← number_dropWhile s.digits]
    exact number_rdropWhile s.stripped
  have hplace : (10 : ℚ) ^ (s.stripped.length - s.trimmed.length) *
      10 ^ (s.exponent - s.fraction.length) * 1000000000 = 10 ^ s.place := by
    have hsub : ((s.stripped.length - s.trimmed.length : ℕ) : ℤ) =
        s.stripped.length - s.trimmed.length := by omega
    have hnine : (1000000000 : ℚ) = 10 ^ (9 : ℤ) := by norm_num
    rw [hnine, ← zpow_natCast, hsub, ← zpow_add₀ hten, ← zpow_add₀ hten, place]
    congr 1
    ring
  rw [value, hnumber, ← hplace]
  push_cast
  ring

end Schema.Spelling

theorem place_of_whole {m : ℕ} {place : ℤ} (hten : ¬ 10 ∣ n)
    (h : (n : ℚ) * 10 ^ place = m) : 0 ≤ place := by
  by_contra hneg
  obtain ⟨k, hk⟩ : ∃ k : ℕ, place = -((k : ℤ) + 1) := ⟨(-place - 1).toNat, by omega⟩
  have hpow : (10 : ℚ) ^ (k + 1) ≠ 0 := by positivity
  have hmul : (n : ℚ) = m * 10 ^ (k + 1) := by
    rw [← h, hk, zpow_neg, ← Nat.cast_succ, zpow_natCast]
    field_simp
  have hnat : n = m * 10 ^ (k + 1) := by exact_mod_cast hmul
  exact hten (hnat ▸ (dvd_pow_self 10 (Nat.succ_ne_zero k)).mul_left m)

/-- A text that leaves room for the copy of its digits: two of `isize::MAX` bytes fill the address
space. -/
def Addressable (text : String) : Prop := (asBytes text).length + 8 ≤ 2 ^ 63

/-- The exponent of a text is an `i64`. -/
def FitsI64 (text : String) : Prop :=
  -2 ^ 63 ≤ (Spelling.read (asBytes text)).exponent ∧ (Spelling.read (asBytes text)).exponent < 2 ^ 63

namespace Schema.Spelling

theorem digits_length_le (bytes : List UInt8) : (read bytes).digits.length ≤ bytes.length := by
  have hrest : (afterSign bytes).length ≤ bytes.length := by
    unfold afterSign
    split <;> simp
  have hmantissa : ((afterSign bytes).takeWhile fun b => !isExponentLetter b).length ≤
      (afterSign bytes).length := (List.takeWhile_prefix _).length_le
  have hsplit := congrArg List.length
    (((afterSign bytes).takeWhile fun b => !isExponentLetter b).takeWhile_append_dropWhile
      (p := (· != 0x2e)))
  rw [List.length_append] at hsplit
  calc (read bytes).digits.length
      = (((afterSign bytes).takeWhile fun b => !isExponentLetter b).takeWhile (· != 0x2e)).length +
          (((afterSign bytes).takeWhile fun b => !isExponentLetter b).dropWhile (· != 0x2e)).tail.length :=
        List.length_append
    _ ≤ bytes.length := by
      rw [List.length_tail]
      omega

theorem stripped_length_le (s : Spelling) : s.stripped.length ≤ s.digits.length :=
  (List.dropWhile_suffix _).length_le

theorem mem_digits_of_mem_trimmed {s : Spelling} {b : UInt8} (h : b ∈ s.trimmed) : b ∈ s.digits :=
  (List.dropWhile_suffix _).subset ((List.rdropWhile_prefix _ s.stripped).subset h)

end Schema.Spelling

/-- A number of seconds is its nanoseconds, counted, or no count that fits. -/
theorem secondsOf_cases (hnum : isNumber text = true) (hexp : FitsI64 text)
    (hlen : Addressable text) :
    (∃ m : ℕ, m < 2 ^ 64 * 1000000000 ∧ rational text * 1000000000 = m ∧
        secondsOf text = some (.ofNat (m / 1000000000), .ofNat (m % 1000000000))) ∨
      (∀ m : ℕ, rational text * 1000000000 = m → 2 ^ 64 * 1000000000 ≤ m) ∧
        secondsOf text = none := by
  have hanswer := secondsOf_eq hnum hexp.1 hexp.2
  unfold FitsI64 at hexp
  have hnanos := (Spelling.read (asBytes text)).value_nanos
  have hdigits := (digits_read hnum).1
  have hbytes := Spelling.digits_length_le (asBytes text)
  unfold Addressable at hlen
  rw [rational]
  generalize Spelling.read (asBytes text) = s at *
  have hall : ∀ b ∈ s.trimmed, isDigit b = true := fun b hb =>
    hdigits b (Spelling.mem_digits_of_mem_trimmed hb)
  have hstripped := s.stripped_length_le
  have hfraction : s.fraction.length ≤ s.digits.length := by
    rw [Spelling.digits, List.length_append]
    exact Nat.le_add_left _ _
  rw [hanswer]
  dsimp only
  by_cases hne : s.trimmed = []
  · refine .inl ⟨0, by norm_num, ?_, by rw [hne]; rfl⟩
    rw [hnanos, hne]
    simp [Positional.number]
  have hten : ¬ 10 ∣ Positional.number 10 (s.trimmed.map digitOf) :=
    not_dvd_number hne hall (getLast?_rdropWhile _)
  generalize hn : Positional.number 10 (s.trimmed.map digitOf) = n at *
  have hpos : 0 < n := Nat.pos_of_ne_zero fun h => hten (h ▸ dvd_zero 10)
  have hscaled : (0 : ℚ) < n * 10 ^ s.place := by positivity
  rw [List.isEmpty_eq_false_iff.mpr hne, if_neg Bool.false_ne_true]
  cases hneg : s.negative with
  | true =>
    refine .inr ⟨fun m hm => ?_, rfl⟩
    rw [hnanos, hneg, if_pos rfl] at hm
    have hm0 : (0 : ℚ) ≤ m := Nat.cast_nonneg m
    linarith
  | false =>
    rw [hneg, if_neg Bool.false_ne_true, one_mul] at hnanos
    rw [if_neg Bool.false_ne_true, shifted_eq hne hall hn hpos rfl hexp.1 hexp.2 (by omega)
      s.trimmed_length_le (by omega), ← Spelling.place, hnanos]
    have hcount (h0 : 0 ≤ s.place) : (n : ℚ) * 10 ^ s.place = (n * 10 ^ s.place.toNat : ℕ) := by
      rw [← Int.toNat_of_nonneg h0, zpow_natCast]
      push_cast
      rfl
    split
    next h => exact .inl ⟨_, h.2, hcount h.1, rfl⟩
    next h =>
      refine .inr ⟨fun m hm => ?_, rfl⟩
      have h0 := place_of_whole hten hm
      rw [hcount h0, Nat.cast_inj] at hm
      exact hm ▸ Nat.not_lt.mp fun hlt => h ⟨h0, hlt⟩

theorem split_nanos {q : ℚ} {m : ℕ} {secs : UInt64} {nanos : UInt32}
    (hlt : m < 2 ^ 64 * 1000000000) (hm : q * 1000000000 = m) :
    (UInt64.ofNat (m / 1000000000), UInt32.ofNat (m % 1000000000)) = (secs, nanos) ↔
      nanos.toNat < 1000000000 ∧ q = secs.toNat + nanos.toNat / 1000000000 := by
  have hsecs : (UInt64.ofNat (m / 1000000000)).toNat = m / 1000000000 :=
    UInt64.toNat_ofNat_of_lt' ((Nat.div_lt_iff_lt_mul (by decide)).mpr hlt)
  have hnanos : (UInt32.ofNat (m % 1000000000)).toNat = m % 1000000000 :=
    UInt32.toNat_ofNat_of_lt' ((Nat.mod_lt m (by decide)).trans (by decide))
  have hsame : q = secs.toNat + nanos.toNat / 1000000000 ↔
      m = secs.toNat * 1000000000 + nanos.toNat := by
    rw [← @Nat.cast_inj ℚ, ← hm]
    push_cast
    constructor
    · rintro rfl
      ring
    · intro h
      linarith
  rw [Prod.mk.injEq, ← UInt64.toNat_inj, ← UInt32.toNat_inj, hsecs, hnanos, hsame]
  constructor
  · rintro ⟨h1, h2⟩
    omega
  · rintro ⟨h1, h2⟩
    omega

/-- A number of seconds is read as the seconds and nanoseconds it makes exactly, where it makes some
that fit, and is refused elsewhere; the duration read from it is the same length. -/
theorem secondsOf_exact (n : Number) (hexp : FitsI64 n.text) (hlen : Addressable n.text) :
    (∀ secs nanos, secondsOf n.text = some (secs, nanos) ↔ nanos.toNat < 1000000000 ∧
        rational n.text = secs.toNat + nanos.toNat / 1000000000) ∧
      (secondsOf n.text = none ↔ ¬ (0 ≤ rational n.text ∧
        (∃ k : ℤ, (k : ℚ) = rational n.text * 1000000000) ∧ rational n.text < 2 ^ 64)) ∧
      ∀ d, Duration.fromValue (.number n) = .ok d → d.seconds = rational n.text := by
  have hall : ∀ secs nanos, secondsOf n.text = some (secs, nanos) ↔ nanos.toNat < 1000000000 ∧
      rational n.text = secs.toNat + nanos.toNat / 1000000000 := by
    intro secs nanos
    rcases secondsOf_cases n.valid hexp hlen with ⟨m, hlt, hm, hread⟩ | ⟨hnone, hread⟩
    · rw [hread, Option.some.injEq, split_nanos hlt hm]
    · rw [hread]
      refine iff_of_false (by simp) ?_
      rintro ⟨hsub, heq⟩
      have hm := hnone (secs.toNat * 1000000000 + nanos.toNat) (by rw [heq]; push_cast; ring)
      have hsecs := secs.toNat_lt
      omega
  refine ⟨hall, ?_, ?_⟩
  · rcases secondsOf_cases n.valid hexp hlen with ⟨m, hlt, hm, hread⟩ | ⟨hnone, hread⟩
    · rw [hread]
      refine iff_of_false (by simp) (not_not.mpr ⟨?_, ⟨m, by rw [hm]; rfl⟩, ?_⟩)
      · have hm0 : (0 : ℚ) ≤ m := Nat.cast_nonneg m
        linarith
      · have hltq : (m : ℚ) < 2 ^ 64 * 1000000000 := by exact_mod_cast hlt
        linarith
    · refine iff_of_true hread ?_
      rintro ⟨h0, ⟨k, hk⟩, hlt⟩
      have hk0 : 0 ≤ k := by
        have : (0 : ℚ) ≤ k := by
          rw [hk]
          positivity
        exact_mod_cast this
      obtain ⟨m, rfl⟩ := Int.eq_ofNat_of_zero_le hk0
      have hge := hnone m (by rw [← hk]; rfl)
      have hgeq : (2 : ℚ) ^ 64 * 1000000000 ≤ m := by exact_mod_cast hge
      rw [Int.cast_natCast] at hk
      linarith
  · intro d hd
    cases hread : secondsOf n.text with
    | none =>
      simp only [Duration.fromValue, Duration.parts, hread, Option.elim_none] at hd
      cases hd
    | some parts =>
      obtain ⟨secs, nanos⟩ := parts
      have hsub := (hall secs nanos).mp hread
      simp only [Duration.fromValue, Duration.parts, hread, Option.elim_some] at hd
      change (if h : nanos.toNat < 1000000000 then
        Except.ok (⟨secs, nanos, h⟩ : Duration) else _) = Except.ok d at hd
      rw [dif_pos hsub.1] at hd
      cases hd
      exact hsub.2.symm

/-- Twenty-five tenths of a millisecond. -/
theorem secondsOf_exact_millis :
    (∀ secs nanos, secondsOf "2.50e-3" = some (secs, nanos) ↔ nanos.toNat < 1000000000 ∧
        rational "2.50e-3" = secs.toNat + nanos.toNat / 1000000000) ∧
      (secondsOf "2.50e-3" = none ↔ ¬ (0 ≤ rational "2.50e-3" ∧
        (∃ k : ℤ, (k : ℚ) = rational "2.50e-3" * 1000000000) ∧ rational "2.50e-3" < 2 ^ 64)) ∧
      ∀ d, Duration.fromValue (.number ⟨"2.50e-3", by decide⟩) = .ok d →
        d.seconds = rational "2.50e-3" := by
  refine secondsOf_exact ⟨"2.50e-3", by decide⟩ ⟨?_, ?_⟩ ?_
  · exact (by decide +kernel : -2 ^ 63 ≤ (Spelling.read (asBytes "2.50e-3")).exponent)
  · exact (by decide +kernel : (Spelling.read (asBytes "2.50e-3")).exponent < 2 ^ 63)
  · exact (by decide +kernel : (asBytes "2.50e-3").length + 8 ≤ 2 ^ 63)

end Guatiao
