import Guatiao.Lib.Checked
import Guatiao.Lib.Cursor
import Guatiao.Lib.Decimals
import Guatiao.Value.Tree
import Mathlib.Data.List.DropRight

/-!
# Spans of calendar units

A span counts each unit on its own, with one sign for the whole. The builders clamp to what an `i64`
holds, carry the nanoseconds past a second into the seconds, and leave zero without a sign.
-/

/-!
## What the readers of times and spans share

Both read bytes at a cursor, refuse at the byte they stopped at, and write a fraction of a second
with as few digits as it needs.
-/

namespace Guatiao.Civil

open Lib

/-- Nanoseconds in a second. -/
def nanosPerSecond : ℕ := 1000000000

/-- A byte of ASCII. -/
def ascii (c : Char) : UInt8 := UInt8.ofNat c.toNat

/-- A refusal at the cursor. -/
def refuse {X : Type} (c : Cursor UInt8) (expected : String) : Except ValueError X :=
  .error (.unparsed c.pos expected)

/-- The cursor so many bytes on. -/
def skip (c : Cursor UInt8) (n : ℕ) : Cursor UInt8 := ⟨c.rest.drop n, c.pos + n⟩

/-- `.` and the nanoseconds with trailing zeros removed, or nothing for 0. -/
def writeFraction (nanos : ℕ) : List UInt8 :=
  if nanos = 0 then [] else ascii '.' :: (padded 9 nanos).rdropWhile (· == ascii '0')

/-- What may follow digits: no digit. -/
def NoDigit (tail : List UInt8) : Prop := ∀ b, tail.head? = some b → asciiDigit b = false

theorem noDigit_nil : NoDigit [] := nofun

theorem noDigit_cons {b : UInt8} (h : asciiDigit b = false) (rest : List UInt8) :
    NoDigit (b :: rest) := by
  intro b' hb'
  cases hb'
  exact h

theorem writeFraction_digits {nanos : ℕ} (hpos : nanos ≠ 0) (hlt : nanos < nanosPerSecond) :
    ∃ fs, writeFraction nanos = ascii '.' :: fs ∧ fs ≠ [] ∧ fs.length ≤ 9 ∧
      (∀ b ∈ fs, asciiDigit b = true) ∧ valueOf fs * 10 ^ (9 - fs.length) = nanos := by
  have hpadded : padded 9 nanos = fixed 9 nanos := padded_eq_fixed (by omega) hlt
  have hvalue := valueOf_fixed (show nanos < 10 ^ 9 from hlt)
  obtain ⟨fs, hfs⟩ : ∃ fs, fs = (fixed 9 nanos).rdropWhile (· == ascii '0') := ⟨_, rfl⟩
  obtain ⟨zeros, hzeros, happend⟩ : ∃ zeros, (∀ b ∈ zeros, b = 48) ∧ fs ++ zeros = fixed 9 nanos := by
    rw [hfs]
    refine ⟨_, fun b hb => ?_, List.rdropWhile_append_rtakeWhile⟩
    have hzero := List.mem_rtakeWhile_imp hb
    exact eq_of_beq hzero
  have hzeros' : zeros = List.replicate zeros.length 48 := List.eq_replicate_of_mem hzeros
  have hlen : fs.length + zeros.length = 9 := by
    rw [← List.length_append, happend, length_fixed]
  rw [← happend, valueOf_append, hzeros', valueOf_replicate_zero, List.length_replicate,
    add_zero] at hvalue
  refine ⟨fs, ?_, ?_, by omega, ?_, ?_⟩
  · rw [writeFraction, if_neg hpos, hpadded, ← hfs]
  · rintro rfl
    rw [show valueOf [] = 0 from rfl, Nat.zero_mul] at hvalue
    exact hpos hvalue.symm
  · intro b hb
    apply all_fixed 9 nanos
    rw [← happend]
    exact List.mem_append_left _ hb
  · rw [show 9 - fs.length = zeros.length by omega]
    exact hvalue

end Guatiao.Civil

namespace Guatiao.Civil

open Lib

/-- The units, in the order they are written. -/
inductive Part
  | years | months | weeks | days | hours | minutes | seconds | nanos
  deriving DecidableEq, Repr

/-- A part's place among the units. -/
def Part.at_ : Part → ℕ
  | .years => 0
  | .months => 1
  | .weeks => 2
  | .days => 3
  | .hours => 4
  | .minutes => 5
  | .seconds => 6
  | .nanos => 7

/-- Every part. -/
def Part.all : List Part := [.years, .months, .weeks, .days, .hours, .minutes, .seconds, .nanos]

/-- `i64::MAX`. -/
def i64Max : ℕ := 9223372036854775807

/-- A length of time in calendar units: each unit's magnitude, and the sign of the whole. -/
@[ext] structure Span where
  units : Part → ℕ
  negative : Bool

namespace Span

/-- Whether every unit is zero. -/
def isZero (s : Span) : Bool := Part.all.all fun p => s.units p == 0

/-- Zero has no sign. -/
def normalised (s : Span) : Span := if s.isZero then { s with negative := false } else s

/-- The zero span. -/
def new : Span := ⟨fun _ => 0, false⟩

/-- The span with one unit set, and the whole span's sign where the unit is not zero. -/
def with_ (s : Span) (at_ : Part) (n : ℤ) : Span :=
  normalised
    { units := Function.update s.units at_ (min n.natAbs i64Max)
      negative := if n ≠ 0 then decide (n < 0) else s.negative }

/-- A unit, carrying the span's sign. -/
def signed (s : Span) (at_ : Part) : Except Overflow ℤ :=
  let magnitude := lowSigned 64 (s.units at_)
  if s.negative then i64 (-magnitude) else pure magnitude

/-- The span with its nanoseconds set, a second's worth or more carried into the seconds. -/
def nanoseconds (s : Span) (n : ℤ) : Span :=
  let magnitude := min n.natAbs i64Max
  let out := s.with_ .nanos 0
  let carried := min (out.units .seconds + magnitude / nanosPerSecond) (2 ^ 64 - 1)
  let units := Function.update out.units .seconds (min carried i64Max)
  normalised
    { units := Function.update units .nanos (magnitude % nanosPerSecond)
      negative := if n ≠ 0 then decide (n < 0) else out.negative }

/-- The span running forwards. -/
def abs (s : Span) : Span := { s with negative := false }

/-- The span with its sign turned over. -/
def negate (s : Span) : Span := normalised { s with negative := !s.negative }

/-- A span from its parts: magnitudes and a sign. -/
def fromParts (units : Part → ℕ) (negative : Bool) : Span := normalised ⟨units, negative⟩

end Span

/-- A `Duration`: whole seconds, and the nanoseconds below one. -/
@[ext] structure Duration where
  secs : ℕ
  subsecNanos : ℕ
  secs_lt : secs < 2 ^ 64
  subsec_lt : subsecNanos < nanosPerSecond

/-- The units of a duration: hours, minutes and seconds, the nanoseconds below them. -/
def durationUnits (d : Duration) : Part → ℕ
  | .hours => d.secs / 3600
  | .minutes => d.secs % 3600 / 60
  | .seconds => d.secs % 60
  | .nanos => d.subsecNanos
  | _ => 0

/-- A duration as a span. -/
def Span.ofDuration (d : Duration) : Span := .fromParts (durationUnits d) false

/-- A total in a `u64`, when it fits. -/
def fitsU64 (n : ℕ) : Option ℕ := if n < 2 ^ 64 then some n else none

/-- The seconds of a span's exact units, when a `u64` holds them and all that comes on the way. -/
def exactSeconds (units : Part → ℕ) : Option ℕ :=
  [(units .weeks, 7 * 86400), (units .days, 86400), (units .hours, 3600), (units .minutes, 60),
      (units .seconds, 1)].foldlM
    (fun total (n, per) => do
      let product ← fitsU64 (n * per)
      fitsU64 (total + product)) 0

/-- A duration from its seconds and nanoseconds, a second's worth of nanoseconds carried. -/
def Duration.new (secs nanos : ℕ) : Option Duration :=
  if h : secs + nanos / nanosPerSecond < 2 ^ 64 then
    some ⟨secs + nanos / nanosPerSecond, nanos % nanosPerSecond, h, Nat.mod_lt _ (by decide)⟩
  else none

/-- A span as a duration, where it has no years or months and does not run backwards. -/
def Span.toDuration (s : Span) : Option Duration :=
  if s.negative || s.units .years != 0 || s.units .months != 0 then none
  else do
    let secs ← exactSeconds s.units
    Duration.new secs (lowBits 32 (s.units .nanos))

namespace Span

/-- Every magnitude fits an `i64`, the nanoseconds are below a second, and zero has no sign. -/
structure Kept (s : Span) : Prop where
  fits : ∀ p, s.units p ≤ i64Max
  nanos : s.units .nanos < nanosPerSecond
  sign : s.negative = true → s.isZero = false

variable {s : Span}

theorem isZero_iff : s.isZero = true ↔ ∀ p, s.units p = 0 := by
  simp only [isZero, Part.all, List.all_cons, List.all_nil, Bool.and_true, Bool.and_eq_true, beq_iff_eq]
  constructor
  · rintro ⟨h0, h1, h2, h3, h4, h5, h6, h7⟩ p
    cases p <;> assumption
  · intro h
    exact ⟨h _, h _, h _, h _, h _, h _, h _, h _⟩

@[simp] theorem normalised_units (s : Span) : s.normalised.units = s.units := by
  unfold normalised
  split <;> rfl

theorem kept_normalised (hfits : ∀ p, s.units p ≤ i64Max)
    (hnanos : s.units .nanos < nanosPerSecond) : s.normalised.Kept := by
  refine ⟨by simpa using hfits, by simpa using hnanos, fun hsign => ?_⟩
  unfold normalised at hsign ⊢
  split at hsign
  · cases hsign
  · rename_i hzero
    rw [if_neg hzero]
    simpa using hzero

theorem kept_new : new.Kept := ⟨fun _ => Nat.zero_le _, by decide, by decide⟩

theorem Kept.with_ (h : s.Kept) {at_ : Part} (hat : at_ ≠ .nanos) (n : ℤ) : (s.with_ at_ n).Kept := by
  apply kept_normalised
  · intro p
    dsimp only
    by_cases hp : p = at_
    · rw [hp, Function.update_self]
      exact min_le_right _ _
    · rw [Function.update_of_ne hp]
      exact h.fits p
  · dsimp only
    rw [Function.update_of_ne hat.symm]
    exact h.nanos

theorem Kept.nanoseconds (h : s.Kept) (n : ℤ) : (s.nanoseconds n).Kept := by
  apply kept_normalised
  · intro p
    dsimp only
    by_cases hn : p = .nanos
    · rw [hn, Function.update_self]
      exact (Nat.mod_le _ _).trans (min_le_right _ _)
    · rw [Function.update_of_ne hn]
      by_cases hs : p = .seconds
      · rw [hs, Function.update_self]
        exact min_le_right _ _
      · rw [Function.update_of_ne hs]
        simp only [Span.with_, normalised_units, Function.update_of_ne hn]
        exact h.fits p
  · dsimp only
    rw [Function.update_self]
    exact Nat.mod_lt _ (by decide)

theorem Kept.abs (h : s.Kept) : s.abs.Kept := ⟨h.fits, h.nanos, fun hsign => by cases hsign⟩

theorem Kept.negate (h : s.Kept) : s.negate.Kept := kept_normalised h.fits h.nanos

theorem kept_ofDuration (d : Duration) : (ofDuration d).Kept := by
  have hsecs := d.secs_lt
  have hnanos := d.subsec_lt
  apply kept_normalised
  · unfold nanosPerSecond at hnanos
    intro p
    cases p <;> simp only [durationUnits, i64Max] <;> omega
  · exact hnanos

end Span

theorem fitsU64_eq {n : ℕ} (h : n < 2 ^ 64) : fitsU64 n = some n := if_pos h

theorem toDuration_ofDuration (d : Duration) : (Span.ofDuration d).toDuration = some d := by
  have hsecs := d.secs_lt
  have hnanos := d.subsec_lt
  have hunits : (Span.ofDuration d).units = durationUnits d := Span.normalised_units _
  have hsign : (Span.ofDuration d).negative = false := by
    unfold Span.ofDuration Span.fromParts Span.normalised
    split <;> rfl
  have hexact : exactSeconds (durationUnits d) = some d.secs := by
    simp only [exactSeconds, durationUnits, List.foldlM_cons, List.foldlM_nil, zero_mul,
      fitsU64_eq (show 0 < 2 ^ 64 by decide), Option.bind_eq_bind, Option.bind_some, zero_add]
    rw [fitsU64_eq (by omega), Option.bind_some, fitsU64_eq (by omega), Option.bind_some,
      fitsU64_eq (by omega), Option.bind_some, fitsU64_eq (by omega), Option.bind_some,
      fitsU64_eq (by omega), Option.bind_some, fitsU64_eq (by omega), Option.bind_some]
    simp only [Option.pure_def, Option.some.injEq]
    omega
  have hlow : lowBits 32 (d.subsecNanos : ℤ) = d.subsecNanos := by
    apply lowBits_eq
    unfold nanosPerSecond at hnanos
    omega
  unfold Span.toDuration
  rw [hunits, hsign]
  simp only [durationUnits, bne_self_eq_false, Bool.or_false, Bool.false_eq_true, if_false]
  rw [hexact]
  simp only [Option.bind_eq_bind, Option.bind_some, hlow, Duration.new,
    Nat.div_eq_of_lt hnanos, Nat.mod_eq_of_lt hnanos, add_zero, hsecs, dite_true]

end Guatiao.Civil

/-!
## The text of a span

A span is written as an ISO 8601 duration and read from one, or from the friendly form: numbers and
units in any order. A refusal names the byte it stopped at and what it expected there.
-/

namespace Guatiao.Civil

open Lib

/-- The cursor behind any spaces. -/
def skipSpaces (c : Cursor UInt8) : Cursor UInt8 :=
  skip c (c.rest.takeWhile (· == ascii ' ')).length

/-- `b.to_ascii_uppercase()`. -/
def upper (b : UInt8) : UInt8 := if ascii 'a' ≤ b && b ≤ ascii 'z' then b - 32 else b

/-- The whole part of a number, with what was read of it. -/
def wholeFrom (start : Cursor UInt8) (whole : ℕ) : List UInt8 → ℕ → Except ValueError (ℕ × Cursor UInt8)
  | [], pos => .ok (whole, ⟨[], pos⟩)
  | b :: rest, pos =>
    if asciiDigit b then
      match ((fitsU64 (whole * 10)).bind fun w => fitsU64 (w + byteDigit b)).filter (· ≤ i64Max) with
      | some w => wholeFrom start w rest (pos + 1)
      | none => refuse start "a number no greater than 9223372036854775807"
    else .ok (whole, ⟨b :: rest, pos⟩)

/-- The digits after a `.`, with how many were read and what they came to. -/
def fractionFrom (count nanos : ℕ) : List UInt8 → ℕ →
    Except ValueError ((ℕ × ℕ) × Cursor UInt8)
  | [], pos => .ok ((count, nanos), ⟨[], pos⟩)
  | b :: rest, pos =>
    if asciiDigit b then
      if count = 9 then refuse ⟨b :: rest, pos⟩ "no more than nine fractional digits"
      else fractionFrom (count + 1) (nanos * 10 + byteDigit b) rest (pos + 1)
    else .ok ((count, nanos), ⟨b :: rest, pos⟩)

/-- Decimal digits, at most `i64::MAX`, and an optional `.` with one to nine more: the whole, the
nanoseconds, and whether there was a fraction. -/
def number (c : Cursor UInt8) : Except ValueError ((ℕ × ℕ × Bool) × Cursor UInt8) := do
  let (whole, c') ← wholeFrom c 0 c.rest c.pos
  if c'.pos = c.pos then refuse c' "a number"
  else if c'.rest.head? != some (ascii '.') then pure ((whole, 0, false), c')
  else
    let from_ := skip c' 1
    let ((n, nanos), c'') ← fractionFrom 0 0 from_.rest from_.pos
    if n = 0 then refuse c'' "a digit after the '.'"
    else pure ((whole, nanos * 10 ^ (9 - n), true), c'')

/-- The unit of a designator before the `T`. -/
def dateUnit (b : Option UInt8) : Option Part :=
  if b = some (ascii 'Y') then some .years
  else if b = some (ascii 'M') then some .months
  else if b = some (ascii 'W') then some .weeks
  else if b = some (ascii 'D') then some .days
  else none

/-- The unit of a designator behind the `T`. -/
def timeUnit (b : Option UInt8) : Option Part :=
  if b = some (ascii 'H') then some .hours
  else if b = some (ascii 'M') then some .minutes
  else if b = some (ascii 'S') then some .seconds
  else none

/-- The loop over the date units. Every turn reads a byte or more, so as many turns as there are
bytes are enough. -/
def isoDate : ℕ → ℕ → (Part → ℕ) → Bool → Cursor UInt8 →
    Except ValueError (((Part → ℕ) × Bool) × Cursor UInt8)
  | 0, _, units, any, c => .ok ((units, any), c)
  | turns + 1, next, units, any, c =>
    if c.rest.head?.any asciiDigit then do
      let ((n, _, fraction), c') ← number c
      if fraction then refuse c "a whole number: only the seconds take a fraction"
      else
        match dateUnit (c'.rest.head?.map upper) with
        | none => refuse c' "Y, M, W or D, or T before a time"
        | some at_ =>
          if at_.at_ < next then refuse c' "the date units in the order Y, M, W, D, each once"
          else isoDate turns (at_.at_ + 1) (Function.update units at_ n) true (skip c' 1)
    else .ok ((units, any), c)

/-- The loop over the time units, to the end of the text. -/
def isoTime : ℕ → ℕ → (Part → ℕ) → Bool → Cursor UInt8 →
    Except ValueError (((Part → ℕ) × Bool) × Cursor UInt8)
  | 0, _, units, timed, c => .ok ((units, timed), c)
  | turns + 1, next, units, timed, c =>
    if c.rest ≠ [] then do
      let ((n, nanos, fraction), c') ← number c
      match timeUnit (c'.rest.head?.map upper) with
      | none => refuse c' "H, M or S"
      | some at_ =>
        if at_.at_ < next then refuse c' "the time units in the order H, M, S, each once"
        else if fraction && at_ != .seconds then
          refuse c "a whole number: only the seconds take a fraction"
        else
          let units := Function.update units at_ n
          let units := if at_ = .seconds then Function.update units .nanos nanos else units
          isoTime turns (at_.at_ + 1) units true (skip c' 1)
    else .ok ((units, timed), c)

/-- An ISO 8601 duration, after the `P`. -/
def iso (c : Cursor UInt8) : Except ValueError (Part → ℕ) := do
  let ((units, any), c) ← isoDate c.rest.length 0 (fun _ => 0) false c
  let ((units, any), c) ←
    (if c.rest.head? = some (ascii 'T') ∨ c.rest.head? = some (ascii 't') then do
      let c := skip c 1
      let ((units, timed), c) ← isoTime c.rest.length Part.hours.at_ units false c
      if !timed then refuse c "a time unit after T"
      else pure ((units, true), c)
    else pure ((units, any), c))
  if c.rest ≠ [] then refuse c "nothing after the last unit"
  else if !any then refuse c "at least one unit"
  else pure units

/-- The friendly units: each spelling with its slot, the nanoseconds of one of it where it is part of
a second, and how many bytes spell it. -/
def friendlyUnits : List (List UInt8 × ℕ × ℕ × ℕ) :=
  [([ascii 'y'], 0, 0, 1),
    ([ascii 'm', ascii 'o'], 1, 0, 2),
    ([ascii 'w'], 2, 0, 1),
    ([ascii 'd'], 3, 0, 1),
    ([ascii 'h'], 4, 0, 1),
    ([ascii 'm'], 5, 0, 1),
    ([ascii 'm', ascii 'i', ascii 'n'], 5, 0, 3),
    ([ascii 's'], 6, 0, 1),
    ([ascii 'm', ascii 's'], 7, 1000000, 2),
    ([ascii 'u', ascii 's'], 8, 1000, 2),
    -- the micro sign, in UTF-8
    ([0xC2, 0xB5, ascii 's'], 8, 1000, 3),
    ([ascii 'n', ascii 's'], 9, 1, 2)]

/-- The friendly unit some letters spell. -/
def friendlyUnit (letters : List UInt8) : Option (ℕ × ℕ × ℕ) := friendlyUnits.lookup letters

/-- Whether a byte can stand in a unit. -/
def isLetter (b : UInt8) : Bool :=
  (ascii 'a' ≤ b && b ≤ ascii 'z') || (ascii 'A' ≤ b && b ≤ ascii 'Z') || 0x80 ≤ b

/-- The part a slot of a whole unit is. -/
def slotPart (slot : ℕ) : Part := Part.all.getD slot .nanos

/-- One token's number, put into its slot, or gathered into the seconds and nanoseconds. The sums
stay far below what a `u64` holds. -/
def place (units : Part → ℕ) (slot nanosPer n nanos : ℕ) : Option (Part → ℕ) :=
  if slot ≤ 6 then
    let units := Function.update units (slotPart slot) n
    some (if slot = 6 then Function.update units .nanos (units .nanos + nanos) else units)
  else
    (fitsU64 (n * nanosPer)).map fun total =>
      let units := Function.update units .nanos (units .nanos + total % nanosPerSecond)
      Function.update units .seconds (units .seconds + total / nanosPerSecond)

/-- The loop over the friendly tokens, to the end of the text. -/
def friendlyFrom : ℕ → (Part → ℕ) → (ℕ → Bool) → Cursor UInt8 → Except ValueError (Part → ℕ)
  | 0, units, _, _ => .ok units
  | turns + 1, units, seen, c =>
    if c.rest ≠ [] then do
      let ((n, nanos, fraction), c') ← number c
      match friendlyUnit (c'.rest.takeWhile isLetter) with
      | none => refuse c' "a unit: y, mo, w, d, h, m, min, s, ms, us or ns"
      | some (slot, nanosPer, len) =>
        if fraction && slot != 6 then refuse c "a whole number: only seconds take a fraction"
        else if seen slot then refuse c' "each unit once"
        else
          match place units slot nanosPer n nanos with
          | none => refuse c "a part of a second no larger than a u64 of nanoseconds"
          | some units =>
            friendlyFrom turns units (Function.update seen slot true) (skipSpaces (skip c' len))
    else .ok units

/-- `1y 2mo 3w 4d 5h 6m 7s 500ms 1us 1ns`. -/
def friendly (c : Cursor UInt8) : Except ValueError (Part → ℕ) := do
  let c := skipSpaces c
  if c.rest = [] then refuse c "a number and a unit, such as 1h or PT1H"
  else
    let units ← friendlyFrom c.rest.length (fun _ => 0) (fun _ => false) c
    let units := Function.update units .seconds (units .seconds + units .nanos / nanosPerSecond)
    let units := Function.update units .nanos (units .nanos % nanosPerSecond)
    if i64Max < units .seconds then
      .error (.unparsed 0 "seconds no greater than 9223372036854775807")
    else pure units

namespace Span

/-- Whether a text is of a span that runs backwards, and the cursor behind the sign. -/
def signOf (text : List UInt8) : Bool × Cursor UInt8 :=
  let c := Cursor.start text
  let negative := c.rest.head? == some (ascii '-')
  let c := if negative then skip c 1 else c
  -- `+` belongs to the ISO form only
  if !negative && c.rest.head? == some (ascii '+') &&
      (text[1]? == some (ascii 'P') || text[1]? == some (ascii 'p')) then (negative, skip c 1)
  else (negative, c)

/-- A span read from its text, in either form. -/
def parse (text : List UInt8) : Except ValueError Span := do
  let (negative, c) := signOf text
  let units ←
    (if c.rest.head? = some (ascii 'P') ∨ c.rest.head? = some (ascii 'p') then iso (skip c 1)
    else friendly c)
  pure (fromParts units negative)

/-- A non-zero unit and its designator. -/
def unitText (u : Part → ℕ) : Part × UInt8 → List UInt8
  | (at_, designator) => if u at_ = 0 then [] else decimal (u at_) ++ [designator]

/-- The units before the `T`, with their designators. -/
def dateUnits : List (Part × UInt8) :=
  [(.years, ascii 'Y'), (.months, ascii 'M'), (.weeks, ascii 'W'), (.days, ascii 'D')]

/-- The whole units behind the `T`, with their designators. -/
def timeUnits : List (Part × UInt8) := [(.hours, ascii 'H'), (.minutes, ascii 'M')]

/-- The seconds, with as few fractional digits as the nanoseconds need. -/
def secondsText (u : Part → ℕ) : List UInt8 :=
  if u .seconds = 0 ∧ u .nanos = 0 then []
  else decimal (u .seconds) ++ writeFraction (u .nanos) ++ [ascii 'S']

/-- The canonical ISO 8601 text. -/
def display (s : Span) : List UInt8 :=
  (if s.negative then [ascii '-'] else []) ++ ascii 'P' ::
    if s.isZero then [ascii 'T', ascii '0', ascii 'S']
    else
      dateUnits.flatMap (unitText s.units) ++
        if [Part.hours, .minutes, .seconds, .nanos].any (fun p => s.units p != 0) then
          ascii 'T' :: (timeUnits.flatMap (unitText s.units) ++ secondsText s.units)
        else []

end Span

end Guatiao.Civil
