import Mathlib.Algebra.Ring.Int.Defs
import Mathlib.Algebra.Ring.Nat
import Mathlib.Data.List.DropRight
import Guatiao.Schema.Read

/-!
# Numbers compared as they are written

A bound is the text that declared it, and a number is compared with it exactly: no width, no
rounding. Only a step that is not whole, and two short numbers spelled differently, are asked of
binary floating point, whose arithmetic is a parameter here.
-/

namespace Guatiao.Schema

/-- The arithmetic of `f64`. -/
structure Doubles where
  F : Type
  /-- The number a text spells, for the texts that spell one. -/
  parse : String → Option F
  isFinite : F → Bool
  equal : F → F → Bool
  lt : F → F → Bool
  le : F → F → Bool
  div : F → F → F
  mul : F → F → F
  sub : F → F → F
  max : F → F → F
  abs : F → F
  /-- The nearest whole number, half away from zero. -/
  round : F → F
  /-- What is left of the point. -/
  fract : F → F
  /-- A literal. -/
  ofNat : ℕ → F
  /-- The distance from one to the next number. -/
  epsilon : F
  /-- The whole number of a number that is one, as `i128`. -/
  toInt : F → ℤ
  /-- The text a message spells a number with. -/
  display : F → String

/-- The digits' value, when every byte is a digit and there is one. -/
def digitsValue (bytes : List UInt8) : Option ℕ :=
  if bytes.isEmpty || !bytes.all isDigit then none
  else some (bytes.foldl (fun n b => n * 10 + (b.toNat - 0x30)) 0)

/-- A text as an unsigned integer of so many bits. -/
def parseUnsigned (bits : ℕ) (text : String) : Option ℕ :=
  let bytes := asBytes text
  let digits := if bytes.head? = some 0x2b then bytes.tail else bytes
  (digitsValue digits).filter (· < 2 ^ bits)

/-- A text as a signed integer of so many bits. -/
def parseSigned (bits : ℕ) (text : String) : Option ℤ :=
  match asBytes text with
  | 0x2d :: digits => ((digitsValue digits).filter (· ≤ 2 ^ (bits - 1))).map fun n => -(n : ℤ)
  | 0x2b :: digits => ((digitsValue digits).filter (· < 2 ^ (bits - 1))).map fun n => (n : ℤ)
  | digits => ((digitsValue digits).filter (· < 2 ^ (bits - 1))).map fun n => (n : ℤ)

/-- A number read exactly: `0.digits` times ten to `exponent`, with no leading or trailing zero
digit. Zero has no digits. -/
structure Decimal where
  negative : Bool
  digits : List UInt8
  exponent : ℤ
  deriving DecidableEq

/-- An exponent past this is clamped. -/
def exponentClamp : ℤ := 2 ^ 40

/-- The exponent written after the letter. -/
def readExponent (written : List UInt8) : ℤ :=
  let digits :=
    if written.head? = some 0x2d ∨ written.head? = some 0x2b then written.tail else written
  let n := digits.foldl (fun x b => min (x * 10 + ((b.toNat - 0x30 : ℕ) : ℤ)) exponentClamp) 0
  if written.head? = some 0x2d then -n else n

/-- Whether a byte is the letter before an exponent. -/
def isExponentLetter (b : UInt8) : Bool := b == 0x65 || b == 0x45

/-- The number some bytes of the grammar spell. -/
def Decimal.read (bytes : List UInt8) : Decimal :=
  let negative := bytes.head? == some 0x2d
  let rest := if negative then bytes.tail else bytes
  let mantissa := rest.takeWhile fun b => !isExponentLetter b
  let written := (rest.dropWhile fun b => !isExponentLetter b).tail
  let whole := mantissa.takeWhile (· != 0x2e)
  let fraction := (mantissa.dropWhile (· != 0x2e)).tail
  let all := whole ++ fraction
  let leading := (all.takeWhile (· == 0x30)).length
  let digits := (all.drop leading).rdropWhile (· == 0x30)
  { negative := negative && !digits.isEmpty
    digits
    exponent := readExponent written + whole.length - leading }

/-- A number as JSON writes one, none for any other text. -/
def decimal (text : String) : Option Decimal :=
  if isNumber text then some (.read (asBytes text)) else none

/-- The sign of a number: zero has neither. -/
def Decimal.sign (d : Decimal) : ℤ :=
  if d.digits.isEmpty then 0 else if d.negative then -1 else 1

/-- Bytes in lexicographic order, a prefix first. -/
def compareBytes : List UInt8 → List UInt8 → Ordering
  | [], [] => .eq
  | [], _ :: _ => .lt
  | _ :: _, [] => .gt
  | x :: xs, y :: ys => (Ord.compare x y).then (compareBytes xs ys)

/-- The order of two numbers. -/
def Decimal.compare (a b : Decimal) : Ordering :=
  let bySign := Ord.compare a.sign b.sign
  if bySign ≠ .eq ∨ a.sign = 0 then bySign
  else
    let magnitude := (Ord.compare a.exponent b.exponent).then (compareBytes a.digits b.digits)
    if a.negative then magnitude.swap else magnitude

/-- The order of two numbers as they are written, none when either is not one. -/
def compare (a b : String) : Option Ordering := do
  let a ← decimal a
  let b ← decimal b
  return a.compare b

example : compare "1e2" "99.5" = some .gt := by decide

example : compare "-0" "0.00" = some .eq := by decide

/-- Whether a number has no fractional part. -/
def isWhole (text : String) : Bool :=
  (decimal text).any fun d => decide ((d.digits.length : ℤ) ≤ d.exponent)

/-- The text of a number, none for any other kind. -/
def asNumber : Value → Option String
  | .number n => some n.text
  | _ => none

/-- The text of the number under a key. -/
def numberUnder (key : String) (owner : Value) : Option String := (owner.get key).bind asNumber

/-- The four bounds on a number, each the text that declared it. -/
structure Bounds where
  min : Option String
  max : Option String
  exclusiveMin : Option String
  exclusiveMax : Option String

/-- The bounds a schema declares: one that is not a number is none. -/
def Bounds.read (schema : Value) : Bounds where
  min := numberUnder Vocab.minimum schema
  max := numberUnder Vocab.maximum schema
  exclusiveMin := numberUnder Vocab.exclusiveMinimum schema
  exclusiveMax := numberUnder Vocab.exclusiveMaximum schema

/-- Whether a text stands to a bound as the bound asks. -/
def meets (text : String) (bound : Option String) (ok : Ordering → Bool) : Bool :=
  bound.all fun b => (compare text b).all ok

/-- Whether a number lies within every bound. -/
def Bounds.admitText (b : Bounds) (text : String) : Bool :=
  meets text b.min Ordering.isGE && meets text b.max Ordering.isLE &&
    meets text b.exclusiveMin Ordering.isGT && meets text b.exclusiveMax Ordering.isLT

/-- What a refusal says it wanted. -/
def Bounds.describe (b : Bounds) : String :=
  match b.min, b.max, b.exclusiveMin, b.exclusiveMax with
  | some lo, some hi, none, none => s!"a number between {lo} and {hi}"
  | _, _, _, _ =>
    let parts :=
      [b.min.map fun x => s!"no less than {x}", b.exclusiveMin.map fun x => s!"greater than {x}",
        b.max.map fun x => s!"no greater than {x}",
        b.exclusiveMax.map fun x => s!"less than {x}"].filterMap id
    if parts.isEmpty then "a number" else "a number " ++ " and ".intercalate parts

section Doubles

variable (doubles : Doubles)

/-- Whether `x` is a multiple of `step`, to within a few units in the last place. -/
def floatIsMultiple (x step : doubles.F) : Bool :=
  let nearest := doubles.mul (doubles.round (doubles.div x step)) step
  doubles.le (doubles.abs (doubles.sub nearest x))
    (doubles.mul
      (doubles.mul doubles.epsilon (doubles.max (doubles.abs x) (doubles.ofNat 1)))
      (doubles.ofNat 4))

/-- Whether an integer is a multiple of a step: exactly, for a step that is whole. -/
def intIsMultiple (text : String) (step : doubles.F) : Bool :=
  if doubles.equal (doubles.fract step) (doubles.ofNat 0) &&
      doubles.lt step (doubles.ofNat 9000000000000000000) then
    (parseSigned 128 text).all fun n => n.tmod (doubles.toInt step) == 0
  else (doubles.parse text).all fun x => floatIsMultiple doubles x step

/-- The value of a number as JSON writes one, none for one too large. -/
def numberOf (text : String) : Option doubles.F :=
  if isNumber text then (doubles.parse text).filter doubles.isFinite else none

/-- A finite number under a key. -/
def optFloat (key : String) (owner : Value) : Option doubles.F :=
  (numberUnder key owner).bind fun text => (doubles.parse text).filter doubles.isFinite

/-- The step a schema declares: one of zero or less divides nothing. -/
def optStep (owner : Value) : Option doubles.F :=
  (optFloat doubles Vocab.multipleOf owner).filter fun s => doubles.lt (doubles.ofNat 0) s

/-- Whether two values are the same JSON value: numbers by what they denote, the rest by their
structure. Past fifteen digits only the text speaks. -/
def sameJson (a b : Value) : Bool :=
  match asNumber a, asNumber b with
  | some x, some y =>
    x == y ||
      ((asBytes x).length ≤ 15 && (asBytes y).length ≤ 15 &&
        (match doubles.parse x, doubles.parse y with
          | some p, some q => doubles.equal p q
          | _, _ => false))
  | _, _ => a == b

end Doubles

/-- A count: a number written as a whole one, from zero. -/
def optCount (key : String) (owner : Value) : Option ℕ :=
  (numberUnder key owner).bind (parseUnsigned 64)

end Guatiao.Schema
