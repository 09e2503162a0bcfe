import Mathlib.Tactic.IntervalCases
import Mathlib.Data.Nat.Digits.Defs
import Guatiao.Schema.Decimal

/-!
# Why a value is not a type's, and the integers

A refusal names the key it is about as a dotted path, built on the way out. An integer is written as
its decimal text and read back from one; a fractional or exponent spelling is refused.
-/

namespace Guatiao

/-- Why a value could not be read as a particular type. Each names the key it is about. -/
inductive MapError
  /-- Nothing is stored under this key. -/
  | missingKey (key : String)
  /-- A value is stored, of the wrong kind. -/
  | wrongType (key : String) (expected : Tag) (found : Tag)
  /-- The right kind, but not a value that can be held. -/
  | badValue (key : String) (expected : String)
  /-- The source being read failed for a reason of its own. -/
  | stopped (key : String)
  deriving DecidableEq, Repr

namespace MapError

/-- The refusal of a value of another kind. -/
def wrong (expected : Tag) (found : Value) : MapError := .wrongType "" expected found.tag

/-- The right kind, the wrong value. -/
def bad (expected : String) : MapError := .badValue "" expected

def rekey (f : String → String) : MapError → MapError
  | .missingKey key => .missingKey (f key)
  | .wrongType key expected found => .wrongType (f key) expected found
  | .badValue key expected => .badValue (f key) expected
  | .stopped key => .stopped (f key)

/-- Re-rooted under a field. -/
def under (pre : String) (e : MapError) : MapError :=
  e.rekey fun key =>
    if key = "" then pre
    -- An index is already punctuation.
    else if key.startsWith "[" then pre ++ key
    else pre ++ "." ++ key

/-- Re-rooted under a list position. -/
def at_ (index : ℕ) (e : MapError) : MapError := e.rekey fun key => s!"[{index}]{key}"

/-- Re-rooted under one entry of an open map. -/
def atKey (entry : String) (e : MapError) : MapError := e.rekey fun key => s!"[{entry}]{key}"

end MapError

theorem asBytes_ofList (cs : List Char) :
    asBytes (String.ofList cs) = cs.flatMap String.utf8EncodeChar := by
  simp [asBytes, String.toByteArray_ofList, List.utf8Encode]

theorem utf8EncodeChar_of_lt {b : UInt8} (h : b.toNat < 128) :
    String.utf8EncodeChar (Char.ofNat b.toNat) = [b] := by
  have hall : ∀ i : Fin 128, String.utf8EncodeChar (Char.ofNat i.val) = [UInt8.ofNat i.val] := by
    decide +kernel
  have hb := hall ⟨b.toNat, h⟩
  rwa [UInt8.ofNat_toNat] at hb

variable {bytes : List UInt8} {d : ℕ}

theorem asBytes_of_ascii (h : ∀ b ∈ bytes, b.toNat < 128) :
    asBytes (String.ofList (bytes.map fun b => Char.ofNat b.toNat)) = bytes := by
  rw [asBytes_ofList, List.flatMap_map]
  calc bytes.flatMap (fun b => String.utf8EncodeChar (Char.ofNat b.toNat))
      = bytes.flatMap fun b => [b] := List.flatMap_congr fun b hb => utf8EncodeChar_of_lt (h b hb)
    _ = bytes := List.flatMap_singleton' _

theorem fromUtf8_of_ascii (h : ∀ b ∈ bytes, b.toNat < 128) :
    ∃ text, fromUtf8 bytes = some text ∧ asBytes text = bytes :=
  ⟨_, by rw [← fromUtf8_asBytes, asBytes_of_ascii h], asBytes_of_ascii h⟩

theorem asBytes_append (s t : String) : asBytes (s ++ t) = asBytes s ++ asBytes t := by
  simp [asBytes]

/-- The byte of a decimal digit. -/
def digitByte (d : ℕ) : UInt8 := .ofNat (0x30 + d)

theorem utf8EncodeChar_digitChar (h : d < 10) :
    String.utf8EncodeChar d.digitChar = [digitByte d] := by
  interval_cases d <;> rfl

theorem isDigit_digitByte (h : d < 10) : isDigit (digitByte d) = true := by
  interval_cases d <;> rfl

theorem toNat_digitByte (h : d < 10) : (digitByte d).toNat - 0x30 = d := by
  interval_cases d <;> rfl

theorem asBytes_repr (n : ℕ) :
    asBytes n.repr = (if n < 10 then [] else asBytes (n / 10).repr) ++ [digitByte (n % 10)] := by
  simp only [Nat.repr, asBytes_ofList]
  rw [Nat.toDigits_eq_if (by omega)]
  split
  next hn =>
    simp [utf8EncodeChar_digitChar hn, Nat.mod_eq_of_lt hn]
  next =>
    simp [utf8EncodeChar_digitChar (Nat.mod_lt n (by omega : 10 > 0))]

theorem all_isDigit_repr (n : ℕ) : (asBytes n.repr).all isDigit = true := by
  induction n using Nat.strong_induction_on with
  | _ n ih =>
    rw [asBytes_repr, List.all_append]
    have hlast : isDigit (digitByte (n % 10)) = true := isDigit_digitByte (Nat.mod_lt _ (by omega))
    split
    · simp [hlast]
    · rw [ih (n / 10) (by omega)]
      simp [hlast]

theorem head?_repr (n : ℕ) : ∃ d < 10, (asBytes n.repr).head? = some (digitByte d) ∧
    (d = 0 → n = 0) := by
  induction n using Nat.strong_induction_on with
  | _ n ih =>
    rw [asBytes_repr]
    split
    next hn =>
      refine ⟨n % 10, Nat.mod_lt _ (by omega), by simp, ?_⟩
      intro h
      omega
    next hn =>
      obtain ⟨d, hd, hhead, hzero⟩ := ih (n / 10) (by omega)
      refine ⟨d, hd, by simp [hhead], ?_⟩
      intro h
      have := hzero h
      omega

theorem asBytes_repr_zero : asBytes (Nat.repr 0) = [0x30] := rfl

theorem foldl_repr (n : ℕ) :
    (asBytes n.repr).foldl (fun x b => x * 10 + (b.toNat - 0x30)) 0 = n := by
  induction n using Nat.strong_induction_on with
  | _ n ih =>
    rw [asBytes_repr, List.foldl_append]
    have hlast := toNat_digitByte (Nat.mod_lt n (by omega : 10 > 0))
    split
    next hn =>
      simp only [List.foldl_nil, List.foldl_cons, hlast]
      omega
    next hn =>
      rw [ih (n / 10) (by omega)]
      simp only [List.foldl_nil, List.foldl_cons, hlast]
      omega

theorem asBytes_repr_ne_nil (n : ℕ) : asBytes n.repr ≠ [] := by
  rw [asBytes_repr]
  simp

theorem digitsValue_eq_some {n : ℕ} (h : Schema.digitsValue bytes = some n) :
    bytes ≠ [] ∧ (∀ b ∈ bytes, isDigit b = true) ∧
      n = bytes.foldl (fun n (b : UInt8) => n * 10 + (b.toNat - 0x30)) 0 := by
  unfold Schema.digitsValue at h
  split at h
  · cases h
  · rename_i hdigits
    simp only [Bool.or_eq_true, List.isEmpty_iff, Bool.not_eq_true', not_or,
      Bool.not_eq_false, List.all_eq_true] at hdigits
    exact ⟨hdigits.1, hdigits.2, (Option.some.inj h).symm⟩

theorem digitsValue_repr (n : ℕ) : Schema.digitsValue (asBytes n.repr) = some n := by
  simp [Schema.digitsValue, all_isDigit_repr, foldl_repr, asBytes_repr_ne_nil]

theorem skipDigits_append (pre : List UInt8) {digits : List UInt8} (h : digits.all isDigit = true) :
    skipDigits (pre ++ digits) pre.length = (pre ++ digits).length := by
  have htake : digits.takeWhile isDigit = digits := by
    apply List.takeWhile_eq_self_iff.mpr
    simpa using h
  simp [skipDigits, htake]

/-- Digits with no leading zero are the grammar's integer, after whatever stands before them. -/
theorem readInt_append {pre : List UInt8} (n : ℕ) :
    readInt (pre ++ asBytes n.repr) pre.length = .ok (pre ++ asBytes n.repr).length := by
  obtain ⟨d, hd, hhead, hzero⟩ := head?_repr n
  have hat : (pre ++ asBytes n.repr)[pre.length]? = some (digitByte d) := by
    rw [List.getElem?_append_right (by omega), Nat.sub_self, ← List.head?_eq_getElem?, hhead]
  simp only [readInt, hat]
  by_cases hd0 : d = 0
  · have hn := hzero hd0
    subst hd0 hn
    simp [digitByte, asBytes_repr_zero]
  · have hne : digitByte d ≠ 0x30 := by
      interval_cases d <;> simp_all <;> decide
    rw [if_neg hne, if_pos (isDigit_digitByte hd)]
    obtain ⟨rest, hrest⟩ : ∃ rest, asBytes n.repr = digitByte d :: rest := by
      cases hn : asBytes n.repr with
      | nil => simp [hn] at hhead
      | cons b rest => exact ⟨rest, by simp_all⟩
    have hall : rest.all isDigit = true := by
      have hdigits := all_isDigit_repr n
      rw [hrest, List.all_cons, Bool.and_eq_true] at hdigits
      exact hdigits.2
    rw [hrest, show pre ++ digitByte d :: rest = (pre ++ [digitByte d]) ++ rest by simp]
    have := skipDigits_append (pre ++ [digitByte d]) hall
    simp only [List.length_append, List.length_cons, List.length_nil, Nat.zero_add] at this ⊢
    rw [this]

theorem validateJsonNumber_append {pre : List UInt8} (hpre : pre = [] ∨ pre = [0x2d]) (n : ℕ) :
    validateJsonNumber (pre ++ asBytes n.repr) = .ok () := by
  obtain ⟨d, hd, hhead, -⟩ := head?_repr n
  have hminus : digitByte d ≠ 0x2d := by
    interval_cases d <;> decide
  have hstart : (if (pre ++ asBytes n.repr)[0]? = some 0x2d then 1 else 0) = pre.length := by
    rcases hpre with rfl | rfl
    · rw [List.nil_append, ← List.head?_eq_getElem?, hhead]
      simp [hminus]
    · simp
  rw [validateJsonNumber, hstart, readInt_append]
  simp [bind, Except.bind, readFrac, readExp]

theorem asBytes_toString (z : ℤ) :
    asBytes (toString z) = (if z < 0 then [0x2d] else []) ++ asBytes z.natAbs.repr := by
  cases z with
  | ofNat n =>
    have hn : ¬ (Int.ofNat n < 0) := by simp
    rw [if_neg hn]
    rfl
  | negSucc n =>
    rw [if_pos (Int.negSucc_lt_zero n)]
    exact asBytes_append "-" (n + 1).repr

theorem isNumber_toString (z : ℤ) : isNumber (toString z) = true := by
  rw [isNumber, asBytes_toString, validateJsonNumber_append (by split <;> simp)]
  rfl

/-- The number an integer is. -/
def Number.ofInt (z : ℤ) : Number := ⟨toString z, isNumber_toString z⟩

/-- An integer type, by its name. Pointers are of 64 bits. -/
inductive IntType
  | i8 | i16 | i32 | i64 | i128 | isize | u8 | u16 | u32 | u64 | u128 | usize
  deriving DecidableEq

namespace IntType

def name : IntType → String
  | .i8 => "i8"
  | .i16 => "i16"
  | .i32 => "i32"
  | .i64 => "i64"
  | .i128 => "i128"
  | .isize => "isize"
  | .u8 => "u8"
  | .u16 => "u16"
  | .u32 => "u32"
  | .u64 => "u64"
  | .u128 => "u128"
  | .usize => "usize"

def signed : IntType → Bool
  | .i8 | .i16 | .i32 | .i64 | .i128 | .isize => true
  | .u8 | .u16 | .u32 | .u64 | .u128 | .usize => false

def bits : IntType → ℕ
  | .i8 | .u8 => 8
  | .i16 | .u16 => 16
  | .i32 | .u32 => 32
  | .i64 | .u64 | .isize | .usize => 64
  | .i128 | .u128 => 128

/-- `MIN`. -/
def least (t : IntType) : ℤ := if t.signed then -2 ^ (t.bits - 1) else 0

/-- `MAX`. -/
def most (t : IntType) : ℤ := if t.signed then 2 ^ (t.bits - 1) - 1 else 2 ^ t.bits - 1

/-- Whether an integer is one of the type's. -/
def Holds (t : IntType) (z : ℤ) : Prop := t.least ≤ z ∧ z ≤ t.most

instance (t : IntType) (z : ℤ) : Decidable (t.Holds z) := inferInstanceAs (Decidable (_ ∧ _))

/-- `T::try_from`. -/
def tryFrom (t : IntType) (z : ℤ) : Option ℤ := if t.Holds z then some z else none

/-- `parse::<T>`. -/
def parse (t : IntType) (text : String) : Option ℤ :=
  if t.signed then Schema.parseSigned t.bits text
  else (Schema.parseUnsigned t.bits text).map Nat.cast

variable {z : ℤ}

theorem holds_of_parse {t : IntType} {text : String} (h : t.parse text = some z) :
    t.Holds z := by
  unfold parse at h
  split at h
  next hs =>
    unfold Schema.parseSigned at h
    have hpow : (0 : ℤ) < 2 ^ (t.bits - 1) := by positivity
    have hcast : ((2 ^ (t.bits - 1) : ℕ) : ℤ) = 2 ^ (t.bits - 1) := by push_cast; rfl
    rw [Holds, least, most, if_pos hs, if_pos hs]
    split at h <;> simp only [Option.map_eq_some_iff, Option.bind_eq_bind, Option.bind_eq_some_iff,
      Option.pure_def, Option.some.injEq, Option.filter_eq_some_iff, decide_eq_true_eq] at h
    · obtain ⟨a, ⟨n, ⟨-, hn⟩, rfl⟩, rfl⟩ := h
      omega
    · obtain ⟨a, ⟨n, ⟨-, hn⟩, rfl⟩, rfl⟩ := h
      omega
    · obtain ⟨a, ⟨n, ⟨-, hn⟩, rfl⟩, rfl⟩ := h
      omega
  next hs =>
    simp only [Schema.parseUnsigned, Option.map_eq_some_iff, Option.filter_eq_some_iff,
      decide_eq_true_eq] at h
    obtain ⟨n, ⟨-, hn⟩, rfl⟩ := h
    have hcast : ((2 ^ t.bits : ℕ) : ℤ) = 2 ^ t.bits := by push_cast; rfl
    rw [Holds, least, most, if_neg hs, if_neg hs]
    omega

/-- The text of one of the type's integers parses as it. -/
theorem parse_toString {t : IntType} (h : t.Holds z) : t.parse (toString z) = some z := by
  obtain ⟨d, hd, hhead, -⟩ := head?_repr z.natAbs
  have hminus : digitByte d ≠ 0x2d := by interval_cases d <;> decide
  have hplus : digitByte d ≠ 0x2b := by interval_cases d <;> decide
  have hdigits := digitsValue_repr z.natAbs
  unfold parse
  rw [Holds, least, most] at h
  split
  next hs =>
    rw [if_pos hs, if_pos hs] at h
    have hcast : ((2 ^ (t.bits - 1) : ℕ) : ℤ) = 2 ^ (t.bits - 1) := by push_cast; rfl
    rw [Schema.parseSigned, asBytes_toString]
    split_ifs with hz
    · have hfit : z.natAbs ≤ 2 ^ (t.bits - 1) := by omega
      simp only [List.cons_append, List.nil_append, hdigits, Option.filter_some, hfit,
        decide_true, if_true]
      have hval : -(z.natAbs : ℤ) = z := by omega
      exact congrArg some hval
    · have hfit : z.natAbs < 2 ^ (t.bits - 1) := by omega
      cases hbytes : asBytes z.natAbs.repr with
      | nil => exact absurd hbytes (asBytes_repr_ne_nil _)
      | cons b rest =>
        rw [hbytes] at hhead hdigits
        obtain rfl : b = digitByte d := by simpa using hhead
        rw [List.nil_append]
        split
        next hm => exact absurd (List.cons.inj hm).1 hminus
        next hp => exact absurd (List.cons.inj hp).1 hplus
        next =>
          rw [hdigits]
          simp only [Option.filter_some, hfit, decide_true, if_true]
          have hval : (z.natAbs : ℤ) = z := by omega
          exact congrArg some hval
  next hs =>
    rw [if_neg hs, if_neg hs] at h
    have hcast : ((2 ^ t.bits : ℕ) : ℤ) = 2 ^ t.bits := by push_cast; rfl
    have hfit : z.natAbs < 2 ^ t.bits := by omega
    have hneg : ¬ z < 0 := by omega
    have hval : (z.natAbs : ℤ) = z := by omega
    rw [Schema.parseUnsigned, asBytes_toString, if_neg hneg, List.nil_append, hhead]
    simp only [Option.some.injEq, hplus, if_false, hdigits, Option.filter_some, hfit, decide_true,
      if_true, Option.map_some, hval]

/-- What a reader says of text that is no integer written plainly. -/
def notPlain (t : IntType) : MapError :=
  .bad s!"an integer written plainly -- a fractional or exponent spelling is refused rather than rounded into a {t.name}"

/-- What a reader says of an integer the type does not hold. -/
def range (t : IntType) : MapError := .bad s!"an integer a {t.name} can hold"

/-- Whether a text has a fraction or an exponent. -/
def notWritten (text : String) : Bool :=
  (asBytes text).any fun b => b == 0x2e || b == 0x65 || b == 0x45

/-- A number's text read as the type: never truncated. -/
def ofText (t : IntType) (text : String) : Except MapError ℤ :=
  if notWritten text then .error t.notPlain
  else (t.parse text).elim (.error t.range) .ok

/-- `from_value`. -/
def fromValue (t : IntType) : Value → Except MapError ℤ
  | .number n => t.ofText n.text
  | v => .error (.wrong .number v)

theorem holds_of_fromValue {t : IntType} {v : Value} (h : t.fromValue v = .ok z) :
    t.Holds z := by
  cases v with
  | number n =>
    simp only [fromValue, ofText] at h
    split at h
    · cases h
    · cases hp : t.parse n.text with
      | none => simp [hp] at h
      | some w =>
        rw [hp] at h
        obtain rfl : w = z := by simpa using h
        exact holds_of_parse hp
  | _ => simp [fromValue] at h

end IntType

end Guatiao
