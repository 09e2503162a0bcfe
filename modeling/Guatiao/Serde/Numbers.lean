import Mathlib
import Guatiao.Schema.SameJson
import Guatiao.Value.Convert

/-!
# A number handed to a serializer

A number is handed over as the first of a native integer, its own text and a double that can hold
it. The texts of the grammar that read as an integer are the ones an integer is written as, and the
negative zero.
-/

namespace Guatiao.Serde

open Schema

/-- How a number past `i64` and `u64` is written. -/
inductive Numbers
  | native | rawText
  deriving DecidableEq

/-- serde_json's token for text that is the document. -/
def RAW_TEXT : String := "$serde_json::private::RawValue"

/-- What a serializer is asked to write. -/
inductive Handed (F : Type)
  | i64 (n : ℤ)
  | u64 (n : ℕ)
  | f64 (x : F)
  | struct (name : String) (fields : List (String × String))

/-- `write_number` -/
def writeNumber (doubles : Doubles) (text : String) (how : Numbers) :
    Except String (Handed doubles.F) :=
  match parseSigned 64 text with
  | some n => .ok (.i64 n)
  | none =>
    match parseUnsigned 64 text with
    | some n => .ok (.u64 n)
    | none =>
      if how = .rawText then .ok (.struct RAW_TEXT [(RAW_TEXT, text)])
      else
        match (doubles.parse text).filter doubles.isFinite with
        | some x => .ok (.f64 x)
        | none =>
          .error (s!"{text} is a number this format cannot hold; " ++
            "`Numbers::RawText` carries one through serde_json")

/-- `Writer::number` -/
def Writer.number (doubles : Doubles) (how : Numbers) (text : String) :
    Except String (Handed doubles.F) :=
  if !isNumber text then .error ValueError.notANumber.words else writeNumber doubles text how

/-- `Writer::i64` -/
def Writer.i64 {F : Type} (value : ℤ) : Handed F := .i64 value

/-- `Writer::u64` -/
def Writer.u64 {F : Type} (value : ℕ) : Handed F :=
  if value < 2 ^ 63 then .i64 value else .u64 value

/-- What shows as a text in the document: the text itself, or an integer written so. -/
def Handed.Shows {F : Type} (text : String) : Handed F → Prop
  | .i64 n => toString n = text
  | .u64 n => toString n = text
  | .f64 _ => False
  | .struct name fields => name = RAW_TEXT ∧ fields = [(RAW_TEXT, text)]

theorem asBytes_repr_foldl {bytes : List UInt8} (hne : bytes ≠ [])
    (hall : ∀ b ∈ bytes, isDigit b = true) (hzero : bytes.head? = some 0x30 → bytes = [0x30]) :
    asBytes (bytes.foldl (fun n (b : UInt8) => n * 10 + (b.toNat - 0x30)) 0).repr = bytes := by
  induction bytes using List.reverseRecOn with
  | nil => exact absurd rfl hne
  | append_singleton init b ih =>
    have hb : isDigit b = true := hall b (by simp)
    have hdigit : b.toNat - 0x30 < 10 ∧ digitByte (b.toNat - 0x30) = b := by
      have hrange : 0x30 ≤ b.toNat ∧ b.toNat ≤ 0x39 := by
        simpa [isDigit, UInt8.le_iff_toNat_le] using hb
      refine ⟨by omega, UInt8.toNat_inj.mp ?_⟩
      rw [digitByte, UInt8.toNat_ofNat']
      omega
    rw [List.foldl_append, List.foldl_cons, List.foldl_nil, asBytes_repr]
    by_cases hinit : init = []
    · subst hinit
      simp [hdigit.1, Nat.mod_eq_of_lt hdigit.1, hdigit.2]
    · have hhead : init.head? ≠ some 0x30 := by
        intro hhead
        have hwhole := congrArg List.length (hzero (by simp [List.head?_append, hhead]))
        have hpos := List.length_pos_iff.mpr hinit
        rw [List.length_append, List.length_singleton, List.length_singleton] at hwhole
        omega
      have hprev := ih hinit (fun x hx => hall x (by simp [hx])) (fun h => absurd h hhead)
      set n := init.foldl (fun n (b : UInt8) => n * 10 + (b.toNat - 0x30)) 0 with hn
      have hpos : n ≠ 0 := by
        intro hzero
        rw [hzero, asBytes_repr_zero] at hprev
        exact hhead (by rw [← hprev]; rfl)
      have hdiv : (n * 10 + (b.toNat - 0x30)) / 10 = n := by omega
      have hmod : (n * 10 + (b.toNat - 0x30)) % 10 = b.toNat - 0x30 := by omega
      rw [if_neg (by omega), hdiv, hmod, hprev, hdigit.2]

theorem digits_of_validate {pre digits : List UInt8} (hpre : pre = [] ∨ pre = [0x2d])
    (hall : ∀ b ∈ digits, isDigit b = true) (hzero : digits.head? = some 0x30)
    (hok : (validateJsonNumber (pre ++ digits)).isOk = true) : digits = [0x30] := by
  obtain ⟨rest, rfl⟩ := List.head?_eq_some_iff.mp hzero
  have hstart : (if (pre ++ 0x30 :: rest)[0]? = some 0x2d then 1 else 0) = pre.length := by
    rcases hpre with rfl | rfl <;> simp
  have hint : readInt (pre ++ 0x30 :: rest) pre.length = .ok (pre.length + 1) := by
    simp [readInt]
  have hnext : (pre ++ 0x30 :: rest)[pre.length + 1]? = rest[0]? := by
    rw [List.getElem?_append_right (by omega), Nat.add_sub_cancel_left, List.getElem?_cons_succ]
  have hother {b : UInt8} (hb : isDigit b = false) : rest[0]? ≠ some b := by
    intro hat
    have hdigit := hall b (List.mem_cons_of_mem _ (List.mem_of_getElem? hat))
    rw [hb] at hdigit
    cases hdigit
  have hfrac : readFrac (pre ++ 0x30 :: rest) (pre.length + 1) = .ok (pre.length + 1) := by
    rw [readFrac, hnext, if_neg (hother (by decide))]
  have hexp : readExp (pre ++ 0x30 :: rest) (pre.length + 1) = .ok (pre.length + 1) := by
    rw [readExp, hnext, if_neg (not_or.mpr ⟨hother (by decide), hother (by decide)⟩)]
  rw [validateJsonNumber, hstart, hint] at hok
  simp only [bind, Except.bind, hfrac, hexp] at hok
  by_cases hend : pre.length + 1 = (pre ++ 0x30 :: rest).length
  · have hrest : rest = [] := by
      simp only [List.length_append, List.length_cons] at hend
      exact List.length_eq_zero_iff.mp (by omega)
    rw [hrest]
  · rw [if_neg hend] at hok
    cases hok

/-- Digits of a number's text, after a minus or without one, are the text of what they count to. -/
theorem asBytes_repr_of_validate {pre digits : List UInt8} {n : ℕ}
    (hpre : pre = [] ∨ pre = [0x2d]) (hdigits : digitsValue digits = some n)
    (hok : (validateJsonNumber (pre ++ digits)).isOk = true) : asBytes n.repr = digits := by
  obtain ⟨hne, hall, rfl⟩ := digitsValue_eq_some hdigits
  exact asBytes_repr_foldl hne hall fun hzero => digits_of_validate hpre hall hzero hok

theorem head?_ne_plus {text : String} (hnum : isNumber text = true) :
    (asBytes text).head? ≠ some 0x2b := by
  intro hplus
  obtain ⟨rest, hrest⟩ := List.head?_eq_some_iff.mp hplus
  have hint : readInt (0x2b :: rest) 0 = .error 0 := by simp [readInt, isDigit]
  rw [isNumber, hrest, validateJsonNumber] at hnum
  simp only [List.getElem?_cons_zero, Option.some.injEq] at hnum
  rw [if_neg (by decide), hint] at hnum
  cases hnum

theorem toString_of_parseSigned {bits : ℕ} {text : String} {n : ℤ} (hnum : isNumber text = true)
    (h : parseSigned bits text = some n) : toString n = text ∨ text = "-0" ∧ n = 0 := by
  unfold parseSigned at h
  split at h
  · rename_i digits hbytes
    obtain ⟨m, ⟨hdigits, -⟩, rfl⟩ : ∃ m, (digitsValue digits = some m ∧ m ≤ 2 ^ (bits - 1)) ∧
        -(m : ℤ) = n := by
      simpa [Option.bind_eq_some_iff, Option.filter_eq_some_iff] using h
    rw [isNumber, hbytes] at hnum
    have hm := @asBytes_repr_of_validate [0x2d] _ _ (.inr rfl) hdigits hnum
    by_cases hzero : m = 0
    · subst hzero
      refine .inr ⟨asBytes_inj ?_, by simp⟩
      rw [hbytes, ← hm]
      rfl
    · refine .inl (asBytes_inj ?_)
      rw [asBytes_toString, if_pos (by omega), hbytes, Int.natAbs_neg, Int.natAbs_natCast, hm]
      rfl
  · rename_i digits hbytes
    exact absurd (by rw [hbytes]; rfl) (head?_ne_plus hnum)
  · obtain ⟨m, ⟨hdigits, -⟩, rfl⟩ : ∃ m, (digitsValue (asBytes text) = some m ∧
        m < 2 ^ (bits - 1)) ∧ (m : ℤ) = n := by
      simpa [Option.bind_eq_some_iff, Option.filter_eq_some_iff] using h
    have hm := @asBytes_repr_of_validate [] _ _ (.inl rfl) hdigits hnum
    refine .inl (asBytes_inj ?_)
    rw [asBytes_toString, if_neg (by omega), List.nil_append, Int.natAbs_natCast, hm]

theorem toString_of_parseUnsigned {bits : ℕ} {text : String} {n : ℕ} (hnum : isNumber text = true)
    (h : parseUnsigned bits text = some n) : toString n = text := by
  simp only [parseUnsigned, if_neg (head?_ne_plus hnum), Option.filter_eq_some_iff] at h
  have hn := @asBytes_repr_of_validate [] _ _ (.inl rfl) h.1 hnum
  exact asBytes_inj hn

variable (doubles : Doubles)

/-- Under the raw text policy a number shows as its text, but for the negative zero. -/
theorem number_shows_iff (n : Number) :
    (∃ handed, Writer.number doubles .rawText n.text = .ok handed ∧ handed.Shows n.text) ↔
      n.text ≠ "-0" := by
  have hnumber : Writer.number doubles .rawText n.text = writeNumber doubles n.text .rawText := by
    simp [Writer.number, n.valid]
  rw [hnumber]
  constructor
  · rintro ⟨handed, hwrite, hshows⟩ hzero
    have hread : parseSigned 64 n.text = some 0 := by rw [hzero]; decide
    simp only [writeNumber, hread, Except.ok.injEq] at hwrite
    subst hwrite
    exact absurd (hshows.trans hzero) (by decide)
  · intro hne
    unfold writeNumber
    cases hsigned : parseSigned 64 n.text with
    | some z =>
      have hz := toString_of_parseSigned n.valid hsigned
      exact ⟨_, rfl, hz.resolve_right fun h => hne h.1⟩
    | none =>
      cases hunsigned : parseUnsigned 64 n.text with
      | some m => exact ⟨_, rfl, toString_of_parseUnsigned n.valid hunsigned⟩
      | none => exact ⟨_, rfl, rfl, rfl⟩

/-- The negative zero is handed over as the integer zero. -/
theorem not_number_shows : ¬ ∀ (doubles : Doubles) (n : Number),
    ∃ handed, Writer.number doubles .rawText n.text = .ok handed ∧ handed.Shows n.text := by
  intro h
  obtain ⟨handed, hwrite, hshows⟩ := h roundedDoubles ⟨"-0", by decide⟩
  have hzero : Writer.number roundedDoubles .rawText "-0" = .ok (.i64 0) := by rfl
  cases hzero.symm.trans hwrite
  exact absurd (show toString (0 : ℤ) = "-0" from hshows) (by decide)

end Guatiao.Serde
