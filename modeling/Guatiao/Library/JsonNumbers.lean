import Guatiao.Lib.JsonText
import Guatiao.Schema.Rational
import Guatiao.Value.Convert

/-!
# The numbers of a JSON text

The grammar a number is checked against, over the bytes of its text, is the grammar of JSON, over its
characters.
-/

namespace Guatiao.Library.Json

open Lib Schema

section Read

variable {bytes ds rest point exp : List UInt8} {i : ℕ}

theorem skipDigits_of_drop (hdrop : bytes.drop i = ds ++ rest) (hds : ∀ b ∈ ds, isDigit b = true)
    (hrest : ∀ b ∈ rest.head?, isDigit b = false) : skipDigits bytes i = i + ds.length := by
  rw [skipDigits, hdrop, (takeWhile_append_eq ds rest hds hrest).1]

theorem readDigits_of_drop (hdrop : bytes.drop i = ds ++ rest) (hne : ds ≠ [])
    (hds : ∀ b ∈ ds, isDigit b = true) (hrest : ∀ b ∈ rest.head?, isDigit b = false) :
    readDigits bytes i = .ok (i + ds.length) := by
  obtain ⟨b, tail, rfl⟩ := List.exists_cons_of_ne_nil hne
  have hat : digitAt bytes i = true := by
    rw [digitAt, ← List.head?_drop, hdrop]
    exact hds b List.mem_cons_self
  rw [readDigits, if_pos hat, skipDigits_of_drop hdrop hds hrest]

theorem readInt_of_drop (hdrop : bytes.drop i = ds ++ rest) (hne : ds ≠ [])
    (hds : ∀ b ∈ ds, isDigit b = true) (hzero : ds.head? = some 0x30 → ds = [0x30])
    (hrest : ∀ b ∈ rest.head?, isDigit b = false) : readInt bytes i = .ok (i + ds.length) := by
  obtain ⟨b, tail, rfl⟩ := List.exists_cons_of_ne_nil hne
  have hat : bytes[i]? = some b := by
    rw [← List.head?_drop, hdrop]
    rfl
  rw [readInt, hat]
  by_cases hb : b = 0x30
  · have htail := hzero (congrArg some hb)
    rw [htail]
    exact if_pos hb
  · have hdrop' : bytes.drop (i + 1) = tail ++ rest := by
      rw [← List.drop_drop, hdrop]
      rfl
    have hlength : i + 1 + tail.length = i + (b :: tail).length := by
      rw [List.length_cons]
      omega
    show (if b = 0x30 then _ else if isDigit b then _ else _) = _
    rw [if_neg hb, if_pos (hds b List.mem_cons_self),
      skipDigits_of_drop hdrop' (fun c hc => hds c (List.mem_cons_of_mem b hc)) hrest, hlength]

theorem readFrac_of_drop (hdrop : bytes.drop i = point ++ rest)
    (hpoint : point = [] ∨ ∃ ds, ds ≠ [] ∧ (∀ b ∈ ds, isDigit b = true) ∧ point = 0x2e :: ds)
    (hrest : ∀ b ∈ rest.head?, isDigit b = false ∧ b ≠ 0x2e) :
    readFrac bytes i = .ok (i + point.length) := by
  have hhead : bytes[i]? = (point ++ rest).head? := by rw [← List.head?_drop, hdrop]
  rcases hpoint with rfl | ⟨ds, hne, hds, rfl⟩
  · refine if_neg ?_
    rw [hhead]
    exact fun h => (hrest _ h).2 rfl
  · have hdrop' : bytes.drop (i + 1) = ds ++ rest := by
      rw [← List.drop_drop, hdrop]
      rfl
    have hlength : i + 1 + ds.length = i + (0x2e :: ds).length := by
      rw [List.length_cons]
      omega
    rw [readFrac, hhead, List.cons_append, List.head?_cons, if_pos rfl,
      readDigits_of_drop hdrop' hne hds fun b hb => (hrest b hb).1, hlength]

theorem readExp_of_drop (hdrop : bytes.drop i = exp)
    (hexp : exp = [] ∨ ∃ letter sign ds, isExponentLetter letter = true ∧ IsSign sign ∧ ds ≠ [] ∧
      (∀ b ∈ ds, isDigit b = true) ∧ exp = letter :: (sign ++ ds)) :
    readExp bytes i = .ok (i + exp.length) := by
  have hhead : bytes[i]? = exp.head? := by rw [← List.head?_drop, hdrop]
  rcases hexp with rfl | ⟨letter, sign, ds, hletter, hsign, hne, hds, rfl⟩
  · rw [readExp, hhead]
    rfl
  · have hdrop' : bytes.drop (i + 1) = sign ++ ds := by
      rw [← List.drop_drop, hdrop]
      rfl
    have hhead' : bytes[i + 1]? = (sign ++ ds).head? := by rw [← List.head?_drop, hdrop']
    have hletter' : some letter = some (0x65 : UInt8) ∨ some letter = some 0x45 := by
      rw [isExponentLetter, Bool.or_eq_true, beq_iff_eq, beq_iff_eq] at hletter
      exact hletter.imp (congrArg some) (congrArg some)
    rw [readExp, hhead, hhead']
    rw [List.head?_cons, if_pos hletter']
    by_cases hnone : sign = []
    · subst hnone
      have hfirst : ¬ ((ds.head? = some 0x2b) ∨ ds.head? = some 0x2d) := by
        rintro (h | h)
        · exact absurd (hds _ (List.mem_of_mem_head? h)) (by decide)
        · exact absurd (hds _ (List.mem_of_mem_head? h)) (by decide)
      have hdrop'' : bytes.drop (i + 1) = ds ++ [] := by
        rw [hdrop', List.nil_append, List.append_nil]
      have hlength : i + 1 + ds.length = i + (letter :: ds).length := by
        rw [List.length_cons]
        omega
      rw [List.nil_append, if_neg hfirst, readDigits_of_drop hdrop'' hne hds (by simp), hlength]
    · obtain ⟨mark, rfl, hmark⟩ : ∃ mark, sign = [mark] ∧ (some mark = some (0x2b : UInt8) ∨
          some mark = some 0x2d) := by
        rcases hsign with h | h | h
        · exact absurd h hnone
        · exact ⟨_, h, .inr rfl⟩
        · exact ⟨_, h, .inl rfl⟩
      have hdrop'' : bytes.drop (i + 2) = ds ++ [] := by
        rw [← List.drop_drop, hdrop, List.append_nil]
        rfl
      have hlength : i + 2 + ds.length = i + (letter :: ([mark] ++ ds)).length := by
        simp only [List.length_cons, List.length_append, List.length_nil]
        omega
      rw [List.cons_append, List.head?_cons, if_pos hmark,
        readDigits_of_drop hdrop'' hne hds (by simp), hlength]
      rfl

/-- The parts of a number, one after another, are a number. -/
theorem validate_of_parts {minus whole : List UInt8} (hminus : minus = [] ∨ minus = [0x2d])
    (hne : whole ≠ []) (hwhole : ∀ b ∈ whole, isDigit b = true)
    (hzero : whole.head? = some 0x30 → whole = [0x30])
    (hpoint : point = [] ∨ ∃ ds, ds ≠ [] ∧ (∀ b ∈ ds, isDigit b = true) ∧ point = 0x2e :: ds)
    (hexp : exp = [] ∨ ∃ letter sign ds, isExponentLetter letter = true ∧ IsSign sign ∧ ds ≠ [] ∧
      (∀ b ∈ ds, isDigit b = true) ∧ exp = letter :: (sign ++ ds)) :
    validateJsonNumber (minus ++ (whole ++ (point ++ exp))) = .ok () := by
  have hletter : ∀ b ∈ exp.head?, isDigit b = false ∧ b ≠ 0x2e := by
    rcases hexp with rfl | ⟨letter, sign, ds, hletter, -, -, -, rfl⟩
    · simp
    · rintro b hb
      obtain rfl := Option.some.inj hb
      constructor
      · by_contra hdigit
        rw [not_exponentLetter (Bool.eq_true_of_not_eq_false hdigit)] at hletter
        cases hletter
      · rintro rfl
        cases hletter
  have hpointhead : ∀ b ∈ (point ++ exp).head?, isDigit b = false := by
    rcases hpoint with rfl | ⟨ds, -, -, rfl⟩
    · exact fun b hb => (hletter b hb).1
    · rintro b hb
      obtain rfl := Option.some.inj hb
      rfl
  have hstart : (if (minus ++ (whole ++ (point ++ exp)))[0]? = some 0x2d then 1 else 0) =
      minus.length := by
    rcases hminus with rfl | rfl
    · obtain ⟨b, tail, rfl⟩ := List.exists_cons_of_ne_nil hne
      refine if_neg fun h => ?_
      have hdigit := hwhole b List.mem_cons_self
      rw [show b = 0x2d from Option.some.inj h] at hdigit
      cases hdigit
    · rfl
  have hdropMinus : (minus ++ (whole ++ (point ++ exp))).drop minus.length =
      whole ++ (point ++ exp) := List.drop_left
  have hdropWhole : (minus ++ (whole ++ (point ++ exp))).drop (minus.length + whole.length) =
      point ++ exp := by
    rw [← List.drop_drop, hdropMinus, List.drop_left]
  have hdropPoint : (minus ++ (whole ++ (point ++ exp))).drop
      (minus.length + whole.length + point.length) = exp := by
    rw [← List.drop_drop, hdropWhole, List.drop_left]
  have hlength : minus.length + whole.length + point.length + exp.length =
      (minus ++ (whole ++ (point ++ exp))).length := by
    simp only [List.length_append]
    omega
  rw [validateJsonNumber, hstart, readInt_of_drop hdropMinus hne hwhole hzero hpointhead]
  show (readFrac _ _ >>= _) = _
  rw [readFrac_of_drop hdropWhole hpoint hletter]
  show (readExp _ _ >>= _) = _
  rw [readExp_of_drop hdropPoint hexp]
  exact if_pos hlength

end Read

/-- The character an ASCII byte is. -/
def ascii (b : UInt8) : Char := .ofNat b.toNat

/-- The byte of an ASCII character. -/
def code (c : Char) : UInt8 := .ofNat c.toNat

theorem ascii_code {c : Char} (h : c.toNat < 128) : ascii (code c) = c := by
  have hbyte : (code c).toNat = c.toNat := by
    rw [code, UInt8.toNat_ofNat']
    exact Nat.mod_eq_of_lt (by omega)
  rw [ascii, hbyte, Char.ofNat_toNat]

theorem code_lt {c : Char} (h : c.toNat < 128) : (code c).toNat < 128 := by
  rw [code, UInt8.toNat_ofNat']
  exact Nat.lt_of_le_of_lt (Nat.mod_le _ _) h

theorem isDigit_ascii (b : UInt8) : (ascii b).isDigit = isDigit b := by
  have hall : ∀ i : Fin 256, (ascii (.ofNat i.val)).isDigit = isDigit (.ofNat i.val) := by
    decide +kernel
  have hb := hall ⟨b.toNat, b.toNat_lt⟩
  rwa [UInt8.ofNat_toNat] at hb

theorem eq_of_ascii_zero {b : UInt8} (h : ascii b = '0') : b = 0x30 := by
  have hall : ∀ i : Fin 256, ascii (.ofNat i.val) = '0' → UInt8.ofNat i.val = 0x30 := by
    decide +kernel
  have hb := hall ⟨b.toNat, b.toNat_lt⟩
  rw [UInt8.ofNat_toNat] at hb
  exact hb h

theorem lt_of_isDigit {b : UInt8} (h : isDigit b = true) : b.toNat < 128 := by
  simp only [isDigit, Bool.and_eq_true, decide_eq_true_eq, UInt8.le_iff_toNat_le] at h
  have h9 : (0x39 : UInt8).toNat = 57 := rfl
  omega

theorem toNat_lt_of_isDigit {c : Char} (h : c.isDigit = true) : c.toNat < 128 := by
  simp only [Char.isDigit, Bool.and_eq_true, decide_eq_true_eq, ge_iff_le, UInt32.le_iff_toNat_le] at h
  exact Nat.lt_of_le_of_lt h.2 (by decide)

/-- Some characters are these ASCII bytes. -/
def Coded (s : List Char) (bytes : List UInt8) : Prop :=
  s = bytes.map ascii ∧ ∀ b ∈ bytes, b.toNat < 128

section Coded

variable {s t : List Char} {bytes ds : List UInt8}

theorem coded_code (h : ∀ c ∈ s, c.toNat < 128) : Coded s (s.map code) := by
  constructor
  · rw [List.map_map]
    exact ((List.map_congr_left fun c hc => ascii_code (h c hc)).trans (List.map_id' s)).symm
  · intro b hb
    obtain ⟨c, hc, rfl⟩ := List.mem_map.mp hb
    exact code_lt (h c hc)

theorem Coded.append (h : Coded s bytes) (ht : Coded t ds) : Coded (s ++ t) (bytes ++ ds) := by
  refine ⟨by rw [h.1, ht.1, List.map_append], fun b hb => ?_⟩
  rcases List.mem_append.mp hb with hb | hb
  · exact h.2 b hb
  · exact ht.2 b hb

theorem coded_iff (hbytes : ∀ b ∈ bytes, b.toNat < 128) :
    Coded s bytes ↔ asBytes (.ofList s) = bytes := by
  constructor
  · rintro ⟨rfl, -⟩
    exact asBytes_of_ascii hbytes
  · intro h
    have htext := asBytes_inj (h.trans (asBytes_of_ascii hbytes).symm)
    exact ⟨String.ofList_injective htext, hbytes⟩

theorem isDigits_iff : JsonText.IsDigits (bytes.map ascii) ↔
    bytes ≠ [] ∧ ∀ b ∈ bytes, isDigit b = true := by
  simp [JsonText.IsDigits, isDigit_ascii]

theorem isWhole_iff : JsonText.IsWhole (bytes.map ascii) ↔
    (bytes ≠ [] ∧ ∀ b ∈ bytes, isDigit b = true) ∧ (bytes.head? = some 0x30 → bytes = [0x30]) := by
  rw [JsonText.IsWhole, isDigits_iff]
  refine and_congr_right fun _ => ?_
  cases bytes with
  | nil => simp
  | cons b tail =>
    constructor
    · intro h hhead
      obtain rfl := Option.some.inj hhead
      have htail := (List.cons.inj (h rfl)).2
      rw [List.map_eq_nil_iff] at htail
      rw [htail]
    · intro h hhead
      have hb := eq_of_ascii_zero (Option.some.inj hhead)
      rw [h (by rw [hb]; rfl)]
      rfl

theorem coded_isDigits (h : JsonText.IsDigits s) :
    ∃ ds, Coded s ds ∧ ds ≠ [] ∧ ∀ b ∈ ds, isDigit b = true := by
  have hcoded := coded_code fun c hc => toNat_lt_of_isDigit (h.2 c hc)
  rw [hcoded.1] at h
  exact ⟨_, hcoded, isDigits_iff.mp h⟩

theorem coded_isWhole (h : JsonText.IsWhole s) : ∃ ds, Coded s ds ∧
    (ds ≠ [] ∧ ∀ b ∈ ds, isDigit b = true) ∧ (ds.head? = some 0x30 → ds = [0x30]) := by
  have hcoded := coded_code fun c hc => toNat_lt_of_isDigit (h.1.2 c hc)
  rw [hcoded.1] at h
  exact ⟨_, hcoded, isWhole_iff.mp h⟩

theorem coded_minus (h : s = [] ∨ s = ['-']) : ∃ ds, Coded s ds ∧ (ds = [] ∨ ds = [0x2d]) := by
  rcases h with rfl | rfl
  · exact ⟨[], ⟨rfl, by simp⟩, .inl rfl⟩
  · exact ⟨[0x2d], ⟨rfl, by simp⟩, .inr rfl⟩

theorem coded_isFraction (h : JsonText.IsFraction s) : ∃ point, Coded s point ∧
    (point = [] ∨ ∃ ds, ds ≠ [] ∧ (∀ b ∈ ds, isDigit b = true) ∧ point = 0x2e :: ds) := by
  rcases h with rfl | ⟨digits, hdigits, rfl⟩
  · exact ⟨[], ⟨rfl, by simp⟩, .inl rfl⟩
  · obtain ⟨ds, hcoded, hne, hds⟩ := coded_isDigits hdigits
    have hpoint : Coded ['.'] [0x2e] := ⟨rfl, by simp⟩
    exact ⟨_, hpoint.append hcoded, .inr ⟨ds, hne, hds, rfl⟩⟩

theorem coded_isExponent (h : JsonText.IsExponent s) : ∃ exp, Coded s exp ∧
    (exp = [] ∨ ∃ letter sign ds, isExponentLetter letter = true ∧ IsSign sign ∧ ds ≠ [] ∧
      (∀ b ∈ ds, isDigit b = true) ∧ exp = letter :: (sign ++ ds)) := by
  rcases h with rfl | ⟨e, sign, digits, he, hsign, hdigits, rfl⟩
  · exact ⟨[], ⟨rfl, by simp⟩, .inl rfl⟩
  · obtain ⟨ds, hcoded, hne, hds⟩ := coded_isDigits hdigits
    obtain ⟨letter, hletter, hexponent⟩ : ∃ letter, Coded [e] [letter] ∧
        isExponentLetter letter = true := by
      rcases he with rfl | rfl
      · exact ⟨0x65, ⟨rfl, by simp⟩, rfl⟩
      · exact ⟨0x45, ⟨rfl, by simp⟩, rfl⟩
    obtain ⟨mark, hmark, hisSign⟩ : ∃ mark, Coded sign mark ∧ IsSign mark := by
      rcases hsign with rfl | rfl | rfl
      · exact ⟨[], ⟨rfl, by simp⟩, .inl rfl⟩
      · exact ⟨[0x2d], ⟨rfl, by simp⟩, .inr (.inl rfl)⟩
      · exact ⟨[0x2b], ⟨rfl, by simp⟩, .inr (.inr rfl)⟩
    exact ⟨_, hletter.append (hmark.append hcoded),
      .inr ⟨letter, mark, ds, hexponent, hisSign, hne, hds, rfl⟩⟩

theorem isFraction_of_parts {point : List UInt8}
    (h : point = [] ∨ ∃ ds, ds ≠ [] ∧ (∀ b ∈ ds, isDigit b = true) ∧ point = 0x2e :: ds) :
    JsonText.IsFraction (point.map ascii) ∧ ∀ b ∈ point, b.toNat < 128 := by
  rcases h with rfl | ⟨ds, hne, hds, rfl⟩
  · exact ⟨.inl rfl, by simp⟩
  · refine ⟨.inr ⟨ds.map ascii, isDigits_iff.mpr ⟨hne, hds⟩, rfl⟩, fun b hb => ?_⟩
    rcases List.mem_cons.mp hb with rfl | hb
    · decide
    · exact lt_of_isDigit (hds b hb)

theorem isExponent_of_parts {exp : List UInt8} (h : exp = [] ∨ ∃ letter sign ds,
    isExponentLetter letter = true ∧ IsSign sign ∧ ds ≠ [] ∧ (∀ b ∈ ds, isDigit b = true) ∧
      exp = letter :: (sign ++ ds)) :
    JsonText.IsExponent (exp.map ascii) ∧ ∀ b ∈ exp, b.toNat < 128 := by
  rcases h with rfl | ⟨letter, sign, ds, hletter, hsign, hne, hds, rfl⟩
  · exact ⟨.inl rfl, by simp⟩
  · have hexponent : (ascii letter = 'e' ∨ ascii letter = 'E') ∧ letter.toNat < 128 := by
      rw [isExponentLetter, Bool.or_eq_true, beq_iff_eq, beq_iff_eq] at hletter
      rcases hletter with rfl | rfl
      · exact ⟨.inl rfl, by decide⟩
      · exact ⟨.inr rfl, by decide⟩
    have hmark : (sign.map ascii = [] ∨ sign.map ascii = ['-'] ∨ sign.map ascii = ['+']) ∧
        ∀ b ∈ sign, b.toNat < 128 := by
      rcases hsign with rfl | rfl | rfl
      · exact ⟨.inl rfl, by simp⟩
      · exact ⟨.inr (.inl rfl), by simp⟩
      · exact ⟨.inr (.inr rfl), by simp⟩
    refine ⟨.inr ⟨ascii letter, sign.map ascii, ds.map ascii, hexponent.1, hmark.1,
      isDigits_iff.mpr ⟨hne, hds⟩, by rw [List.map_cons, List.map_append]⟩, fun b hb => ?_⟩
    rcases List.mem_cons.mp hb with rfl | hb
    · exact hexponent.2
    · rcases List.mem_append.mp hb with hb | hb
      · exact hmark.2 b hb
      · exact lt_of_isDigit (hds b hb)

theorem isNumeral_iff : JsonText.IsNumeral s ↔ isNumber (.ofList s) = true := by
  constructor
  · rintro ⟨minus, whole, fraction, exponent, hminus, hwhole, hfraction, hexponent, rfl⟩
    obtain ⟨minus', hminus, hminusIs⟩ := coded_minus hminus
    obtain ⟨whole', hwhole, ⟨hne, hdigits⟩, hzero⟩ := coded_isWhole hwhole
    obtain ⟨point, hpoint, hpointIs⟩ := coded_isFraction hfraction
    obtain ⟨exp, hexp, hexpIs⟩ := coded_isExponent hexponent
    have hall := hminus.append (hwhole.append (hpoint.append hexp))
    rw [isNumber, List.append_assoc, List.append_assoc, (coded_iff hall.2).mp hall,
      validate_of_parts hminusIs hne hdigits hzero hpointIs hexpIs]
    rfl
  · intro h
    obtain ⟨whole, point, exp, hparts, hne, hdigits, hzero, hpoint, hexp⟩ := parts_of_validate h
    obtain ⟨minus, hbytes, hminus, hsmall⟩ : ∃ minus, asBytes (.ofList s) =
        minus ++ afterSign (asBytes (.ofList s)) ∧
          (minus.map ascii = [] ∨ minus.map ascii = ['-']) ∧ ∀ b ∈ minus, b.toNat < 128 := by
      cases hs : asBytes (.ofList s) with
      | nil => exact ⟨[], rfl, .inl rfl, by simp⟩
      | cons b tail =>
        by_cases hb : b = 0x2d
        · subst hb
          exact ⟨[0x2d], rfl, .inr rfl, by simp⟩
        · exact ⟨[], by simp [afterSign, hb], .inl rfl, by simp⟩
    obtain ⟨hfraction, hpointSmall⟩ := isFraction_of_parts hpoint
    obtain ⟨hexponent, hexpSmall⟩ := isExponent_of_parts hexp
    rw [hparts] at hbytes
    have hascii : ∀ b ∈ minus ++ (whole ++ point ++ exp), b.toNat < 128 := by
      simp only [List.mem_append]
      rintro b (hb | (hb | hb) | hb)
      · exact hsmall b hb
      · exact lt_of_isDigit (hdigits b hb)
      · exact hpointSmall b hb
      · exact hexpSmall b hb
    refine ⟨minus.map ascii, whole.map ascii, point.map ascii, exp.map ascii, hminus,
      isWhole_iff.mpr ⟨⟨hne, hdigits⟩, hzero⟩, hfraction, hexponent, ?_⟩
    rw [((coded_iff hascii).mpr hbytes).1]
    simp only [List.map_append, List.append_assoc]

end Coded

section Stops

/-- The number grammar over bytes: an optional minus, an integer without a leading zero, an optional
fraction and an optional exponent. -/
def Derives (bytes : List UInt8) : Prop :=
  ∃ minus whole point exp, bytes = minus ++ (whole ++ (point ++ exp)) ∧
    (minus = [] ∨ minus = [0x2d]) ∧ whole ≠ [] ∧ (∀ b ∈ whole, isDigit b = true) ∧
    (whole.head? = some 0x30 → whole = [0x30]) ∧
    (point = [] ∨ ∃ ds, ds ≠ [] ∧ (∀ b ∈ ds, isDigit b = true) ∧ point = 0x2e :: ds) ∧
    (exp = [] ∨ ∃ letter sign ds, isExponentLetter letter = true ∧ IsSign sign ∧ ds ≠ [] ∧
      (∀ b ∈ ds, isDigit b = true) ∧ exp = letter :: (sign ++ ds))

variable {bytes other : List UInt8} {i j k n : ℕ}

theorem derives_iff : Derives bytes ↔ validateJsonNumber bytes = .ok () := by
  constructor
  · rintro ⟨minus, whole, point, exp, rfl, hminus, hne, hwhole, hzero, hpoint, hexp⟩
    exact validate_of_parts hminus hne hwhole hzero hpoint hexp
  · intro h
    obtain ⟨whole, point, exp, hrest, hne, hwhole, hzero, hpoint, hexp⟩ :=
      parts_of_validate (by rw [h]; rfl : (validateJsonNumber bytes).isOk = true)
    refine ⟨if bytes.head? = some 0x2d then [0x2d] else [], whole, point, exp, ?_, ?_, hne, hwhole, hzero,
      hpoint, hexp⟩
    · rw [← List.append_assoc whole, ← hrest, afterSign]
      cases bytes with
      | nil => rfl
      | cons b rest => by_cases hb : b = 0x2d <;> simp [hb]
    · split
      · exact .inr rfl
      · exact .inl rfl

/-- Up to `n` the same bytes, and there the same byte or the end. -/
structure EndsLike (bytes other : List UInt8) (n : ℕ) : Prop where
  below : ∀ m < n, other[m]? = bytes[m]?
  at_ : other[n]? = bytes[n]? ∨ other[n]? = none

/-- Where a reader stopped. -/
def stop : Except ℕ ℕ → ℕ
  | .ok k => k
  | .error k => k

theorem le_skipDigits (bytes : List UInt8) (i : ℕ) : i ≤ skipDigits bytes i := Nat.le_add_right ..

namespace EndsLike

theorem mono (h : EndsLike bytes other n) (hk : k ≤ n) : EndsLike bytes other k where
  below m hm := h.below m (hm.trans_le hk)
  at_ := (Nat.lt_or_eq_of_le hk).elim (fun hlt => .inl (h.below k hlt)) fun heq => heq ▸ h.at_

theorem takeWhile {p : UInt8 → Bool} {xs ys : List UInt8} :
    EndsLike xs ys (xs.takeWhile p).length → (ys.takeWhile p).length = (xs.takeWhile p).length := by
  induction xs generalizing ys with
  | nil =>
    intro h
    have hnil : ys = [] := by simpa using h.at_
    rw [hnil]
  | cons x xs ih =>
    intro h
    cases hx : p x with
    | false =>
      rw [List.takeWhile_cons_of_neg (by simp [hx])] at h ⊢
      cases ys with
      | nil => rfl
      | cons y ys =>
        have hy : y = x := by simpa using h.at_
        rw [hy, List.takeWhile_cons_of_neg (by simp [hx])]
    | true =>
      rw [List.takeWhile_cons_of_pos hx, List.length_cons] at h ⊢
      have hfirst := h.below 0 (Nat.succ_pos _)
      cases ys with
      | nil => cases hfirst
      | cons y ys =>
        have hy : y = x := by simpa using hfirst
        have hrest : EndsLike xs ys (xs.takeWhile p).length :=
          ⟨fun m hm => h.below (m + 1) (Nat.succ_lt_succ hm), h.at_⟩
        rw [hy, List.takeWhile_cons_of_pos hx, List.length_cons, ih hrest]

theorem skipDigits (h : EndsLike bytes other n) (hn : Guatiao.skipDigits bytes i ≤ n) :
    Guatiao.skipDigits other i = Guatiao.skipDigits bytes i := by
  have hdrop : EndsLike (bytes.drop i) (other.drop i) ((bytes.drop i).takeWhile isDigit).length := by
    have hmono := h.mono hn
    refine ⟨fun m hm => ?_, ?_⟩
    · rw [List.getElem?_drop, List.getElem?_drop]
      exact hmono.below _ (Nat.add_lt_add_left hm i)
    · rw [List.getElem?_drop, List.getElem?_drop]
      exact hmono.at_
  rw [Guatiao.skipDigits, Guatiao.skipDigits, hdrop.takeWhile]

theorem eq_of_lt (h : EndsLike bytes other n) (hk : k < n) : other[k]? = bytes[k]? := h.below k hk

theorem readDigits (h : EndsLike bytes other n) (hn : stop (Guatiao.readDigits bytes i) ≤ n) :
    Guatiao.readDigits other i = Guatiao.readDigits bytes i := by
  unfold Guatiao.readDigits at hn ⊢
  cases hat : digitAt bytes i with
  | true =>
    rw [hat] at hn
    have hsame : digitAt other i = true := by
      have hlt : i < Guatiao.skipDigits bytes i := by
        rw [digitAt, ← List.head?_drop] at hat
        rw [Guatiao.skipDigits]
        cases hdrop : bytes.drop i with
        | nil => simp [hdrop] at hat
        | cons b rest =>
          rw [hdrop] at hat
          rw [List.takeWhile_cons_of_pos (by exact hat), List.length_cons]
          omega
      rw [digitAt, h.eq_of_lt (hlt.trans_le hn)]
      exact hat
    rw [hsame, if_pos rfl, if_pos rfl, h.skipDigits hn]
  | false =>
    rw [hat, if_neg Bool.false_ne_true] at hn
    have hle : i ≤ n := hn
    have hsame : digitAt other i = false := by
      rcases (h.mono hle).at_ with heq | hnone
      · rw [digitAt, heq]
        exact hat
      · rw [digitAt, hnone]
        rfl
    rw [hsame, if_neg Bool.false_ne_true, if_neg Bool.false_ne_true]

theorem readInt (h : EndsLike bytes other n) (hn : stop (Guatiao.readInt bytes i) ≤ n) :
    Guatiao.readInt other i = Guatiao.readInt bytes i := by
  unfold Guatiao.readInt at hn ⊢
  cases hb : bytes[i]? with
  | none =>
    rw [hb] at hn
    have hnone : other[i]? = none := (h.mono hn).at_.elim (fun heq => heq.trans hb) id
    rw [hnone]
  | some b =>
    rw [hb] at hn
    dsimp only at hn ⊢
    by_cases hzero : b = 0x30
    · rw [if_pos hzero] at hn ⊢
      rw [h.eq_of_lt hn, hb]
      exact if_pos hzero
    · rw [if_neg hzero] at hn ⊢
      cases hdigit : isDigit b with
      | true =>
        rw [hdigit, if_pos rfl] at hn
        rw [h.eq_of_lt ((le_skipDigits bytes (i + 1)).trans hn), hb]
        show (if b = 0x30 then _ else if isDigit b then _ else _) = _
        rw [if_neg hzero, hdigit, if_pos rfl, if_pos rfl, h.skipDigits hn]
      | false =>
        rw [hdigit, if_neg Bool.false_ne_true] at hn
        rcases (h.mono (by exact hn : i ≤ n)).at_ with heq | hnone
        · rw [heq, hb]
          show (if b = 0x30 then _ else if isDigit b then _ else _) = _
          rw [if_neg hzero, hdigit]
          rfl
        · rw [hnone]
          rfl

theorem le_stop (bytes : List UInt8) (i : ℕ) : i ≤ stop (Guatiao.readDigits bytes i) := by
  unfold Guatiao.readDigits
  split
  · exact le_skipDigits bytes i
  · exact Nat.le_refl i

theorem readFrac (h : EndsLike bytes other n) (hn : stop (Guatiao.readFrac bytes i) ≤ n) :
    Guatiao.readFrac other i = Guatiao.readFrac bytes i := by
  unfold Guatiao.readFrac at hn ⊢
  by_cases hpoint : bytes[i]? = some 0x2e
  · rw [if_pos hpoint] at hn ⊢
    rw [h.eq_of_lt ((le_stop bytes (i + 1)).trans hn), if_pos hpoint, h.readDigits hn]
  · rw [if_neg hpoint] at hn ⊢
    refine if_neg fun heq => ?_
    rcases (h.mono (by exact hn : i ≤ n)).at_ with hsame | hnone
    · exact hpoint (hsame.symm.trans heq)
    · rw [hnone] at heq
      cases heq

theorem readExp (h : EndsLike bytes other n) (hn : stop (Guatiao.readExp bytes i) ≤ n) :
    Guatiao.readExp other i = Guatiao.readExp bytes i := by
  unfold Guatiao.readExp at hn ⊢
  by_cases hletter : bytes[i]? = some 0x65 ∨ bytes[i]? = some 0x45
  · rw [if_pos hletter] at hn ⊢
    by_cases hsign : bytes[i + 1]? = some 0x2b ∨ bytes[i + 1]? = some 0x2d
    · rw [if_pos hsign] at hn ⊢
      have hle := (le_stop bytes (i + 2)).trans hn
      rw [h.eq_of_lt (by omega : i < n), h.eq_of_lt (by omega : i + 1 < n), if_pos hletter,
        if_pos hsign, h.readDigits hn]
    · rw [if_neg hsign] at hn ⊢
      have hle := (le_stop bytes (i + 1)).trans hn
      have hother : ¬ (other[i + 1]? = some 0x2b ∨ other[i + 1]? = some 0x2d) := by
        rcases (h.mono hle).at_ with hsame | hnone
        · rwa [hsame]
        · simp [hnone]
      rw [h.eq_of_lt (by omega : i < n), if_pos hletter, if_neg hother, h.readDigits hn]
  · rw [if_neg hletter] at hn ⊢
    refine if_neg fun heq => ?_
    rcases (h.mono (by exact hn : i ≤ n)).at_ with hsame | hnone
    · exact hletter (hsame ▸ heq)
    · simp [hnone] at heq

end EndsLike

/-- The bytes up to where reading stopped, and a zero behind them. -/
def goOn (bytes : List UInt8) (k : ℕ) : List UInt8 := bytes.take k ++ [0x30]

theorem goOn_endsLike (hk : k ≤ bytes.length) (hi : i < k) : EndsLike bytes (goOn bytes k) i := by
  have hbelow : ∀ m < k, (goOn bytes k)[m]? = bytes[m]? := by
    intro m hm
    rw [goOn, List.getElem?_append_left (by rw [List.length_take]; omega), List.getElem?_take_of_lt hm]
  exact ⟨fun m hm => hbelow m (hm.trans hi), .inl (hbelow i hi)⟩

theorem goOn_digits (hk : k ≤ bytes.length) : (goOn bytes k)[k]? = some 0x30 ∧
    readDigits (goOn bytes k) k = .ok (k + 1) := by
  have hdrop : (goOn bytes k).drop k = [0x30] ++ [] := by
    rw [goOn, List.drop_append_of_le_length (by rw [List.length_take]; omega),
      List.drop_of_length_le (by rw [List.length_take]; omega)]
    rfl
  have hdigits : ∀ b ∈ ([0x30] : List UInt8), isDigit b = true := fun b hb =>
    List.mem_singleton.mp hb ▸ rfl
  refine ⟨?_, readDigits_of_drop hdrop (List.cons_ne_nil 0x30 []) hdigits (by simp)⟩
  rw [← List.head?_drop, hdrop]
  rfl

theorem goOn_readInt (hk : k ≤ bytes.length) (h : readInt bytes i = .error k) :
    readInt (goOn bytes k) i = .ok (k + 1) := by
  have hik : k = i := by
    unfold readInt at h
    split at h
    · exact (Except.error.inj h).symm
    · split at h
      · cases h
      · split at h
        · cases h
        · exact (Except.error.inj h).symm
  subst hik
  rw [readInt, (goOn_digits hk).1]
  rfl

theorem goOn_readFrac (hk : k ≤ bytes.length) (h : readFrac bytes i = .error k) :
    i < k ∧ readFrac (goOn bytes k) i = .ok (k + 1) := by
  unfold readFrac at h
  split at h
  · next hpoint =>
    have hik : k = i + 1 := by
      unfold readDigits at h
      split at h
      · cases h
      · exact (Except.error.inj h).symm
    subst hik
    refine ⟨Nat.lt_succ_self i, ?_⟩
    have hsame := ((goOn_endsLike hk (Nat.lt_succ_self i)).at_).elim id fun hnone => by
      rw [goOn, List.getElem?_eq_none_iff, List.length_append, List.length_take] at hnone
      simp at hnone
      omega
    rw [readFrac, hsame, if_pos hpoint, (goOn_digits hk).2]
  · cases h

theorem goOn_readExp (hk : k ≤ bytes.length) (h : readExp bytes i = .error k) :
    i < k ∧ readExp (goOn bytes k) i = .ok (k + 1) := by
  have hat {m : ℕ} (hm : m < k) : (goOn bytes k)[m]? = bytes[m]? := by
    rw [goOn, List.getElem?_append_left (by rw [List.length_take]; omega), List.getElem?_take_of_lt hm]
  have herror {m : ℕ} (hread : readDigits bytes m = .error k) : k = m := by
    unfold readDigits at hread
    split at hread
    · cases hread
    · exact (Except.error.inj hread).symm
  unfold readExp at h
  split at h
  · next hletter =>
    split at h
    · next hsign =>
      obtain rfl := herror h
      refine ⟨by omega, ?_⟩
      rw [readExp, hat (by omega : i < i + 2), hat (by omega : i + 1 < i + 2), if_pos hletter, if_pos hsign,
        (goOn_digits hk).2]
    · obtain rfl := herror h
      refine ⟨Nat.lt_succ_self i, ?_⟩
      rw [readExp, hat (Nat.lt_succ_self i), if_pos hletter, (goOn_digits hk).1,
        if_neg (by decide), (goOn_digits hk).2]
  · cases h

theorem readFrac_end (bytes : List UInt8) : readFrac bytes bytes.length = .ok bytes.length := by
  rw [readFrac, List.getElem?_eq_none (Nat.le_refl _)]
  rfl

theorem readExp_end (bytes : List UInt8) : readExp bytes bytes.length = .ok bytes.length := by
  rw [readExp, List.getElem?_eq_none (Nat.le_refl _)]
  rfl

theorem skipDigits_le (hi : i ≤ bytes.length) : skipDigits bytes i ≤ bytes.length := by
  have hrun := List.Sublist.length_le (List.takeWhile_sublist (l := bytes.drop i) isDigit)
  rw [List.length_drop] at hrun
  unfold skipDigits
  omega

/-- A reader stays within the text, and looks at nothing behind where it stops. -/
structure Looks (read : List UInt8 → ℕ → Except ℕ ℕ) : Prop where
  within : ∀ {bytes i}, i ≤ bytes.length → i ≤ stop (read bytes i) ∧ stop (read bytes i) ≤ bytes.length
  same : ∀ {bytes other i n}, i ≤ bytes.length → EndsLike bytes other n → stop (read bytes i) ≤ n →
    read other i = read bytes i

theorem looks_readDigits : Looks readDigits where
  within {bytes i} hi := by
    refine ⟨EndsLike.le_stop bytes i, ?_⟩
    unfold readDigits
    split
    · exact skipDigits_le hi
    · exact hi
  same _ hlike := hlike.readDigits

theorem looks_readInt : Looks readInt where
  within {bytes i} hi := by
    unfold readInt
    split
    · exact ⟨Nat.le_refl i, hi⟩
    · next hat =>
      have hlt := (List.getElem?_eq_some_iff.mp hat).1
      split
      · exact ⟨Nat.le_succ i, hlt⟩
      · split
        · exact ⟨Nat.le_of_succ_le (le_skipDigits bytes (i + 1)), skipDigits_le hlt⟩
        · exact ⟨Nat.le_refl i, hi⟩
  same _ hlike := hlike.readInt

theorem looks_readFrac : Looks readFrac where
  within {bytes i} hi := by
    unfold readFrac
    split
    · next hpoint =>
      obtain ⟨hle, hlt⟩ := looks_readDigits.within (List.getElem?_eq_some_iff.mp hpoint).1
      exact ⟨Nat.le_of_succ_le hle, hlt⟩
    · exact ⟨Nat.le_refl i, hi⟩
  same _ hlike := hlike.readFrac

theorem looks_readExp : Looks readExp where
  within {bytes i} hi := by
    have hsome {m : ℕ} {b c : UInt8} (h : bytes[m]? = some b ∨ bytes[m]? = some c) : m + 1 ≤ bytes.length :=
      h.elim (fun h => (List.getElem?_eq_some_iff.mp h).1) fun h => (List.getElem?_eq_some_iff.mp h).1
    unfold readExp
    split
    · next hletter =>
      split
      · next hsign =>
        obtain ⟨hle, hlt⟩ := looks_readDigits.within (i := i + 2) (hsome hsign)
        exact ⟨by omega, hlt⟩
      · obtain ⟨hle, hlt⟩ := looks_readDigits.within (hsome hletter)
        exact ⟨Nat.le_of_succ_le hle, hlt⟩
    · exact ⟨Nat.le_refl i, hi⟩
  same _ hlike := hlike.readExp

/-- One reader and then another. -/
def andThen (read next : List UInt8 → ℕ → Except ℕ ℕ) (bytes : List UInt8) (i : ℕ) : Except ℕ ℕ :=
  (read bytes i).bind (next bytes)

section AndThen

variable {read next : List UInt8 → ℕ → Except ℕ ℕ}

theorem Looks.andThen (h : Looks read) (hnext : Looks next) : Looks (andThen read next) where
  within {bytes i} hi := by
    have hread := h.within hi
    unfold Json.andThen
    cases hk : read bytes i with
    | error k => rwa [hk] at hread
    | ok k =>
      rw [hk] at hread
      have hrest := hnext.within (i := k) hread.2
      exact ⟨hread.1.trans hrest.1, hrest.2⟩
  same {bytes other i n} hi hlike hn := by
    have hread := h.within hi
    unfold Json.andThen at hn ⊢
    cases hk : read bytes i with
    | error k =>
      rw [hk] at hn
      rw [h.same hi hlike (hk ▸ hn), hk]
      rfl
    | ok k =>
      rw [hk] at hread hn
      have hle := (hnext.within (i := k) hread.2).1.trans hn
      rw [h.same hi hlike (hk ▸ hle), hk]
      exact hnext.same hread.2 hlike hn

theorem mend_andThen (h : Looks read) (hend : ∀ bytes : List UInt8, next bytes bytes.length = .ok bytes.length)
    (hread : ∀ {k}, k ≤ bytes.length → read bytes i = .error k → read (goOn bytes k) i = .ok (k + 1))
    (hnext : ∀ {i k}, k ≤ bytes.length → next bytes i = .error k →
      i < k ∧ next (goOn bytes k) i = .ok (k + 1))
    (hi : i ≤ bytes.length) (hk : k ≤ bytes.length) (hstop : andThen read next bytes i = .error k) :
    andThen read next (goOn bytes k) i = .ok (k + 1) := by
  unfold andThen at hstop ⊢
  cases hfirst : read bytes i with
  | error m =>
    rw [hfirst] at hstop
    obtain rfl := Except.error.inj hstop
    have hlength : (goOn bytes m).length = m + 1 := by
      rw [goOn, List.length_append, List.length_take, Nat.min_eq_left hk]
      rfl
    rw [hread hk hfirst, ← hlength]
    exact hend _
  | ok a =>
    rw [hfirst] at hstop
    obtain ⟨hlt, hmend⟩ := hnext hk hstop
    rw [h.same hi (goOn_endsLike hk hlt) (hfirst ▸ Nat.le_refl a), hfirst]
    exact hmend

end AndThen

/-- Where the integer starts. -/
def start (bytes : List UInt8) : ℕ := if bytes[0]? = some 0x2d then 1 else 0

theorem start_le (bytes : List UInt8) : start bytes ≤ bytes.length := by
  unfold start
  split
  · next hminus => exact (List.getElem?_eq_some_iff.mp hminus).1
  · exact Nat.zero_le _

/-- The three parts of a number, read after one another. -/
def readParts : List UInt8 → ℕ → Except ℕ ℕ := andThen (andThen readInt readFrac) readExp

theorem looks_readParts : Looks readParts := (looks_readInt.andThen looks_readFrac).andThen looks_readExp

theorem validate_eq (bytes : List UInt8) : validateJsonNumber bytes =
    (readParts bytes (start bytes)).bind fun i => if i = bytes.length then .ok () else .error i := by
  unfold validateJsonNumber readParts andThen start
  cases readInt bytes (if bytes[0]? = some 0x2d then 1 else 0) with
  | error k => rfl
  | ok i =>
    show (readFrac bytes i >>= _) = Except.bind (Except.bind (readFrac bytes i) _) _
    cases readFrac bytes i with
    | error k => rfl
    | ok i => rfl

theorem EndsLike.start (h : EndsLike bytes other n) (hn : Json.start bytes ≤ n) :
    Json.start other = Json.start bytes := by
  unfold Json.start at hn ⊢
  by_cases hminus : bytes[0]? = some 0x2d
  · rw [if_pos hminus] at hn
    rw [h.eq_of_lt hn]
  · rw [if_neg hminus]
    refine if_neg fun heq => ?_
    rcases (h.mono (Nat.zero_le n)).at_ with hsame | hnone
    · exact hminus (hsame.symm.trans heq)
    · rw [hnone] at heq
      cases heq

theorem goOn_start (hk : k ≤ bytes.length) (hle : start bytes ≤ k) : start (goOn bytes k) = start bytes := by
  rcases Nat.lt_or_eq_of_le hle with hlt | rfl
  · exact (goOn_endsLike hk hlt).start (Nat.le_refl _)
  · cases bytes with
    | nil => rfl
    | cons b rest =>
      by_cases hb : b = 0x2d
      · rw [hb]
        rfl
      · have hstart : start (b :: rest) = 0 := if_neg fun heq => hb (Option.some.inj heq)
        rw [hstart]
        rfl

theorem readParts_goOn (h : readParts bytes (start bytes) = .error k) :
    readParts (goOn bytes k) (start (goOn bytes k)) = .ok (k + 1) := by
  obtain ⟨hle, hk⟩ := looks_readParts.within (start_le bytes)
  rw [h] at hle hk
  rw [goOn_start (k := k) hk hle]
  refine mend_andThen (looks_readInt.andThen looks_readFrac) readExp_end (fun hk h => ?_) goOn_readExp
    (start_le bytes) hk h
  exact mend_andThen looks_readInt readFrac_end goOn_readInt goOn_readFrac (start_le bytes) hk h

/-- The grammar's numbers are accepted; any other text is refused with the length of its longest prefix
that goes on to a number. -/
theorem validate_exact (bytes : List UInt8) :
    (validateJsonNumber bytes = .ok () ↔ Derives bytes) ∧
    ∀ k, validateJsonNumber bytes = .error k → k ≤ bytes.length ∧
      (∃ more, Derives (bytes.take k ++ more)) ∧
      ∀ j, k < j → j ≤ bytes.length → ∀ more, ¬ Derives (bytes.take j ++ more) := by
  refine ⟨derives_iff.symm, fun k hrefused => ?_⟩
  have hstop : stop (readParts bytes (start bytes)) = k := by
    rw [validate_eq] at hrefused
    cases hparts : readParts bytes (start bytes) with
    | error m =>
      rw [hparts] at hrefused
      exact Except.error.inj hrefused
    | ok m =>
      rw [hparts] at hrefused
      dsimp only [Except.bind] at hrefused
      split at hrefused
      · cases hrefused
      · exact Except.error.inj hrefused
  obtain ⟨hle, hk⟩ := looks_readParts.within (start_le bytes)
  rw [hstop] at hle hk
  have hlikes {other : List UInt8} (hlike : EndsLike bytes other k) :
      readParts other (start other) = readParts bytes (start bytes) := by
    rw [hlike.start hle]
    exact looks_readParts.same (start_le bytes) hlike hstop.le
  refine ⟨hk, ?_, fun j hj hjl more hderives => ?_⟩
  · cases hparts : readParts bytes (start bytes) with
    | error m =>
      obtain rfl : m = k := by rwa [hparts] at hstop
      refine ⟨[0x30], derives_iff.mpr ?_⟩
      rw [validate_eq, show bytes.take m ++ [0x30] = goOn bytes m from rfl, readParts_goOn hparts]
      refine if_pos ?_
      rw [goOn, List.length_append, List.length_take, Nat.min_eq_left hk]
      rfl
    | ok m =>
      obtain rfl : m = k := by rwa [hparts] at hstop
      have hlike : EndsLike bytes (bytes.take m) m :=
        ⟨fun i hi => List.getElem?_take_of_lt hi, .inr (by simp)⟩
      refine ⟨[], derives_iff.mpr ?_⟩
      rw [List.append_nil, validate_eq, hlikes hlike, hparts]
      exact if_pos (by rw [List.length_take, Nat.min_eq_left hk])
  · have hlength : k < (bytes.take j ++ more).length := by
      rw [List.length_append, List.length_take, Nat.min_eq_left hjl]
      omega
    have hsame {m : ℕ} (hm : m < j) : (bytes.take j ++ more)[m]? = bytes[m]? := by
      rw [List.getElem?_append_left (by rw [List.length_take]; omega), List.getElem?_take_of_lt hm]
    have hlike : EndsLike bytes (bytes.take j ++ more) k :=
      ⟨fun m hm => hsame (hm.trans hj), .inl (hsame hj)⟩
    have haccepted := derives_iff.mp hderives
    rw [validate_eq, hlikes hlike] at haccepted
    cases hparts : readParts bytes (start bytes) with
    | error m =>
      rw [hparts] at haccepted
      cases haccepted
    | ok m =>
      obtain rfl : m = k := by rwa [hparts] at hstop
      rw [hparts] at haccepted
      dsimp only [Except.bind] at haccepted
      rw [if_neg hlength.ne] at haccepted
      cases haccepted

end Stops

end Guatiao.Library.Json
