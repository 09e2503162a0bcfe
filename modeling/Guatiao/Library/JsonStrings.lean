import Mathlib
import Guatiao.Lib.JsonText

/-!
# The strings of a JSON text

A string is read up to its closing quote, run by run and escape by escape. What is read is what the
grammar derives, where the units outside the basic plane come in pairs.
-/

namespace Guatiao.Library.Json

open Lib

/-- Where the text stopped being JSON, as what was left of it, and why. -/
abbrev Stopped := List Char × String

/-- The number of a hexadecimal digit. -/
def digit (c : Char) : ℕ :=
  if c.toNat ≤ '9'.toNat then c.toNat - '0'.toNat
  else if c.toNat ≤ 'F'.toNat then c.toNat - 'A'.toNat + 10
  else c.toNat - 'a'.toNat + 10

/-- Whether a character is a hexadecimal digit. -/
def isHexDigit (c : Char) : Bool :=
  ('0' ≤ c && c ≤ '9') || ('a' ≤ c && c ≤ 'f') || ('A' ≤ c && c ≤ 'F')

/-- The code unit four hexadecimal digits name. -/
def hex4 (rest : List Char) : Except Stopped (ℕ × List Char) :=
  let digits := rest.take 4
  if digits.length = 4 ∧ digits.all isHexDigit then
    .ok (digits.foldl (fun code c => code * 16 + digit c) 0, rest.drop 4)
  else .error (rest, "four hexadecimal digits")

/-- `char::from_u32` -/
def fromU32 (code : ℕ) : Option Char := if code.isValidChar then some (.ofNat code) else none

/-- The code point a `\u` escape names, past the `u`: a pair of escapes for one outside the basic
plane. -/
def codePoint (rest : List Char) : Except Stopped (ℕ × List Char) :=
  match hex4 rest with
  | .error stopped => .error stopped
  | .ok (high, rest) =>
    if 0xd800 ≤ high ∧ high < 0xdc00 then
      if !"\\u".toList.isPrefixOf rest then .error (rest, "the second half of a surrogate pair")
      else
        match hex4 (rest.drop 2) with
        | .error stopped => .error stopped
        | .ok (low, rest) =>
          if ¬ (0xdc00 ≤ low ∧ low < 0xe000) then .error (rest, "the second half of a surrogate pair")
          else .ok (0x10000 + (high - 0xd800) <<< 10 + (low - 0xdc00), rest)
    else .ok (high, rest)

/-- The character a `\u` escape names. -/
def unicode (rest : List Char) : Except Stopped (Char × List Char) :=
  match codePoint rest with
  | .error stopped => .error stopped
  | .ok (code, rest) =>
    match fromU32 code with
    | some c => .ok (c, rest)
    | none => .error (rest, "a character, not half of a surrogate pair")

/-- The character an escape of one character names. -/
def escaped (c : Char) : Option Char :=
  if c == '"' then some '"'
  else if c == '\\' then some '\\'
  else if c == '/' then some '/'
  else if c == 'b' then some (.ofNat 0x8)
  else if c == 'f' then some (.ofNat 0xc)
  else if c == 'n' then some '\n'
  else if c == 'r' then some '\r'
  else if c == 't' then some '\t'
  else none

variable {rest after : List Char} {code high low : ℕ} {c : Char}

theorem hex4_length (h : hex4 rest = .ok (code, after)) :
    after.length < rest.length := by
  simp only [hex4] at h
  split at h
  · next hdigits =>
    cases h
    rw [List.length_take] at hdigits
    rw [List.length_drop]
    omega
  · cases h

theorem codePoint_length (h : codePoint rest = .ok (code, after)) : after.length < rest.length := by
  rw [codePoint] at h
  split at h
  · cases h
  · next high behind hhigh =>
    have hshort := hex4_length hhigh
    split at h
    · split at h
      · cases h
      · split at h
        · cases h
        · next low end_ hlow =>
          have hshorter := hex4_length hlow
          rw [List.length_drop] at hshorter
          split at h
          · cases h
          · obtain ⟨-, rfl⟩ := Prod.mk.inj (Except.ok.inj h)
            omega
    · cases h
      exact hshort

theorem unicode_length (h : unicode rest = .ok (c, after)) :
    after.length < rest.length := by
  rw [unicode] at h
  split at h
  · cases h
  · next code behind hcode =>
    split at h
    · cases h
      exact codePoint_length hcode
    · cases h

/-- The loop of `string`, with what it has read. -/
def stringFrom (out : List Char) (rest : List Char) : Except Stopped (List Char × List Char) :=
  match rest with
  | [] => .error ([], "the closing quote")
  | c :: after =>
    if c == '"' then .ok (out, after)
    else if c == '\\' then
      match after with
      | [] => .error ([], "an escape JSON defines")
      | e :: behind =>
        if e == 'u' then
          match _h : unicode behind with
          | .error stopped => .error stopped
          | .ok (c, rest) => stringFrom (out ++ [c]) rest
        else
          match escaped e with
          | some c => stringFrom (out ++ [c]) behind
          | none => .error (after, "an escape JSON defines")
    else if c.toNat ≤ 0x1f then .error (rest, "a control character escaped")
    else stringFrom (out ++ [c]) after
termination_by rest.length
decreasing_by
  · have := unicode_length _h
    simp only [List.length_cons]
    omega
  · simp
  · simp

/-- A string at its opening quote, unescaped. -/
def string (rest : List Char) : Except Stopped (String × List Char) :=
  match stringFrom [] rest.tail with
  | .error stopped => .error stopped
  | .ok (out, rest) => .ok (.ofList out, rest)

theorem le_iff_toNat_le {a b : Char} : a ≤ b ↔ a.toNat ≤ b.toNat := by
  rw [Char.le_def, UInt32.le_iff_toNat_le]
  rfl

theorem hexDigit_eq (c : Char) : JsonText.hexDigit c = if isHexDigit c then some (digit c) else none := by
  simp only [JsonText.hexDigit, isHexDigit, digit, le_iff_toNat_le, Bool.or_eq_true, Bool.and_eq_true,
    decide_eq_true_eq]
  have hdigits : '0'.toNat = 48 ∧ '9'.toNat = 57 ∧ 'A'.toNat = 65 ∧ 'F'.toNat = 70 ∧ 'a'.toNat = 97 ∧
      'f'.toNat = 102 := by decide
  obtain ⟨h0, h9, hA, hF, ha, hf⟩ := hdigits
  rw [h0, h9, hA, hF, ha, hf]
  split_ifs <;> first | rfl | omega

theorem escaped_eq (c : Char) : escaped c = JsonText.escape c := by
  unfold escaped JsonText.escape
  by_cases hquote : c = '"'
  · subst hquote; rfl
  · by_cases hback : c = '\\'
    · subst hback; rfl
    · by_cases hslash : c = '/'
      · subst hslash; rfl
      · simp [hquote, hback, hslash]

theorem hex4_text (w x y z : Char) : JsonText.hex4 w x y z =
    if [w, x, y, z].all isHexDigit then
      some ([w, x, y, z].foldl (fun code c => code * 16 + digit c) 0) else none := by
  simp only [JsonText.hex4, hexDigit_eq, List.all_cons, List.all_nil, List.foldl_cons, List.foldl_nil]
  by_cases hw : isHexDigit w <;> by_cases hx : isHexDigit x <;> by_cases hy : isHexDigit y <;>
    by_cases hz : isHexDigit z <;> simp [hw, hx, hy, hz]

theorem hex4_iff : hex4 rest = .ok (code, after) ↔
    ∃ w x y z, rest = w :: x :: y :: z :: after ∧ JsonText.hex4 w x y z = some code := by
  constructor
  · intro h
    simp only [hex4] at h
    split at h
    · next hdigits =>
      obtain ⟨hlength, hall⟩ := hdigits
      rcases rest with _ | ⟨w, _ | ⟨x, _ | ⟨y, _ | ⟨z, rest⟩⟩⟩⟩
      · cases hlength
      · cases hlength
      · cases hlength
      · cases hlength
      · obtain ⟨hcode, rfl⟩ := Prod.mk.inj (Except.ok.inj h)
        have hfour : [w, x, y, z].all isHexDigit = true := hall
        exact ⟨w, x, y, z, rfl, by rw [hex4_text, if_pos hfour, ← hcode]; rfl⟩
    · cases h
  · rintro ⟨w, x, y, z, rfl, h⟩
    rw [hex4_text] at h
    split at h
    · next hall =>
      obtain rfl := Option.some.inj h
      simp only [hex4]
      rw [if_pos ⟨rfl, hall⟩]
      rfl
    · cases h

theorem not_surrogate_iff : JsonText.isHigh code = false ∧ JsonText.isLow code = false ↔
    ¬ (0xd800 ≤ code ∧ code < 0xe000) := by
  simp only [JsonText.isHigh, JsonText.isLow, Bool.and_eq_false_iff, decide_eq_false_iff_not]
  omega

theorem hexDigit_lt {n : ℕ} (h : JsonText.hexDigit c = some n) : n < 16 := by
  simp only [JsonText.hexDigit, le_iff_toNat_le] at h
  have hdigits : '0'.toNat = 48 ∧ '9'.toNat = 57 ∧ 'A'.toNat = 65 ∧ 'F'.toNat = 70 ∧ 'a'.toNat = 97 ∧
      'f'.toNat = 102 := by decide
  obtain ⟨h0, h9, hA, hF, ha, hf⟩ := hdigits
  rw [h0, h9, hA, hF, ha, hf] at h
  split_ifs at h <;> cases h <;> omega

theorem hex4_lt {w x y z : Char} (h : JsonText.hex4 w x y z = some code) :
    code < 0x10000 := by
  obtain ⟨a, ha, h⟩ := Option.bind_eq_some_iff.mp h
  obtain ⟨b, hb, h⟩ := Option.bind_eq_some_iff.mp h
  obtain ⟨c, hc, h⟩ := Option.bind_eq_some_iff.mp h
  obtain ⟨d, hd, h⟩ := Option.bind_eq_some_iff.mp h
  have ha := hexDigit_lt ha
  have hb := hexDigit_lt hb
  have hc := hexDigit_lt hc
  have hd := hexDigit_lt hd
  obtain rfl := Option.some.inj h
  omega

theorem characters_unit (h : ¬ (0xd800 ≤ code ∧ code < 0xe000)) (rest : List JsonText.Item) :
    JsonText.characters (.unit code :: rest) =
      (JsonText.characters rest).map (Char.ofNat code :: ·) := by
  obtain ⟨hhigh, hlow⟩ := not_surrogate_iff.mpr h
  cases rest with
  | nil => simp [JsonText.characters, hhigh, hlow]
  | cons item rest => cases item <;> simp [JsonText.characters, hhigh, hlow]

theorem characters_pair (hhigh : JsonText.isHigh high = true)
    (hlow : JsonText.isLow low = true) (rest : List JsonText.Item) :
    JsonText.characters (.unit high :: .unit low :: rest) =
      (JsonText.characters rest).map (JsonText.paired high low :: ·) := by
  rw [JsonText.characters, if_pos hhigh, if_pos hlow]

/-- What is read behind a `u`: one unit that is no half of a pair, or two that are one. -/
inductive Unit : List Char → List Char → Char → Prop
  | one {w x y z : Char} {code : ℕ} {rest : List Char} (hcode : JsonText.hex4 w x y z = some code)
      (hwhole : ¬ (0xd800 ≤ code ∧ code < 0xe000)) :
      Unit (w :: x :: y :: z :: rest) rest (.ofNat code)
  | two {w x y z w' x' y' z' : Char} {high low : ℕ} {rest : List Char}
      (hhigh : JsonText.hex4 w x y z = some high) (hlow : JsonText.hex4 w' x' y' z' = some low)
      (hfirst : JsonText.isHigh high = true) (hsecond : JsonText.isLow low = true) :
      Unit (w :: x :: y :: z :: '\\' :: 'u' :: w' :: x' :: y' :: z' :: rest) rest
        (JsonText.paired high low)

theorem fromU32_eq (h : code < 0x110000) : fromU32 code =
    if 0xd800 ≤ code ∧ code < 0xe000 then none else some (.ofNat code) := by
  have hvalid : code.isValidChar ↔ ¬ (0xd800 ≤ code ∧ code < 0xe000) := by
    unfold Nat.isValidChar
    omega
  rw [fromU32]
  by_cases hsurrogate : 0xd800 ≤ code ∧ code < 0xe000
  · rw [if_neg (fun hchar => hvalid.mp hchar hsurrogate), if_pos hsurrogate]
  · rw [if_pos (hvalid.mpr hsurrogate), if_neg hsurrogate]

theorem isHigh_iff : JsonText.isHigh code = true ↔ 0xd800 ≤ code ∧ code < 0xdc00 := by
  simp [JsonText.isHigh]

theorem isLow_iff : JsonText.isLow code = true ↔ 0xdc00 ≤ code ∧ code < 0xe000 := by
  simp [JsonText.isLow]

theorem paired_eq (hhigh : JsonText.isHigh high = true) (hlow : JsonText.isLow low = true) :
    fromU32 (0x10000 + (high - 0xd800) <<< 10 + (low - 0xdc00)) = some (JsonText.paired high low) := by
  rw [isHigh_iff] at hhigh
  rw [isLow_iff] at hlow
  have hshift : (high - 0xd800) <<< 10 = (high - 0xd800) * 0x400 := Nat.shiftLeft_eq _ _
  rw [hshift, fromU32_eq (by omega), if_neg (by omega)]
  rfl

theorem codePoint_one (h : hex4 rest = .ok (code, after))
    (hfirst : ¬ (0xd800 ≤ code ∧ code < 0xdc00)) : codePoint rest = .ok (code, after) := by
  rw [codePoint, h]
  exact if_neg hfirst

theorem codePoint_two {behind : List Char}
    (hhigh : hex4 rest = .ok (high, '\\' :: 'u' :: behind)) (hlow : hex4 behind = .ok (low, after))
    (hfirst : 0xd800 ≤ high ∧ high < 0xdc00) (hsecond : 0xdc00 ≤ low ∧ low < 0xe000) :
    codePoint rest = .ok (0x10000 + (high - 0xd800) <<< 10 + (low - 0xdc00), after) := by
  have hprefix : "\\u".toList.isPrefixOf ('\\' :: 'u' :: behind) = true := by simp
  simp only [codePoint, hhigh, if_pos hfirst, hprefix, Bool.not_true, Bool.false_eq_true, if_false,
    List.drop_succ_cons, List.drop_zero, hlow, not_true_eq_false, hsecond, and_self]

theorem codePoint_cases (h : codePoint rest = .ok (code, after)) :
    (hex4 rest = .ok (code, after) ∧ ¬ (0xd800 ≤ code ∧ code < 0xdc00)) ∨
      ∃ high low behind, hex4 rest = .ok (high, '\\' :: 'u' :: behind) ∧
        hex4 behind = .ok (low, after) ∧ (0xd800 ≤ high ∧ high < 0xdc00) ∧
          (0xdc00 ≤ low ∧ low < 0xe000) ∧
            code = 0x10000 + (high - 0xd800) <<< 10 + (low - 0xdc00) := by
  rw [codePoint] at h
  split at h
  · cases h
  · next high behind hhigh =>
    split at h
    · next hfirst =>
      split at h
      · cases h
      · next hprefix =>
        split at h
        · cases h
        · next low end_ hlow =>
          split at h
          · cases h
          · next hsecond =>
            obtain ⟨hcode, rfl⟩ := Prod.mk.inj (Except.ok.inj h)
            have hpre : "\\u".toList <+: behind := by simpa using hprefix
            obtain ⟨tail, rfl⟩ := hpre
            exact .inr ⟨high, low, tail, hhigh, hlow, hfirst, not_not.mp hsecond, hcode.symm⟩
    · next hfirst =>
      obtain ⟨rfl, rfl⟩ := Prod.mk.inj (Except.ok.inj h)
      exact .inl ⟨hhigh, hfirst⟩

theorem unicode_of_codePoint (hcode : codePoint rest = .ok (code, after)) (hchar : fromU32 code = some c) :
    unicode rest = .ok (c, after) := by
  simp only [unicode, hcode, hchar]

theorem unicode_cases (h : unicode rest = .ok (c, after)) :
    ∃ code, codePoint rest = .ok (code, after) ∧ fromU32 code = some c := by
  rw [unicode] at h
  split at h
  · cases h
  · next code behind hcode =>
    split at h
    · next hchar =>
      obtain ⟨rfl, rfl⟩ := Prod.mk.inj (Except.ok.inj h)
      exact ⟨code, hcode, hchar⟩
    · cases h

theorem unicode_iff :
    unicode rest = .ok (c, after) ↔ Unit rest after c := by
  constructor
  · intro h
    obtain ⟨code, hcode, hchar⟩ := unicode_cases h
    rcases codePoint_cases hcode with ⟨hread, hfirst⟩ |
      ⟨high, low, behind, hread, hread', hfirst, hsecond, hpair⟩
    · obtain ⟨w, x, y, z, rfl, htext⟩ := hex4_iff.mp hread
      have hlt := hex4_lt htext
      rw [fromU32_eq (by omega)] at hchar
      split at hchar
      · cases hchar
      · next hwhole =>
        obtain rfl := Option.some.inj hchar
        exact .one htext hwhole
    · obtain ⟨w, x, y, z, rfl, htext⟩ := hex4_iff.mp hread
      obtain ⟨w', x', y', z', rfl, htext'⟩ := hex4_iff.mp hread'
      rw [hpair, paired_eq (isHigh_iff.mpr hfirst) (isLow_iff.mpr hsecond)] at hchar
      obtain rfl := Option.some.inj hchar
      exact .two htext htext' (isHigh_iff.mpr hfirst) (isLow_iff.mpr hsecond)
  · intro h
    cases h with
    | one hcode hwhole =>
      have hlt := hex4_lt hcode
      refine unicode_of_codePoint (codePoint_one (hex4_iff.mpr ⟨_, _, _, _, rfl, hcode⟩)
        (by omega)) ?_
      rw [fromU32_eq (by omega), if_neg hwhole]
    | two hhigh hlow hfirst hsecond =>
      exact unicode_of_codePoint (codePoint_two (hex4_iff.mpr ⟨_, _, _, _, rfl, hhigh⟩)
        (hex4_iff.mpr ⟨_, _, _, _, rfl, hlow⟩) (isHigh_iff.mp hfirst) (isLow_iff.mp hsecond))
        (paired_eq hfirst hsecond)

section String

variable {out rest after text : List Char} {items : List JsonText.Item}

theorem stringFrom_quote (out after : List Char) : stringFrom out ('"' :: after) = .ok (out, after) := by
  rw [stringFrom.eq_def]
  rfl

variable {c : Char}

theorem stringFrom_plain (hc : JsonText.isPlain c = true) (out after : List Char) :
    stringFrom out (c :: after) = stringFrom (out ++ [c]) after := by
  simp only [JsonText.isPlain, Bool.and_eq_true, bne_iff_ne, decide_eq_true_eq] at hc
  have hcontrol : ¬ c.toNat ≤ 0x1f := by omega
  rw [stringFrom.eq_def]
  simp only [beq_iff_eq, hc.1.1, hc.1.2, hcontrol, if_false]

theorem stringFrom_escape {e : Char} (he : escaped e = some c) (out after : List Char) :
    stringFrom out ('\\' :: e :: after) = stringFrom (out ++ [c]) after := by
  have hu : e ≠ 'u' := by
    rintro rfl
    cases he
  rw [stringFrom.eq_def]
  simp [hu, he]

theorem stringFrom_unicode (h : unicode rest = .ok (c, after)) (out : List Char) :
    stringFrom out ('\\' :: 'u' :: rest) = stringFrom (out ++ [c]) after := by
  rw [stringFrom.eq_def]
  simp only [beq_self_eq_true, if_true, show ('\\' == '"') = false from rfl, Bool.false_eq_true, if_false]
  split
  · next hstopped => rw [h] at hstopped; cases hstopped
  · next hread =>
    rw [h] at hread
    obtain ⟨rfl, rfl⟩ := Prod.mk.inj (Except.ok.inj hread)
    rfl

theorem Unit.quoted {chars : List Char} (h : Unit rest after c) {behind : List Char}
    (hquoted : JsonText.Quoted after behind items) (hchars : JsonText.characters items = some chars) :
    ∃ items', JsonText.Quoted ('\\' :: 'u' :: rest) behind items' ∧
      JsonText.characters items' = some (c :: chars) := by
  cases h with
  | one hcode hwhole =>
    exact ⟨_, .unit hcode hquoted, by rw [characters_unit hwhole, hchars]; rfl⟩
  | two hhigh hlow hfirst hsecond =>
    exact ⟨_, .unit hhigh (.unit hlow hquoted), by rw [characters_pair hfirst hsecond, hchars]; rfl⟩

theorem quoted_of_stringFrom (h : stringFrom out rest = .ok (text, after)) :
    ∃ items chars, JsonText.Quoted rest after items ∧ JsonText.characters items = some chars ∧
      text = out ++ chars := by
  induction out, rest using stringFrom.induct with
  | case1 out => rw [stringFrom.eq_def] at h; cases h
  | case2 out c behind hquote =>
    obtain rfl := beq_iff_eq.mp hquote
    rw [stringFrom_quote] at h
    obtain ⟨rfl, rfl⟩ := Prod.mk.inj (Except.ok.inj h)
    exact ⟨[], [], .close behind, rfl, (List.append_nil _).symm⟩
  | case3 out c hquote hback =>
    obtain rfl := beq_iff_eq.mp hback
    rw [stringFrom.eq_def] at h
    cases h
  | case4 out c hquote hback e behind hu stopped hstopped =>
    obtain rfl := beq_iff_eq.mp hback
    obtain rfl := beq_iff_eq.mp hu
    rw [stringFrom.eq_def] at h
    simp only [beq_self_eq_true, if_true, hquote, Bool.false_eq_true, if_false] at h
    split at h
    · cases h
    · next hread => rw [hstopped] at hread; cases hread
  | case5 out c hquote hback e behind hu char rest hread ih =>
    obtain rfl := beq_iff_eq.mp hback
    obtain rfl := beq_iff_eq.mp hu
    rw [stringFrom_unicode hread] at h
    obtain ⟨items, chars, hquoted, hchars, htext⟩ := ih h
    obtain ⟨items', hquoted', hchars'⟩ := (unicode_iff.mp hread).quoted hquoted hchars
    exact ⟨items', char :: chars, hquoted', hchars', by rw [htext, List.append_assoc]; rfl⟩
  | case6 out c hquote hback e behind hu char hescaped ih =>
    obtain rfl := beq_iff_eq.mp hback
    rw [stringFrom_escape hescaped] at h
    obtain ⟨items, chars, hquoted, hchars, htext⟩ := ih h
    rw [escaped_eq] at hescaped
    exact ⟨.char char :: items, char :: chars, .escaped hescaped hquoted,
      by rw [JsonText.characters, hchars]; rfl, by rw [htext, List.append_assoc]; rfl⟩
  | case7 out c hquote hback e behind hu hescaped =>
    obtain rfl := beq_iff_eq.mp hback
    rw [stringFrom.eq_def] at h
    simp only [beq_self_eq_true, if_true, hquote, hu, hescaped] at h
    cases h
  | case8 out c behind hquote hback hcontrol =>
    rw [stringFrom.eq_def] at h
    simp only [hquote, hback, hcontrol, if_true] at h
    cases h
  | case9 out c behind hquote hback hcontrol ih =>
    have hplain : JsonText.isPlain c = true := by
      rw [beq_iff_eq] at hquote hback
      simp only [JsonText.isPlain, Bool.and_eq_true, bne_iff_ne, decide_eq_true_eq]
      exact ⟨⟨hquote, hback⟩, by omega⟩
    rw [stringFrom_plain hplain] at h
    obtain ⟨items, chars, hquoted, hchars, htext⟩ := ih h
    exact ⟨.char c :: items, c :: chars, .plain hplain hquoted,
      by rw [JsonText.characters, hchars]; rfl, by rw [htext, List.append_assoc]; rfl⟩

theorem stringFrom_char {behind : List Char} (hquoted : JsonText.Quoted rest behind (.char c :: items)) :
    ∃ after, JsonText.Quoted after behind items ∧
      ∀ out, stringFrom out rest = stringFrom (out ++ [c]) after := by
  cases hquoted with
  | plain hc h => exact ⟨_, h, fun out => stringFrom_plain hc out _⟩
  | escaped he h =>
    rw [← escaped_eq] at he
    exact ⟨_, h, fun out => stringFrom_escape he out _⟩

/-- What a string writes is read, where its units come in pairs. -/
theorem stringFrom_of_quoted {chars : List Char} (hquoted : JsonText.Quoted rest after items)
    (hchars : JsonText.characters items = some chars) (out : List Char) :
    stringFrom out rest = .ok (out ++ chars, after) := by
  induction items using JsonText.characters.induct generalizing out rest chars with
  | case1 =>
    cases hquoted
    cases hchars
    rw [stringFrom_quote, List.append_nil]
  | case2 c items ih =>
    obtain ⟨tail, htail, rfl⟩ := Option.map_eq_some_iff.mp hchars
    obtain ⟨behind, hbehind, hstep⟩ := stringFrom_char hquoted
    rw [hstep, ih hbehind htail, List.append_assoc]
    rfl
  | case3 high low items hhigh hlow ih =>
    rw [characters_pair hhigh hlow] at hchars
    obtain ⟨tail, htail, rfl⟩ := Option.map_eq_some_iff.mp hchars
    cases hquoted with
    | unit hcode hquoted =>
      cases hquoted with
      | unit hcode' hquoted =>
        rw [stringFrom_unicode (unicode_iff.mpr (.two hcode hcode' hhigh hlow)), ih hquoted htail,
          List.append_assoc]
        rfl
  | case4 high low items hhigh hlow =>
    rw [JsonText.characters, if_pos hhigh, if_neg hlow] at hchars
    cases hchars
  | case5 high low items hhigh hlow =>
    rw [JsonText.characters, if_neg hhigh, if_pos hlow] at hchars
    cases hchars
  | case6 high low items hhigh hlow ih =>
    rw [JsonText.characters, if_neg hhigh, if_neg hlow] at hchars
    obtain ⟨tail, htail, rfl⟩ := Option.map_eq_some_iff.mp hchars
    cases hquoted with
    | unit hcode hquoted =>
      have hwhole := not_surrogate_iff.mp ⟨Bool.not_eq_true _ ▸ hhigh, Bool.not_eq_true _ ▸ hlow⟩
      rw [stringFrom_unicode (unicode_iff.mpr (.one hcode hwhole)), ih hquoted htail,
        List.append_assoc]
      rfl
  | case7 code items halone hnone =>
    rw [JsonText.characters, if_pos hnone] at hchars
    · cases hchars
    · exact halone
  | case8 code items halone hwhole ih =>
    rw [Bool.or_eq_true, not_or] at hwhole
    have hwhole' := not_surrogate_iff.mp ⟨Bool.not_eq_true _ ▸ hwhole.1, Bool.not_eq_true _ ▸ hwhole.2⟩
    rw [characters_unit hwhole'] at hchars
    obtain ⟨tail, htail, rfl⟩ := Option.map_eq_some_iff.mp hchars
    cases hquoted with
    | unit hcode hquoted =>
      rw [stringFrom_unicode (unicode_iff.mpr (.one hcode hwhole')), ih hquoted htail,
        List.append_assoc]
      rfl

theorem string_iff {name : String} : string ('"' :: rest) = .ok (name, after) ↔
    ∃ items chars, JsonText.Quoted rest after items ∧ JsonText.characters items = some chars ∧
      name = .ofList chars := by
  constructor
  · intro h
    rw [string, List.tail_cons] at h
    split at h
    · cases h
    · next hread =>
      obtain ⟨rfl, rfl⟩ := Prod.mk.inj (Except.ok.inj h)
      obtain ⟨items, chars, hquoted, hchars, rfl⟩ := quoted_of_stringFrom hread
      exact ⟨items, _, hquoted, hchars, rfl⟩
  · rintro ⟨items, chars, hquoted, hchars, rfl⟩
    rw [string, List.tail_cons, stringFrom_of_quoted hquoted hchars, List.nil_append]

end String

end Guatiao.Library.Json
