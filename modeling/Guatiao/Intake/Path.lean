import Mathlib.Data.List.Basic
import Mathlib.Data.Nat.Digits.Lemmas

/-!
# Naming one place inside a value

A path is text: names after dots, positions and keys in brackets. The grammar is read one
segment at a time, and a segment is spelled so that it reads back as itself whatever
follows it. Text is the list of its characters, and places in it are counted in them until
`parse` answers an error, whose place is counted in bytes.
-/

namespace Guatiao.Intake

/-- A text, as its characters. -/
abbrev Text := List Char

/-- One step of a path. -/
inductive Segment
  /-- `name`, or `.name` after another segment. -/
  | field (name : Text)
  /-- `[0]`: a position, or the entry under its decimal text. -/
  | index (at_ : ℕ)
  /-- `[name]` or `["a.b"]`: an entry of a map, and never a position. -/
  | key (key : Text)
  deriving DecidableEq

/-- The characters that end a field-name segment. -/
def nameEnds (c : Char) : Bool := c == '.' || c == '[' || c == ']'

/-- Whether a name can be a field segment as written. -/
def isBareName (name : Text) : Bool := !name.isEmpty && !name.any nameEnds

/-- How many values a `usize` has. -/
def usizeCount : ℕ := 2 ^ 64

/-- The position a text spells inside a bare bracket, if it spells one. -/
def indexOf (text : Text) : Option ℕ :=
  if text.isEmpty || !text.all Char.isDigit then none
  else if 1 < text.length && text.head? == some '0' then none
  else
    let at_ := Nat.ofDigitChars 10 text 0
    if at_ < usizeCount then some at_ else none

/-- Whether writing a key bare would parse back as something else. -/
def needsQuoting (key : Text) : Bool :=
  key.isEmpty || key.head? == some '"' || key.any (fun c => c == '[' || c == ']') ||
    (indexOf key).isSome

/-- A key between quotes, with its quotes and backslashes escaped. -/
def escaped : Text → Text
  | [] => []
  | c :: rest => if c == '"' || c == '\\' then '\\' :: c :: escaped rest else c :: escaped rest

/-- The spelling a segment parses back from. -/
def Segment.display : Segment → Text
  | .field name => name
  | .index at_ => '[' :: (toString at_).toList ++ [']']
  | .key k => if needsQuoting k then '[' :: '"' :: escaped k ++ ['"', ']'] else '[' :: k ++ [']']

/-- Why a text is not a path, and where. -/
inductive PathError
  | empty
  /-- A field name with no characters. -/
  | emptyField (at_ : ℕ)
  /-- `[]`. -/
  | emptyIndex (at_ : ℕ)
  /-- A `[` with no `]` after it. -/
  | unclosedIndex (at_ : ℕ)
  /-- A quote with no closing one. -/
  | unclosedQuote (at_ : ℕ)
  /-- A backslash before a character that is neither a quote nor one. -/
  | badEscape (at_ : ℕ)
  /-- A `]` where no `[` is open. -/
  | unexpectedClose (at_ : ℕ)
  /-- Something after a closing quote other than `]`. -/
  | trailingQuote (at_ : ℕ)
  /-- A segment after a bracket that starts with neither `.` nor `[`. -/
  | missingSeparator (at_ : ℕ)
  deriving DecidableEq

/-- An error at another place. -/
def PathError.movedBy (place : ℕ → ℕ) : PathError → PathError
  | .empty => .empty
  | .emptyField at_ => .emptyField (place at_)
  | .emptyIndex at_ => .emptyIndex (place at_)
  | .unclosedIndex at_ => .unclosedIndex (place at_)
  | .unclosedQuote at_ => .unclosedQuote (place at_)
  | .badEscape at_ => .badEscape (place at_)
  | .unexpectedClose at_ => .unexpectedClose (place at_)
  | .trailingQuote at_ => .trailingQuote (place at_)
  | .missingSeparator at_ => .missingSeparator (place at_)

/-- An error's place, moved from inside a part to inside the whole. -/
def offsetBy (by_ : ℕ) : PathError → PathError := .movedBy (· + by_)

/-- The loop of `quotedKey`, with what it has read and how much that was. -/
def quotedFrom (out : Text) (at_ : ℕ) : Text → Except PathError (Text × ℕ)
  | [] => .error (.unclosedQuote 0)
  | '"' :: _ => .ok (out, at_ + 1)
  | '\\' :: '"' :: rest => quotedFrom (out ++ ['"']) (at_ + 2) rest
  | '\\' :: '\\' :: rest => quotedFrom (out ++ ['\\']) (at_ + 2) rest
  | '\\' :: _ => .error (.badEscape (at_ + 1))
  | c :: rest => quotedFrom (out ++ [c]) (at_ + 1) rest

/-- A quoted key, from just after the opening quote, and how much it took. -/
def quotedKey (quoted : Text) : Except PathError (Text × ℕ) := quotedFrom [] 0 quoted

/-- A bracket segment, from its `[` on, and how much it took. -/
def bracket (body : Text) : Except PathError (Segment × ℕ) :=
  let inside := body.drop 1
  if inside.head? == some '"' then
    match quotedKey (inside.drop 1) with
    | .error e => .error (offsetBy 1 e)
    | .ok (k, read) =>
      if (inside.drop (1 + read)).head? == some ']' then .ok (.key k, 1 + 1 + read + 1)
      else .error (.trailingQuote (1 + 1 + read))
  else
    match inside.findIdx? (· == ']') with
    | none => .error (.unclosedIndex 0)
    | some close =>
      let text := inside.take close
      if close = 0 then .error (.emptyIndex 0)
      else if text.any (· == '[') then .error (.unclosedIndex 0)
      else
        match indexOf text with
        | some at_ => .ok (.index at_, 1 + close + 1)
        | none => .ok (.key text, 1 + close + 1)

/-- One segment off the front of a text that starts at a segment's boundary, and how much it
took. -/
def step (rest : Text) (first : Bool) : Except PathError (Option (Segment × ℕ)) :=
  if rest.isEmpty then .ok none
  else
    let skipped := if rest.head? == some '.' then 1 else 0
    let body := rest.drop skipped
    if skipped = 0 && !first && rest.head? != some '[' then .error (.missingSeparator 0)
    else if body.head? == some '[' then
      if skipped = 1 then .error (.emptyField 1)
      else
        match bracket body with
        | .error e => .error e
        | .ok (segment, read) => .ok (some (segment, skipped + read))
    else
      let close := body.findIdx nameEnds
      if body[close]? == some ']' then .error (.unexpectedClose (skipped + close))
      else if close = 0 then .error (.emptyField skipped)
      else .ok (some (.field (body.take close), skipped + close))

/-- The segments of a text from a place on, each with the place where it ends, and at most so
many. -/
def spelledFrom (continued : Bool) (text : Text) : ℕ → ℕ → Option (List (Segment × ℕ))
  | 0, _ => some []
  | fuel + 1, at_ =>
    if text.length ≤ at_ then some []
    else
      match step (text.drop at_) (at_ == 0 && !continued) with
      | .ok (some (segment, read)) =>
        (spelledFrom continued text fuel (at_ + read)).map ((segment, at_ + read) :: ·)
      | _ => none

/-- Each segment of a text with the place where it ends; none for a text that is not a path.
`continued` reads the text as what follows a segment. -/
def spelled (text : Text) (continued : Bool) : Option (List (Segment × ℕ)) :=
  if !continued && text.head? == some '.' then none
  else
    match spelledFrom continued text text.length 0 with
    | some [] => none
    | segments => segments

example : spelled "agent[0].name[\"a]\"][x]".toList false =
    some [(.field "agent".toList, 5), (.index 0, 8), (.field "name".toList, 13),
      (.key "a]".toList, 19), (.key "x".toList, 22)] := by decide

/-- What may follow a segment. -/
def Boundary (rest : Text) : Prop :=
  rest = [] ∨ rest.head? = some '.' ∨ rest.head? = some '['

theorem boundary_nil : Boundary [] := .inl rfl

/-- A segment that can be spelled as it is. -/
def Segment.Spellable : Segment → Prop
  | .field name => isBareName name = true
  | .index at_ => at_ < usizeCount
  | .key _ => True

/-- A segment as it is spelled behind another. -/
def Segment.behind : Segment → Text
  | .field name => '.' :: name
  | segment => segment.display

theorem quotedFrom_escaped (out : Text) (at_ : ℕ) (key rest : Text) :
    quotedFrom out at_ (escaped key ++ '"' :: rest) =
      .ok (out ++ key, at_ + (escaped key).length + 1) := by
  induction key generalizing out at_ with
  | nil => simp [escaped, quotedFrom]
  | cons c key ih =>
    by_cases hquote : c = '"'
    · rw [hquote]
      simp only [escaped, beq_self_eq_true, Bool.true_or, if_true, List.cons_append, quotedFrom, ih]
      simp
      omega
    · by_cases hback : c = '\\'
      · rw [hback]
        simp only [escaped, beq_self_eq_true, Bool.or_true, if_true, List.cons_append, quotedFrom, ih]
        simp
        omega
      · have hplain : (c == '"' || c == '\\') = false := by
          simp [hquote, hback]
        simp only [escaped, hplain, Bool.false_eq_true, if_false, List.cons_append]
        rw [quotedFrom]
        · rw [ih]
          simp
          omega
        all_goals simp_all

variable {name rest : Text}

theorem isBareName_iff :
    isBareName name = true ↔ name ≠ [] ∧ ∀ c ∈ name, nameEnds c = false := by
  simp [isBareName]

theorem Boundary.findIdx (h : Boundary rest) : rest.findIdx nameEnds = 0 := by
  cases rest with
  | nil => rfl
  | cons c rest =>
    rcases h with hnil | hdot | hopen
    · cases hnil
    · cases hdot
      rfl
    · cases hopen
      rfl

theorem findIdx_nameEnds (hname : ∀ c ∈ name, nameEnds c = false)
    (hrest : Boundary rest) : (name ++ rest).findIdx nameEnds = name.length := by
  rw [List.findIdx_append, List.findIdx_eq_length_of_false hname, if_neg (Nat.lt_irrefl _),
    hrest.findIdx, Nat.zero_add]

theorem Boundary.head_ne (h : Boundary rest) : rest.head? ≠ some ']' := by
  rcases h with hnil | hdot | hopen
  · rw [hnil]
    exact fun heq => by cases heq
  · rw [hdot]
    exact fun heq => by cases heq
  · rw [hopen]
    exact fun heq => by cases heq

theorem name_of_step (hname : isBareName name = true) (hrest : Boundary rest) :
    (name ++ rest).findIdx nameEnds = name.length ∧ (name ++ rest)[name.length]? ≠ some ']' ∧
      name.length ≠ 0 ∧ (name ++ rest).take name.length = name ∧
      (name ++ rest).head? ≠ some '.' ∧ (name ++ rest).head? ≠ some '[' := by
  obtain ⟨hne, hplain⟩ := isBareName_iff.mp hname
  have hhead : ∀ c, nameEnds c = true → (name ++ rest).head? ≠ some c := by
    intro c hends heq
    cases name with
    | nil => exact hne rfl
    | cons d name =>
      cases heq
      rw [hplain c (List.mem_cons_self ..)] at hends
      cases hends
  refine ⟨findIdx_nameEnds hplain hrest, ?_, ?_, List.take_left' rfl, hhead _ rfl, hhead _ rfl⟩
  · rw [List.getElem?_append_right (Nat.le_refl _), Nat.sub_self, ← List.head?_eq_getElem?]
    exact hrest.head_ne
  · exact fun hzero => hne (List.length_eq_zero_iff.mp hzero)

theorem step_name (hname : isBareName name = true) (hrest : Boundary rest) :
    step (name ++ rest) true = .ok (some (.field name, name.length)) := by
  obtain ⟨hclose, hnot, hlen, htake, hdot, hopen⟩ := name_of_step hname hrest
  generalize name ++ rest = text at *
  have hne : text.isEmpty = false := by
    cases text with
    | nil => exact absurd hclose.symm hlen
    | cons c text => rfl
  simp [step, hne, hdot, hopen, hclose, hnot, hlen, htake]

theorem step_dot (hname : isBareName name = true) (hrest : Boundary rest) :
    step ('.' :: (name ++ rest)) false = .ok (some (.field name, 1 + name.length)) := by
  obtain ⟨hclose, hnot, hlen, htake, -, hopen⟩ := name_of_step hname hrest
  generalize name ++ rest = text at *
  simp [step, hopen, hclose, hnot, hlen, htake]

theorem head_toDigits {n : ℕ} (hn : 0 < n) : (Nat.toDigits 10 n).head? ≠ some '0' := by
  induction n using Nat.strong_induction_on with
  | _ n ih =>
    by_cases hlt : n < 10
    · rw [Nat.toDigits_of_lt_base hlt]
      interval_cases n <;> decide
    · have hle : 10 ≤ n := by omega
      have hhead := ih (n / 10) (by omega) (by omega)
      rw [Nat.toDigits_of_base_le (by omega) hle]
      cases hdigits : Nat.toDigits 10 (n / 10) with
      | nil => exact absurd hdigits Nat.toDigits_ne_nil
      | cons c rest =>
        rw [hdigits] at hhead
        exact hhead

theorem indexOf_toString {n : ℕ} (hn : n < usizeCount) : indexOf (toString n).toList = some n := by
  have htext : (toString n).toList = Nat.toDigits 10 n := by
    rw [Nat.toString_eq_ofList_toDigits, String.toList_ofList]
  have hne : (Nat.toDigits 10 n).isEmpty = false := by
    cases hdigits : Nat.toDigits 10 n with
    | nil => exact absurd hdigits Nat.toDigits_ne_nil
    | cons c rest => rfl
  have hall : (Nat.toDigits 10 n).all Char.isDigit = true := by
    rw [List.all_eq_true]
    intro c hc
    exact Nat.isDigit_of_mem_toDigits (by omega) (by omega) hc
  have hzero : (decide (1 < (Nat.toDigits 10 n).length) &&
      (Nat.toDigits 10 n).head? == some '0') = false := by
    rw [Bool.and_eq_false_iff]
    rcases Nat.eq_zero_or_pos n with hzero | hpos
    · left
      rw [hzero]
      decide
    · right
      simpa using head_toDigits hpos
  rw [htext, indexOf, hne, hall, hzero, Nat.ofDigitChars_ten_toDigits]
  simp [hn]

theorem bare_of_needsQuoting {key : Text} (h : needsQuoting key = false) :
    key ≠ [] ∧ key.head? ≠ some '"' ∧ (∀ c ∈ key, c ≠ '[' ∧ c ≠ ']') ∧ indexOf key = none := by
  simpa [needsQuoting, Bool.or_eq_false_iff, and_assoc] using h

theorem bracket_bare {inside : Text} (rest : Text) (hne : inside ≠ []) (hquote : inside.head? ≠ some '"')
    (hplain : ∀ c ∈ inside, c ≠ '[' ∧ c ≠ ']') :
    bracket ('[' :: (inside ++ ']' :: rest)) =
      .ok (match indexOf inside with
        | some at_ => .index at_
        | none => .key inside, inside.length + 2) := by
  have hclose : (inside ++ ']' :: rest).findIdx? (· == ']') = some inside.length := by
    rw [List.findIdx?_append, List.findIdx?_eq_none_iff.mpr fun c hc => by simp [(hplain c hc).2]]
    simp [List.findIdx?_cons]
  have hhead : (inside ++ ']' :: rest).head? ≠ some '"' := by
    cases inside with
    | nil => exact absurd rfl hne
    | cons c inside => exact hquote
  have htake : (inside ++ ']' :: rest).take inside.length = inside := List.take_left' rfl
  have hlen : inside.length ≠ 0 := fun hzero => hne (List.length_eq_zero_iff.mp hzero)
  have hopen : inside.any (· == '[') = false := by
    rw [List.any_eq_false]
    intro c hc
    simpa using (hplain c hc).1
  generalize inside ++ ']' :: rest = text at *
  simp only [bracket, List.drop_succ_cons, List.drop_zero, beq_iff_eq, hhead, if_false, hclose, htake,
    hlen, hopen, Bool.false_eq_true]
  cases indexOf inside <;> simp <;> omega

theorem bracket_quoted (key rest : Text) :
    bracket ('[' :: '"' :: (escaped key ++ '"' :: ']' :: rest)) =
      .ok (.key key, (escaped key).length + 4) := by
  have hread := quotedFrom_escaped [] 0 key (']' :: rest)
  have hdrop : ('"' :: (escaped key ++ '"' :: ']' :: rest)).drop (1 + ((escaped key).length + 1)) =
      ']' :: rest := by
    rw [Nat.add_comm, List.drop_succ_cons, ← List.drop_drop, List.drop_left]
    rfl
  simp [bracket, quotedKey, hread, hdrop]
  omega

theorem step_open {inside : Text} {segment : Segment} {read : ℕ} (first : Bool)
    (h : bracket ('[' :: inside) = .ok (segment, read)) :
    step ('[' :: inside) first = .ok (some (segment, read)) := by
  simp [step, h]

theorem step_key (key rest : Text) (first : Bool) :
    step ((Segment.key key).display ++ rest) first =
      .ok (some (.key key, (Segment.key key).display.length)) := by
  cases hquoted : needsQuoting key with
  | false =>
    obtain ⟨hne, hquote, hplain, hindex⟩ := bare_of_needsQuoting hquoted
    have hread := bracket_bare rest hne hquote hplain
    rw [hindex] at hread
    have hstep := step_open first hread
    simpa [Segment.display, hquoted] using hstep
  | true =>
    have hstep := step_open first (bracket_quoted key rest)
    simpa [Segment.display, hquoted] using hstep

theorem step_index {at_ : ℕ} (h : at_ < usizeCount) (rest : Text) (first : Bool) :
    step ((Segment.index at_).display ++ rest) first =
      .ok (some (.index at_, (Segment.index at_).display.length)) := by
  have hdigits := indexOf_toString h
  have hall : ∀ c ∈ (toString at_).toList, c.isDigit = true := by
    intro c hc
    rw [Nat.toString_eq_ofList_toDigits, String.toList_ofList] at hc
    exact Nat.isDigit_of_mem_toDigits (by omega) (by omega) hc
  have hne : (toString at_).toList ≠ [] := by
    intro hnil
    rw [hnil] at hdigits
    cases hdigits
  have hquote : (toString at_).toList.head? ≠ some '"' := by
    intro hhead
    have hdigit := hall '"' (List.mem_of_mem_head? hhead)
    exact absurd hdigit (by decide)
  have hplain : ∀ c ∈ (toString at_).toList, c ≠ '[' ∧ c ≠ ']' := by
    intro c hc
    have hdigit := hall c hc
    constructor
    all_goals
      intro heq
      rw [heq] at hdigit
      exact absurd hdigit (by decide)
  have hread := bracket_bare rest hne hquote hplain
  rw [hdigits] at hread
  have hstep := step_open first hread
  simpa [Segment.display] using hstep

theorem step_behind {segment : Segment} (h : segment.Spellable) (hrest : Boundary rest) :
    step (segment.behind ++ rest) false = .ok (some (segment, segment.behind.length)) := by
  cases segment with
  | field name =>
    have hstep := step_dot h hrest
    simpa [Segment.behind, Nat.add_comm] using hstep
  | index at_ => exact step_index h rest false
  | key k => exact step_key k rest false

/-- Segments one behind the other, as they are spelled. -/
def render (segments : List Segment) : Text := segments.flatMap Segment.behind

@[simp] theorem render_nil : render [] = [] := rfl

@[simp] theorem render_cons (segment : Segment) (segments : List Segment) :
    render (segment :: segments) = segment.behind ++ render segments := rfl

theorem boundary_behind (segment : Segment) (rest : Text) : Boundary (segment.behind ++ rest) := by
  cases segment with
  | field name => exact .inr (.inl rfl)
  | index at_ => exact .inr (.inr rfl)
  | key k =>
    right
    right
    cases hquoted : needsQuoting k <;> simp [Segment.behind, Segment.display, hquoted]

theorem boundary_render (segments : List Segment) : Boundary (render segments) := by
  cases segments with
  | nil => exact .inl rfl
  | cons segment segments => exact boundary_behind segment _

theorem behind_ne_nil (segment : Segment) : segment.behind ≠ [] := by
  have hstart := boundary_behind segment []
  rw [List.append_nil] at hstart
  rcases hstart with hnil | hdot | hopen
  · cases segment with
    | field name => cases hnil
    | index at_ => cases hnil
    | key k => cases hquoted : needsQuoting k <;> simp [Segment.behind, Segment.display, hquoted] at hnil
  · intro hnil
    rw [hnil] at hdot
    cases hdot
  · intro hnil
    rw [hnil] at hopen
    cases hopen

/-- What stands behind a spelled segment is behind that segment: two paths that agree up to the
end of a segment agree on the segment. -/
theorem render_split {segment : Segment} {rest : Text} {segments : List Segment}
    (hsegment : segment.Spellable) (hrest : Boundary rest) (hall : ∀ s ∈ segments, s.Spellable)
    (h : segment.behind ++ rest = render segments) :
    ∃ more, segments = segment :: more ∧ rest = render more := by
  cases segments with
  | nil =>
    rw [render_nil, List.append_eq_nil_iff] at h
    exact absurd h.1 (behind_ne_nil segment)
  | cons other more =>
    have hread := step_behind hsegment hrest
    rw [h, render_cons, step_behind (hall other (List.mem_cons_self ..)) (boundary_render more)] at hread
    obtain ⟨hsame, -⟩ : other = segment ∧ other.behind.length = segment.behind.length := by
      simpa using hread
    rw [render_cons, hsame] at h
    exact ⟨more, by rw [hsame], List.append_cancel_left h⟩

theorem render_injective {some_ more : List Segment} (hsome : ∀ s ∈ some_, s.Spellable)
    (hmore : ∀ s ∈ more, s.Spellable) (h : render some_ = render more) : some_ = more := by
  induction some_ generalizing more with
  | nil =>
    cases more with
    | nil => rfl
    | cons segment more =>
      have hnil := (List.append_eq_nil_iff.mp h.symm).1
      exact absurd hnil (behind_ne_nil segment)
  | cons segment rest ih =>
    obtain ⟨tail, htail, hrest⟩ := render_split (hsome segment (List.mem_cons_self ..))
      (boundary_render rest) hmore h
    rw [htail] at hmore ⊢
    rw [ih (fun s hs => hsome s (List.mem_cons_of_mem _ hs))
      (fun s hs => hmore s (List.mem_cons_of_mem _ hs)) hrest]

/-- Segments with the places where they end, from a place on. -/
def placed (at_ : ℕ) : List Segment → List (Segment × ℕ)
  | [] => []
  | segment :: rest =>
    (segment, at_ + segment.behind.length) :: placed (at_ + segment.behind.length) rest

theorem spelledFrom_render (continued : Bool) (text : Text) {segments : List Segment} {fuel : ℕ}
    (hbehind : 0 < text.length ∨ continued = true) (hall : ∀ s ∈ segments, s.Spellable)
    (hfuel : segments.length ≤ fuel) :
    spelledFrom continued (text ++ render segments) fuel text.length =
      some (placed text.length segments) := by
  induction segments generalizing text fuel with
  | nil =>
    cases fuel with
    | zero => rfl
    | succ fuel => simp [spelledFrom, placed]
  | cons segment segments ih =>
    cases fuel with
    | zero => simp at hfuel
    | succ fuel =>
      have hpos : 0 < segment.behind.length := List.length_pos_iff.mpr (behind_ne_nil segment)
      have hlong : ¬ (text ++ (segment.behind ++ render segments)).length ≤ text.length := by
        simp only [List.length_append]
        omega
      have hflag : (text.length == 0 && !continued) = false := by
        rcases hbehind with hlen | hcontinued
        · simp [Nat.ne_of_gt hlen]
        · simp [hcontinued]
      have hstep := step_behind (hall segment (List.mem_cons_self ..)) (boundary_render segments)
      have hrest := ih (text ++ segment.behind)
        (by simp only [List.length_append]; omega)
        (fun s hs => hall s (List.mem_cons_of_mem _ hs)) (Nat.le_of_succ_le_succ hfuel)
      rw [List.length_append, List.append_assoc] at hrest
      simp only [render_cons, spelledFrom, if_neg hlong, List.drop_left, hflag, hstep, hrest, placed,
        Option.map_some]

theorem length_le_render (segments : List Segment) : segments.length ≤ (render segments).length := by
  induction segments with
  | nil => exact Nat.le_refl _
  | cons segment segments ih =>
    have hpos : 0 < segment.behind.length := List.length_pos_iff.mpr (behind_ne_nil segment)
    simp only [render_cons, List.length_cons, List.length_append]
    omega

end Guatiao.Intake
