import Guatiao.Schema.SameJson
import Guatiao.Schema.Without

/-!
# What a schema's `not` refuses

A schema with a `not` should accept what it accepts without it, and its `not` does not describe. The
checks hold what is stored against `not` one level down: a number or a text twice, as the value it
is and as its spelling, and a stored text as it is written and not as what it is read as.
-/

namespace Guatiao.Schema

/-- What is stored under a field: a value, or a text where there is nothing else. -/
inductive Stored
  | value (v : Value)
  | text (chars : String)

/-- Whether the value of a boolean's spelling is true. -/
def boolIsTrue (value : String) : Bool := value.isEmpty || ["1", "true", "yes"].contains value

section Meaning

variable (doubles : Doubles) (engine : Engine)

/-- Whether a schema accepts what is stored, so many levels followed at most. -/
def Stored.acceptedIn (left : ℕ) (schema : Value) (key : String) : Stored → Bool
  | .value v => (valueAgainst doubles engine left schema key v).isOk
  | .text chars => (against doubles engine left schema key chars).isOk

/-- Whether a schema accepts what is stored. -/
def Stored.acceptedBy (schema : Value) (key : String) (x : Stored) : Bool :=
  x.acceptedIn doubles engine maxDepth schema key

/-- The value a text is, to a schema: of the kind of the schema, or of the first form of a union
that accepts it. -/
def readText : ℕ → Value → String → Option Value
  | 0, _, _ => none
  | left + 1, schema, chars =>
    match Kind.read (some schema) with
    | .int | .float => (Number.new chars).map .number
    | .bool => some (.bool (boolIsTrue chars))
    | .str => some (.string chars)
    | .enum owner => (members owner).find? fun member => memberText member == some chars
    | .union anyOf =>
      ((anyOf.asList.getD []).find? fun arm => (against doubles engine left arm "" chars).isOk).bind
        fun arm => readText left arm chars
    | _ => none

/-- What is stored, as a schema reads it: a text that is no value to it stays one. -/
def Stored.readBy (schema : Value) : Stored → Stored
  | .value v => .value v
  | .text chars => ((readText doubles engine maxDepth schema chars).map .value).getD (.text chars)

/-- What is stored is accepted when it is without `not`, and `not` does not accept what it is read
as. -/
def NotMeans (schema excluded : Value) (key : String) (x : Stored) : Prop :=
  x.acceptedBy doubles engine schema key = true ↔
    x.acceptedBy doubles engine (without Vocab.not schema) key = true ∧
      (x.readBy doubles engine schema).acceptedBy doubles engine excluded key = false

/-- A null that a schema takes before it is looked at. -/
def Waved (schema v : Value) : Prop := v.tag = .null ∧ isNullable schema = true

/-- Whether the spelling of a number or a text is accepted by the schema under `not`. -/
def spelledIn (left : ℕ) (schema excluded : Value) (key : String) (v : Value) : Bool :=
  ((Kind.read (some schema)).scalarText v).any fun chars =>
    (against doubles engine left excluded key chars).isOk

/-- What the schema under `not` says of what is stored, as it is read. -/
abbrev described (schema excluded : Value) (key : String) (x : Stored) : Bool :=
  (x.readBy doubles engine schema).acceptedBy doubles engine excluded key

/-- The ways a schema misses what its `not` says. -/
inductive Missed (schema excluded : Value) (key : String) : Stored → Prop
  /-- A `not` beside a wrapper is never looked at. -/
  | beside (x : Stored) : peelOnce schema ≠ none →
      described doubles engine schema excluded key x = true → Missed schema excluded key x
  /-- Nor is any, for a null the schema takes. -/
  | waved (v : Value) : Waved schema v →
      described doubles engine schema excluded key (.value v) = true →
      Missed schema excluded key (.value v)
  /-- A number or a text is refused for its spelling. -/
  | spelled (v : Value) : peelOnce schema = none → ¬ Waved schema v →
      described doubles engine schema excluded key (.value v) = false →
      spelledIn doubles engine (maxDepth - 1) schema excluded key v = true →
      Missed schema excluded key (.value v)
  /-- A value is refused, and `not` accepts it with a level less only. -/
  | shallow (v : Value) : peelOnce schema = none → ¬ Waved schema v →
      described doubles engine schema excluded key (.value v) = false →
      (Stored.value v).acceptedIn doubles engine (maxDepth - 1) excluded key = true →
      Missed schema excluded key (.value v)
  /-- A value is let through that `not` accepts with one level more only. -/
  | deep (v : Value) : peelOnce schema = none → ¬ Waved schema v →
      described doubles engine schema excluded key (.value v) = true →
      (Stored.value v).acceptedIn doubles engine (maxDepth - 1) excluded key = false →
      spelledIn doubles engine (maxDepth - 1) schema excluded key v = false →
      Missed schema excluded key (.value v)
  /-- A text is held against `not` as it is written, which says other than of what it is read
  as. -/
  | unread (chars : String) : peelOnce schema = none →
      (Stored.text chars).acceptedIn doubles engine (maxDepth - 1) excluded key ≠
        described doubles engine schema excluded key (.text chars) →
      Missed schema excluded key (.text chars)

end Meaning

section Held

variable {doubles : Doubles} {engine : Engine} {schema schema' excl : Value}

theorem isMap_of_get {key : String} {v : Value} (h : schema.get key = some v) :
    isMap schema = true := by
  cases schema with
  | map entries => rfl
  | _ => cases h

theorem excluded_of_peelOnce (h : peelOnce schema = none) (hnot : schema.get Vocab.not = some excl) :
    excluded schema = some excl := by
  rw [excluded, peel_of_peelOnce h, hnot]

theorem excluded_without (h : peelOnce (without Vocab.not schema) = none) :
    excluded (without Vocab.not schema) = none := by
  rw [excluded, peel_of_peelOnce h, get_without, if_pos rfl]

theorem ButNot.peel_of_wrapper (h : ButNot schema schema') (hwrapper : Schema.peelOnce schema ≠ none) :
    peel schema' = peel schema :=
  h.peel_cases.resolve_right fun hplain => hwrapper hplain.1

theorem ButNot.against_of_wrapper (h : ButNot schema schema')
    (hwrapper : Schema.peelOnce schema ≠ none) (left : ℕ) (key chars : String) :
    against doubles engine left schema' key chars = against doubles engine left schema key chars := by
  cases left with
  | zero => rfl
  | succ left =>
    simp only [against, excluding, excluded, h.peel_of_wrapper hwrapper, h.textAgainst]

theorem ButNot.read_of_scalar (h : ButNot schema schema')
    (hscalar : (Kind.read (some schema)).isScalar = true) :
    Kind.read (some schema') = Kind.read (some schema) := by
  rcases h.peel_cases with hpeel | ⟨hplain, -, -⟩
  · simp only [Kind.read, hpeel]
  · have hlike := like_read h hplain
    generalize Kind.read (some schema) = k at hlike hscalar ⊢
    generalize Kind.read (some schema') = k' at hlike ⊢
    cases hlike with
    | refl => rfl
    | _ => cases hscalar

/-- The kind of a schema accepts a value alike without `not`, where the texts it is checked as are
accepted alike. -/
theorem ButNot.isOk_kindAgainst (h : ButNot schema schema') {text text' names : Walk String}
    {walk : Walk Value} {key : String} {v : Value}
    (htext : ∀ chars, (Kind.read (some schema)).scalarText v = some chars →
      (text' schema' key chars).isOk = (text schema key chars).isOk) :
    (Schema.kindAgainst doubles text' names walk schema' key v).isOk =
      (Schema.kindAgainst doubles text names walk schema key v).isOk := by
  cases hscalar : (Kind.read (some schema)).isScalar with
  | false => rw [h.kindAgainst text' text names walk key v hscalar]
  | true =>
    have hread := h.read_of_scalar hscalar
    rw [isOk_kindAgainst_scalar hscalar, isOk_kindAgainst_scalar (by rwa [hread]), hread]
    cases hchars : (Kind.read (some schema)).scalarText v with
    | none => rfl
    | some chars => exact htext chars hchars

/-- A schema that is no wrapper accepts a text it accepts without `not`, unless the text is accepted
under `not`. -/
theorem isOk_against_plain (hnot : schema.get Vocab.not = some excl)
    (hplain : peelOnce schema = none) (left : ℕ) (key chars : String) :
    (against doubles engine (left + 1) schema key chars).isOk =
      ((against doubles engine (left + 1) (without Vocab.not schema) key chars).isOk &&
        !(against doubles engine left excl key chars).isOk) := by
  have h := butNot_without (isMap_of_get hnot)
  simp only [against]
  rw [isOk_excluding, isOk_excluding, excluded_of_peelOnce hplain hnot,
    excluded_without (h.peelOnce.trans hplain), h.textAgainst, Option.any_some, Option.any_none,
    Bool.not_false, Bool.true_and, Bool.and_comm]

/-- It accepts a value it accepts without `not`, unless the value or its spelling is accepted under
`not`. -/
theorem isOk_valueAgainst_plain (hnot : schema.get Vocab.not = some excl)
    (hplain : peelOnce schema = none) {v : Value} (hwaved : ¬ Waved schema v) (left : ℕ)
    (key : String) :
    (valueAgainst doubles engine (left + 1) schema key v).isOk =
      ((valueAgainst doubles engine (left + 1) (without Vocab.not schema) key v).isOk &&
        !((valueAgainst doubles engine left excl key v).isOk ||
          spelledIn doubles engine left schema excl key v)) := by
  have h := butNot_without (isMap_of_get hnot)
  have hkind : (kindAgainst doubles (against doubles engine (left + 1)) (against doubles engine left)
        (valueAgainst doubles engine left) schema key v).isOk =
      ((kindAgainst doubles (against doubles engine (left + 1)) (against doubles engine left)
        (valueAgainst doubles engine left) (without Vocab.not schema) key v).isOk &&
        !spelledIn doubles engine left schema excl key v) := by
    cases hscalar : (Kind.read (some schema)).isScalar with
    | false =>
      have hnone : (Kind.read (some schema)).scalarText v = none := by
        generalize Kind.read (some schema) = k at hscalar
        cases k <;> first | rfl | cases hscalar
      rw [h.kindAgainst (against doubles engine (left + 1)) _ _ _ _ _ hscalar, spelledIn, hnone,
        Option.any_none, Bool.not_false, Bool.and_true]
    | true =>
      have hread := h.read_of_scalar hscalar
      rw [isOk_kindAgainst_scalar hscalar, isOk_kindAgainst_scalar (by rwa [hread]), hread, spelledIn]
      cases (Kind.read (some schema)).scalarText v with
      | none => rfl
      | some chars => exact isOk_against_plain hnot hplain left key chars
  have hnull : ¬ (v.tag = .null ∧ isNullable (without Vocab.not schema) = true) := by
    rw [h.isNullable]
    exact hwaved
  have hkept : ¬ (v.tag = .null ∧ isNullable schema = true) := hwaved
  rw [isOk_valueAgainst_succ, isOk_valueAgainst_succ, if_neg hkept, if_neg hnull,
    excluded_of_peelOnce hplain hnot, excluded_without (h.peelOnce.trans hplain), hkind,
    Option.any_some, Option.any_none, Bool.not_false, Bool.true_and, Bool.not_or]
  exact Bool.and_left_comm _ _ _

theorem acceptedBy_wrapper (hnot : schema.get Vocab.not = some excl)
    (hwrapper : peelOnce schema ≠ none) (key : String) (x : Stored) :
    x.acceptedBy doubles engine (without Vocab.not schema) key =
      x.acceptedBy doubles engine schema key := by
  have h := butNot_without (isMap_of_get hnot)
  cases x with
  | text chars => exact congrArg Except.isOk (h.against_of_wrapper hwrapper maxDepth key chars)
  | value v =>
    have hexcluded : excluded (without Vocab.not schema) = excluded schema := by
      rw [excluded, h.peel_of_wrapper hwrapper, excluded]
    have hkind := @ButNot.isOk_kindAgainst doubles schema (without Vocab.not schema) h
      (against doubles engine maxDepth) (against doubles engine maxDepth) (against doubles engine (maxDepth - 1))
      (valueAgainst doubles engine (maxDepth - 1)) key v fun chars _ => congrArg Except.isOk (h.against_of_wrapper hwrapper maxDepth key chars)
    have hsucc := @isOk_valueAgainst_succ doubles engine (maxDepth - 1)
    simp only [Stored.acceptedBy, Stored.acceptedIn]
    rw [show maxDepth = maxDepth - 1 + 1 from rfl, hsucc, hsucc, h.isNullable, hexcluded]
    rw [show maxDepth - 1 + 1 = maxDepth from rfl, hkind]

theorem acceptedBy_waved (hnot : schema.get Vocab.not = some excl) {v : Value}
    (hwaved : Waved schema v) (key : String) :
    (Stored.value v).acceptedBy doubles engine schema key = true ∧
      (Stored.value v).acceptedBy doubles engine (without Vocab.not schema) key = true := by
  have h := butNot_without (isMap_of_get hnot)
  have hwaved' : v.tag = .null ∧ isNullable (without Vocab.not schema) = true := by
    rw [h.isNullable]
    exact hwaved
  have hsucc := @isOk_valueAgainst_succ doubles engine (maxDepth - 1)
  have htaken : v.tag = .null ∧ isNullable schema = true := hwaved
  simp only [Stored.acceptedBy, Stored.acceptedIn]
  rw [show maxDepth = maxDepth - 1 + 1 from rfl, hsucc, hsucc, if_pos htaken, if_pos hwaved']
  exact ⟨rfl, rfl⟩

end Held

section Means

variable {doubles : Doubles} {engine : Engine} {schema excl : Value} {key : String}

/-- Where what is accepted is what is accepted without `not` and not held against it, `not` means
what it says exactly when what is held against it is what it describes. -/
theorem notMeans_of_held {x : Stored} {held : Bool}
    (h : x.acceptedBy doubles engine schema key =
      (x.acceptedBy doubles engine (without Vocab.not schema) key && !held)) :
    NotMeans doubles engine schema excl key x ↔
      (x.acceptedBy doubles engine (without Vocab.not schema) key = true →
        held = described doubles engine schema excl key x) := by
  rw [NotMeans, h]
  cases x.acceptedBy doubles engine (without Vocab.not schema) key <;> cases held <;>
    cases hdescribed : described doubles engine schema excl key x <;> simp_all [described]

theorem missed_wrapper (hwrapper : peelOnce schema ≠ none) (x : Stored) :
    ¬ Missed doubles engine schema excl key x ↔
      false = described doubles engine schema excl key x := by
  rw [eq_comm, ← Bool.not_eq_true, not_iff_not]
  constructor
  · intro hmissed
    cases hmissed with
    | beside _ _ hin => exact hin
    | waved _ _ hin => exact hin
    | spelled _ hplain => exact absurd hplain hwrapper
    | shallow _ hplain => exact absurd hplain hwrapper
    | deep _ hplain => exact absurd hplain hwrapper
    | unread _ hplain => exact absurd hplain hwrapper
  · exact fun hin => .beside x hwrapper hin

theorem missed_waved {v : Value} (hwaved : Waved schema v) :
    ¬ Missed doubles engine schema excl key (.value v) ↔
      false = described doubles engine schema excl key (.value v) := by
  rw [eq_comm, ← Bool.not_eq_true, not_iff_not]
  constructor
  · intro hmissed
    cases hmissed with
    | beside _ _ hin => exact hin
    | waved _ _ hin => exact hin
    | spelled _ _ hkept => exact absurd hwaved hkept
    | shallow _ _ hkept => exact absurd hwaved hkept
    | deep _ _ hkept => exact absurd hwaved hkept
  · exact fun hin => .waved v hwaved hin

/-- Of any other value a schema misses its `not` where that says other than is held against the
value: one level down, of it and of its spelling. -/
theorem missed_value (hplain : peelOnce schema = none) {v : Value} (hkept : ¬ Waved schema v) :
    ¬ Missed doubles engine schema excl key (.value v) ↔
      ((Stored.value v).acceptedIn doubles engine (maxDepth - 1) excl key ||
          spelledIn doubles engine (maxDepth - 1) schema excl key v) =
        described doubles engine schema excl key (.value v) := by
  rw [not_iff_comm]
  constructor
  · intro hdiffer
    cases hin : described doubles engine schema excl key (.value v) with
    | true =>
      rw [hin, Bool.or_eq_true, not_or, Bool.not_eq_true, Bool.not_eq_true] at hdiffer
      exact .deep v hplain hkept hin hdiffer.1 hdiffer.2
    | false =>
      rw [hin, Bool.or_eq_false_iff, not_and_or, Bool.not_eq_false, Bool.not_eq_false] at hdiffer
      rcases hdiffer with hshallow | hspelled
      · exact .shallow v hplain hkept hin hshallow
      · exact .spelled v hplain hkept hin hspelled
  · intro hmissed hsame
    cases hmissed with
    | beside _ hwrapper => exact hwrapper hplain
    | waved _ hwaved => exact hkept hwaved
    | spelled _ _ _ hout hin =>
      rw [hout, hin, Bool.or_true] at hsame
      cases hsame
    | shallow _ _ _ hout hin =>
      rw [hout, hin, Bool.true_or] at hsame
      cases hsame
    | deep _ _ _ hin hout hspelled =>
      rw [hin, hout, hspelled] at hsame
      cases hsame

theorem missed_text (hplain : peelOnce schema = none) (chars : String) :
    ¬ Missed doubles engine schema excl key (.text chars) ↔
      (Stored.text chars).acceptedIn doubles engine (maxDepth - 1) excl key =
        described doubles engine schema excl key (.text chars) := by
  rw [not_iff_comm]
  constructor
  · exact fun hdiffer => .unread chars hplain hdiffer
  · intro hmissed
    cases hmissed with
    | beside _ hwrapper => exact absurd hplain hwrapper
    | unread _ _ hdiffer => exact hdiffer

/-- What is stored is accepted as `not` says exactly when it is refused in any case, or the schema
does not miss what its `not` says of it. -/
theorem not_means_iff (hnot : schema.get Vocab.not = some excl) (key : String) (x : Stored) :
    NotMeans doubles engine schema excl key x ↔
      (x.acceptedBy doubles engine (without Vocab.not schema) key = true →
        ¬ Missed doubles engine schema excl key x) := by
  by_cases hwrapper : peelOnce schema ≠ none
  · rw [missed_wrapper hwrapper]
    apply notMeans_of_held
    rw [acceptedBy_wrapper hnot hwrapper, Bool.not_false, Bool.and_true]
  have hplain : peelOnce schema = none := not_not.mp hwrapper
  cases x with
  | text chars =>
    rw [missed_text hplain]
    exact notMeans_of_held (isOk_against_plain hnot hplain (maxDepth - 1) key chars)
  | value v =>
    by_cases hwaved : Waved schema v
    · rw [missed_waved hwaved]
      apply notMeans_of_held
      have hboth := @acceptedBy_waved doubles engine _ _ hnot _ hwaved key
      rw [hboth.1, hboth.2]
      rfl
    · rw [missed_value hplain hwaved]
      exact notMeans_of_held (isOk_valueAgainst_plain hnot hplain hwaved (maxDepth - 1) key)

end Means

/-- A schema of whole numbers, but those another describes. -/
def wholeBut (excl : Value) : Value :=
  .map [(Vocab.type, .string Vocab.typeInteger), (Vocab.not, excl)]

/-- The schema of texts. -/
def anyText : Value := .map [(Vocab.type, .string Vocab.typeString)]

/-- Whole numbers but texts: of five. -/
theorem not_means_five :
    NotMeans roundedDoubles (fun _ => none) (wholeBut anyText) anyText "port"
        (.value (.number ⟨"5", by decide⟩)) ↔
      ((Stored.value (.number ⟨"5", by decide⟩)).acceptedBy roundedDoubles (fun _ => none)
          (without Vocab.not (wholeBut anyText)) "port" = true →
        ¬ Missed roundedDoubles (fun _ => none) (wholeBut anyText) anyText "port"
          (.value (.number ⟨"5", by decide⟩))) :=
  not_means_iff (by decide) "port" _

/-- Five is a whole number and no text, and is refused as one: its spelling is a text. -/
theorem not_notMeans_five :
    ¬ NotMeans roundedDoubles (fun _ => none) (wholeBut anyText) anyText "port"
      (.value (.number ⟨"5", by decide⟩)) := by
  intro hmeans
  have hrefused : (Stored.value (.number ⟨"5", by decide⟩)).acceptedBy roundedDoubles (fun _ => none)
      (wholeBut anyText) "port" = false := by decide +kernel
  have haccepted : (Stored.value (.number ⟨"5", by decide⟩)).acceptedBy roundedDoubles (fun _ => none)
      (wholeBut anyText) "port" = true := hmeans.mpr (by decide +kernel)
  exact Bool.false_ne_true (hrefused.symm.trans haccepted)

end Guatiao.Schema
