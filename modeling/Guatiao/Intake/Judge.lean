import Guatiao.Intake.Form
import Guatiao.Intake.PathText
import Guatiao.Lib.Chase
import Guatiao.Schema.Validate

/-!
# Whether a form fits its schema

Every path a form writes is read through the schema, every hint is held to its shape, every condition
is one that could be met, and no field waits on itself. A field of a form may carry a form of its own,
which is checked against what that field's members are.
-/

namespace Guatiao.Intake

open Lib Schema

/-- Why a form does not fit its schema. -/
inductive FormError
  /-- Something in the form is not the shape the vocabulary gives it: where, and what belongs
  there. -/
  | malformed (at_ expected : String)
  /-- A path names no field the schema declares. -/
  | unknownField (at_ path : String)
  /-- Two sections share an id. -/
  | duplicateSection (id : String)
  /-- A condition compares a field with a value that field would never hold; with what it would. -/
  | conditionRefused (at_ field expected : String)
  /-- A field is shown only when a chain of conditions leads back to itself. -/
  | cyclicCondition (path : String)
  deriving DecidableEq

/-- What a check of a form answers. -/
abbrev Fit := Except FormError Unit

/-- `malformed` -/
def malformed (at_ expected : String) : Fit := .error (.malformed at_ expected)

/-- A key below a place in a form. -/
def below (at_ key : String) : String := at_ ++ "." ++ key

/-- A refusal raised inside a sub-form, with its place below the field whose form it is. What names a
path or an id inside the sub-form is left as it is. -/
def FormError.under (place : String) : FormError → FormError
  | .malformed at_ expected => .malformed (below place at_) expected
  | .unknownField at_ path => .unknownField (below place at_) path
  | .conditionRefused at_ field expected => .conditionRefused (below place at_) field expected
  | other => other

/-- The first refusal among the checks of some items. -/
def eachFits {α : Type} (check : α → Fit) : List α → Fit
  | [] => .ok ()
  | x :: rest => do
    check x
    eachFits check rest

theorem eachFits_iff {α : Type} {check : α → Fit} {xs : List α} :
    eachFits check xs = .ok () ↔ ∀ x ∈ xs, check x = .ok () := by
  induction xs with
  | nil => exact iff_of_true rfl fun x hx => absurd hx List.not_mem_nil
  | cons y rest ih =>
    rw [eachFits, List.forall_mem_cons, ← ih]
    cases hy : check y with
    | error e => exact iff_of_false (fun h => by cases h) (fun h => by cases h.1)
    | ok => exact ⟨fun h => ⟨rfl, h⟩, fun h => h.2⟩

theorem fit_seq {first second : Fit} :
    (first >>= fun _ => second) = .ok () ↔ first = .ok () ∧ second = .ok () := by
  cases first with
  | ok => exact ⟨fun h => ⟨rfl, h⟩, fun h => h.2⟩
  | error e => exact iff_of_false (fun h => by cases h) (fun h => by cases h.1)

/-- Where a field's hints are, written so a dotted path stays one step. -/
def fieldAt (path : String) : String := Vocab.FIELDS ++ "[\"" ++ path ++ "\"]"

/-- A key that must be text when it is there at all. -/
def textIfPresent (v : Value) (key at_ : String) : Fit :=
  match v.get key with
  | some x => if x.asStr.isNone then malformed (below at_ key) "text" else .ok ()
  | none => .ok ()

/-- The loop over the sections, from one at a position on, with the ids declared before it. -/
def sectionsFrom : ℕ → List String → List Value → Fit
  | _, _, [] => .ok ()
  | i, seen, item :: rest => do
    let at_ := atIndex Vocab.SECTIONS i
    if !isMap item then malformed at_ "a map"
    else
      match textUnder Vocab.ID item with
      | none => malformed (below at_ Vocab.ID) "text"
      | some id => do
        textIfPresent item Vocab.TITLE at_
        textIfPresent item Vocab.DESCRIPTION at_
        if id ∈ seen then .error (.duplicateSection id) else sectionsFrom (i + 1) (seen ++ [id]) rest

/-- The sections of a form: a list of maps with ids that are texts, each declared once. -/
def checkSections (form : FormRef) : Fit :=
  match form.value.get Vocab.SECTIONS with
  | none => .ok ()
  | some sections =>
    match sections.asList with
    | none => malformed Vocab.SECTIONS "a list"
    | some items => sectionsFrom 0 [] items

/-- The name of a path of one segment. -/
def onlyName (path : String) : Option String :=
  match parse path.toList with
  | .error _ => none
  | .ok parsed =>
    match parsed.segments with
    | [only] => some (.ofList (nameOf only))
    | _ => none

/-- The top-level field a path names: by its key, or by a path of one segment spelling it. -/
def topLevel (schema : SchemaRef) (path : String) : Option FieldRef :=
  (schema.find path).or ((onlyName path).bind schema.find)

/-- A path as a form files its hints: a top-level field by its key however the path spells it, anything
else as written. -/
def formKey (schema : SchemaRef) (path : String) : String :=
  ((topLevel schema path).map FieldRef.key).getD path

/-- A validation error in words. -/
def worded : Schema.ValidationError → String
  | .unknownOption key known => "unknown field '" ++ key ++ "'" ++
    if known.isEmpty then "" else "; known fields are: " ++ ", ".intercalate known
  | .badValue key expected => "field '" ++ key ++ "' expects " ++ expected

/-- What a validation error says would have been accepted. -/
def expectedOf : Schema.ValidationError → String
  | .badValue _ expected => expected
  | other => worded other

/-- Splits a flat key into the key of its owner and the name of the member, if it is one. -/
def split (path : String) : Option (String × String) :=
  (splitLast path.toList).map fun (owner, last) => (.ofList owner, .ofList (nameOf last))

/-- The values a condition compares with, and the key they are under. Exactly one spelling. -/
def valuesOfCondition (condition : Value) (at_ : String) : Except FormError (List Value × String) :=
  match condition.get Vocab.EQUALS, condition.get Vocab.IN with
  | some equals, none => .ok ([equals], Vocab.EQUALS)
  | none, some any =>
    match any.asList with
    | some [] => .error (.malformed (below at_ Vocab.IN)
        "at least one value -- an empty list is a condition nothing meets")
    | some list => .ok (list, Vocab.IN)
    | none => .error (.malformed (below at_ Vocab.IN) "a list")
  | none, none => .error (.malformed (below at_ Vocab.EQUALS)
      "a value to compare with, or a list under `in`")
  | some _, some _ => .error (.malformed at_ "`equals` or `in`, not both")

section Checks

variable (doubles : Doubles) (engine : Engine)

/-- One value a condition compares a field with: something the field could hold. A variant named by
its own key is compared with its discriminant. -/
def valueFits (referenced : FieldRef) (plain : Bool) (field at_ : String) (value : Value) : Fit :=
  let accepted (verdict : Verdict) : Fit :=
    match verdict with
    | .ok () => .ok ()
    | .error e => .error (.conditionRefused at_ field (expectedOf e))
  match referenced.kind, plain with
  | .variant _ _, true =>
    match value.asStr with
    | some arm => accepted (validateText doubles engine referenced arm)
    | none => .error (.conditionRefused at_ field "the name of one of its arms")
  | _, _ => accepted (validateValue doubles engine referenced value)

/-- `check_condition` -/
def checkCondition (schema : SchemaRef) (condition : Value) (at_ : String) : Fit :=
  if !isMap condition then malformed at_ "a map holding `field` and `equals` or `in`"
  else
    match textUnder Vocab.FIELD condition with
    | none => malformed (below at_ Vocab.FIELD) "text"
    | some field => do
      let (values, here) ← valuesOfCondition condition at_
      match resolve schema field.toList with
      | none => .error (.unknownField at_ field)
      | some referenced =>
        let plain := (schema.find field).isSome || (split field).isNone
        eachFits (valueFits doubles engine referenced plain field (below at_ here)) values

/-- Where the condition of each field leads, by the keys the form lists. -/
def conditionLinks (schema : SchemaRef) (form : FormRef) : List (String × String) :=
  form.fields.filterMap fun (key, hints) =>
    hints.visibleWhen.map fun condition => (key, formKey schema condition.field)

/-- A field on a cycle among the form's conditions, if there is one. -/
def findCycle (schema : SchemaRef) (form : FormRef) : Option String :=
  firstReturn (conditionLinks schema form) [] (form.fields.map Prod.fst)

/-- What a search for a cycle answers the check with. -/
def acyclic : Option String → Fit
  | some onCycle => .error (.cyclicCondition onCycle)
  | none => .ok ()

/-- The schema of what a sub-form would show: an object's own, a list's element, or an open map's
value. -/
def memberSchema (field : FieldRef) : Option Value :=
  match field.kind with
  | .map object => some object
  | .list items => if isMap items then some items else none
  | .mapOf _ => (field.schema.get Vocab.additionalProperties).filter isMap
  | _ => none

/-- The kinds an untagged union may be of. -/
def alternatives : Kind → List Kind
  | .union anyOf => (anyOf.asList.getD []).map fun v => .read (some v)
  | _ => []

/-- Whether a kind is a number's. -/
def isNumeric : Kind → Bool
  | .int | .float => true
  | _ => false

/-- Whether a unit can describe what a kind holds: a number, or a union with one numeric arm. -/
def countedInAUnit (kind : Kind) : Bool :=
  match kind with
  | .union _ => ((alternatives kind).filter isNumeric).length == 1
  | other => isNumeric other

/-- `check_sub_form`, with how a form below is checked. -/
def checkSubForm (sub : SchemaRef → FormRef → Fit) (schema : SchemaRef) (path : String) (nested : Value)
    (at_ : String) : Fit :=
  let here := below at_ Vocab.FORM
  match resolve schema path.toList with
  | none => .error (.unknownField here path)
  | some field =>
    match memberSchema field with
    | none => malformed here ("a form on a field whose kind is an object, a list of objects, " ++
        "or a map of them -- there is nothing else for its paths to name")
    | some members =>
      match SchemaRef.new members, FormRef.new nested with
      | none, _ => malformed here "a member schema that is a map"
      | some _, none => malformed here "a form"
      | some members, some nested =>
        match sub members nested with
        | .ok () => .ok ()
        | .error e => .error (e.under here)

/-- A unit stands on a field that is counted in one. -/
def checkUnit (hints : Value) (field : FieldRef) (at_ : String) : Fit :=
  if (hints.get Vocab.UNIT).isSome && !countedInAUnit field.kind then
    malformed (below at_ Vocab.UNIT) ("a unit on a number field -- an integer, a real number, or a " ++
      "union with exactly one numeric arm")
  else .ok ()

/-- A condition, where there is one. -/
def checkVisibleWhen (schema : SchemaRef) (hints : Value) (at_ : String) : Fit :=
  match hints.get Vocab.VISIBLE_WHEN with
  | some condition => checkCondition doubles engine schema condition (below at_ Vocab.VISIBLE_WHEN)
  | none => .ok ()

/-- A form of the field's own, where there is one. -/
def checkForm (sub : SchemaRef → FormRef → Fit) (schema : SchemaRef) (path : String) (hints : Value)
    (at_ : String) : Fit :=
  match hints.get Vocab.FORM with
  | some nested => checkSubForm sub schema path nested at_
  | none => .ok ()

/-- The hints of one field. -/
def checkHints (sub : SchemaRef → FormRef → Fit) (schema : SchemaRef) (e : Entry) : Fit :=
  match resolve schema e.1.toList with
  | none => .error (.unknownField Vocab.FIELDS e.1)
  | some field => do
    let at_ := fieldAt e.1
    if !isMap e.2 then malformed at_ "a map"
    else do
      textIfPresent e.2 Vocab.WIDGET at_
      textIfPresent e.2 Vocab.PLACEHOLDER at_
      textIfPresent e.2 Vocab.UNIT at_
      checkUnit e.2 field at_
      checkVisibleWhen doubles engine schema e.2 at_
      checkForm sub schema e.1 e.2 at_

/-- Everything about a form's fields but their cycles. -/
def checkFields (sub : SchemaRef → FormRef → Fit) (schema : SchemaRef) (form : FormRef) : Fit :=
  match form.value.get Vocab.FIELDS with
  | none => .ok ()
  | some fields =>
    match fields.asMap with
    | none => malformed Vocab.FIELDS "a map"
    | some entries => eachFits (checkHints doubles engine sub schema) entries

/-- `check_at`, with the levels that may still be followed. A cycle is looked for once every condition
is known to be well formed. -/
def checkAt : ℕ → SchemaRef → FormRef → Fit
  | 0, _, _ => malformed Vocab.FIELDS "a form nested no deeper than the bound"
  | left + 1, schema, form => do
    checkSections form
    checkFields doubles engine (checkAt left) schema form
    acyclic (findCycle schema form)

/-- Whether a form fits a schema. -/
def check (schema : SchemaRef) (form : FormRef) : Fit := checkAt doubles engine maxDepth schema form

theorem check_eq (schema : SchemaRef) (form : FormRef) : check doubles engine schema form =
    checkSections form >>= fun _ =>
      checkFields doubles engine (checkAt doubles engine (maxDepth - 1)) schema form >>= fun _ =>
        acyclic (findCycle schema form) :=
  rfl

end Checks

end Guatiao.Intake
