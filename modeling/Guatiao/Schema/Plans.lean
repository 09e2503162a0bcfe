import Guatiao.Schema.Build
import Guatiao.Schema.SameJson

/-!
# What a builder is told, and what a reader answers

A plan is a tree of the calls that build a kind. `Reads` says of a schema that it is read as a plan,
level by level: the kind and its bounds, and the schemas of its parts as the parts of the plan.
-/

namespace Guatiao.Schema

open Lib

/-- The calls that build a kind. -/
inductive Plan where
  | bool
  | float
  | bytes
  | int (min max : Option Int64)
  | string (minLength maxLength : Option UInt64) (pattern format : Option String)
  /-- The alternatives, each with its label. -/
  | enumeration (choices : List (String × String))
  | list (items : Plan) (minItems maxItems : Option UInt64)
  | tuple (positions : List Plan)
  /-- The fields, each with whether it is required. -/
  | map (fields : List (String × Bool × Plan))
  | mapOf (values : Plan)
  | union (arms : List Plan)
  /-- The arms, each with its title and its fields. -/
  | variant (tag : String) (arms : List (String × String × List (String × Bool × Plan)))
  | noted (note : Note) (kind : Plan)
  | nullable (kind : Plan)

/-- A keyword that is written where it is given. -/
def KindBuilder.given {α : Type} (k : KindBuilder) (write : KindBuilder → α → KindBuilder) :
    Option α → KindBuilder
  | some a => write k a
  | none => k

mutual

/-- The kind a plan builds. -/
def Plan.build : Plan → KindBuilder
  | .bool => .bool
  | .float => .float
  | .bytes => .bytes
  | .int min max => .intBounds min max
  | .string minLength maxLength pattern format =>
    (((KindBuilder.string.given KindBuilder.minLength minLength).given KindBuilder.maxLength
      maxLength).given KindBuilder.pattern pattern).given KindBuilder.format format
  | .enumeration choices => .enumeration choices
  | .list items minItems maxItems =>
    ((KindBuilder.list items.build).given KindBuilder.minItems minItems).given KindBuilder.maxItems
      maxItems
  | .tuple positions => .tuple (buildAll positions)
  | .map fields => .map (buildFields fields)
  | .mapOf values => .mapOf values.build
  | .union arms => .union (buildAll arms)
  | .variant tag arms => .variant tag (buildArms arms)
  | .noted note kind => ⟨note.write kind.build.state⟩
  | .nullable kind => kind.build.nullable

/-- The kinds some plans build. -/
def buildAll : List Plan → List KindBuilder
  | [] => []
  | plan :: rest => plan.build :: buildAll rest

/-- The fields some plans build. -/
def buildFields : List (String × Bool × Plan) → List FieldBuilder
  | [] => []
  | (key, required, plan) :: rest =>
    { FieldBuilder.new key plan.build with required := required } :: buildFields rest

/-- The arms some plans build. -/
def buildArms : List (String × String × List (String × Bool × Plan)) → List ArmBuilder
  | [] => []
  | (value, title, fields) :: rest =>
    { ArmBuilder.new value title with fields := buildFields fields } :: buildArms rest

end

/-- The kind a plan builds, or the first error that stopped it. -/
def Plan.finish (plan : Plan) : Drafted := plan.build.state

mutual

/-- Somewhere an object or an arm repeats a field's name, or a variant an arm's value. An arm's tag
is a name of its own. -/
def Plan.Repeats : Plan → Prop
  | .list items _ _ => items.Repeats
  | .tuple positions => RepeatsAny positions
  | .map fields => ¬ (fields.map Prod.fst).Nodup ∨ RepeatsFields fields
  | .mapOf values => values.Repeats
  | .union arms => RepeatsAny arms
  | .variant tag arms => ¬ (arms.map Prod.fst).Nodup ∨ RepeatsArms tag arms
  | .noted _ kind => kind.Repeats
  | .nullable kind => kind.Repeats
  | _ => False

/-- One of some plans repeats a name. -/
def RepeatsAny : List Plan → Prop
  | [] => False
  | plan :: rest => plan.Repeats ∨ RepeatsAny rest

/-- The plan of one of some fields repeats a name. -/
def RepeatsFields : List (String × Bool × Plan) → Prop
  | [] => False
  | (_, _, plan) :: rest => plan.Repeats ∨ RepeatsFields rest

/-- One of some arms repeats a name, its tag among them, or the plan of one of its fields does. -/
def RepeatsArms (tag : String) : List (String × String × List (String × Bool × Plan)) → Prop
  | [] => False
  | (_, _, fields) :: rest =>
    (¬ (tag :: fields.map Prod.fst).Nodup ∨ RepeatsFields fields) ∨ RepeatsArms tag rest

end

theorem finish_nullable (plan : Plan) :
    (Plan.nullable plan).finish = plan.build.nullable.state := by
  rw [Plan.finish, Plan.build]

theorem repeats_nullable (plan : Plan) : (Plan.nullable plan).Repeats ↔ plan.Repeats := by
  rw [Plan.Repeats]

/-- Which way a fractional bound moves to a whole number. -/
inductive Inward
  | up
  | down

/-- A bound on an integer, rounded inward when it is not whole. One outside an `i64` is none. -/
def optBound (key : String) (round : Inward) (owner : Value) : Option ℤ :=
  (numberUnder key owner).bind fun text =>
    (parseSigned 64 text).or
      (match f64.round (rational text) with
        | .finite x =>
          let whole := match round with
            | .up => ⌈x⌉
            | .down => ⌊x⌋
          if -2 ^ 63 ≤ whole ∧ whole < 2 ^ 63 then some whole else none
        | .infinite _ => none)

/-- The bounds read with a whole number: `min` and `max`. -/
def intBounds (schema : Value) : Option ℤ × Option ℤ :=
  (optBound Vocab.minimum .up (peel schema), optBound Vocab.maximum .down (peel schema))

/-- What is read with text: `min_length`, `max_length`, `pattern` and `format`. -/
def strBounds (schema : Value) : Option ℕ × Option ℕ × Option String × Option String :=
  (optCount Vocab.minLength (peel schema), optCount Vocab.maxLength (peel schema),
    textUnder Vocab.pattern (peel schema), textUnder Vocab.format (peel schema))

/-- The bounds read with a list: `min` and `max`. -/
def listBounds (schema : Value) : Option ℕ × Option ℕ :=
  (optCount Vocab.minItems (peel schema), optCount Vocab.maxItems (peel schema))

/-- One alternative of an enumeration. -/
structure ChoiceRef where
  value : String
  /-- The label as it is written. -/
  written : String
  deriving DecidableEq

/-- What is shown of an alternative: its label, or its value where there is none. -/
def ChoiceRef.label (c : ChoiceRef) : String := if c.written.isEmpty then c.value else c.written

/-- The members of an enumeration, each with the title its arm gave it. -/
def titledMembers (k : Value) : List (Value × String) :=
  match (k.get Vocab.enum).bind Value.asList, k.get Vocab.const with
  | some listed, _ => listed.map (·, "")
  | none, some single => [(single, "")]
  | none, none => (listUnder Vocab.oneOf k).filterMap fun arm =>
    (arm.get Vocab.const).map (·, (textUnder Vocab.title arm).getD "")

/-- The alternatives of an enumeration with their labels. -/
def Kind.choiceRefs : Kind → List ChoiceRef
  | .enum owner => (titledMembers owner).filterMap fun (member, title) =>
    (memberText member).map fun value =>
      ⟨value, (((owner.get Vocab.xEnumLabels).bind (textUnder value)).getD title)⟩
  | _ => []

/-- An arm's title, falling back to its discriminant. -/
def ArmRef.title (a : ArmRef) : String :=
  let written := (textUnder Vocab.title a.schema).getD ""
  if written.isEmpty then a.value else written

/-- The label a value has among some choices: the last that says something of it, or the value. -/
def shownLabel (choices : List (String × String)) (value : String) : String :=
  ((choices.reverse.find? fun c => c.1 == value && KindBuilder.labelled c).map Prod.snd).getD value

mutual

/-- A schema is read as a plan. -/
def Reads : Plan → Value → Prop
  | .bool, v => Kind.read (some v) = .bool
  | .float, v => Kind.read (some v) = .float
  | .bytes, v => Kind.read (some v) = .bytes
  | .int min max, v =>
    Kind.read (some v) = .int ∧ intBounds v = (min.map Int64.toInt, max.map Int64.toInt)
  | .string minLength maxLength pattern format, v =>
    Kind.read (some v) = .str ∧
      strBounds v = (minLength.map UInt64.toNat, maxLength.map UInt64.toNat, pattern, format)
  | .enumeration choices, v =>
    ∃ owner, Kind.read (some v) = .enum owner ∧
      (Kind.enum owner).choiceRefs.map (fun c => (c.value, c.label)) =
        choices.map fun c => (c.1, shownLabel choices c.1)
  | .list items minItems maxItems, v =>
    ∃ schema, Kind.read (some v) = .list schema ∧
      listBounds v = (minItems.map UInt64.toNat, maxItems.map UInt64.toNat) ∧ Reads items schema
  | .tuple positions, v =>
    ∃ owner, Kind.read (some v) = .tuple owner ∧
      ReadsAll positions (listUnder Vocab.prefixItems owner)
  | .map fields, v =>
    ∃ owner, Kind.read (some v) = .map owner ∧ ReadsFields fields (Kind.map owner).fields
  | .mapOf values, v =>
    ∃ owner schema, Kind.read (some v) = .mapOf owner ∧
      owner.get Vocab.additionalProperties = some schema ∧ Reads values schema
  | .union arms, v =>
    ∃ anyOf, Kind.read (some v) = .union anyOf ∧ ReadsAll arms (anyOf.asList.getD [])
  | .variant tag arms, v =>
    ∃ oneOf, Kind.read (some v) = .variant tag oneOf ∧ ReadsArms arms (Kind.variant tag oneOf).arms
  | .noted _ kind, v => Reads kind v
  | .nullable kind, v => Reads kind v ∧ isNullable v = true

/-- Schemas are read as plans, in order. -/
def ReadsAll : List Plan → List Value → Prop
  | [], schemas => schemas = []
  | plan :: rest, schemas => ∃ v left, schemas = v :: left ∧ Reads plan v ∧ ReadsAll rest left

/-- Fields are read as the fields of a plan: their names, in order, whether each is required, and
what each accepts. -/
def ReadsFields : List (String × Bool × Plan) → List FieldRef → Prop
  | [], fields => fields = []
  | (key, required, plan) :: rest, fields => ∃ f left, fields = f :: left ∧
    f.key = key ∧ f.required = required ∧ Reads plan f.schema ∧ ReadsFields rest left

/-- Arms are read as the arms of a plan: their values, in order, their titles and their fields. -/
def ReadsArms : List (String × String × List (String × Bool × Plan)) → List ArmRef → Prop
  | [], arms => arms = []
  | (value, title, fields) :: rest, arms => ∃ a left, arms = a :: left ∧
    a.value = value ∧ a.title = (if title.isEmpty then value else title) ∧
      ReadsFields fields a.fields ∧ ReadsArms rest left

end

end Guatiao.Schema
