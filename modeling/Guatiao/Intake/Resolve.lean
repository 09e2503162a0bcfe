import Guatiao.Intake.Flat

/-!
# The field a key names

A key is read with the path grammar and walked through the schema, one segment a step: for the
schema alone, where a member of any arm is found, and for a store, whose discriminants select the
arms.
-/

namespace Guatiao.Intake

open Lib Schema

/-- Why a key names no field. -/
inductive ValidationError
  /-- No field is declared under the key; the keys that are. -/
  | unknownOption (key : Text) (known : List Text)
  /-- The field does not accept it; what it accepts. -/
  | badValue (key : Text) (expected : Text)
  deriving DecidableEq

/-- A segment as the text it names, for a container that is keyed. -/
def nameOf : Segment → Text
  | .field name => name
  | .key key => key
  | .index at_ => (toString at_).toList

/-- The value schema of an open map, as the value it is written as. -/
def valuesOf (field : FieldRef) : Option Value := field.schema.get Vocab.additionalProperties

/-- A tuple's position schemas, as the values they are written as. -/
def positionsOf (owner : Value) : Option (List Value) :=
  (owner.get Vocab.prefixItems).bind Value.asList

/-- The field among some that a segment names. -/
def fieldNamed (segment : Segment) (fields : List FieldRef) : Option FieldRef :=
  fields.find? fun f => f.key.toList == nameOf segment

/-- One step into a field, by one segment. -/
def into (field : FieldRef) (segment : Segment) : Option FieldRef :=
  match field.kind with
  | .map _ => fieldNamed segment field.kind.fields
  | .variant _ _ => field.kind.arms.findSome? fun arm => fieldNamed segment arm.fields
  | .list items =>
    match segment with
    | .index _ => FieldRef.new "" items
    | _ => none
  | .mapOf _ => (valuesOf field).bind (FieldRef.new "")
  | .tuple owner =>
    match segment with
    | .index at_ => ((positionsOf owner).bind fun list => list[at_]?).bind (FieldRef.new "")
    | _ => none
  | _ => none

/-- The top-level field a path's first segment names. -/
def root (schema : SchemaRef) (first : Segment) : Option FieldRef :=
  schema.find (.ofList (nameOf first))

/-- Steps into a field by each segment in turn. -/
def walkFrom : FieldRef → List (Segment × ℕ) → Option FieldRef
  | at_, [] => some at_
  | at_, (segment, _) :: rest => (into at_ segment).bind fun next => walkFrom next rest

/-- The field governing a path, walking every segment of it. A key that names a field outright
wins. -/
def resolve (schema : SchemaRef) (key : Text) : Option FieldRef :=
  match schema.find (.ofList key) with
  | some direct => some direct
  | none =>
    (spelled key false).bind fun segments =>
      segments.head?.bind fun first =>
        (root schema first.1).bind fun at_ => walkFrom at_ segments.tail

/-- Whether a flat key names a secret. -/
def isSensitive (schema : SchemaRef) (key : Text) : Bool :=
  ((resolve schema key).map FieldRef.isSensitive).getD false

/-- The single-line spelling of a value. -/
def textOf (value : Value) : Text := (scalarText value).getD []

/-- Texts with a comma between them. -/
def joined (texts : List Text) : Text := List.intercalate ", ".toList texts

/-- What a segment's step expected of something that has no members. -/
def hasMembers (whole : Text) : Text :=
  "something with members — '".toList ++ whole ++ "' reads through it as if it had them".toList

/-- What a payload key needs before it can be checked. -/
def namesAnArm (names : List Text) (whole : Text) : Text :=
  "a value naming one of ".toList ++ joined names ++ " — '".toList ++ whole ++
    "' belongs to an arm and cannot be checked until one is chosen".toList

/-- What an arm accepts. -/
def acceptedBy (chosen walked : Text) (accepted : List Text) : Text :=
  "nothing — the '".toList ++ chosen ++ "' arm of '".toList ++ walked ++
    if accepted.isEmpty then "' stores no fields at all".toList
    else "' accepts only ".toList ++ joined accepted

/-- The discriminant a store has for a place, spelled either way, or else the field's default. -/
def chosenAt (field : FieldRef) (walked spelled : Text) (selected : Text → Option Text) : Text :=
  let given := fun at_ => (selected at_).filter fun text => !text.isEmpty
  ((given walked).or ((given spelled).or ((field.schema.get Vocab.default).map textOf))).getD []

/-- One step of `resolveIn`, with the arm a store selected. -/
def stepIn (field : FieldRef) (segment : Segment) (walked spelled whole : Text)
    (selected : Text → Option Text) : Except ValidationError FieldRef :=
  match field.kind with
  | .variant _ _ =>
    let chosen := chosenAt field walked spelled selected
    match field.kind.arms.find? fun a => a.value.toList == chosen with
    | none =>
      .error (.badValue walked (namesAnArm (field.kind.arms.map fun a => a.value.toList) whole))
    | some arm =>
      match fieldNamed segment arm.fields with
      | some f => .ok f
      | none => .error (.badValue whole (acceptedBy chosen walked (arm.fields.map fun f => f.key.toList)))
  | kind =>
    -- Everything else steps the same way it does without a store.
    match into field segment with
    | some f => .ok f
    | none =>
      let known := kind.fields.map fun f => f.key.toList
      .error (if known.isEmpty then .badValue walked (hasMembers whole) else .unknownOption whole known)

/-- A path as the store spells it, one segment longer. -/
def extended (walked : Text) : Segment → Text
  | .field name => walked ++ '.' :: name
  | segment => walked ++ segment.display

/-- The walk of `resolveIn` below a top-level field: with the path as the store spells it, and how
much of the key it is as the key spells it. -/
def walkIn (key : Text) (selected : Text → Option Text) :
    FieldRef → Text → ℕ → List (Segment × ℕ) → Except ValidationError FieldRef
  | at_, _, _, [] => .ok at_
  | at_, walked, spelled, (segment, end_) :: rest =>
    match stepIn at_ segment walked (key.take spelled) key selected with
    | .error e => .error e
    | .ok next => walkIn key selected next (extended walked segment) end_ rest

/-- The field governing a path in a particular store: the arm a payload key belongs to must be the
one the store selects. -/
def resolveIn (schema : SchemaRef) (key : Text) (selected : Text → Option Text) :
    Except ValidationError FieldRef :=
  match (schema.find (.ofList key)).filter fun _ => isBareName key with
  | some direct => .ok direct
  | none =>
    let walked :=
      (spelled key false).bind fun segments =>
        segments.head?.bind fun first =>
          (root schema first.1).map fun at_ =>
            walkIn key selected at_ (rootPath (nameOf first.1)) first.2 segments.tail
    walked.getD
      (.error (.unknownOption key (schema.fields.map fun f => f.key.toList)))

end Guatiao.Intake
