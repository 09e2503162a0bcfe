import Guatiao.Value.Convert

/-!
# Writing a schema

A schema is a map, and the builders write its keys. A builder holds its first error and hands it back
when it is finished. A field's name and requiredness are its owner's to write, so the fields of an
object are held until it is. The allocators are left out: no step is refused for want of room.
-/

namespace Guatiao.Schema

open Lib

/-- What a builder has written, or the first error that stopped it. -/
abbrev Drafted := Except ValueError Value

/-- Sets a key, keeping the first error rather than the last. -/
def put (state : Drafted) (key : String) (value : Drafted) : Drafted :=
  match state with
  | .error e => .error e
  | .ok node =>
    match value with
    | .error e => .error e
    | .ok v =>
      match node with
      | .map entries => .ok (.map (AssocList.set key v entries))
      | _ => .error .wrongKind

/-- Appends to the list under a key, creating the list if needed. -/
def push (state : Drafted) (key : String) (value : Drafted) : Drafted :=
  match state with
  | .error e => .error e
  | .ok node =>
    match value with
    | .error e => .error e
    | .ok v =>
      match node with
      | .map entries =>
        match (AssocList.get key entries).getD (.list []) with
        | .list items => .ok (.map (AssocList.set key (.list (items ++ [v])) entries))
        | _ => .error .wrongKind
      | _ => .error .wrongKind

/-- Appends a name to a list being built. -/
def pushName (list : Drafted) (name : String) : Drafted :=
  match list with
  | .error e => .error e
  | .ok (.list items) => .ok (.list (items ++ [.string name]))
  | .ok _ => .error .wrongKind

/-- A number by its text. -/
def numbered (n : ℤ) : Drafted := .ok (.number (.ofInt n))

/-- Builds one kind: a subschema with no name of its own. -/
structure KindBuilder where
  state : Drafted

/-- Builds one field: its name, what it accepts, and whether it is required. -/
structure FieldBuilder where
  state : Drafted
  key : String
  required : Bool

/-- Builds one arm of a tagged kind. -/
structure ArmBuilder where
  state : Drafted
  discriminant : Drafted
  /-- The discriminant's text, which the variant compares across arms. -/
  value : String
  fields : List FieldBuilder

/-- Whether a list repeats something. -/
def repeats : List String → Bool
  | [] => false
  | key :: rest => rest.contains key || repeats rest

/-- The fields written into an object's `properties`, behind what is there. -/
def writeProperties (properties : Drafted) (fields : List FieldBuilder) : Drafted :=
  fields.foldl (fun properties field => put properties field.key field.state) properties

/-- The names of the required fields written into the list of them. -/
def writeRequired (required : Drafted) (fields : List FieldBuilder) : Drafted :=
  fields.foldl (fun required field => if field.required then pushName required field.key else required)
    required

/-- Writes `properties` and `required` onto an object schema. A tag goes in first, and is always
required. -/
def sealObject (state : Drafted) (tag : Option (String × Drafted)) (fields : List FieldBuilder) : Drafted :=
  let properties : Drafted :=
    match tag with
    | some (tag, discriminant) => put (.ok (.map [])) tag discriminant
    | none => .ok (.map [])
  let required : Drafted :=
    match tag with
    | some (tag, _) => pushName (.ok (.list [])) tag
    | none => .ok (.list [])
  let state : Drafted :=
    if repeats (tag.toList.map Prod.fst ++ fields.map FieldBuilder.key) && state.isOk then
      .error .duplicateKey
    else state
  let state := put state Vocab.properties (writeProperties properties fields)
  let state := put state Vocab.additionalProperties (.ok (.bool false))
  if tag.isSome || fields.any FieldBuilder.required then
    put state Vocab.required (writeRequired required fields)
  else state

/-- A field under a key: the kind's map is the field's subschema. -/
def FieldBuilder.new (key : String) (kind : KindBuilder) : FieldBuilder := ⟨kind.state, key, false⟩

namespace KindBuilder

/-- `typed` -/
def typed (ty : String) : KindBuilder := ⟨put (.ok (.map [])) Vocab.type (.ok (.string ty))⟩

/-- Writes a key. -/
def keyword (k : KindBuilder) (key : String) (value : Drafted) : KindBuilder := ⟨put k.state key value⟩

/-- Writes a count. -/
def count (k : KindBuilder) (key : String) (n : UInt64) : KindBuilder :=
  k.keyword key (numbered n.toNat)

/-- Writes text. -/
def text (k : KindBuilder) (key : String) (text : String) : KindBuilder :=
  k.keyword key (.ok (.string text))

def minLength (k : KindBuilder) (n : UInt64) : KindBuilder := k.count Vocab.minLength n

def maxLength (k : KindBuilder) (n : UInt64) : KindBuilder := k.count Vocab.maxLength n

def pattern (k : KindBuilder) (pattern : String) : KindBuilder := k.text Vocab.pattern pattern

def format (k : KindBuilder) (format : String) : KindBuilder := k.text Vocab.format format

def minItems (k : KindBuilder) (n : UInt64) : KindBuilder := k.count Vocab.minItems n

def maxItems (k : KindBuilder) (n : UInt64) : KindBuilder := k.count Vocab.maxItems n

/-- True or false. -/
def bool : KindBuilder := typed Vocab.typeBoolean

/-- Free text. -/
def string : KindBuilder := typed Vocab.typeString

/-- A real number, unbounded. -/
def float : KindBuilder := typed Vocab.typeNumber

/-- Opaque bytes. -/
def bytes : KindBuilder := typed Vocab.typeBytes

/-- A whole number, bounded on either side or neither. -/
def intBounds (min max : Option Int64) : KindBuilder :=
  let k := typed Vocab.typeInteger
  let k := match min with
    | some min => k.keyword Vocab.minimum (numbered min.toInt)
    | none => k
  match max with
  | some max => k.keyword Vocab.maximum (numbered max.toInt)
  | none => k

/-- A sequence, every element of one kind. -/
def list (items : KindBuilder) : KindBuilder :=
  (typed Vocab.typeArray).keyword Vocab.items items.state

/-- A nested object with its own fields. -/
def map (fields : List FieldBuilder) : KindBuilder := ⟨sealObject (typed Vocab.typeObject).state none fields⟩

/-- An object whose keys are data. -/
def mapOf (values : KindBuilder) : KindBuilder :=
  (typed Vocab.typeObject).keyword Vocab.additionalProperties values.state

/-- A fixed-length array whose element at each position has its own kind. -/
def tuple (positions : List KindBuilder) : KindBuilder :=
  let k := (typed Vocab.typeArray).keyword Vocab.prefixItems (.ok (.list []))
  let state := positions.foldl
    (fun state position => push state Vocab.prefixItems position.state) k.state
  let k := KindBuilder.keyword ⟨state⟩ Vocab.items (.ok (.bool false))
  (k.minItems (.ofNat positions.length)).maxItems (.ofNat positions.length)

/-- A label that labelled something the value does not. -/
def labelled (choice : String × String) : Bool := !choice.2.isEmpty && choice.2 != choice.1

/-- Exactly one of a fixed set of alternatives, with their labels by value. -/
def enumeration (choices : List (String × String)) : KindBuilder :=
  let k := typed Vocab.typeString
  let values := choices.foldl (fun values choice => pushName values choice.1) (.ok (.list []))
  let labels := choices.foldl
    (fun labels choice => if labelled choice then put labels choice.1 (.ok (.string choice.2)) else labels)
    (.ok (.map []))
  let k := k.keyword Vocab.enum values
  if choices.any labelled then k.keyword Vocab.xEnumLabels labels else k

/-- Any one of several kinds, untagged. -/
def union (arms : List KindBuilder) : KindBuilder :=
  let state := put (.ok (.map [])) Vocab.anyOf (.ok (.list []))
  ⟨arms.foldl (fun state arm => push state Vocab.anyOf arm.state) state⟩

/-- One of several alternatives, each with its own fields, told by what is stored under a tag. -/
def variant (tag : String) (arms : List ArmBuilder) : KindBuilder :=
  let k := (typed Vocab.typeObject).text Vocab.xVariantTag tag
  let state := put k.state Vocab.oneOf (.ok (.list []))
  let state : Drafted :=
    if repeats (arms.map ArmBuilder.value) && state.isOk then .error .duplicateKey else state
  ⟨arms.foldl (fun state arm =>
    push state Vocab.oneOf (sealObject arm.state (some (tag, arm.discriminant)) arm.fields)) state⟩

/-- The keywords beside which a `type` is not all a kind labelled. -/
def constraining : List String :=
  [Vocab.enum, Vocab.const, Vocab.anyOf, Vocab.oneOf, Vocab.allOf, Vocab.xVariantTag]

/-- The same kind, accepting null as well: in a list of types beside the one it has, where that alone
labelled what it accepts, else as one of two arms. -/
def nullable (k : KindBuilder) : KindBuilder :=
  match k.state with
  | .error e => ⟨.error e⟩
  | .ok kind =>
    let arms : KindBuilder :=
      ⟨push (push (put (.ok (.map [])) Vocab.anyOf (.ok (.list []))) Vocab.anyOf (.ok kind))
        Vocab.anyOf (typed Vocab.typeNull).state⟩
    if !isMap kind then arms
    else if kind.asMap == some [] then ⟨.ok kind⟩
    else
      match constraining.any fun key => (kind.get key).isSome, textUnder Vocab.type kind with
      | false, some name =>
        if name = Vocab.typeNull then ⟨.ok kind⟩
        else
          ⟨put (.ok kind) Vocab.type (pushName (pushName (.ok (.list [])) name) Vocab.typeNull)⟩
      | _, _ => arms

end KindBuilder

/-- An arm storing a value when selected. -/
def ArmBuilder.new (value title : String) : ArmBuilder where
  state :=
    if !title.isEmpty && title != value then put (.ok (.map [])) Vocab.title (.ok (.string title))
    else .ok (.map [])
  discriminant := put (.ok (.map [])) Vocab.const (.ok (.string value))
  value := value
  fields := []

/-- What is said about a kind or a field beside what it accepts. -/
inductive Note
  | title (text : String)
  | description (text : String)
  | uniqueItems
  | default (value : Value)
  | sensitive
  | readOnly
  | deprecated
  | examples (values : List Value)

/-- Writes a note. -/
def Note.write (state : Drafted) : Note → Drafted
  | .title text => put state Vocab.title (.ok (.string text))
  | .description text => put state Vocab.description (.ok (.string text))
  | .uniqueItems => put state Vocab.uniqueItems (.ok (.bool true))
  | .default value => put state Vocab.default (.ok value)
  | .sensitive =>
    put (put state Vocab.xSensitive (.ok (.bool true))) Vocab.writeOnly (.ok (.bool true))
  | .readOnly => put state Vocab.readOnly (.ok (.bool true))
  | .deprecated => put state Vocab.deprecated (.ok (.bool true))
  | .examples values => put state Vocab.examples (.ok (.list values))

end Guatiao.Schema
