import Guatiao.Schema.Decimal

/-!
# Whether a value is one the schema would accept

Two walks over a schema: one against a text, which is all a flat store has, and one against a
value. Both are given the levels they may still follow. A refusal names the field and what it
would have accepted, and never what was given. Keys of a map are text here, so what the walks say
of other keys is left out.
-/

/-!
## Enforcing a pattern

Patterns are ECMA-262 regular expressions, run by the `regex` crate, whose classes `\d`, `\w`
and their complements are wider: the four are rewritten first. The engine is a parameter, and a
build without one compiles nothing.
-/

namespace Guatiao.Schema

/-- What a build compiles patterns with: none for a pattern it cannot evaluate. -/
abbrev Engine := String → Option (String → Bool)

/-- What a class becomes, inside brackets or outside, none when it is left as it is. -/
def ecmaClass (inside : Bool) (c : Char) : Option String :=
  if c == 'd' then some (if inside then "0-9" else "[0-9]")
  else if c == 'w' then some (if inside then "A-Za-z0-9_" else "[A-Za-z0-9_]")
  else if inside then none
  else if c == 'D' then some "[^0-9]"
  else if c == 'W' then some "[^A-Za-z0-9_]"
  else none

/-- The characters of a pattern with its classes spelled out, so many brackets deep. A closing
bracket right after an opening one is a character. -/
def ecmaChars (classes : ℕ) (classStart : Bool) : List Char → List Char
  | [] => []
  | '\\' :: [] => ['\\']
  | '\\' :: c :: rest =>
    match ecmaClass (classes != 0) c with
    | some spelled => spelled.toList ++ ecmaChars classes false rest
    | none => '\\' :: c :: ecmaChars classes false rest
  | '[' :: '^' :: rest => '[' :: '^' :: ecmaChars (classes + 1) true rest
  | '[' :: rest => '[' :: ecmaChars (classes + 1) true rest
  | c :: rest =>
    if c == ']' && classes != 0 && !classStart then c :: ecmaChars (classes - 1) false rest
    else c :: ecmaChars classes false rest

/-- A pattern with the four classes as ECMA-262 defines them. -/
def ecmaClasses (pattern : String) : String := .ofList (ecmaChars 0 false pattern.toList)

example : ecmaClasses "\\d[\\w\\D][]\\d]" = "[0-9][A-Za-z0-9_\\D][]0-9]" := by decide

/-- Whether a text matches a pattern, which one that cannot be compiled does not refuse. -/
def patternMatches (engine : Engine) (pattern text : String) : Bool :=
  (engine (ecmaClasses pattern)).all fun accepts => accepts text

end Guatiao.Schema

namespace Guatiao.Schema

open Lib

/-- Why a value was refused. -/
inductive ValidationError
  /-- No field is declared under this key; with the keys that are. -/
  | unknownOption (key : String) (known : List String)
  /-- A declared field does not accept the value; with what it would have. -/
  | badValue (key expected : String)
  deriving DecidableEq

/-- What a check answers. -/
abbrev Verdict := Except ValidationError Unit

/-- A refusal of the value under a key. -/
def bad (key expected : String) : Verdict := .error (.badValue key expected)

/-- The first refusal among the checks of a list's items. -/
def checkAll {α : Type*} (check : α → Verdict) : List α → Verdict
  | [] => .ok ()
  | x :: rest => do
    check x
    checkAll check rest

/-- The spellings a boolean accepts: written bare, it has none and is true. -/
def boolWords : List String := ["1", "0", "true", "false", "yes", "no", ""]

/-- What a refusal says of a tree nested too deep to follow. -/
def tooDeep (key : String) : Verdict := bad key s!"a value nested no deeper than {maxDepth} levels"

/-- The arms of a tagged kind, for a message. -/
def armNames (kind : Kind) : String := ", ".intercalate (kind.arms.map ArmRef.value)

/-- What a refusal of an enumeration wanted. -/
def oneOfMembers (kind : Kind) : String :=
  if kind.choices.isEmpty then "one of the listed values"
  else "one of " ++ ", ".intercalate kind.choices

/-- The schema a value must fail. -/
def excluded (schema : Value) : Option Value := (peel schema).get Vocab.not

/-- What a refusal by an excluded schema wanted. -/
def otherThan (excluded : Value) : String :=
  let names := (members excluded).filterMap memberText
  if names.isEmpty then "a value its `not` schema does not describe"
  else "a value other than " ++ ", ".intercalate names

/-- A boolean keyword, once the wrappers are off: true only when written so. -/
def flag (schema : Value) (key : String) : Bool := Value.boolOr false ((peel schema).get key)

/-- The key of an element. -/
def atIndex (key : String) (i : ℕ) : String := s!"{key}[{i}]"

/-- The key of an entry whose key is data. -/
def atKey (key name : String) : String := s!"{key}[{name}]"

/-- The key of a field of an object. -/
def nested (key name : String) : String := if key.isEmpty then name else s!"{key}.{name}"

section Text

variable (doubles : Doubles) (engine : Engine)

/-- Whether a text is a whole number written plainly. -/
def isIntegerText (text : String) : Bool :=
  isNumber text && !(asBytes text).any fun b => b == 0x2e || b == 0x65 || b == 0x45

/-- What a refusal of a length wanted. -/
def lengths : Option ℕ → Option ℕ → String
  | some lo, some hi => s!"text of between {lo} and {hi} characters"
  | some lo, none => s!"text of at least {lo} characters"
  | none, some hi => s!"text of at most {hi} characters"
  | none, none => "text"

/-- Whether a number is outside a least and a greatest. -/
def outside (lo hi : Option ℕ) (n : ℕ) : Bool := lo.any (n < ·) || hi.any (· < n)

/-- A text against the schema of one. Characters are code points. -/
def strAgainst (own : Value) (key value : String) : Verdict :=
  let lo := optCount Vocab.minLength own
  let hi := optCount Vocab.maxLength own
  if outside lo hi value.length then bad key (lengths lo hi)
  else
    match textUnder Vocab.pattern own with
    | some pattern =>
      if patternMatches engine pattern value then .ok () else bad key s!"text matching {pattern}"
    | none => .ok ()

/-- A text against the schema of a whole number. -/
def intAgainst (own : Value) (key value : String) : Verdict :=
  let bounds := Bounds.read own
  if !isIntegerText value then bad key "a whole number"
  else if !bounds.admitText value then bad key bounds.describe
  -- `-0` is zero, which an unsigned type still refuses to read.
  else if (asBytes value).head? = some 0x2d ∧
      bounds.min.any (fun m => (compare m "0").any Ordering.isGE) then
    bad key s!"{bounds.describe}, written without a minus sign"
  else
    match optStep doubles own with
    | some step =>
      if intIsMultiple doubles value step then .ok ()
      else bad key s!"a multiple of {doubles.display step}"
    | none => .ok ()

/-- A text against the schema of a number. -/
def floatAgainst (own : Value) (key value : String) : Verdict :=
  match numberOf doubles value with
  | none => bad key "a number"
  | some x =>
    let bounds := Bounds.read own
    if !bounds.admitText value then bad key bounds.describe
    else
      match optStep doubles own with
      | some step =>
        if floatIsMultiple doubles x step then .ok ()
        else bad key s!"a multiple of {doubles.display step}"
      | none => .ok ()

/-- A check of a text, or of a value: its schema, its key and itself. -/
abbrev Walk (α : Type) := Value → String → α → Verdict

/-- A check, once what the schema under `not` describes is refused. -/
def excluding {α : Type} (walk : Walk α) (check : Verdict) (schema : Value) (key : String)
    (value : α) : Verdict :=
  match (excluded schema).filter fun e => (walk e key value).isOk with
  | some e => bad key (otherThan e)
  | none => check

/-- A text against the kind of its schema. One with no spelling of its own accepts: what it holds
is checked where the value is there. -/
def textAgainst (walk : Walk String) (schema : Value) (key value : String) : Verdict :=
  let kind := Kind.read (some schema)
  match kind with
  | .str => strAgainst engine (peel schema) key value
  | .bool =>
    if boolWords.contains value then .ok () else bad key "a boolean (1/0, true/false, yes/no)"
  | .int => intAgainst doubles (peel schema) key value
  | .float => floatAgainst doubles (peel schema) key value
  | .enum _ => if kind.choices.any (· == value) then .ok () else bad key (oneOfMembers kind)
  | .null => bad key "null"
  | .variant _ _ =>
    if kind.arms.any fun a => a.value == value then .ok () else bad key s!"one of {armNames kind}"
  | .union anyOf =>
    if (anyOf.asList.getD []).any fun arm => (walk arm key value).isOk then .ok ()
    else bad key "one of the accepted forms"
  | .bytes | .list _ | .tuple _ | .map _ | .mapOf _ | .unknown _ => .ok ()
  | .missing => bad key "a declared kind — this field declares none"

/-- A text against a schema, so many levels followed at most. -/
def against : ℕ → Walk String
  | 0, _, key, _ => tooDeep key
  | left + 1, schema, key, value =>
    excluding (against left) (textAgainst doubles engine (against left) schema key value) schema key
      value

/-- Whether a field accepts a text. -/
def validateText (field : FieldRef) (text : String) : Verdict :=
  against doubles engine maxDepth field.schema field.key text

end Text

section Typed

variable (doubles : Doubles) (engine : Engine)

/-- Whether a value is of a type by its name; an unknown one admits it. -/
def admits (name : String) (value : Value) : Bool :=
  if name = Vocab.typeNull then value.tag == .null
  else if name = Vocab.typeBoolean then value.tag == .bool
  else if name = Vocab.typeString then value.tag == .string
  else if name = Vocab.typeBytes then value.tag == .bytes
  else if name = Vocab.typeArray then value.tag == .list
  else if name = Vocab.typeObject then value.tag == .map
  else if name = Vocab.typeNumber then value.tag == .number
  else if name = Vocab.typeInteger then (asNumber value).any isWhole
  else true

/-- Whether a value is of a type the schema's `type` names. -/
def typeAdmits (schema value : Value) : Bool :=
  match schema.get Vocab.type with
  | none => true
  | some (.string name) => admits name value
  | some ty =>
    let names := (ty.asList.getD []).filterMap Value.asStr
    names.isEmpty || names.any fun name => admits name value

/-- The position of the first element equal to an earlier one. -/
def firstRepeat (elements : List Value) : Option ℕ :=
  (List.range elements.length).find? fun i =>
    elements[i]?.any fun x => (elements.take i).any fun e => sameJson doubles e x

/-- Elements that must all differ, when the schema says so. -/
def uniqueAgainst (schema : Value) (key : String) (elements : List Value) : Verdict :=
  if flag schema Vocab.uniqueItems then
    match firstRepeat doubles elements with
    | some i => bad (atIndex key i) "an element equal to no earlier one"
    | none => .ok ()
  else .ok ()

/-- What a refusal of a number of elements wanted. -/
def listLengths (exactly : Bool) : Option ℕ → Option ℕ → String
  | some lo, some hi =>
    if exactly && lo == hi then s!"a list of exactly {lo} items"
    else s!"a list of between {lo} and {hi} items"
  | some lo, none => s!"a list of at least {lo} items"
  | none, some hi => s!"a list of at most {hi} items"
  | none, none => "a list"

/-- What an object says about a key it does not declare. -/
inductive Undeclared
  | refused
  | accepted
  | checked (schema : Value)

/-- What an object's `additionalProperties` says: absent or `true` accepts. -/
def undeclaredRule (owner : Value) : Undeclared :=
  match owner.get Vocab.additionalProperties with
  | some (.bool false) => .refused
  | some v => if isMap v then .checked v else .accepted
  | none => .accepted

/-- The value under a key its object does not declare. -/
def undeclared (walk : Walk Value) (owner : Value) (path : String) (value : Value) (refusal : String) :
    Verdict :=
  match undeclaredRule owner with
  | .refused => bad path refusal
  | .accepted => .ok ()
  | .checked schema => walk schema path value

/-- Every key of a map against the `propertyNames` of its schema, as text. -/
def namesAgainst (text : Walk String) (owner : Value) (key : String)
    (entries : List Entry) : Verdict :=
  match owner.get Vocab.propertyNames with
  | none => .ok ()
  | some names =>
    checkAll (fun e =>
      if (text names (atKey key e.1) e.1).isOk then .ok ()
      else bad (atKey key e.1) "a key the map's key type can read") entries

/-- An entry against the field it is under, or by what is said of undeclared keys. -/
def entryUnder (walk : Walk Value) (fields : List FieldRef) (owner : Value) (key : String)
    (refusal : String → String) (e : Entry) : Verdict :=
  match fields.find? fun f => f.key == e.1 with
  | some field => walk field.schema (nested key e.1) e.2
  | none => undeclared walk owner (nested key e.1) e.2 (refusal e.1)

/-- Each entry against its field. -/
def eachDeclared (walk : Walk Value) (fields : List FieldRef) (owner : Value) (key : String)
    (refusal : String → String) (entries : List Entry) : Verdict :=
  checkAll (entryUnder walk fields owner key refusal) entries

/-- Each required field is there. -/
def eachRequired (fields : List FieldRef) (key wanted : String) (entries : List Entry) : Verdict :=
  checkAll (fun f =>
    if f.required && !AssocList.contains f.key entries then bad (nested key f.key) wanted
    else .ok ()) fields

/-- Elements of one schema. -/
def listAgainst (walk : Walk Value) (schema items : Value) (key : String) (elements : List Value) :
    Verdict := do
  let lo := optCount Vocab.minItems (peel schema)
  let hi := optCount Vocab.maxItems (peel schema)
  if outside lo hi elements.length then bad key (listLengths false lo hi)
  checkAll (fun e => walk items (atIndex key e.2) e.1) elements.zipIdx
  uniqueAgainst doubles schema key elements

/-- One element of a tuple: against the schema of its position, or past them by what `items`
says. -/
def positionAgainst (walk : Walk Value) (owner : Value) (key : String) (element : Value) (i : ℕ) :
    Verdict :=
  let positions := listUnder Vocab.prefixItems owner
  match positions[i]?, owner.get Vocab.items with
  | some position, _ => walk position (atIndex key i) element
  | none, some (.bool false) => bad key s!"a list of at most {positions.length} items"
  | none, some rest => if isMap rest then walk rest (atIndex key i) element else .ok ()
  | none, none => .ok ()

/-- Elements each of its own schema. -/
def tupleAgainst (walk : Walk Value) (schema owner : Value) (key : String) (elements : List Value) :
    Verdict := do
  let lo := optCount Vocab.minItems owner
  let hi := optCount Vocab.maxItems owner
  if outside lo hi elements.length then bad key (listLengths true lo hi)
  checkAll (fun e => positionAgainst walk owner key e.1 e.2) elements.zipIdx
  uniqueAgainst doubles schema key elements

/-- The entries of an open map, each under a key that is data. -/
def mapOfAgainst (walk : Walk Value) (owner : Value) (key : String) (entries : List Entry) : Verdict :=
  match owner.get Vocab.additionalProperties with
  | none => .ok ()
  | some element => checkAll (fun e => walk element (atKey key e.1) e.2) entries

/-- The payload of a variant: of the arm its discriminant names, and nothing another declares. -/
def variantAgainst (walk : Walk Value) (kind : Kind) (tag key : String) (entries : List Entry) :
    Verdict := do
  let chosen := ((AssocList.get tag entries).bind Value.asStr).getD ""
  match kind.arms.find? fun a => a.value == chosen with
  | none => bad key s!"a '{tag}' naming one of {armNames kind}"
  | some arm =>
    eachDeclared walk arm.fields arm.schema key
      (fun name => s!"nothing — '{name}' is not declared by the '{chosen}' arm")
      (entries.filter fun e => e.1 != tag)
    eachRequired arm.fields key s!"a value — it is required by the '{chosen}' arm" entries

/-- A value against the kind of its schema. A scalar is the type its kind names, and only then are
the rules of its text applied. -/
def kindAgainst (text : Walk String) (names : Walk String) (walk : Walk Value) (schema : Value)
    (key : String) (value : Value) : Verdict :=
  let kind := Kind.read (some schema)
  match kind with
  | .null => if value.tag = .null then .ok () else bad key "null"
  | .bytes => if value.tag = .bytes then .ok () else bad key "bytes"
  | .bool => if value.tag = .bool then .ok () else bad key "a boolean (true or false)"
  | .int =>
    match asNumber value with
    | some number => text schema key number
    | none => bad key "a whole number"
  | .float =>
    match asNumber value with
    | some number => text schema key number
    | none => bad key "a number"
  | .str =>
    match value.asStr with
    | some chars => text schema key chars
    | none => bad key "text"
  | .enum owner =>
    if typeAdmits owner value && (members owner).any fun m => sameJson doubles m value then .ok ()
    else bad key (oneOfMembers kind)
  | .union anyOf =>
    if (anyOf.asList.getD []).any fun arm => (walk arm key value).isOk then .ok ()
    else bad key "one of the accepted forms"
  | .list items =>
    match value.asList with
    | some elements => listAgainst doubles walk schema items key elements
    | none => bad key "a list"
  | .tuple owner =>
    match value.asList with
    | some elements => tupleAgainst doubles walk schema owner key elements
    | none => bad key "a list"
  | .mapOf owner =>
    match value.asMap with
    | some entries => do
      namesAgainst names owner key entries
      mapOfAgainst walk owner key entries
    | none => bad key "an object"
  | .map owner =>
    match value.asMap with
    | some entries => do
      namesAgainst names owner key entries
      eachDeclared walk kind.fields owner key
        (fun name => s!"nothing — '{name}' is not a declared field") entries
      eachRequired kind.fields key "a value — it is required" entries
    | none => bad key "an object"
  | .unknown _ => .ok ()
  | .missing => bad key "a declared kind — this field declares none"
  | .variant tag _ =>
    match value.asMap with
    | some entries => variantAgainst walk kind tag key entries
    | none => bad key s!"an object carrying a '{tag}' discriminant"

/-- A value against a schema, so many levels followed at most. The text of a scalar is checked on
the same level, a key of a map one further. -/
def valueAgainst : ℕ → Walk Value
  | 0, _, key, _ => tooDeep key
  | left + 1, schema, key, value =>
    if value.tag = .null ∧ isNullable schema then .ok ()
    else
      let check := kindAgainst doubles (against doubles engine (left + 1))
        (against doubles engine left) (valueAgainst left) schema key value
      excluding (valueAgainst left) check schema key value

/-- Whether a field accepts a value. -/
def validateValue (field : FieldRef) (value : Value) : Verdict :=
  valueAgainst doubles engine maxDepth field.schema field.key value

/-- Whether a schema accepts a value, with no field to name. -/
def accepts (schema value : Value) : Bool :=
  (valueAgainst doubles engine maxDepth schema "" value).isOk

/-- Whether a kind has no driver of its own at the root of a document. -/
def Kind.isDocument : Kind → Bool
  | .map _ | .unknown _ | .missing => true
  | _ => false

/-- One entry of a map of values, against the field a document declares for it. -/
def entryAgainst (schema : SchemaRef) (e : Entry) : Verdict :=
  match schema.find e.1 with
  | some field => validateValue doubles engine field e.2
  | none =>
    match undeclaredRule schema.value with
    | .refused => .error (.unknownOption e.1 (schema.fields.map FieldRef.key))
    | .accepted => .ok ()
    | .checked element => valueAgainst doubles engine (maxDepth - 1) element e.1 e.2

/-- Whether every entry of a map of values is accepted. A root that is not a declared object is
checked as the value it describes. -/
def validateMap (schema : SchemaRef) (values : Value) : Verdict :=
  if !(Kind.read (some schema.value)).isDocument then
    valueAgainst doubles engine maxDepth schema.value "" values
  else
    match values.asMap with
    | none => bad "" "a map of values"
    | some entries => do
      checkAll (entryAgainst doubles engine schema) entries
      checkAll (fun f =>
        if f.required && !AssocList.contains f.key entries then bad f.key "a value — it is required"
        else .ok ()) schema.fields

end Typed

end Guatiao.Schema
