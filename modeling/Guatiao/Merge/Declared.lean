import Guatiao.Merge.Merge
import Guatiao.Remote.Handshake
import Guatiao.Schema.Read

/-!
# Modes a schema declares

A field may declare how its own value is combined, in an annotation the schema itself does
not read. The declarations of all fields, nested objects' with them, are a table by place,
and whether list elements are merged by position is one answer for the whole schema.
-/

namespace Guatiao.Merge

open Lib Schema

/-- The annotation a field declares its mode under: not a word of the schema's own. -/
def xMerge : String := "x-merge"

/-- What turns the merging of list elements by position on, behind a mode's name. -/
def mergelistsSuffix : String := "+mergelists"

/-- A declared mode, with the sub-option it asked for. -/
structure DeclaredMerge where
  mode : MergeMode
  mergelists : Bool
  deriving DecidableEq

/-- The mode of a name. -/
def modeNamed (name : String) : Option MergeMode :=
  if name = "simple" then some .simple
  else if name = "substitute" then some .substitute
  else if name = "deep" then some .deep
  else none

/-- A text without the white space around it, in lower case. -/
def folded (text : String) : String :=
  let front := text.toList.dropWhile Remote.isWhitespace
  String.ofList ((front.reverse.dropWhile Remote.isWhitespace).reverse.map Char.toLower)

/-- What is before a suffix, where a text ends in it. -/
def stripSuffix (suffix text : String) : Option String :=
  if suffix.toList.isSuffixOf text.toList then
    some (String.ofList (text.toList.take (text.toList.length - suffix.toList.length)))
  else none

/-- Parses a declaration. One that is not recognised is none. -/
def parseMode (text : String) : Option DeclaredMerge :=
  let text := folded text
  match stripSuffix mergelistsSuffix text with
  | some name => (modeNamed name).map fun mode => ⟨mode, true⟩
  | none => (modeNamed text).map fun mode => ⟨mode, false⟩

/-- The mode declared on one field, if any: only a text declares one. -/
def declaredFor (field : FieldRef) : Option DeclaredMerge :=
  parseMode ((textUnder xMerge field.schema).getD "")

/-- Whether a field is a nested object. -/
def isObject (field : FieldRef) : Bool :=
  match field.kind with
  | .map _ => true
  | _ => false

/-- The declarations of a level of fields, and of the objects below it. -/
def collectOverrides : ℕ → List String → List FieldRef → MergeOverrides →
    Except MergeError MergeOverrides
  | 0, _, _, _ => .error (.build .tooDeep)
  | levels + 1, path, fields, overrides =>
    fields.foldlM (fun overrides field =>
      let overrides := match declaredFor field with
        | some declared => AssocList.set (path ++ [field.key]) declared.mode overrides
        | none => overrides
      if isObject field then
        collectOverrides levels (path ++ [field.key]) field.kind.fields overrides
      else .ok overrides) overrides

/-- Every declaration of a schema, by the place of its field. -/
def mergeOverrides (schema : SchemaRef) : Except MergeError MergeOverrides :=
  collectOverrides maxDepth [] schema.fields []

/-- Whether any field at or below a level asked for `mergelists`. -/
def anyMergelists : ℕ → List FieldRef → Except MergeError Bool
  | 0, _ => .error (.build .tooDeep)
  | levels + 1, fields =>
    fields.anyM fun field =>
      if (declaredFor field).any (·.mergelists) then .ok true
      else if isObject field then anyMergelists levels field.kind.fields
      else .ok false

/-- The sub-options of a whole schema. -/
def mergeOptions (schema : SchemaRef) : Except MergeError MergeOptions := do
  let mergelists ← anyMergelists maxDepth schema.fields
  return ⟨mergelists⟩

/-- Two values merged, the schema's declarations over the call's mode. -/
def mergeWithSchema (schema : SchemaRef) (callSiteMode : MergeMode) (earlier later : Value) :
    Except MergeError Value := do
  let overrides ← mergeOverrides schema
  let options ← mergeOptions schema
  mergeWith ⟨callSiteMode, options, overrides⟩ earlier later

end Guatiao.Merge
