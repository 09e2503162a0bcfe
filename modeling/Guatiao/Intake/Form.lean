import Mathlib
import Guatiao.Intake.Resolve
import Guatiao.Value.Convert

/-!
# Reading a form

A form is a value, read in place: its sections, and for the path of a field the hints it is shown
with. What is not the shape the vocabulary gives it is passed over.
-/

namespace Guatiao.Intake

open Lib Schema

namespace Vocab

/-- The sections a form declares, in display order. -/
def SECTIONS : String := "sections"

/-- Hints, by the path of a field. -/
def FIELDS : String := "fields"

/-- A section's identifier: what a field's section names. -/
def ID : String := "id"

def TITLE : String := "title"

def DESCRIPTION : String := "description"

/-- The id of the section every other field belongs to. -/
def DEFAULT_SECTION : String := ""

/-- Which control to draw. -/
def WIDGET : String := "widget"

/-- The control that does not show what is typed. -/
def PASSWORD : String := "password"

/-- Text shown in an empty control. -/
def PLACEHOLDER : String := "placeholder"

/-- What a number is counted in. -/
def UNIT : String := "unit"

/-- The one condition under which a field is shown. -/
def VISIBLE_WHEN : String := "visibleWhen"

/-- Which section a field belongs to, written onto the schema. -/
def X_SECTION : String := "x-section"

/-- A field's place among its siblings, written onto the schema. -/
def X_ORDER : String := "x-order"

/-- The path of the field a condition reads. -/
def FIELD : String := "field"

/-- The value that field must hold. -/
def EQUALS : String := "equals"

/-- The values, of which any will do. -/
def IN : String := "in"

/-- A form of a field's own. -/
def FORM : String := "form"

end Vocab

/-- The text under a key, empty where there is none. -/
def textAt (v : Value) (key : String) : String := (textUnder key v).getD ""

/-- `int_or` -/
def intOr (v : Option Value) (fallback : ℤ) : ℤ :=
  (v.bind fun v => (IntType.fromValue .i64 v).toOption).getD fallback

/-- Which section a field belongs to, empty for the default one. -/
def sectionOf (field : FieldRef) : String := textAt field.schema Vocab.X_SECTION

/-- A field's place among its siblings, zero where it has none. -/
def orderOf (field : FieldRef) : ℤ := intOr (field.schema.get Vocab.X_ORDER) 0

/-- A form: how a schema's fields are shown. -/
structure FormRef where
  value : Value
  /-- Every form is a map. -/
  map : isMap value = true

/-- One section: what a group of fields is called. -/
structure SectionRef where
  value : Value
  deriving DecidableEq

/-- The hints for one field, if the form has any. -/
structure HintsRef where
  value : Option Value
  deriving DecidableEq

/-- The one condition under which a field is shown: the field it reads, and the values that meet
it. -/
structure Condition where
  field : String
  values : List Value

/-- Views a value as a form, when it is a map. -/
def FormRef.new (value : Value) : Option FormRef :=
  if h : isMap value = true then some ⟨value, h⟩ else none

/-- `SectionRef::id` -/
def SectionRef.id (s : SectionRef) : String := textAt s.value Vocab.ID

namespace FormRef

/-- Every section, in the order a person sees them. -/
def sections (f : FormRef) : List SectionRef :=
  ((listUnder Vocab.SECTIONS f.value).filter fun s => (textUnder Vocab.ID s).isSome).map (⟨·⟩)

/-- The first section declared with an id. -/
def section_ (f : FormRef) (id : String) : Option SectionRef := f.sections.find? fun s => s.id == id

/-- The entries under `fields`. -/
def entries (f : FormRef) : List Entry := ((f.value.get Vocab.FIELDS).bind Value.asMap).getD []

/-- The hints for the field at a path, empty where there are none. -/
def hints (f : FormRef) (path : String) : HintsRef :=
  ⟨(AssocList.get path f.entries).filter isMap⟩

/-- Every path the form gives hints to, with its hints, in the order they were written. -/
def fields (f : FormRef) : List (String × HintsRef) :=
  f.entries.map fun e => (e.1, ⟨some e.2 |>.filter isMap⟩)

end FormRef

/-- The values that meet a condition written as a value, when it is written with one spelling. -/
def conditionValues (condition : Value) : Option (List Value) :=
  match condition.get Vocab.EQUALS, condition.get Vocab.IN with
  | some equals, none => some [equals]
  | none, some any => any.asList.filter fun list => !list.isEmpty
  | _, _ => none

/-- The condition under which the field is shown, none for one that is malformed. -/
def HintsRef.visibleWhen (h : HintsRef) : Option Condition := do
  let condition ← (← h.value).get Vocab.VISIBLE_WHEN
  let field ← textUnder Vocab.FIELD condition
  let values ← conditionValues condition
  return ⟨field, values⟩

/-- The form this field carries of its own. -/
def HintsRef.form (h : HintsRef) : Option FormRef := do
  FormRef.new (← (← h.value).get Vocab.FORM)

end Guatiao.Intake
