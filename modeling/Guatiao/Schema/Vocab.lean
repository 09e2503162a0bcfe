import Guatiao.Value.Tree

/-!
# The words a schema is written in

The keywords the readers here look for, under the names the vocabulary gives them.
-/

namespace Guatiao.Schema.Vocab

/-- A reference to another schema of the document. -/
def ref : String := "$ref"

/-- The definitions a reference names. -/
def defs : String := "$defs"

/-- The older spelling of `defs`. -/
def definitions : String := "definitions"

/-- The kind of value. -/
def type : String := "type"

/-- The fields of an object. -/
def properties : String := "properties"

/-- The value of a field nobody gave. -/
def default : String := "default"

/-- The one value allowed. -/
def const : String := "const"

/-- The values allowed. -/
def enum : String := "enum"

/-- Sample values. -/
def examples : String := "examples"

/-- Schemas by a pattern over key names. -/
def patternProperties : String := "patternProperties"

/-- Schemas by a key whose presence asks for them. -/
def dependentSchemas : String := "dependentSchemas"

/-- The fields an object must have. -/
def required : String := "required"

/-- The schema of an open object's values. -/
def additionalProperties : String := "additionalProperties"

/-- The schema of an array's elements. -/
def items : String := "items"

/-- The schemas of an array's first elements, one each. -/
def prefixItems : String := "prefixItems"

/-- Schemas of which one must hold. -/
def anyOf : String := "anyOf"

/-- Schemas of which exactly one must hold. -/
def oneOf : String := "oneOf"

/-- Schemas that must all hold. -/
def allOf : String := "allOf"

/-- A short line naming what is described. -/
def title : String := "title"

/-- The longer prose under a title. -/
def description : String := "description"

/-- What a text holds, never checked. -/
def format : String := "format"

/-- Owned by whoever serves the value. -/
def readOnly : String := "readOnly"

/-- Kept for old documents. -/
def deprecated : String := "deprecated"

/-- The labels of an enumeration, by its values. -/
def xEnumLabels : String := "x-enum-labels"

/-- A secret: never to be printed. -/
def xSensitive : String := "x-sensitive"

/-- The key under which a tagged variant names its arm. -/
def xVariantTag : String := "x-variant-tag"

/-- The values refused. -/
def not : String := "not"

/-- The schema of an open object's keys. -/
def propertyNames : String := "propertyNames"

/-- Whether an array's elements are all different. -/
def uniqueItems : String := "uniqueItems"

/-- The fewest elements. -/
def minItems : String := "minItems"

/-- The most elements. -/
def maxItems : String := "maxItems"

/-- The fewest characters. -/
def minLength : String := "minLength"

/-- The most characters. -/
def maxLength : String := "maxLength"

/-- The pattern a text matches. -/
def pattern : String := "pattern"

/-- The least number allowed. -/
def minimum : String := "minimum"

/-- The greatest number allowed. -/
def maximum : String := "maximum"

/-- The number every one allowed is above. -/
def exclusiveMinimum : String := "exclusiveMinimum"

/-- The number every one allowed is below. -/
def exclusiveMaximum : String := "exclusiveMaximum"

/-- The number every one allowed is a multiple of. -/
def multipleOf : String := "multipleOf"

/-- A secret, as the specification says it: written and never read back. -/
def writeOnly : String := "writeOnly"

/-- The type of the two booleans. -/
def typeBoolean : String := "boolean"

/-- The type of null. -/
def typeNull : String := "null"

/-- The type of whole numbers. -/
def typeInteger : String := "integer"

/-- The type of numbers. -/
def typeNumber : String := "number"

/-- The type of text. -/
def typeString : String := "string"

/-- The type of lists. -/
def typeArray : String := "array"

/-- The type of maps. -/
def typeObject : String := "object"

/-- The type of bytes. -/
def typeBytes : String := "bytes"

end Guatiao.Schema.Vocab
