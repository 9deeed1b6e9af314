/-!
# Data types of properties

What an index stores under a property decides how it can be searched and sorted by. All numeric
types of a mapping are one type here; types that are not known keep their names.
-/

namespace SearchComposer

/-- The data type of a property. -/
inductive DataType where
  /-- Text that is searched word by word. -/
  | text
  /-- Numbers of any width. -/
  | number
  /-- Text that is searched as a whole. -/
  | keyword
  /-- Dates. -/
  | date
  /-- Truth values. -/
  | boolean
  /-- No value of its own, only nested properties. -/
  | object
  /-- The space of a document. -/
  | space
  /-- The document as a whole. -/
  | anyProperty
  /-- A type that is not known. -/
  | other (name : String)
  deriving DecidableEq, Repr

namespace DataType

/-- The names of numeric types in a mapping. -/
def numericNames : List String :=
  ["long", "integer", "short", "byte", "double", "float", "half_float", "scaled_float"]

/-- The name of a type. -/
def name : DataType → String
  | text => "text"
  | number => "number"
  | keyword => "keyword"
  | date => "date"
  | boolean => "boolean"
  | object => "object"
  | space => "space"
  | anyProperty => "anyProperty"
  | other name => name

/-- The types that are known by name. -/
def known : List DataType :=
  [text, number, keyword, date, boolean, object, space, anyProperty]

/-- The type with a name. -/
def ofName (s : String) : DataType :=
  match known.find? (·.name == s) with
  | some t => t
  | none => if s ∈ numericNames then number else other s

/-- The type that a mapping gives; a definition without a type describes an object. -/
def ofMapping : Option String → DataType
  | some s => ofName s
  | none => object

/-- Whether properties of this type, and those below them, can occur in conditions. -/
def isSupported : DataType → Bool
  | other _ => false
  | _ => true

/-- Whether results can be sorted by a property of this type. -/
def isSortable : DataType → Bool
  | keyword => true
  | boolean => true
  | date => true
  | number => true
  | _ => false

end DataType

end SearchComposer
