import SearchComposer.Json.Basic
import SearchComposer.Schema.DataType
import SearchComposer.Schema.Reserved

/-!
# Properties

A property of the index is named by the path of names that leads to it. Beside the properties that a
mapping defines there are two of our own: the space of a document, and the document as a whole.
-/

namespace SearchComposer

/-- Where a property comes from. -/
inductive Origin where
  /-- A mapping defines it. -/
  | mapped
  /-- It is the space of a document. -/
  | space
  /-- It is the document as a whole. -/
  | anyProperty
  deriving DecidableEq, Repr

/-- A property that conditions can be about. -/
structure Property where
  /-- Its name. -/
  name : String
  /-- Its path. -/
  path : String
  /-- The type of its values. -/
  dataType : DataType
  /-- Where it comes from. -/
  origin : Origin
  /-- Whether it is a second way in which its parent is indexed. -/
  isField : Bool
  /-- The path of its parent, if it has one. -/
  parentPath? : Option String
  deriving DecidableEq, Repr

namespace Property

/-- The path of a name below a parent. -/
def pathBelow (parent : Option Property) (name : String) : String :=
  match parent with
  | some p => p.path ++ "." ++ name
  | none => name

/-- A property that a mapping defines. -/
def mapped (parent : Option Property) (name : String) (dataType : DataType) (isField : Bool) :
    Property where
  name := name
  path := pathBelow parent name
  dataType := dataType
  origin := .mapped
  isField := isField
  parentPath? := parent.map (·.path)

/-- The document as a whole. Its path is a label only. -/
def anyProperty : Property where
  name := "__anyProperty"
  path := "any property"
  dataType := .anyProperty
  origin := .anyProperty
  isField := false
  parentPath? := none

/-- The space of a document. -/
def space : Property where
  name := Reserved.root ++ ".space"
  path := "space"
  dataType := .space
  origin := .space
  isField := false
  parentPath? := none

/-- The properties that no mapping defines. -/
def synthetic : List Property := [anyProperty, space]

/-- Whether a mapping defines the property. -/
def isMapped (p : Property) : Bool := p.origin == .mapped

end Property

/-! ## As JSON -/

/-- The name of an origin. -/
def Origin.name : Origin → String
  | mapped => "real"
  | space => "space"
  | anyProperty => "anyProperty"

/-- The origin with a name. -/
def Origin.ofName? (s : String) : Option Origin :=
  [mapped, space, anyProperty].find? (·.name == s)

namespace Property

/-- The keys of a property, in order. -/
def keys : List String := ["name", "path", "propertyType", "kind", "isField", "parentPath"]

/-- A property as an object. -/
def toJson (p : Property) : Json :=
  .obj [("name", .str p.name), ("path", .str p.path), ("propertyType", .str p.dataType.name),
    ("kind", .str p.origin.name), ("isField", .bool p.isField),
    ("parentPath", .ofOption .str p.parentPath?)]

/-- Reads a property. Only the path of the parent may be missing. -/
def ofJson? (j : Json) : Option Property := do
  match ← j.record? keys with
  | [name?, path?, type?, origin?, isField?, parent?] =>
    let name ← (← name?).str?
    let path ← (← path?).str?
    let type ← (← type?).str?
    let origin ← Origin.ofName? (← (← origin?).caseName?)
    let isField ← (← isField?).bool?
    let parentPath? ←
      match Json.present? parent? with
      | none => some none
      | some j => j.str?.map some
    return ⟨name, path, .ofName type, origin, isField, parentPath?⟩
  | _ => none

end Property

end SearchComposer
