import SearchComposer.Outline.Walk
import SearchComposer.Schema.Basic
import SearchComposer.Schema.Reserved

/-!
# Reading a mapping

A mapping defines properties under `mappings.properties`. Each definition is an object that may have
a `type`, nested `properties`, and `fields`, which are further ways to index the same values. The
reserved id of the space of a document is taken out first, since the property `Property.space`
stands for it. Definitions are checked in the order in which they stand, each before those below it.
-/

namespace SearchComposer

/-- What is wrong with a mapping. -/
inductive MappingError where
  /-- The properties of the mapping are no object. -/
  | propertiesNotObject
  /-- The definition of a property is no object. -/
  | definitionNotObject (path : String)
  /-- The type of a property is no text. -/
  | typeNotText (path : String)
  /-- The nested properties, or the fields, of a property are no object. -/
  | nestedNotObject (key path : String)
  deriving DecidableEq, Repr

/-- The text of an error. -/
def MappingError.message : MappingError → String
  | propertiesNotObject => "Invalid index mapping: mappings.properties is not an object"
  | definitionNotObject path =>
    "Invalid index mapping: definition of " ++ path ++ " is not an object"
  | typeNotText path => "Invalid index mapping: type of " ++ path ++ " is not a string"
  | nestedNotObject key path =>
    "Invalid index mapping: " ++ key ++ " of " ++ path ++ " is not an object"

namespace Mapping

open Json (Entries)

/-- The key of nested properties. -/
def propertiesKey : String := "properties"

/-- The key of fields. -/
def fieldsKey : String := "fields"

/-- The type of a definition. -/
def dataType (path : String) (definition : Entries) : Except MappingError DataType :=
  match definition.get? "type" with
  | none => .ok (.ofMapping none)
  | some (.str s) => .ok (.ofMapping (some s))
  | some _ => .error (.typeNotText path)

/-- Checks that nested definitions are an object, or missing. -/
def checkNested (key path : String) (definition : Entries) : Except MappingError Unit :=
  match definition.get? key with
  | none => .ok ()
  | some .null => .ok ()
  | some (.obj _) => .ok ()
  | some _ => .error (.nestedNotObject key path)

mutual

/-- Reads a definition: its property, and the nodes of the definitions below it. A field replaces a
nested property of the same name. -/
def readDefinition (parent : Option Property) (isField : Bool) (name : String) :
    Json → Except MappingError (Property × Outline Property)
  | .obj definition => do
    let path := Property.pathBelow parent name
    let p := Property.mapped parent name (← dataType path definition) isField
    checkNested propertiesKey path definition
    checkNested fieldsKey path definition
    let nested ← readUnder p propertiesKey false definition .empty
    return (p, ← readUnder p fieldsKey true definition nested)
  | _ => .error (.definitionNotObject (Property.pathBelow parent name))

/-- Reads the definitions under the first entry with a key, if it is an object, and adds their nodes
to an outline. -/
def readUnder (parent : Property) (key : String) (isField : Bool) :
    List (String × Json) → Outline Property → Except MappingError (Outline Property)
  | [], nodes => .ok nodes
  | (k, j) :: rest, nodes =>
    if k = key then readNested parent isField j nodes else readUnder parent key isField rest nodes

/-- Reads the definitions that a value holds, if it is an object, and adds their nodes to an
outline. -/
def readNested (parent : Property) (isField : Bool) :
    Json → Outline Property → Except MappingError (Outline Property)
  | .obj definitions, nodes => readAll (some parent) isField definitions nodes
  | _, nodes => .ok nodes

/-- Reads definitions in order and adds their nodes to an outline. -/
def readAll (parent : Option Property) (isField : Bool) :
    List (String × Json) → Outline Property → Except MappingError (Outline Property)
  | [], nodes => .ok nodes
  | (name, j) :: rest, nodes => do
    let (p, children) ← readDefinition parent isField name j
    readAll parent isField rest (nodes.put name p children)

end

mutual

/-- Adds the names that are nested in a definition to a shape. -/
def growNested (s : Shape) : Json → Shape
  | .obj definition => growUnder s definition
  | _ => s

/-- Adds the names under the first entry with the key of nested properties. -/
def growUnder (s : Shape) : List (String × Json) → Shape
  | [] => s
  | (k, j) :: rest => if k = propertiesKey then growIn s j else growUnder s rest

/-- Adds the names of definitions, if a value is an object of them. -/
def growIn (s : Shape) : Json → Shape
  | .obj definitions => growAll s definitions
  | _ => s

/-- Adds the names of definitions and of those nested in them. -/
def growAll (s : Shape) : List (String × Json) → Shape
  | [] => s
  | (name, j) :: rest => growAll (Shape.extend s name fun nested => growNested nested j) rest

end

/-- The definitions nested in a definition, if it has an object of them. -/
def nested? (definition : Json) : Option Entries :=
  match definition.field? propertiesKey with
  | some (.obj definitions) => some definitions
  | _ => none

theorem sizeOf_lt_of_nested? {definition : Json} {definitions : Entries}
    (h : nested? definition = some definitions) : sizeOf definitions < sizeOf definition := by
  unfold nested? at h
  split at h
  · next hfield =>
    cases h
    have hlt := Json.sizeOf_lt_of_field? hfield
    rw [Json.obj.sizeOf_spec] at hlt
    exact Nat.lt_of_add_left_lt hlt
  · cases h

/-- The parts of definitions are their names, each with the definitions nested there. -/
def view : Shape.View Entries where
  parts definitions := definitions.map fun e => (some e.1, nested? e.2)
  exists_size := by
    refine ⟨sizeOf, fun definitions => Shape.View.size_map_lt ?_⟩
    rintro ⟨name, j⟩ - nested hnested
    have hlt := sizeOf_lt_of_nested? hnested
    rw [Prod.mk.sizeOf_spec]
    exact Nat.le_add_left_of_le (Nat.le_of_lt hlt)

/-- The shape that is gathered on a walk through definitions. -/
def gather (definitions : Entries) : Shape :=
  view.gather .empty definitions

/-- Definitions without the reserved id of a space. If nothing else is nested in the reserved
definition, it goes as a whole. -/
def withoutSpaceId (definitions : Entries) : Entries :=
  match definitions.get? Reserved.root with
  | some (.obj reserved) =>
    match Entries.get? propertiesKey reserved with
    | some (.obj nested) =>
      if Entries.has Reserved.spaceId nested then
        let kept := Entries.swapErase Reserved.spaceId nested
        if kept.isEmpty then definitions.swapErase Reserved.root
        else
          definitions.insert Reserved.root
            (.obj (Entries.insert propertiesKey (.obj kept) reserved))
      else definitions
    | _ => definitions
  | _ => definitions

end Mapping

namespace Schema

/-- The schema of an index with the given definitions. -/
def ofDefinitions (definitions : Json.Entries) : Except MappingError Schema := do
  let nodes ← Mapping.readAll none false (Mapping.withoutSpaceId definitions) .empty
  return ⟨nodes, Mapping.growAll .empty definitions⟩

/-- Reads a mapping. Without properties it is the empty schema. -/
def ofMapping (j : Json) : Except MappingError Schema :=
  match (j.field? "mappings").bind (Json.field? Mapping.propertiesKey) with
  | none => .ok .empty
  | some .null => .ok .empty
  | some (.obj definitions) => ofDefinitions definitions
  | some _ => .error .propertiesNotObject

end Schema

end SearchComposer
