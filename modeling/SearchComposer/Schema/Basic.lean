import SearchComposer.Outline.Shape
import SearchComposer.Schema.Property

/-!
# Schemas

A schema holds the properties that a mapping defines as an outline, next to the shape of the mapped
documents. Its listings say which properties there are, which ones conditions can be about, and
which ones results can be sorted by.
-/

namespace SearchComposer

/-- What is known about an index. -/
structure Schema where
  /-- The properties, each above its nested properties and its fields. -/
  nodes : Outline Property
  /-- The shape of the mapped documents; fields are no part of it. -/
  shape : Shape
  deriving DecidableEq

namespace Schema

/-- The schema of an index without a mapping. -/
def empty : Schema := ⟨.empty, .empty⟩

/-- The properties of a forest, each before those below it, and for each whether its own type and
those of all properties above it are supported. -/
def marked (supported : Bool) : Forest Property → List (Property × Bool)
  | .nil => []
  | .node _ p children siblings =>
    let here := supported && p.dataType.isSupported
    (p, here) :: (marked here children ++ marked supported siblings)

/-- All properties: those of the mapping in the order of their chains, then the others. -/
def properties (s : Schema) : List Property :=
  s.nodes.values ++ Property.synthetic

/-- The property with a path; the first one if there are several. -/
def property? (s : Schema) (path : String) : Option Property :=
  s.properties.find? (·.path == path)

/-- Properties in the order of their paths; those with equal paths stay in order. -/
def sortedByPath (ps : List Property) : List Property :=
  ps.mergeSort fun p q => decide (p.path ≤ q.path)

/-- Whether a path starts with an underscore. -/
def isInternal (p : Property) : Bool :=
  p.path.toList.head? == some '_'

/-- The properties that conditions can be about: first those that no mapping defines, then the
mapped ones, and last the mapped ones that start with an underscore. Each group is in the order of
paths. -/
def queryable (s : Schema) : List Property :=
  let supported := (marked true s.nodes.forest).filter fun (p, here) =>
    here && p.dataType != .object
  let all := sortedByPath (supported.map (·.1) ++ Property.synthetic)
  let mapped := all.filter (·.isMapped)
  all.filter (!·.isMapped) ++ mapped.filter (!isInternal ·) ++ mapped.filter isInternal

/-- The properties that results can be sorted by, in the order of paths. -/
def sortable (s : Schema) : List Property :=
  sortedByPath (s.nodes.values.filter (·.dataType.isSortable))

end Schema

end SearchComposer
