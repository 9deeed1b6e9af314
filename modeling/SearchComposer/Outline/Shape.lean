import SearchComposer.Outline.Basic
import SearchComposer.Json.Basic

/-!
# Shapes of documents

The shape of a document is the outline of its keys: `a` over `b`, and beside it `c`, for a document
with the leaf paths `a.b` and `c`. Shapes are joined by `merge`, and written as objects of objects.
-/

namespace SearchComposer

/-- The outline of the keys of a document. -/
abbrev Shape := Outline Unit

namespace Shape

/-- Puts a subtree under a name, in the place of what was there. -/
def graft (s : Shape) (name : String) (subtree : Shape) : Shape :=
  s.put name () subtree

/-- Extends the subtree under a name, which is empty if it was missing. -/
def extend (s : Shape) (name : String) (grow : Shape → Shape) : Shape :=
  s.graft name (grow (s.below name))

/-- Makes sure that a chain of names leads somewhere. -/
def ensure (s : Shape) : List String → Shape
  | [] => s
  | name :: chain => s.extend name fun subtree => ensure subtree chain

/-- The subtree that a chain of names leads to. -/
def get? (s : Shape) : List String → Option Shape
  | [] => some s
  | name :: chain => (s.node? name).bind fun found => get? found.2 chain

/-- Adds all chains of a forest. -/
def absorb (s : Shape) : Forest Unit → Shape
  | .nil => s
  | .node name _ children siblings =>
    absorb (s.extend name fun subtree => absorb subtree children) siblings

/-- The union of two shapes. -/
def merge (s t : Shape) : Shape :=
  s.absorb t.forest

/-- The path of a chain of names: the names with dots between them. -/
def path (chain : List String) : String :=
  ".".intercalate chain

/-- The paths of the leaves, in the order of their chains. -/
def leafPaths (s : Shape) : List String :=
  s.forest.leafChains.map path

/-! ## As JSON -/

/-- The entries of the object that stands for a forest. -/
def entriesOf : Forest Unit → Json.Entries
  | .nil => []
  | .node name _ children siblings => (name, .obj (entriesOf children)) :: entriesOf siblings

/-- A shape as an object of objects. -/
def toJson (s : Shape) : Json :=
  .obj (entriesOf s.forest)

mutual

/-- Reads an object of objects. -/
def ofJson? : Json → Option Shape
  | .obj entries => ofEntries? entries .empty
  | _ => none

/-- Reads the entries of an object and adds them to a shape. -/
def ofEntries? : List (String × Json) → Shape → Option Shape
  | [], s => some s
  | (name, j) :: rest, s => do
    let subtree ← ofJson? j
    ofEntries? rest (s.graft name subtree)

end

end Shape

end SearchComposer
