import SearchComposer.Schema.Property

/-!
# Ranking

Results are ordered by a property or by how well they match, upwards or downwards. Only properties
that a mapping defines can be ordered by.
-/

namespace SearchComposer

/-- A direction of ordering. -/
inductive Direction where
  /-- The least comes first. -/
  | ascending
  /-- The greatest comes first. -/
  | descending
  deriving DecidableEq, Repr

namespace Direction

/-- The name of a direction. -/
def name : Direction → String
  | ascending => "asc"
  | descending => "desc"

/-- The direction with a name. -/
def ofName? (s : String) : Option Direction :=
  [ascending, descending].find? (·.name == s)

/-- The direction with a name; downwards if there is none. -/
def ofNameOrDefault (s : String) : Direction :=
  (ofName? s).getD descending

end Direction

/-- What results are ordered by. -/
structure Ranking where
  /-- The property; without one it is how well they match. -/
  property? : Option Property
  /-- The direction. -/
  direction : Direction
  deriving DecidableEq, Repr

namespace Ranking

/-- The field that stands for how well a result matches. -/
def scoreField : String := "_score"

/-- The field that results are ordered by. -/
def field (r : Ranking) : String :=
  match r.property? with
  | some p => if p.isMapped then p.path else scoreField
  | none => scoreField

end Ranking

end SearchComposer
