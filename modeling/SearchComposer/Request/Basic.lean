import SearchComposer.Block.Basic
import SearchComposer.Outline.Shape
import SearchComposer.Request.Clause
import SearchComposer.Request.Page
import SearchComposer.Request.Span

/-!
# Requests

A composition becomes a request: a query, the paths of the properties to return, an ordering and a
window of results. Making a request never fails. Conditions that lack a part, or whose value does
not fit their comparator, have no test and are left out; a query without tests is left out itself.
-/

namespace SearchComposer

/-- The magnitude from which on integers are kept as floating-point numbers. -/
def integerBound : Nat := UInt64.size / 2

/-- The number that a text denotes, blanks at its ends aside. Integers stay integers, whatever way
they are written; numbers that are not finite are none. -/
def searchedNumber? (s : String) : Option Number := do
  let x ← Number.Binary64.ofText? (Text.trim s)
  match x.toInt? with
  | some n => if n.natAbs < integerBound then some (.int n) else some (.float x)
  | none => if x.isFinite then some (.float x) else none

/-- The test of a property against a value, if the value is of the kind that the comparator
needs. -/
def Test.of? (s : Settings) (p : Property) : Comparator → Value → Option Test
  | .booleanIs, .text value => some (.term p.path value)
  | .keywordIs, .text value => some (.term p.path value)
  | .textContains, .text value => some (.words p.path value)
  | .anyHasPhrase, .text value => some (.phrase s.anyPropertyFields value)
  | .spaceIs, .space space => some (.term s.spaceField space.id)
  | .number b, .text value =>
    (searchedNumber? value).map fun n => .range p.path (.of false n n b)
  | .date b, .date d =>
    let span := Span.ofDate s.zone d
    some (.range p.path (.of true (.int span.first) (.int span.last) b))
  | _, _ => none

/-- The test that a condition is. -/
def Condition.test? (s : Settings) (c : Condition) : Option Test :=
  match c.property?, c.comparator?, c.value? with
  | some p, some comparator, some value => Test.of? s p comparator value
  | _, _, _ => none

namespace Block

mutual

/-- The query that a block is. A root is what its first operand is. -/
def clause? (s : Settings) : Block → Option Clause
  | condition c => (c.test? s).map .test
  | operator _ .and operands => some (.must (clauses s operands))
  | operator _ .or operands => some (.should (clauses s operands))
  | operator _ .not operands => some (.mustNot (clauses s operands))
  | operator _ .root operands => firstClause? s operands

/-- The queries that some blocks are; blocks without one are left out. -/
def clauses (s : Settings) : List Block → List Clause
  | [] => []
  | b :: bs =>
    match clause? s b with
    | some c => c :: clauses s bs
    | none => clauses s bs

/-- The query that the first of some blocks is. -/
def firstClause? (s : Settings) : List Block → Option Clause
  | [] => none
  | b :: _ => clause? s b

end

end Block

/-- A search request. -/
structure Request where
  /-- The query; without one everything matches. -/
  query? : Option Clause
  /-- The paths of the properties to return; without them it is all. -/
  source? : Option (List String)
  /-- The field that results are ordered by. -/
  sortField : String
  /-- The direction of the order. -/
  direction : Direction
  /-- How many results are skipped. -/
  skip : UInt64
  /-- How many results are fetched at most. -/
  size : UInt64
  deriving Repr

namespace Request

/-- The request of a composition. A shape restricts the properties to its leaves, unless it has
none. -/
def of (s : Settings) (root : Operator) (visible? : Option Shape) (ranking : Ranking)
    (page : Page) : Request where
  query? := root.toBlock.clause? s
  source? := (visible?.map Shape.leafPaths).filter (!·.isEmpty)
  sortField := ranking.field
  direction := ranking.direction
  skip := page.offset
  size := page.size

/-- A request as an object. -/
def toJson (r : Request) : Json :=
  .obj ((r.query?.map fun c => ("query", c.toJson)).toList ++
    (r.source?.map fun paths => ("_source", Json.ofStrings paths)).toList ++
    [("sort", .arr [.single r.sortField (.str r.direction.name)]),
      ("from", .ofWord r.skip), ("size", .ofWord r.size)])

end Request

end SearchComposer
