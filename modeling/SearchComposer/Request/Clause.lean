import SearchComposer.Condition.Comparator

/-!
# Clauses

A query is made of tests of single documents, joined by clauses that say how many of their parts
have to match. A range bounds a number, or a date as the milliseconds that its wall clock shows.
-/

namespace SearchComposer

/-- A range of numbers or dates. Missing bounds do not restrict it. -/
structure Range where
  /-- The number that all lie below. -/
  lt? : Option Number
  /-- The number that none lies above. -/
  lte? : Option Number
  /-- The number that all lie above. -/
  gt? : Option Number
  /-- The number that none lies below. -/
  gte? : Option Number
  /-- Whether the bounds are dates in milliseconds. -/
  isDate : Bool
  deriving DecidableEq, Repr

namespace Range

/-- The range of a bound at a value that reaches from a first number to a last one. Strict bounds
leave the whole value out, the others take it in. -/
def of (isDate : Bool) (first last : Number) : Bound → Range
  | .eq => ⟨none, some last, none, some first, isDate⟩
  | .lt => ⟨some first, none, none, none, isDate⟩
  | .lte => ⟨none, some last, none, none, isDate⟩
  | .gt => ⟨none, none, some last, none, isDate⟩
  | .gte => ⟨none, none, none, some first, isDate⟩

end Range

/-- A test of a document. -/
inductive Test where
  /-- A field has exactly this value. -/
  | term (field value : String)
  /-- A field lies in a range. -/
  | range (field : String) (r : Range)
  /-- A field contains all words of a text. -/
  | words (field text : String)
  /-- Some field contains a text as a phrase. -/
  | phrase (fields : List String) (text : String)
  deriving DecidableEq, Repr

/-- A query. -/
inductive Clause where
  /-- A test of a document. -/
  | test (t : Test)
  /-- All parts match. -/
  | must (parts : List Clause)
  /-- Some part matches; if there are none, everything does. -/
  | should (parts : List Clause)
  /-- No part matches. -/
  | mustNot (parts : List Clause)
  deriving Repr

/-! ## As JSON -/

/-- An object with one entry. -/
def Json.single (key : String) (value : Json) : Json := .obj [(key, value)]

/-- An entry with a number, if it is there. -/
def Json.numberEntry (key : String) : Option Number → Json.Entries
  | some n => [(key, .num n)]
  | none => []

/-- A range as an object of its bounds. -/
def Range.toJson (r : Range) : Json :=
  .obj (Json.numberEntry "lt" r.lt? ++ Json.numberEntry "lte" r.lte? ++
    Json.numberEntry "gt" r.gt? ++ Json.numberEntry "gte" r.gte? ++
    (if r.isDate then [("format", .str "epoch_millis")] else []))

/-- A test as an object. -/
def Test.toJson : Test → Json
  | term field value => .single "term" (.single field (.single "value" (.str value)))
  | range field r => .single "range" (.single field r.toJson)
  | words field text =>
    .single "simple_query_string"
      (.obj [("query", .str text), ("fields", .ofStrings [field]),
        ("default_operator", .str "and")])
  | phrase fields text =>
    .single "multi_match"
      (.obj [("query", .str text), ("type", .str "phrase"), ("fields", .ofStrings fields)])

namespace Clause

mutual

/-- A query as an object. -/
def toJson : Clause → Json
  | test t => t.toJson
  | must parts => .single "bool" (.single "must" (.arr (toJsonAll parts)))
  | should parts => .single "bool" (.single "should" (.arr (toJsonAll parts)))
  | mustNot parts => .single "bool" (.single "must_not" (.arr (toJsonAll parts)))

/-- Queries as objects. -/
def toJsonAll : List Clause → List Json
  | [] => []
  | c :: cs => toJson c :: toJsonAll cs

end

end Clause

end SearchComposer
