import SearchComposer.Condition.Value
import SearchComposer.Number.Decimal
import SearchComposer.Schema.DataType
import SearchComposer.Text.Blank

/-!
# Comparators

A comparator says how a property is compared with a value. Each belongs to one data type, has an id
made of the name of the type and a verb, and accepts the values that a search can use.
-/

namespace SearchComposer

/-- Where a number or a date has to lie relative to a value. -/
inductive Bound where
  /-- At the value. -/
  | eq
  /-- Below the value. -/
  | lt
  /-- Not above the value. -/
  | lte
  /-- Above the value. -/
  | gt
  /-- Not below the value. -/
  | gte
  deriving DecidableEq, Repr

/-- A way to compare a property with a value. -/
inductive Comparator where
  /-- A truth value is the given one. -/
  | booleanIs
  /-- A text contains all given words. -/
  | textContains
  /-- A number lies where a bound says. -/
  | number (b : Bound)
  /-- A keyword is the given one. -/
  | keywordIs
  /-- A date lies where a bound says. -/
  | date (b : Bound)
  /-- A document belongs to the given space. -/
  | spaceIs
  /-- A document has the given phrase in some property. -/
  | anyHasPhrase
  deriving DecidableEq, Repr

namespace Bound

/-- All bounds. -/
def all : List Bound := [eq, lt, lte, gt, gte]

/-- The verb of a bound. -/
def verb : Bound → String
  | eq => "eq"
  | lt => "lt"
  | lte => "lte"
  | gt => "gt"
  | gte => "gte"

end Bound

namespace Comparator

/-- All comparators. -/
def all : List Comparator :=
  [booleanIs, textContains] ++ Bound.all.map number ++ [keywordIs] ++ Bound.all.map date ++
    [spaceIs, anyHasPhrase]

/-- The data type of the properties that a comparator is for. -/
def dataType : Comparator → DataType
  | booleanIs => .boolean
  | textContains => .text
  | number _ => .number
  | keywordIs => .keyword
  | date _ => .date
  | spaceIs => .space
  | anyHasPhrase => .anyProperty

/-- What a comparator says about a property. -/
def verb : Comparator → String
  | booleanIs => "is"
  | textContains => "contains"
  | number b => b.verb
  | keywordIs => "is"
  | date b => b.verb
  | spaceIs => "is"
  | anyHasPhrase => "hasPhrase"

/-- The id of a comparator. -/
def id (c : Comparator) : String :=
  c.dataType.name ++ "." ++ c.verb

/-- The comparator with an id. -/
def ofId? (s : String) : Option Comparator :=
  all.find? (·.id == s)

/-- The bound of a comparator of numbers or dates. -/
def bound? : Comparator → Option Bound
  | number b => some b
  | date b => some b
  | _ => none

/-- The comparators for properties of a data type. -/
def forType (t : DataType) : List Comparator :=
  all.filter (·.dataType == t)

/-! ## Accepted values -/

/-- The truth values that can be chosen. -/
def truthValues : List String := ["true", "false"]

/-- The finite number that a text denotes, blanks at its ends aside. -/
def finite? (s : String) : Option Number.Binary64 :=
  (Number.Binary64.ofText? (Text.trim s)).filter (·.isFinite)

/-- Whether a search can compare with a value. -/
def accepts : Comparator → Option Value → Bool
  | booleanIs, some (.text s) => truthValues.contains s
  | textContains, some (.text s) => s != ""
  | keywordIs, some (.text s) => s != ""
  | anyHasPhrase, some (.text s) => s != ""
  | number _, some (.text s) => (finite? s).isSome
  | date _, some (.date _) => true
  | spaceIs, some (.space s) => s.id != "" && s.name != ""
  | _, _ => false

/-- Like `accepts`, of the comparator with an id. Where there is none, every value is accepted. -/
def acceptsUnder (id : String) (value : Option Value) : Bool :=
  match ofId? id with
  | some c => c.accepts value
  | none => true

end Comparator

end SearchComposer
