import SearchComposer.Json.Basic
import SearchComposer.Time.Written

/-!
# Values of conditions

A condition compares a property with a text, a date or a space. As JSON the three need no tag: a
text is a text, and the two objects have different keys.
-/

namespace SearchComposer

open Time (Instant)

/-- A space that documents belong to. -/
structure Space where
  /-- The id that documents refer to. -/
  id : String
  /-- The name that is shown. -/
  name : String
  deriving DecidableEq, Repr

/-- A date to compare with. Without its time it stands for the whole day on the wall clock of the
viewer, with its time for the second. -/
structure DateValue where
  /-- The instant that was picked. -/
  instant : Instant
  /-- Whether the time of day matters. -/
  withTime : Bool
  deriving DecidableEq, Repr

/-- What a condition compares a property with. -/
inductive Value where
  /-- A text, also for truth values and numbers. -/
  | text (s : String)
  /-- A date. -/
  | date (d : DateValue)
  /-- A space. -/
  | space (s : Space)
  deriving DecidableEq, Repr

/-! ## As JSON -/

/-- A space as an object. -/
def Space.toJson (s : Space) : Json :=
  .obj [("id", .str s.id), ("name", .str s.name)]

/-- Reads a space. -/
def Space.ofJson? (j : Json) : Option Space := do
  match ← j.record? ["id", "name"] with
  | [id?, name?] => return ⟨← (← id?).str?, ← (← name?).str?⟩
  | _ => none

/-- A date as an object. -/
def DateValue.toJson (d : DateValue) : Json :=
  .obj [("datetime", .str d.instant.text), ("timeEnabled", .bool d.withTime)]

/-- Reads a date. -/
def DateValue.ofJson? (j : Json) : Option DateValue := do
  match ← j.record? ["datetime", "timeEnabled"] with
  | [instant?, withTime?] => return ⟨← Instant.read? (← (← instant?).str?), ← (← withTime?).bool?⟩
  | _ => none

namespace Value

/-- A value as JSON. -/
def toJson : Value → Json
  | text s => .str s
  | date d => d.toJson
  | space s => s.toJson

/-- Reads a value: the first of a text, a date and a space that it can be read as. -/
def ofJson? (j : Json) : Option Value :=
  (j.str?.map text) <|> ((DateValue.ofJson? j).map date) <|> ((Space.ofJson? j).map space)

end Value

/-- Reads a list of spaces. -/
def spacesOfJson? (j : Json) : Option (List Space) := do
  (← j.items?).mapM Space.ofJson?

end SearchComposer
