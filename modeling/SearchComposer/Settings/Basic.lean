import SearchComposer.Request.Ranking
import SearchComposer.Time.Zone

/-!
# Settings

The settings of a composition. Each has a default, so that any part of them may be left out.
-/

namespace SearchComposer

/-- The settings of a composition. -/
structure Settings where
  /-- How many results a page has. -/
  pageSize : UInt64
  /-- The direction in which results are ordered unless something else is asked for. -/
  direction : Direction
  /-- The field with the id of the space of a document. -/
  spaceField : String
  /-- The fields in which a phrase is searched for. -/
  anyPropertyFields : List String
  /-- How many minutes the wall clock is ahead of UTC; the local zone if it is left out. -/
  utcOffset? : Option Int32
  deriving DecidableEq, Repr

namespace Settings

/-- The page size unless something else is set. -/
def defaultPageSize : UInt64 := 10

/-- The settings unless something else is set. The reserved fields are named beside `*`, which does
not stand for names with an underscore at the start. -/
def default : Settings where
  pageSize := defaultPageSize
  direction := .descending
  spaceField := Reserved.spacePath
  anyPropertyFields := ["*", Reserved.root ++ ".*"]
  utcOffset? := none

/-- The time zone of the wall clock. -/
def zone (s : Settings) : Time.Zone :=
  match s.utcOffset? with
  | some minutes => .ofMinutes minutes
  | none => .home

/-- The settings with a page size of at least one: zero stands for the default. -/
def withPages (s : Settings) : Settings :=
  if s.pageSize = 0 then { s with pageSize := defaultPageSize } else s

/-! ## As JSON -/

/-- The keys of the settings, in order. -/
def keys : List String :=
  ["page_size", "sort_direction", "space_field", "any_property_fields", "utc_offset_minutes"]

/-- The settings as an object. -/
def toJson (s : Settings) : Json :=
  .obj [("page_size", .ofWord s.pageSize), ("sort_direction", .str s.direction.name),
    ("space_field", .str s.spaceField), ("any_property_fields", .ofStrings s.anyPropertyFields),
    ("utc_offset_minutes", .ofOption (fun n => .ofInt n.toInt) s.utcOffset?)]

/-- An integer of 32 bits. -/
def int32? (n : Int) : Option Int32 :=
  if Int32.minValue.toInt ≤ n ∧ n ≤ Int32.maxValue.toInt then some (Int32.ofInt n) else none

/-- Reads an offset in minutes; `null` stands for the local zone. -/
def offset? : Json → Option (Option Int32)
  | .null => some none
  | j => do return some (← int32? (← j.int?))

/-- Reads a list of texts. -/
def strings? (j : Json) : Option (List String) := do
  (← j.items?).mapM Json.str?

/-- Reads a field, or takes the default if it is missing. -/
def orDefault {α : Type} (read? : Json → Option α) (default : α) : Option Json → Option α
  | none => some default
  | some j => read? j

/-- Reads settings. -/
def ofJson? (j : Json) : Option Settings := do
  match ← j.partialRecord? keys with
  | [size?, direction?, space?, fields?, minutes?] =>
    let pageSize ← orDefault Json.word? default.pageSize size?
    let direction ←
      orDefault (fun j => j.caseName?.bind Direction.ofName?) default.direction direction?
    let spaceField ← orDefault Json.str? default.spaceField space?
    let anyPropertyFields ← orDefault strings? default.anyPropertyFields fields?
    let utcOffset? ← orDefault offset? default.utcOffset? minutes?
    return { pageSize, direction, spaceField, anyPropertyFields, utcOffset? }
  | _ => none

end Settings

end SearchComposer
