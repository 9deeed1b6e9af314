import SearchComposer.Condition.Comparator
import SearchComposer.Time.Zone

/-!
# The viewer

The spaces that a viewer knows and the time zone of the wall clock decide which value a new
condition starts with, how a value is edited, and how it is shown.
-/

namespace SearchComposer

open Time (Instant Zone)

/-- Who composes a search. -/
structure Viewer where
  /-- The spaces to choose from. -/
  spaces : List Space
  /-- The time zone of the wall clock. -/
  zone : Zone
  deriving DecidableEq, Repr

/-- How a value is edited. -/
inductive Editor where
  /-- One of some texts is chosen. -/
  | choice (options : List String)
  /-- One of some spaces is chosen. -/
  | spaceChoice (options : List Space)
  /-- A text is typed. -/
  | text
  /-- A date is picked. -/
  | date
  deriving DecidableEq, Repr

/-- How a value is shown. -/
inductive Presentation where
  /-- As it is. -/
  | raw
  /-- In quotes. -/
  | quoted
  /-- As a date on the wall clock. -/
  | date
  /-- As the name of a space. -/
  | space
  deriving DecidableEq, Repr

/-- How the values of a comparator are shown. -/
def Comparator.presentation : Comparator → Presentation
  | textContains => .quoted
  | keywordIs => .quoted
  | anyHasPhrase => .quoted
  | date _ => .date
  | spaceIs => .space
  | booleanIs => .raw
  | number _ => .raw

/-- How values are shown; without a comparator, as they are. -/
def Presentation.of (c? : Option Comparator) : Presentation :=
  (c?.map (·.presentation)).getD .raw

namespace Viewer

/-- The value that a new condition starts with. Only a space can be missing, if none is known. -/
def defaultValue? (v : Viewer) (now : Instant) : Comparator → Option Value
  | .booleanIs => some (.text "true")
  | .date _ => some (.date ⟨v.zone.startOfToday now, false⟩)
  | .spaceIs => v.spaces.head?.map .space
  | _ => some (.text "")

/-- The value that a new condition starts with, by the id of its comparator. -/
def defaultValueUnder? (v : Viewer) (now : Instant) (id : String) : Option Value :=
  match Comparator.ofId? id with
  | some c => v.defaultValue? now c
  | none => some (.text "")

/-- How the value of a condition is edited. -/
def editor (v : Viewer) : Option Comparator → Editor
  | some .booleanIs => .choice Comparator.truthValues
  | some .spaceIs => .spaceChoice v.spaces
  | some (.date _) => .date
  | _ => .text

/-- A date on the wall clock, with its time if that matters. -/
def dateText (v : Viewer) (d : DateValue) : String :=
  let shown := v.zone.reading d.instant
  String.ofList (shown.date.text ++ if d.withTime then ' ' :: shown.timeOfDay.text else [])

/-- The text of a value that is not being edited. -/
def present (v : Viewer) (c? : Option Comparator) : Value → String
  | .date d => v.dateText d
  | .space s => s.name
  | .text s => if Presentation.of c? = .quoted then "\"" ++ s ++ "\"" else s

end Viewer

end SearchComposer
