import SearchComposer.Condition.Value

/-!
# Input to an edit

While a value is edited it changes step by step: a text is typed, a date is picked, its time is
switched on or off, a space is chosen. A picked date keeps the switch as it was. Switching the time
of a value that is no date leaves no value.
-/

namespace SearchComposer

/-- One step of editing a value. -/
inductive Input where
  /-- A text was typed or chosen. -/
  | text (s : String)
  /-- A date was picked. -/
  | instant (i : Time.Instant)
  /-- The time of a date was switched on or off. -/
  | withTime (b : Bool)
  /-- A space was chosen. -/
  | space (s : Space)
  deriving DecidableEq, Repr

namespace Input

/-- The date that a value is, if it is one. -/
def date? : Option Value → Option DateValue
  | some (.date d) => some d
  | _ => none

/-- The value after a step. -/
def apply (current : Option Value) : Input → Option Value
  | text s => some (.text s)
  | space s => some (.space s)
  | instant i => some (.date ⟨i, ((date? current).map (·.withTime)).getD false⟩)
  | withTime b => (date? current).map fun d => .date ⟨d.instant, b⟩

/-- The value after steps in order. -/
def applyAll (current : Option Value) (inputs : List Input) : Option Value :=
  inputs.foldl apply current

end Input

end SearchComposer
