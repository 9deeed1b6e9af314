import SearchComposer.Condition.Value
import SearchComposer.Time.Zone

/-!
# The span of a date

A date stands for a whole day, or for a whole second if its time matters. Its span reaches from the
first to the last millisecond of that day or second on the wall clock of the viewer, read as if the
wall clock showed UTC.
-/

namespace SearchComposer

/-- The milliseconds that a date stands for. -/
structure Span where
  /-- The first millisecond. -/
  first : Int
  /-- The last millisecond. -/
  last : Int
  deriving DecidableEq, Repr

namespace Span

/-- The milliseconds of a day. -/
def dayLength : Int := 86400000

/-- The milliseconds of a second. -/
def secondLength : Int := 1000

/-- The milliseconds from a reading on. -/
def starting (start : Time.WallClock) (length : Int) : Span :=
  ⟨start.millis, start.millis + length - 1⟩

/-- The span of a date on the wall clock of a zone. -/
def ofDate (zone : Time.Zone) (d : DateValue) : Span :=
  let shown := zone.reading d.instant
  if d.withTime then starting shown.startOfSecond secondLength
  else starting shown.startOfDay dayLength

end Span

end SearchComposer
