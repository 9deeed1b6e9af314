import SearchComposer.Time.Instant

/-!
# Time zones

The wall clock of a viewer is ahead of UTC either by a fixed number of seconds, or by what the local
zone prescribes: one hour, and two hours in summer. Summer starts on the last Sunday of March and
ends on the last Sunday of October, both at 01:00 UTC, in every year.

In March the local wall clock jumps from 02:00 to 03:00. The second of the jump itself still counts
as winter time; later readings before 03:00 belong to no instant. In October the hour from 02:00 to
03:00 is shown twice, and a reading in it means the earlier instant.
-/

namespace SearchComposer.Time

/-- The time zone of a viewer. -/
inductive Zone where
  /-- The local zone. -/
  | home
  /-- A fixed number of seconds ahead of UTC. -/
  | fixed (seconds : Int)
  deriving DecidableEq, Repr

namespace Zone

/-- The product of two words; the nearest word if it does not fit into one. -/
def saturatingMul (m n : Int32) : Int :=
  max Int32.minValue.toInt (min Int32.maxValue.toInt (m.toInt * n.toInt))

/-- The zone that is some seconds ahead of UTC, if that is less than a day in either direction. -/
def east? (seconds : Int) : Option Zone :=
  if -secondsPerDay < seconds ∧ seconds < secondsPerDay then some (.fixed seconds) else none

/-- The zone that is a number of minutes ahead of UTC; UTC itself if the number is out of range. -/
def ofMinutes (minutes : Int32) : Zone :=
  (east? (saturatingMul minutes 60)).getD (.fixed 0)

/-- How far local winter time is ahead of UTC. -/
def winterOffset : Int := 3600

/-- How far local summer time is ahead of UTC. -/
def summerOffset : Int := 7200

/-- The hour of UTC at which summer starts and ends, in seconds. -/
def changeOfDay : Int := 3600

/-- When summer starts in a year, in seconds of UTC. -/
def summerStart (year : Int) : Int :=
  secondsPerDay * Date.lastSunday year 3 + changeOfDay

/-- When summer ends in a year, in seconds of UTC. -/
def summerEnd (year : Int) : Int :=
  secondsPerDay * Date.lastSunday year 10 + changeOfDay

/-- How far the local wall clock is ahead of UTC at an instant. -/
def homeOffset (i : Instant) : Int :=
  let year := i.toUtc.date.year
  if summerStart year ≤ i.seconds ∧ i.seconds < summerEnd year then summerOffset else winterOffset

/-- How far the local wall clock is ahead of UTC when it shows a reading, if it ever shows it. -/
def homeOffsetAt? (w : WallClock) : Option Int :=
  let year := w.date.year
  let jump := summerStart year + winterOffset
  if w.seconds ≤ jump then some winterOffset
  else if w.seconds < jump + (summerOffset - winterOffset) then none
  else if w.seconds < summerEnd year + summerOffset then some summerOffset
  else some winterOffset

/-- How far the wall clock is ahead of UTC at an instant. -/
def offset (zone : Zone) (i : Instant) : Int :=
  match zone with
  | .home => homeOffset i
  | .fixed seconds => seconds

/-- What the wall clock shows at an instant. -/
def reading (zone : Zone) (i : Instant) : WallClock :=
  ⟨i.seconds + zone.offset i, i.nanos⟩

/-- How far the wall clock is ahead of UTC when it shows a reading, if it ever shows it. -/
def offsetAt? (zone : Zone) (w : WallClock) : Option Int :=
  match zone with
  | .home => homeOffsetAt? w
  | .fixed seconds => some seconds

/-- The instant at which the wall clock shows a reading, if there is one. -/
def instant? (zone : Zone) (w : WallClock) : Option Instant :=
  (zone.offsetAt? w).bind (Instant.ofClock? · w)

/-- The instant at which the day of `now` started on the wall clock. -/
def startOfToday (zone : Zone) (now : Instant) : Instant :=
  (zone.instant? (zone.reading now).startOfDay).getD now

end Zone

end SearchComposer.Time
