import SearchComposer.Time.Calendar

/-!
# Instants and wall clocks

An instant is counted from 1970-01-01T00:00:00 UTC. A reading of a wall clock is kept the same way,
as the instant at which a clock in UTC shows it. A leap second is the part of the last second of a
minute from its nanosecond `10 ^ 9` on.
-/

namespace SearchComposer.Time

/-- An instant. -/
structure Instant where
  /-- The full seconds since 1970-01-01T00:00:00 UTC. -/
  seconds : Int
  /-- The nanoseconds since then; `10 ^ 9` and more within a leap second. -/
  nanos : Nat
  deriving DecidableEq, Repr

/-- What a clock on the wall shows. -/
structure WallClock where
  /-- The full seconds from a reading of 1970-01-01T00:00:00. -/
  seconds : Int
  /-- The nanoseconds since then; `10 ^ 9` and more within a leap second. -/
  nanos : Nat
  deriving DecidableEq, Repr

/-- The nanoseconds of a second. -/
def nanosPerSecond : Nat := 1000000000

/-- The nanoseconds of a millisecond. -/
def nanosPerMilli : Nat := 1000000

/-- The nanoseconds of a microsecond. -/
def nanosPerMicro : Nat := 1000

/-- The seconds of a day. -/
def secondsPerDay : Int := 86400

/-- A time of day. -/
structure TimeOfDay where
  /-- The hour. -/
  hour : Nat
  /-- The minute. -/
  minute : Nat
  /-- The second, 60 within a leap second. -/
  second : Nat
  /-- The nanosecond, below `10 ^ 9`. -/
  nanos : Nat
  deriving DecidableEq, Repr

/-- Whether a day has a time; every minute may have a leap second. -/
def TimeOfDay.Exists (t : TimeOfDay) : Prop :=
  t.hour < 24 ∧ t.minute < 60 ∧ t.second ≤ 60 ∧ t.nanos < nanosPerSecond

instance (t : TimeOfDay) : Decidable t.Exists := by
  unfold TimeOfDay.Exists
  infer_instance

namespace WallClock

/-- The reading at a date and a time. -/
def ofDateTime (d : Date) (t : TimeOfDay) : WallClock :=
  let leap := t.second / 60
  { seconds := secondsPerDay * d.number + 3600 * t.hour + 60 * t.minute + (t.second - leap : Nat)
    nanos := t.nanos + leap * nanosPerSecond }

/-- The date that a reading shows. -/
def date (w : WallClock) : Date :=
  .ofNumber (w.seconds / secondsPerDay)

/-- The time that a reading shows. -/
def timeOfDay (w : WallClock) : TimeOfDay :=
  let second := (w.seconds % secondsPerDay).toNat
  { hour := second / 3600
    minute := second / 60 % 60
    second := second % 60 + w.nanos / nanosPerSecond
    nanos := w.nanos % nanosPerSecond }

/-- The reading at the start of the day. -/
def startOfDay (w : WallClock) : WallClock :=
  ⟨secondsPerDay * (w.seconds / secondsPerDay), 0⟩

/-- The reading at the start of the second; a leap second is a second of its own. -/
def startOfSecond (w : WallClock) : WallClock :=
  ⟨w.seconds, nanosPerSecond * (w.nanos / nanosPerSecond)⟩

/-- The full milliseconds from a reading of 1970-01-01T00:00:00. -/
def millis (w : WallClock) : Int :=
  1000 * w.seconds + (w.nanos / nanosPerMilli : Nat)

/-- Whether a reading lies in the years that dates are kept for. -/
def Kept (w : WallClock) : Prop :=
  (Date.number ⟨Date.firstYear, 1, 1⟩) * secondsPerDay ≤ w.seconds ∧
    w.seconds < (Date.number ⟨Date.lastYear + 1, 1, 1⟩) * secondsPerDay

instance (w : WallClock) : Decidable w.Kept := by
  unfold Kept
  infer_instance

end WallClock

namespace Instant

/-- What a clock in UTC shows. -/
def toUtc (i : Instant) : WallClock := ⟨i.seconds, i.nanos⟩

/-- The instant at which a clock in UTC shows a reading. -/
def ofUtc (w : WallClock) : Instant := ⟨w.seconds, w.nanos⟩

/-- The instant at which a clock that is ahead of UTC by some seconds shows a reading, if UTC then
is in the years that dates are kept for. -/
def ofClock? (ahead : Int) (w : WallClock) : Option Instant :=
  let utc : WallClock := ⟨w.seconds - ahead, w.nanos⟩
  if utc.Kept then some (ofUtc utc) else none

end Instant

end SearchComposer.Time
