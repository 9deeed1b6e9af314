import SearchComposer.Proofs.Request.Range
import SearchComposer.Proofs.Time.Calendar
import SearchComposer.Request.Basic

/-!
# Dates are compared by whole days and seconds

The days and the seconds of a wall clock are blocks of milliseconds, numbered from 1970 on and
downwards before. The span of a date is one such block, so the range of a bound at a date admits
exactly the milliseconds whose block lies to that of the date as the bound says. A leap second is
the exception: it runs on into the next minute, while its day ends with the minute it belongs to.
-/

namespace SearchComposer

open Time (Zone WallClock nanosPerSecond nanosPerMilli)

namespace Time.WallClock

/-- The nanoseconds from a reading of 1970-01-01T00:00:00. -/
def sinceEpoch (w : WallClock) : Int := nanosPerSecond * w.seconds + w.nanos

theorem millis_eq_ediv (w : WallClock) : w.millis = w.sinceEpoch / nanosPerMilli := by
  simp only [millis, sinceEpoch, nanosPerSecond, nanosPerMilli]
  omega

/-- The start of a day is that of its milliseconds, unless the reading is in a leap second. -/
theorem millis_startOfDay {w : WallClock} (hw : w.nanos < nanosPerSecond) :
    w.startOfDay.millis = 86400000 * (w.millis / 86400000) := by
  simp only [startOfDay, millis, secondsPerDay, nanosPerSecond, nanosPerMilli] at hw ⊢
  omega

theorem millis_startOfSecond (w : WallClock) :
    w.startOfSecond.millis = 1000 * (w.millis / 1000) := by
  simp only [startOfSecond, millis, nanosPerSecond, nanosPerMilli]
  omega

end Time.WallClock

namespace DateValue

/-- The milliseconds of what a date stands for: a day, or a second if its time matters. -/
def unit (d : DateValue) : Int := if d.withTime then 1000 else 86400000

/-- What the wall clock shows at a date, in full milliseconds. -/
def shownMillis (d : DateValue) (zone : Zone) : Int :=
  (zone.reading d.instant).sinceEpoch / nanosPerMilli

/-- The range of a bound at a date. -/
def range (d : DateValue) (zone : Zone) (b : Bound) : Range :=
  .of true (.int (Span.ofDate zone d).first) (.int (Span.ofDate zone d).last) b

variable {d : DateValue}

theorem unit_pos (d : DateValue) : 0 < d.unit := by
  unfold unit
  split <;> omega

/-- The span of a date is the block of milliseconds that the date falls into. -/
theorem ofDate_eq_block (hd : d.instant.nanos < nanosPerSecond) (zone : Zone) :
    Span.ofDate zone d = ⟨d.unit * (d.shownMillis zone / d.unit),
      d.unit * (d.shownMillis zone / d.unit) + d.unit - 1⟩ := by
  have hday := WallClock.millis_startOfDay (w := zone.reading d.instant) hd
  have hsecond := WallClock.millis_startOfSecond (zone.reading d.instant)
  unfold Span.ofDate unit shownMillis
  rw [← WallClock.millis_eq_ediv]
  cases d.withTime with
  | true => simp [Span.starting, Span.secondLength, hsecond]
  | false => simp [Span.starting, Span.dayLength, hday]

/-- The range of a bound at a date admits the milliseconds whose day or second lies to that of the
date as the bound says. -/
theorem admits_range_iff (hd : d.instant.nanos < nanosPerSecond) (zone : Zone) (b : Bound)
    (w : Int) :
    (d.range zone b).Admits w ↔ b.Relates (w / d.unit) (d.shownMillis zone / d.unit) := by
  unfold range
  rw [ofDate_eq_block hd zone]
  exact Range.admits_of_block true d.unit_pos _ b w

/-- Without its time, a date starts at the midnight of the day that the wall clock shows. -/
theorem first_ofDate (hd : d.withTime = false) (zone : Zone) :
    (Span.ofDate zone d).first =
      (WallClock.ofDateTime (zone.reading d.instant).date ⟨0, 0, 0, 0⟩).millis := by
  rw [WallClock.ofDateTime_date]
  simp [Span.ofDate, hd, Span.starting]

/-- In any zone, the ranges that are made of a date outside of leap seconds compare whole days, or
whole seconds if its time matters: a document's wall clock, in milliseconds, lies in the range of a
bound exactly if its day or second lies to that of the date as the bound says. Every document lies
before the date, at it or after it, and not in two of these; the other two ranges join them. The
days are those of the calendar, and the ranges are what conditions on dates become. -/
theorem range_compares_units (hd : d.instant.nanos < nanosPerSecond) (zone : Zone) :
    (∀ (b : Bound) (w : Int),
      (d.range zone b).Admits w ↔ b.Relates (w / d.unit) (d.shownMillis zone / d.unit)) ∧
    (∀ w : Int,
      ((d.range zone .lt).Admits w ∨ (d.range zone .eq).Admits w ∨ (d.range zone .gt).Admits w) ∧
      ¬((d.range zone .lt).Admits w ∧ (d.range zone .eq).Admits w) ∧
      ¬((d.range zone .lt).Admits w ∧ (d.range zone .gt).Admits w) ∧
      ¬((d.range zone .eq).Admits w ∧ (d.range zone .gt).Admits w) ∧
      ((d.range zone .lte).Admits w ↔
        (d.range zone .lt).Admits w ∨ (d.range zone .eq).Admits w) ∧
      ((d.range zone .gte).Admits w ↔
        (d.range zone .gt).Admits w ∨ (d.range zone .eq).Admits w)) ∧
    (d.withTime = false → (Span.ofDate zone d).first =
      (WallClock.ofDateTime (zone.reading d.instant).date ⟨0, 0, 0, 0⟩).millis) ∧
    ∀ s : Settings, s.zone = zone → ∀ (x : BlockId) (p : Property) (b : Bound),
      Condition.test? s ⟨x, some p, some (.date b), some (.date d)⟩ =
        some (.range p.path (d.range zone b)) := by
  refine ⟨admits_range_iff hd zone, fun w => ?_, fun htime => first_ofDate htime zone, ?_⟩
  · simp only [admits_range_iff hd zone, Bound.Relates]
    omega
  · rintro s rfl x p b
    rfl

/-- A second before 1970: half a second in, the wall clock of a zone behind UTC shows the last
millisecond of the same second, but not that of the next. -/
theorem range_compares_units_before_epoch :
    ∃ d : DateValue, d.instant.nanos < nanosPerSecond ∧
      d.range (.fixed (-3600)) .eq = .of true (.int (-3601000)) (.int (-3600001)) .eq ∧
      (d.range (.fixed (-3600)) .eq).Admits (-3600001 : Int) ∧
      (d.range (.fixed (-3600)) .gt).Admits (-3600000 : Int) := by
  have hnanos : (500000000 : Nat) < nanosPerSecond := by decide
  have h := range_compares_units (d := ⟨⟨-1, 500000000⟩, true⟩) hnanos (.fixed (-3600))
  exact ⟨⟨⟨-1, 500000000⟩, true⟩, hnanos, rfl, (h.1 .eq _).mpr (by decide),
    (h.1 .gt _).mpr (by decide)⟩

end DateValue

end SearchComposer
