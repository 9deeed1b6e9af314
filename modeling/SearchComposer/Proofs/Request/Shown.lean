import SearchComposer.Condition.Viewer
import SearchComposer.Proofs.Request.Span
import SearchComposer.Proofs.Time.Written

/-!
# What is shown is what is searched

A date is shown as text and searched as a span of milliseconds. Both depend on the date only through
the number of the day that the wall clock shows, or of the second if its time matters, and both give
that number away, together with whether it counts days or seconds.
-/

namespace SearchComposer

open Time (Zone WallClock nanosPerSecond nanosPerMilli secondsPerDay)

namespace DateValue

variable {d e : DateValue} {y z : Zone}

/-- The number of the day, or of the second if its time matters, that the wall clock shows. -/
def count (d : DateValue) (zone : Zone) : Int :=
  if d.withTime then (zone.reading d.instant).seconds
  else (zone.reading d.instant).seconds / secondsPerDay

theorem shownMillis_ediv_unit (hd : d.instant.nanos < nanosPerSecond) (zone : Zone) :
    d.shownMillis zone / d.unit = d.count zone := by
  have hnanos : (zone.reading d.instant).nanos < nanosPerSecond := hd
  unfold shownMillis unit count
  rw [← WallClock.millis_eq_ediv]
  unfold WallClock.millis
  simp only [nanosPerSecond, nanosPerMilli, secondsPerDay] at hnanos ⊢
  cases d.withTime with
  | true =>
    simp only [if_true]
    omega
  | false =>
    simp only [Bool.false_eq_true, if_false]
    omega

/-- Equal spans belong to the dates with one count of the same unit. -/
theorem span_eq_iff (hd : d.instant.nanos < nanosPerSecond) (he : e.instant.nanos < nanosPerSecond) :
    Span.ofDate y d = Span.ofDate z e ↔ d.withTime = e.withTime ∧ d.count y = e.count z := by
  rw [ofDate_eq_block hd, ofDate_eq_block he, shownMillis_ediv_unit hd, shownMillis_ediv_unit he,
    Span.mk.injEq]
  constructor
  · rintro ⟨hfirst, hlast⟩
    have hunit : d.unit = e.unit := by omega
    have htime : d.withTime = e.withTime := by
      unfold unit at hunit
      cases hd' : d.withTime <;> cases he' : e.withTime <;> simp [hd', he'] at hunit ⊢
    rw [hunit] at hfirst
    exact ⟨htime, Int.eq_of_mul_eq_mul_left (Int.ne_of_gt e.unit_pos) hfirst⟩
  · rintro ⟨htime, hcount⟩
    have hunit : d.unit = e.unit := by
      unfold unit
      rw [htime]
    rw [hunit, hcount]
    exact ⟨rfl, rfl⟩

/-- Equal texts belong to the dates with one count of the same unit. -/
theorem dateText_eq_iff (v w : Viewer) (hd : d.instant.nanos < nanosPerSecond)
    (he : e.instant.nanos < nanosPerSecond) :
    v.dateText d = w.dateText e ↔ d.withTime = e.withTime ∧ d.count v.zone = e.count w.zone := by
  have hshown : (v.zone.reading d.instant).nanos < nanosPerSecond := hd
  have hshown' : (w.zone.reading e.instant).nanos < nanosPerSecond := he
  unfold Viewer.dateText count
  rw [String.ofList_inj]
  cases d.withTime with
  | true =>
    cases e.withTime with
    | true =>
      simp only [if_true, true_and]
      exact WallClock.dateTime_text_inj hshown hshown'
    | false =>
      have hne := WallClock.date_text_ne_dateTime_text (w := w.zone.reading e.instant) hshown
      simpa using hne.symm
  | false =>
    cases e.withTime with
    | true =>
      have hne := WallClock.date_text_ne_dateTime_text (w := v.zone.reading d.instant) hshown'
      simpa using hne
    | false =>
      simp only [Bool.false_eq_true, if_false, List.append_nil, true_and]
      exact WallClock.date_text_inj

/-- Outside of leap seconds, two dates are shown alike exactly if they are searched alike: whatever
the comparators are, the texts are equal if and only if the spans are. The two may even be shown to
viewers in different zones, so each wall clock may be ahead of UTC by any offset. -/
theorem present_eq_iff_span_eq (v w : Viewer) (c? c'? : Option Comparator)
    (hd : d.instant.nanos < nanosPerSecond) (he : e.instant.nanos < nanosPerSecond) :
    v.present c? (.date d) = w.present c'? (.date e) ↔
      Span.ofDate v.zone d = Span.ofDate w.zone e := by
  have htext := dateText_eq_iff v w hd he
  have hspan := span_eq_iff (y := v.zone) (z := w.zone) hd he
  exact htext.trans hspan.symm

/-- The last instants of the year before year 0 in a zone ahead of UTC, and the first of year 0. -/
theorem present_eq_iff_span_eq_before_year_zero :
    ∃ (v : Viewer) (d e f : DateValue), d.instant.nanos < nanosPerSecond ∧
      e.instant.nanos < nanosPerSecond ∧ f.instant.nanos < nanosPerSecond ∧
      v.present none (.date d) = v.present none (.date e) ∧
      v.present none (.date e) ≠ v.present none (.date f) := by
  have hd : (0 : Nat) < nanosPerSecond := by decide
  have he : (999999999 : Nat) < nanosPerSecond := by decide
  let v : Viewer := ⟨[], .fixed 3600⟩
  refine ⟨v, ⟨⟨-62167305600, 0⟩, false⟩, ⟨⟨-62167222801, 999999999⟩, false⟩,
    ⟨⟨-62167222800, 0⟩, false⟩, hd, he, hd, ?_, ?_⟩
  · exact (present_eq_iff_span_eq v v none none hd he).mpr (by decide)
  · intro h
    exact absurd ((present_eq_iff_span_eq v v none none he hd).mp h) (by decide)

/-- A leap second is shown as a second of its own, but searched as the next one. -/
example : let v : Viewer := ⟨[], .fixed 0⟩
    let leap : DateValue := ⟨⟨1483228799, 1000000000⟩, true⟩
    let next : DateValue := ⟨⟨1483228800, 0⟩, true⟩
    v.present none (.date leap) = "2016-12-31 23:59:60" ∧
      v.present none (.date next) = "2017-01-01 00:00:00" ∧
      Span.ofDate v.zone leap = Span.ofDate v.zone next := by
  decide

end DateValue

end SearchComposer
