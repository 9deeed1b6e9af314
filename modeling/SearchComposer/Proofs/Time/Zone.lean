import SearchComposer.Proofs.Time.Calendar
import SearchComposer.Settings.Basic

/-!
# Clocks ahead of UTC

A clock that is ahead of UTC by some seconds shows at every instant what leads back to that instant.
For a fixed zone this is all there is to say of readings. As its offset is in full minutes, leap
seconds stay at the end of their minutes, so the date and the time of a reading exist if those in UTC
do, and the other way round.
-/

namespace SearchComposer

namespace Time

variable {i : Instant} {w : WallClock} {ahead : Int}

/-- A reading leads to the instant at which it is shown. -/
theorem Instant.ofClock?_eq_some_iff :
    Instant.ofClock? ahead w = some i ↔
      i.toUtc.Kept ∧ (⟨i.seconds + ahead, i.nanos⟩ : WallClock) = w := by
  obtain ⟨seconds, nanos⟩ := i
  obtain ⟨wall, wallNanos⟩ := w
  rw [Instant.ofClock?, Option.ite_none_right_eq_some]
  constructor
  · rintro ⟨hkept, hi⟩
    obtain ⟨rfl, rfl⟩ : wall - ahead = seconds ∧ wallNanos = nanos := by
      simpa [Instant.ofUtc] using hi
    exact ⟨hkept, by rw [Int.sub_add_cancel]⟩
  · rintro ⟨hkept, hw⟩
    obtain ⟨rfl, rfl⟩ : seconds + ahead = wall ∧ nanos = wallNanos := by simpa using hw
    simp only [Int.add_sub_cancel]
    exact ⟨hkept, rfl⟩

namespace WallClock

/-- A clock that is full minutes ahead shows a time for every time in UTC. -/
theorem hasTime_iff_of_minutes {seconds : Int} {nanos : Nat} (h : ahead % 60 = 0) :
    (⟨seconds + ahead, nanos⟩ : WallClock).HasTime ↔ (⟨seconds, nanos⟩ : WallClock).HasTime := by
  have hsecond : (seconds + ahead) % 60 = seconds % 60 := by omega
  rw [HasTime, HasTime, hsecond]

end WallClock

namespace Zone

/-! ## Fixed zones -/

/-- The product by 60 is exact for all minutes of a day, and the nearest word to one that is too
large stands for more than a day. -/
theorem ofMinutes_eq (minutes : Int32) :
    ofMinutes minutes = .fixed (if minutes.toInt.natAbs < 1440 then 60 * minutes.toInt else 0) := by
  have hlow : Int32.minValue.toInt = -2147483648 := by decide
  have hhigh : Int32.maxValue.toInt = 2147483647 := by decide
  have hsixty : (60 : Int32).toInt = 60 := by decide
  unfold ofMinutes east? saturatingMul secondsPerDay
  rw [hlow, hhigh, hsixty]
  split
  · next hday =>
    rw [if_pos (by omega)]
    simp only [Option.getD_some, fixed.injEq]
    omega
  · next hday => rw [if_neg (by omega), Option.getD_none]

theorem fixed_instant?_eq_some_iff :
    (fixed ahead).instant? w = some i ↔ i.toUtc.Kept ∧ (fixed ahead).reading i = w :=
  Instant.ofClock?_eq_some_iff

/-- A reading is shown at an instant if that instant can be kept. -/
theorem exists_fixed_instant? (h : (⟨w.seconds - ahead, w.nanos⟩ : WallClock).Kept) :
    ∃ i, (fixed ahead).instant? w = some i ∧ (fixed ahead).reading i = w := by
  let i : Instant := ⟨w.seconds - ahead, w.nanos⟩
  have hreading : (fixed ahead).reading i = w := by simp [i, reading, offset]
  exact ⟨i, fixed_instant?_eq_some_iff.mpr ⟨h, hreading⟩, hreading⟩

end Zone

end Time

namespace Settings

open Time

/-- Let an offset be set. It is the one in minutes, or none if it is out of range. Readings and
instants are converted into each other without loss, as far as both can be kept, and so are dates
with times. -/
theorem offset_clock_inverts {s : Settings} {minutes : Int32} (hs : s.utcOffset? = some minutes) :
    let ahead : Int := if minutes.toInt.natAbs < 1440 then 60 * minutes.toInt else 0
    s.zone = .fixed ahead ∧
    (∀ i : Instant, i.toUtc.Kept → s.zone.instant? (s.zone.reading i) = some i) ∧
    (∀ w : WallClock, (⟨w.seconds - ahead, w.nanos⟩ : WallClock).Kept →
      ∃ i, s.zone.instant? w = some i ∧ s.zone.reading i = w) ∧
    (∀ d t, d.Exists → t.Exists →
      let w := WallClock.ofDateTime d t
      w.Exists ∧ w.date = d ∧ w.timeOfDay = t ∧
      ((⟨w.seconds - ahead, w.nanos⟩ : WallClock).Kept →
        ∃ i, i.toUtc.Exists ∧ s.zone.instant? w = some i ∧
          (s.zone.reading i).date = d ∧ (s.zone.reading i).timeOfDay = t)) ∧
    (∀ i : Instant, i.toUtc.Exists → (s.zone.reading i).Kept →
      (s.zone.reading i).date.Exists ∧ (s.zone.reading i).timeOfDay.Exists) := by
  intro ahead
  have hzone : s.zone = .fixed ahead := by
    rw [← Zone.ofMinutes_eq]
    simp only [zone, hs]
  have hminutes : ahead % 60 = 0 := by
    simp only [ahead]
    split <;> omega
  rw [hzone]
  refine ⟨rfl, fun i hi => Zone.fixed_instant?_eq_some_iff.mpr ⟨hi, rfl⟩,
    fun w hw => Zone.exists_fixed_instant? hw, fun d t hd ht => ?_, fun i hi hkept => ?_⟩
  · intro w
    have hdate : w.date = d := WallClock.date_ofDateTime (Date.exists_iff.mp hd).2.2 ht
    have htime : w.timeOfDay = t := WallClock.timeOfDay_ofDateTime ht
    have hw : w.Exists := WallClock.exists_iff.mpr ⟨d, t, hd, ht, rfl⟩
    refine ⟨hw, hdate, htime, fun hutc => ?_⟩
    obtain ⟨i, hi, hreading⟩ := Zone.exists_fixed_instant? hutc
    have hkept := (Zone.fixed_instant?_eq_some_iff.mp hi).1
    refine ⟨i, ⟨hkept, ?_⟩, hi, by rw [hreading, hdate], by rw [hreading, htime]⟩
    rw [← hreading] at hw
    exact (WallClock.hasTime_iff_of_minutes hminutes).mp hw.2
  · have htime := (WallClock.hasTime_iff_of_minutes hminutes).mpr hi.2
    obtain ⟨hfirst, hlast⟩ := WallClock.kept_iff.mp hkept
    exact ⟨⟨hfirst, hlast, Date.isDay_ofNumber _⟩, WallClock.timeOfDay_exists htime⟩

/-- In the middle of a leap second at the end of a year, on a clock that is behind UTC. -/
theorem offset_clock_inverts_in_leap_second :
    let s : Settings := { Settings.default with utcOffset? := some (-90) }
    let w := WallClock.ofDateTime ⟨2016, 12, 31⟩ ⟨23, 59, 60, 500000000⟩
    s.utcOffset? = some (-90) ∧ ∃ i, s.zone.instant? w = some i ∧
      i.toUtc.date = ⟨2017, 1, 1⟩ ∧ i.toUtc.timeOfDay = ⟨1, 29, 60, 500000000⟩ ∧
      (s.zone.reading i).date = ⟨2016, 12, 31⟩ ∧
      (s.zone.reading i).timeOfDay = ⟨23, 59, 60, 500000000⟩ := by
  intro s w
  obtain ⟨-, -, -, hdates, -⟩ := offset_clock_inverts (rfl : s.utcOffset? = some (-90))
  obtain ⟨-, -, -, hshown⟩ := hdates ⟨2016, 12, 31⟩ ⟨23, 59, 60, 500000000⟩ (by decide) (by decide)
  obtain ⟨i, -, hi, hdate, htime⟩ := hshown (by decide)
  obtain rfl : ⟨1483234199, 1500000000⟩ = i := Option.some.inj ((by decide : some _ = _).trans hi)
  exact ⟨rfl, _, hi, by decide, by decide, hdate, htime⟩

end Settings

end SearchComposer
