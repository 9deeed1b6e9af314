import SearchComposer.Proofs.Time.Zone

/-!
# The local clock around its changes

The local clock is two hours ahead of UTC in summer and one hour otherwise. A date is the last Sunday
of its month if it is a Sunday and no day a week later is in the month. On two such dates of a year
the hour from two to three is special: in March the clock skips it, in October it shows it twice.

Everywhere else readings and instants determine each other, with one exception: the first second of
the skipped hour is taken for an instant, at which the clock shows the hour after.
-/

namespace SearchComposer.Time

namespace Date

variable {d : Date} {m : Nat}

/-! ## Last Sundays -/

/-- Whether a date is the last Sunday of a month. -/
def IsLastSunday (d : Date) (m : Nat) : Prop :=
  d.month = m ∧ daysSinceSunday d.number = 0 ∧ daysInMonth d.year d.month < d.day + 7

instance (d : Date) (m : Nat) : Decidable (d.IsLastSunday m) := by
  unfold IsLastSunday
  infer_instance

/-- Within a month the numbers of dates go by the day. -/
theorem number_eq_of_last (y : Int) (m day : Nat) :
    number ⟨y, m, day⟩ = number ⟨y, m, 31⟩ - 31 + day := by
  rw [number_eq, number_eq]
  simp only [marchYear]
  omega

/-- The last Sunday of a month of 31 days is the one that was at most six days before its end. -/
theorem isLastSunday_iff (hm : m = 3 ∨ m = 10) (hd : d.IsDay) :
    d.IsLastSunday m ↔ d.number = lastSunday d.year m := by
  have hlength (y : Int) : daysInMonth y m = 31 := by
    rcases hm with rfl | rfl <;> rfl
  constructor
  · rintro ⟨rfl, hsunday, hlast⟩
    have hnumber : d.number = number ⟨d.year, d.month, 31⟩ - 31 + d.day :=
      number_eq_of_last d.year d.month d.day
    have hday := hd.2.2.2
    rw [hlength] at hlast hday
    simp only [lastSunday, daysSinceSunday] at *
    omega
  · intro h
    have hsunday : daysSinceSunday (lastSunday d.year m) = 0 := by
      simp only [lastSunday, daysSinceSunday]
      omega
    have hrange : 0 ≤ daysSinceSunday (number ⟨d.year, m, 31⟩) ∧
        daysSinceSunday (number ⟨d.year, m, 31⟩) < 7 := by
      unfold daysSinceSunday
      omega
    -- the date of that month with the same number is the date itself
    let e : Date := ⟨d.year, m, 31 - (daysSinceSunday (number ⟨d.year, m, 31⟩)).toNat⟩
    have he : e.IsDay := by
      refine ⟨?_, ?_, ?_, ?_⟩
      · show 1 ≤ m
        omega
      · show m ≤ 12
        omega
      · show 1 ≤ 31 - (daysSinceSunday (number ⟨d.year, m, 31⟩)).toNat
        omega
      · rw [hlength]
        exact Nat.sub_le _ _
    have hnumber : d.number = e.number := by
      rw [h, number_eq_of_last, lastSunday]
      omega
    have hde := number_inj hd he hnumber
    refine ⟨congrArg month hde, h ▸ hsunday, ?_⟩
    have hday : d.day = 31 - (daysSinceSunday (number ⟨d.year, m, 31⟩)).toNat := congrArg day hde
    rw [congrArg month hde, hlength, hday]
    omega

end Date

namespace WallClock

variable {w : WallClock} {m : Nat} {y : Int}

theorem le_year_iff : y ≤ w.date.year ↔ secondsPerDay * Date.number ⟨y, 1, 1⟩ ≤ w.seconds := by
  rw [date, Date.le_year_iff (Date.isDay_ofNumber _), Date.number_ofNumber]
  unfold secondsPerDay
  omega

theorem seconds_bounds (w : WallClock) :
    secondsPerDay * Date.number ⟨w.date.year, 1, 1⟩ ≤ w.seconds ∧
      w.seconds < secondsPerDay * Date.number ⟨w.date.year + 1, 1, 1⟩ :=
  ⟨le_year_iff.mp (Int.le_refl _), Int.not_le.mp (mt le_year_iff.mpr (by omega))⟩

theorem year_eq (hlow : secondsPerDay * Date.number ⟨y, 1, 1⟩ ≤ w.seconds)
    (hhigh : w.seconds < secondsPerDay * Date.number ⟨y + 1, 1, 1⟩) : w.date.year = y := by
  have hle := le_year_iff.mpr hlow
  have hlt := mt le_year_iff.mp (Int.not_le.mpr hhigh)
  omega

/-- Whether a reading is from two to three o'clock on the last Sunday of a month. -/
def InChange (w : WallClock) (m : Nat) : Prop :=
  w.date.IsLastSunday m ∧ w.timeOfDay.hour = 2

instance (w : WallClock) (m : Nat) : Decidable (w.InChange m) := by
  unfold InChange
  infer_instance

theorem inChange_iff (hm : m = 3 ∨ m = 10) :
    w.InChange m ↔ secondsPerDay * Date.lastSunday w.date.year m + 7200 ≤ w.seconds ∧
      w.seconds < secondsPerDay * Date.lastSunday w.date.year m + 10800 := by
  have hnumber : w.date.number = w.seconds / secondsPerDay := Date.number_ofNumber _
  have hday : w.date.IsDay := Date.isDay_ofNumber _
  have hhour : w.timeOfDay.hour = (w.seconds % secondsPerDay).toNat / 3600 := rfl
  rw [InChange, Date.isLastSunday_iff hm hday, hnumber, hhour]
  unfold secondsPerDay
  omega

/-- The hour that the local clock skips in March. -/
def Skipped (w : WallClock) : Prop := w.InChange 3

/-- The hour that the local clock shows twice in October. -/
def Doubled (w : WallClock) : Prop := w.InChange 10

/-- Whether a reading is in the first second of its hour. -/
def OnTheHour (w : WallClock) : Prop := w.timeOfDay.minute = 0 ∧ w.timeOfDay.second = 0

instance (w : WallClock) : Decidable w.Skipped := by
  unfold Skipped
  infer_instance

instance (w : WallClock) : Decidable w.Doubled := by
  unfold Doubled
  infer_instance

instance (w : WallClock) : Decidable w.OnTheHour := by
  unfold OnTheHour
  infer_instance

theorem skipped_iff : w.Skipped ↔ Zone.summerStart w.date.year + 3600 ≤ w.seconds ∧
    w.seconds < Zone.summerStart w.date.year + 7200 := by
  rw [Skipped, inChange_iff (.inl rfl), Zone.summerStart, Zone.changeOfDay]
  omega

theorem doubled_iff : w.Doubled ↔ Zone.summerEnd w.date.year + 3600 ≤ w.seconds ∧
    w.seconds < Zone.summerEnd w.date.year + 7200 := by
  rw [Doubled, inChange_iff (.inr rfl), Zone.summerEnd, Zone.changeOfDay]
  omega

theorem onTheHour_iff (hw : w.HasTime) : w.OnTheHour ↔ w.seconds % 3600 = 0 := by
  rw [OnTheHour]
  simp only [timeOfDay]
  rcases nanos_cases hw with ⟨hleap, -⟩ | ⟨hleap, -, hlast⟩
  · rw [hleap]
    unfold secondsPerDay
    omega
  · rw [hleap]
    unfold secondsPerDay
    omega

end WallClock

namespace Zone

variable {i : Instant} {w : WallClock} {y : Int}

/-! ## Summers -/

/-- A summer is in one year, with weeks before and after it. -/
theorem summer_bounds (y : Int) :
    secondsPerDay * Date.number ⟨y, 1, 1⟩ + 7200 ≤ summerStart y ∧
      summerStart y + 7200 ≤ summerEnd y ∧
      summerEnd y + 10800 ≤ secondsPerDay * Date.number ⟨y + 1, 1, 1⟩ := by
  have hmarch : Date.number ⟨y, 3, 31⟩ = Date.daysBeforeMarch y + 30 - Date.marchEpoch := by
    simp [Date.number, Date.daysBeforeMonth]
  have hoctober : Date.number ⟨y, 10, 31⟩ = Date.daysBeforeMarch y + 244 - Date.marchEpoch := by
    simp [Date.number, Date.daysBeforeMonth]
    omega
  have hlength := Date.daysBeforeMarch_succ (y - 1)
  rw [Int.sub_add_cancel] at hlength
  have hyear : 365 ≤ Date.daysBeforeMarch y - Date.daysBeforeMarch (y - 1) := by
    split at hlength <;> omega
  simp only [summerStart, summerEnd, changeOfDay, Date.lastSunday, Date.daysSinceSunday,
    Date.number_newYear, Int.add_sub_cancel, hmarch, hoctober, secondsPerDay]
  omega

theorem homeOffset_of_summer (hlow : summerStart y ≤ i.seconds) (hhigh : i.seconds < summerEnd y) :
    homeOffset i = 7200 := by
  have hsummer := summer_bounds y
  have hyear : i.toUtc.date.year = y := WallClock.year_eq (by
    show _ ≤ i.seconds
    omega) (by
    show i.seconds < _
    omega)
  rw [homeOffset, hyear]
  exact if_pos ⟨hlow, hhigh⟩

theorem homeOffset_of_winter (hlow : summerEnd (y - 1) ≤ i.seconds)
    (hhigh : i.seconds < summerStart y) : homeOffset i = 3600 := by
  have hsummer := summer_bounds y
  have hbefore := summer_bounds (y - 1)
  rw [Int.sub_add_cancel] at hbefore
  by_cases hnew : secondsPerDay * Date.number ⟨y, 1, 1⟩ ≤ i.seconds
  · have hyear : i.toUtc.date.year = y := WallClock.year_eq hnew (by
      show i.seconds < _
      omega)
    rw [homeOffset, hyear]
    exact if_neg (by omega)
  · have hyear : i.toUtc.date.year = y - 1 := WallClock.year_eq (by
      show _ ≤ i.seconds
      omega) (by
      rw [Int.sub_add_cancel]
      exact Int.not_le.mp hnew)
    rw [homeOffset, hyear]
    exact if_neg (by omega)

/-! ## Readings of the local clock -/

theorem homeOffsetAt?_of_le (h : w.seconds ≤ summerStart w.date.year + 3600) :
    homeOffsetAt? w = some 3600 :=
  if_pos h

theorem homeOffsetAt?_of_skipped (hlow : summerStart w.date.year + 3600 < w.seconds)
    (hhigh : w.seconds < summerStart w.date.year + 7200) : homeOffsetAt? w = none := by
  have hwinter : winterOffset = 3600 := rfl
  have hsummer : summerOffset = 7200 := rfl
  unfold homeOffsetAt?
  rw [if_neg (by omega), if_pos (by omega)]

theorem homeOffsetAt?_of_summer (hlow : summerStart w.date.year + 7200 ≤ w.seconds)
    (hhigh : w.seconds < summerEnd w.date.year + 7200) : homeOffsetAt? w = some 7200 := by
  have hwinter : winterOffset = 3600 := rfl
  have hsummer : summerOffset = 7200 := rfl
  unfold homeOffsetAt?
  rw [if_neg (by omega), if_neg (by omega), if_pos (by omega), hsummer]

theorem homeOffsetAt?_of_autumn (h : summerEnd w.date.year + 7200 ≤ w.seconds) :
    homeOffsetAt? w = some 3600 := by
  have hwinter : winterOffset = 3600 := rfl
  have hsummer : summerOffset = 7200 := rfl
  have hbounds := summer_bounds w.date.year
  unfold homeOffsetAt?
  rw [if_neg (by omega), if_neg (by omega), if_neg (by omega), hwinter]

theorem home_instant?_of_offset {ahead : Int} (h : homeOffsetAt? w = some ahead)
    (hkept : (⟨w.seconds - ahead, w.nanos⟩ : WallClock).Kept) :
    home.instant? w = some ⟨w.seconds - ahead, w.nanos⟩ := by
  have hclock : Instant.ofClock? ahead w = some ⟨w.seconds - ahead, w.nanos⟩ :=
    Instant.ofClock?_eq_some_iff.mpr ⟨hkept, by rw [Int.sub_add_cancel]⟩
  rw [instant?, offsetAt?, h]
  exact hclock

/-- A reading is shown at the instant that it is taken for if the clock is as far ahead then. -/
theorem home_reads_back_of_offset {ahead : Int} (h : homeOffsetAt? w = some ahead)
    (hkept : (⟨w.seconds - ahead, w.nanos⟩ : WallClock).Kept)
    (hoffset : homeOffset ⟨w.seconds - ahead, w.nanos⟩ = ahead) :
    ∃ i, home.instant? w = some i ∧ home.reading i = w := by
  refine ⟨_, home_instant?_of_offset h hkept, ?_⟩
  rw [reading, offset, hoffset, Int.sub_add_cancel]

/-- Readings outside of the skipped hour are shown at the instant that they are taken for. -/
theorem home_reads_back (hw : w.Kept) (hkept : (⟨w.seconds - 3600, w.nanos⟩ : WallClock).Kept)
    (hskipped : ¬w.Skipped) : ∃ i, home.instant? w = some i ∧ home.reading i = w := by
  obtain ⟨hlow, hhigh⟩ := w.seconds_bounds
  have hsummer := summer_bounds w.date.year
  rw [WallClock.skipped_iff] at hskipped
  by_cases hspring : w.seconds < summerStart w.date.year + 3600
  · -- before the change in March
    have hbefore := summer_bounds (w.date.year - 1)
    rw [Int.sub_add_cancel] at hbefore
    exact home_reads_back_of_offset (homeOffsetAt?_of_le (by omega)) hkept
      (homeOffset_of_winter (y := w.date.year) (by simp only; omega) (by simp only; omega))
  · by_cases hautumn : w.seconds < summerEnd w.date.year + 7200
    · -- in summer, up to the last reading that is shown in it
      have hyear : (⟨w.seconds - 7200, w.nanos⟩ : WallClock).date.year = w.date.year :=
        WallClock.year_eq (by simp only; omega) (by simp only; omega)
      have hutc : (⟨w.seconds - 7200, w.nanos⟩ : WallClock).Kept := by
        rw [WallClock.kept_iff, hyear]
        exact WallClock.kept_iff.mp hw
      exact home_reads_back_of_offset (homeOffsetAt?_of_summer (by omega) hautumn) hutc
        (homeOffset_of_summer (y := w.date.year) (by simp only; omega) (by simp only; omega))
    · -- after the change in October
      have hafter := summer_bounds (w.date.year + 1)
      refine home_reads_back_of_offset (homeOffsetAt?_of_autumn (by omega)) hkept
        (homeOffset_of_winter (y := w.date.year + 1) ?_ (by simp only; omega))
      rw [Int.add_sub_cancel]
      simp only
      omega

/-- The first second of the skipped hour is taken for the one in which the clock jumps. -/
theorem home_reads_on (hkept : (⟨w.seconds - 3600, w.nanos⟩ : WallClock).Kept)
    (h : w.seconds = summerStart w.date.year + 3600) :
    ∃ i, home.instant? w = some i ∧ home.reading i = ⟨w.seconds + 3600, w.nanos⟩ := by
  have hsummer := summer_bounds w.date.year
  have hoffset : homeOffset ⟨w.seconds - 3600, w.nanos⟩ = 7200 :=
    homeOffset_of_summer (y := w.date.year) (by simp only; omega) (by simp only; omega)
  refine ⟨_, home_instant?_of_offset (homeOffsetAt?_of_le (by omega)) hkept, ?_⟩
  rw [reading, offset, hoffset]
  simp only [WallClock.mk.injEq, and_true]
  omega

/-- Only in the first hour of all years does a reading come too early for an instant that is kept. -/
theorem home_instant?_of_not_kept (hw : w.Kept)
    (hkept : ¬(⟨w.seconds - 3600, w.nanos⟩ : WallClock).Kept) :
    home.instant? w = none ∧ ¬w.Skipped := by
  obtain ⟨-, hhigh⟩ := w.seconds_bounds
  have hsummer := summer_bounds w.date.year
  have hearly : w.seconds < secondsPerDay * Date.number ⟨w.date.year, 1, 1⟩ + 3600 := by
    refine Int.not_le.mp fun hlate => hkept ?_
    have hyear : (⟨w.seconds - 3600, w.nanos⟩ : WallClock).date.year = w.date.year :=
      WallClock.year_eq (by simp only; omega) (by simp only; omega)
    rw [WallClock.kept_iff, hyear]
    exact WallClock.kept_iff.mp hw
  constructor
  · refine Option.eq_none_iff_forall_ne_some.mpr fun i hi => hkept ?_
    rw [instant?, offsetAt?, homeOffsetAt?_of_le (by omega)] at hi
    obtain ⟨hutc, rfl⟩ := Instant.ofClock?_eq_some_iff.mp hi
    rw [Int.add_sub_cancel]
    exact hutc
  · rw [WallClock.skipped_iff]
    omega

theorem home_instant?_reading_of_offset {ahead : Int} (hi : i.toUtc.Kept)
    (hoffset : homeOffset i = ahead)
    (hat : homeOffsetAt? ⟨i.seconds + ahead, i.nanos⟩ = some ahead) :
    home.instant? (home.reading i) = some i := by
  have hreading : home.reading i = ⟨i.seconds + ahead, i.nanos⟩ := by rw [reading, offset, hoffset]
  rw [hreading, instant?, offsetAt?, hat]
  exact Instant.ofClock?_eq_some_iff.mpr ⟨hi, rfl⟩

/-- An instant is got back from its reading unless that is shown twice. -/
theorem home_instant?_reading (hi : i.toUtc.Kept) (hdoubled : ¬(home.reading i).Doubled) :
    home.instant? (home.reading i) = some i := by
  generalize hy : i.toUtc.date.year = y
  have hsummer := summer_bounds y
  have hnow : secondsPerDay * Date.number ⟨y, 1, 1⟩ ≤ i.seconds ∧
      i.seconds < secondsPerDay * Date.number ⟨y + 1, 1, 1⟩ := hy ▸ i.toUtc.seconds_bounds
  -- the year on the local clock is the one in UTC, except in the last hour of that
  have hyear (ahead : Int) (hlow : 0 ≤ ahead)
      (hhigh : i.seconds + ahead < secondsPerDay * Date.number ⟨y + 1, 1, 1⟩) :
      (⟨i.seconds + ahead, i.nanos⟩ : WallClock).date.year = y :=
    WallClock.year_eq (by simp only; omega) hhigh
  by_cases hspring : i.seconds < summerStart y
  · have hbefore := summer_bounds (y - 1)
    rw [Int.sub_add_cancel] at hbefore
    refine home_instant?_reading_of_offset hi (homeOffset_of_winter (by omega) hspring)
      (homeOffsetAt?_of_le ?_)
    rw [hyear 3600 (by omega) (by omega)]
    simp only
    omega
  · by_cases hautumn : i.seconds < summerEnd y
    · have hinside := hyear 7200 (by omega) (by omega)
      refine home_instant?_reading_of_offset hi (homeOffset_of_summer (by omega) hautumn)
        (homeOffsetAt?_of_summer ?_ ?_)
      · rw [hinside]
        simp only
        omega
      · rw [hinside]
        simp only
        omega
    · have hafter := summer_bounds (y + 1)
      have hoffset : homeOffset i = 3600 :=
        homeOffset_of_winter (y := y + 1) (by rw [Int.add_sub_cancel]; omega) (by omega)
      have hreading : home.reading i = ⟨i.seconds + 3600, i.nanos⟩ := by
        rw [reading, offset, hoffset]
      refine home_instant?_reading_of_offset hi hoffset ?_
      by_cases hlast : i.seconds + 3600 < secondsPerDay * Date.number ⟨y + 1, 1, 1⟩
      · have hinside := hyear 3600 (by omega) hlast
        rw [hreading, WallClock.doubled_iff, hinside] at hdoubled
        simp only at hdoubled
        refine homeOffsetAt?_of_autumn ?_
        rw [hinside]
        simp only
        omega
      · have hnext : (⟨i.seconds + 3600, i.nanos⟩ : WallClock).date.year = y + 1 :=
          WallClock.year_eq (by simp only; omega) (by simp only; omega)
        refine homeOffsetAt?_of_le ?_
        rw [hnext]
        simp only
        omega

/-! ## The local clock as a whole -/

/-- A reading belongs to no instant exactly if it is in the hour that is skipped in March, unless it
is in the first second of that: such a reading is taken for the instant at which the clock jumps, when
it shows an hour more. All others, those in the doubled hour too, are shown at the instant that they
are taken for, as long as its date can be kept. An instant with a reading that is shown only once is
got back from it. -/
theorem home_clock_inverts (hw : w.Exists) :
    let utc : WallClock := ⟨w.seconds - winterOffset, w.nanos⟩
    ((home.instant? w = none ↔ w.Skipped) ↔ utc.Kept ∧ ¬(w.Skipped ∧ w.OnTheHour)) ∧
    (utc.Kept → ¬w.Skipped → ∃ i, home.instant? w = some i ∧ home.reading i = w) ∧
    (w.Skipped → w.OnTheHour →
      ∃ i, home.instant? w = some i ∧ home.reading i = ⟨w.seconds + 3600, w.nanos⟩) ∧
    (∀ i : Instant, i.toUtc.Kept → ¬(home.reading i).Doubled →
      home.instant? (home.reading i) = some i) := by
  intro utc
  have hback (hkept : utc.Kept) := home_reads_back hw.1 hkept
  have hlost (hkept : ¬utc.Kept) := home_instant?_of_not_kept hw.1 hkept
  have hskips (h : w.Skipped) : utc.Kept :=
    Classical.byContradiction fun hkept => (hlost hkept).2 h
  have hfirst (h : w.Skipped) : w.OnTheHour ↔ w.seconds = summerStart w.date.year + 3600 := by
    rw [WallClock.skipped_iff] at h
    rw [WallClock.onTheHour_iff hw.2]
    unfold summerStart secondsPerDay changeOfDay at *
    omega
  have hon (h : w.Skipped) (hhour : w.OnTheHour) :
      ∃ i, home.instant? w = some i ∧ home.reading i = ⟨w.seconds + 3600, w.nanos⟩ :=
    home_reads_on (hskips h) ((hfirst h).mp hhour)
  have hnone (h : w.Skipped) (hhour : ¬w.OnTheHour) : home.instant? w = none := by
    have hlate := mt (hfirst h).mpr hhour
    obtain ⟨hlow, hhigh⟩ := WallClock.skipped_iff.mp h
    rw [instant?, offsetAt?, homeOffsetAt?_of_skipped (by omega) hhigh]
    rfl
  refine ⟨?_, hback, hon, fun i => home_instant?_reading⟩
  by_cases h : w.Skipped
  · have hkept := hskips h
    by_cases hhour : w.OnTheHour
    · obtain ⟨i, hi, -⟩ := hon h hhour
      simp [h, hhour, hi]
    · simp [h, hhour, hkept, hnone h hhour]
  · by_cases hkept : utc.Kept
    · obtain ⟨i, hi, -⟩ := hback hkept h
      simp [h, hkept, hi]
    · simp [h, hkept, (hlost hkept).1]

/-- The middle of the skipped hour belongs to no instant, and the second before that hour to the last
one of winter time. -/
theorem home_clock_inverts_around_summer :
    let skipped := WallClock.ofDateTime ⟨2020, 3, 29⟩ ⟨2, 30, 0, 0⟩
    let last := WallClock.ofDateTime ⟨2020, 3, 29⟩ ⟨1, 59, 59, 0⟩
    skipped.Exists ∧ home.instant? skipped = none ∧
      last.Exists ∧ (∃ i, home.instant? last = some i ∧ home.reading i = last) := by
  intro skipped last
  have hskipped : skipped.Exists ∧ skipped.Skipped ∧ ¬skipped.OnTheHour := by decide
  have hlast : last.Exists ∧ ¬last.Skipped := by decide
  obtain ⟨hnone, -⟩ := home_clock_inverts hskipped.1
  obtain ⟨-, hsome, -⟩ := home_clock_inverts hlast.1
  have hin := (hnone.mpr ⟨by decide, fun h => hskipped.2.2 h.2⟩).mpr hskipped.2.1
  exact ⟨hskipped.1, hin, hlast.1, hsome (by decide) hlast.2⟩

/-- Two o'clock on the last Sunday of March is skipped, and yet it is taken for an instant. -/
theorem skipped_hour_not_all_none :
    let w := WallClock.ofDateTime ⟨2020, 3, 29⟩ ⟨2, 0, 0, 0⟩
    w.Exists ∧ ¬w.Doubled ∧ w.Skipped ∧ home.instant? w = some ⟨1585443600, 0⟩ ∧
      home.reading ⟨1585443600, 0⟩ = .ofDateTime ⟨2020, 3, 29⟩ ⟨3, 0, 0, 0⟩ := by
  decide

end Zone

end SearchComposer.Time
