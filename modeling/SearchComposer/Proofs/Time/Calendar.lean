import SearchComposer.Time.Instant

/-!
# Dates and their numbers

A number of a day is read back from the date that it gives, and a date of the calendar from its
number. Both go by years that start with March: such a year, a month of it and a day of that are
determined by the days before them.

A reading of a wall clock is cut down to its day and its second by numbers alone; with this, that is
the midnight and the second of the date and the time that the clock shows.
-/

namespace SearchComposer.Time

namespace Date

/-! ## Years and months of an era -/

theorem isLeapYear_iff {y : Int} :
    isLeapYear y = true ↔ y % 4 = 0 ∧ (y % 100 ≠ 0 ∨ y % 400 = 0) := by
  simp [isLeapYear]

/-- A year is a day longer if the February at its end has a leap day. -/
theorem daysBeforeMarch_succ (y : Int) :
    daysBeforeMarch (y + 1) = daysBeforeMarch y + if isLeapYear (y + 1) then 366 else 365 := by
  unfold daysBeforeMarch
  split
  · next h =>
    have hleap := isLeapYear_iff.mp h
    omega
  · next h =>
    have hleap := mt isLeapYear_iff.mpr h
    omega

/-- The year of an era that a day falls into starts on the day or before, and ends after it. -/
theorem yearOfEra_bounds {d y : Int} (h0 : 0 ≤ d) (h1 : d < 146097)
    (hy : y = (d - d / 1460 + d / 36524 - d / 146096) / 365) :
    0 ≤ y ∧ y < 400 ∧ daysBeforeMarch y ≤ d ∧ d < daysBeforeMarch (y + 1) := by
  by_cases hlast : d = 146096
  · subst hlast
    unfold daysBeforeMarch
    omega
  · -- before the last day of the era, every day has a century, a span of four years and a rest
    have hd : d = 36524 * (d / 36524) + 1461 * (d % 36524 / 1461) + d % 36524 % 1461 := by omega
    have he : 0 ≤ d / 36524 ∧ d / 36524 ≤ 3 := by omega
    have hq : 0 ≤ d % 36524 / 1461 ∧ d % 36524 / 1461 ≤ 24 := by omega
    have hr : 0 ≤ d % 36524 % 1461 ∧ d % 36524 % 1461 ≤ 1460 := by omega
    have hlt : 1461 * (d % 36524 / 1461) + d % 36524 % 1461 < 36524 := by omega
    generalize d / 36524 = e at *
    generalize d % 36524 / 1461 = q at *
    generalize d % 36524 % 1461 = r at *
    have hf : d / 146096 = 0 := by omega
    obtain ⟨l, hl, hl0, hl1, hlr⟩ : ∃ l : Int, d / 1460 = 25 * e + q + l ∧ 0 ≤ l ∧ l ≤ 1 ∧
        (l = 0 ∨ 1364 ≤ r) :=
      ⟨d / 1460 - 25 * e - q, by omega, by omega, by omega, by omega⟩
    have hyq : y = 100 * e + 4 * q + (r - l) / 365 := by
      rw [hy, hf, hl, hd]
      omega
    -- only the last year of a span can have the day at its end
    have hp : 0 ≤ (r - l) / 365 ∧ (r - l) / 365 ≤ 3 ∧ 365 * ((r - l) / 365) ≤ r ∧
        (r < 365 * ((r - l) / 365) + 365 ∨ (r - l) / 365 = 3 ∧ q < 24) := by omega
    generalize (r - l) / 365 = p at *
    have h4 : y / 4 = 25 * e + q := by omega
    have h100 : y / 100 = e := by omega
    have h400 : y / 400 = 0 := by omega
    have hfirst : daysBeforeMarch y = 36524 * e + 1461 * q + 365 * p := by
      unfold daysBeforeMarch
      omega
    refine ⟨by omega, by omega, by omega, ?_⟩
    rw [daysBeforeMarch_succ, hfirst]
    obtain ⟨-, -, -, hp | ⟨hp, hq⟩⟩ := hp
    · split <;> omega
    · rw [if_pos (isLeapYear_iff.mpr ⟨by omega, by omega⟩)]
      omega

theorem month_bounds {k m : Int} (h0 : 0 ≤ k) (h1 : k ≤ 365) (hm : m = (5 * k + 2) / 153) :
    0 ≤ m ∧ m < 12 ∧ daysBeforeMonth m ≤ k ∧ k < daysBeforeMonth (m + 1) := by
  unfold daysBeforeMonth
  omega

/-- All eras have the same days. -/
theorem daysBeforeMarch_add (era y : Int) :
    daysBeforeMarch (400 * era + y) = 146097 * era + daysBeforeMarch y := by
  unfold daysBeforeMarch
  omega

/-! ## Dates in years that start with March -/

/-- Whether the calendar has a date, in whatever year. -/
def IsDay (d : Date) : Prop :=
  1 ≤ d.month ∧ d.month ≤ 12 ∧ 1 ≤ d.day ∧ d.day ≤ daysInMonth d.year d.month

/-- The year of a date, for years that start with March. -/
def marchYear (d : Date) : Int := if d.month ≤ 2 then d.year - 1 else d.year

/-- The months from March to a month. -/
def monthsFromMarch (month : Nat) : Int := if month ≤ 2 then month + 9 else (month : Int) - 3

theorem number_eq (d : Date) : d.number =
    daysBeforeMarch d.marchYear + daysBeforeMonth (monthsFromMarch d.month) +
      ((d.day : Int) - 1) - marchEpoch := by
  simp only [number, marchYear, monthsFromMarch]

theorem daysInMonth_february (y : Int) :
    (daysInMonth y 2 : Int) = daysBeforeMarch y - daysBeforeMarch (y - 1) - daysBeforeMonth 11 := by
  have hyear := daysBeforeMarch_succ (y - 1)
  rw [Int.sub_add_cancel] at hyear
  rw [hyear, daysInMonth, if_pos rfl]
  simp only [daysBeforeMonth]
  split <;> omega

/-- The days of a month other than February are those up to the next month. -/
theorem daysInMonth_eq_sub {y : Int} {m : Nat} (h1 : 1 ≤ m) (h12 : m ≤ 12) (h2 : m ≠ 2) :
    (daysInMonth y m : Int) =
      daysBeforeMonth (monthsFromMarch m + 1) - daysBeforeMonth (monthsFromMarch m) := by
  have htable : ∀ m : Nat, m < 13 → 1 ≤ m → m ≠ 2 → (daysInMonth 0 m : Int) =
      daysBeforeMonth (monthsFromMarch m + 1) - daysBeforeMonth (monthsFromMarch m) := by decide
  rw [← htable m (by omega) h1 h2, daysInMonth, daysInMonth, if_neg h2, if_neg h2]

/-- The calendar has the dates that lie before the next month and before the next first of March. -/
theorem isDay_iff {d : Date} : d.IsDay ↔ 1 ≤ d.month ∧ d.month ≤ 12 ∧ 1 ≤ d.day ∧
    daysBeforeMonth (monthsFromMarch d.month) + d.day ≤
      daysBeforeMonth (monthsFromMarch d.month + 1) ∧
    daysBeforeMarch d.marchYear + daysBeforeMonth (monthsFromMarch d.month) + d.day ≤
      daysBeforeMarch (d.marchYear + 1) := by
  obtain ⟨year, month, day⟩ := d
  show 1 ≤ month ∧ month ≤ 12 ∧ 1 ≤ day ∧ day ≤ daysInMonth year month ↔ _
  refine and_congr_right fun h1 => and_congr_right fun h12 => and_congr_right fun _ => ?_
  by_cases h2 : month = 2
  · subst h2
    have hyear := daysBeforeMarch_succ (year - 1)
    have hfebruary := daysInMonth_february year
    have hlast : monthsFromMarch 2 = 11 ∧ daysBeforeMonth 11 = 337 ∧
        daysBeforeMonth (11 + 1) = 367 := by decide
    simp only [marchYear, Nat.le_refl, if_true, Int.sub_add_cancel, hlast] at hyear hfebruary ⊢
    split at hyear <;> omega
  · have hlength := daysInMonth_eq_sub (y := year) h1 h12 h2
    have hbefore : ∀ m : Nat, m < 13 → 1 ≤ m → m ≠ 2 →
        daysBeforeMonth (monthsFromMarch m + 1) ≤ 337 := by decide
    have hfebruary := hbefore month (Nat.lt_succ_of_le h12) h1 h2
    have hyear := daysBeforeMarch_succ (marchYear ⟨year, month, day⟩)
    simp only at hyear ⊢
    split at hyear <;> omega

theorem monthsFromMarch_bounds {m : Nat} (h1 : 1 ≤ m) (h12 : m ≤ 12) :
    0 ≤ monthsFromMarch m ∧ monthsFromMarch m ≤ 11 := by
  unfold monthsFromMarch
  split <;> omega

theorem daysBeforeMonth_mono {k l : Int} (h : k ≤ l) : daysBeforeMonth k ≤ daysBeforeMonth l := by
  unfold daysBeforeMonth
  omega

theorem daysBeforeMarch_mono {y z : Int} (h : y ≤ z) : daysBeforeMarch y ≤ daysBeforeMarch z := by
  unfold daysBeforeMarch
  omega

/-- The number of a date says which year and month it is in. -/
theorem number_inj {d e : Date} (hd : d.IsDay) (he : e.IsDay) (h : d.number = e.number) : d = e := by
  obtain ⟨hd1, hd12, hday, hmonth, hyear⟩ := isDay_iff.mp hd
  obtain ⟨he1, he12, hday', hmonth', hyear'⟩ := isDay_iff.mp he
  rw [number_eq, number_eq] at h
  have hdm := monthsFromMarch_bounds hd1 hd12
  have hem := monthsFromMarch_bounds he1 he12
  have hstart : 0 ≤ daysBeforeMonth (monthsFromMarch d.month) := daysBeforeMonth_mono hdm.1
  have hstart' : 0 ≤ daysBeforeMonth (monthsFromMarch e.month) := daysBeforeMonth_mono hem.1
  have hy : d.marchYear = e.marchYear := by
    rcases Int.lt_trichotomy d.marchYear e.marchYear with hlt | heq | hgt
    · have := daysBeforeMarch_mono (Int.add_one_le_of_lt hlt)
      omega
    · exact heq
    · have := daysBeforeMarch_mono (Int.add_one_le_of_lt hgt)
      omega
  rw [hy] at h
  have hm : monthsFromMarch d.month = monthsFromMarch e.month := by
    rcases Int.lt_trichotomy (monthsFromMarch d.month) (monthsFromMarch e.month) with
      hlt | heq | hgt
    · have := daysBeforeMonth_mono (Int.add_one_le_of_lt hlt)
      omega
    · exact heq
    · have := daysBeforeMonth_mono (Int.add_one_le_of_lt hgt)
      omega
  rw [hm] at h
  obtain ⟨year, month, day⟩ := d
  obtain ⟨year', month', day'⟩ := e
  have hmonths : month = month' := by
    simp only [monthsFromMarch] at hm hd1 hd12 he1 he12
    split at hm <;> split at hm <;> omega
  subst hmonths
  have hyears : year = year' := by
    simp only [marchYear] at hy
    split at hy <;> omega
  subst hyears
  simp only [mk.injEq, true_and]
  simp only at h
  omega

theorem isDay_ofNumber_and_number (n : Int) : (ofNumber n).IsDay ∧ (ofNumber n).number = n := by
  rw [isDay_iff, number_eq]
  unfold ofNumber
  simp only
  generalize hf : n + marchEpoch = f
  generalize hd : f % 146097 = d
  generalize hy : (d - d / 1460 + d / 36524 - d / 146096) / 365 = y
  generalize hk : d - daysBeforeMarch y = k
  generalize hm : (5 * k + 2) / 153 = m
  obtain ⟨hy0, hy1, hfirst, hlast⟩ := yearOfEra_bounds (d := d) (by omega) (by omega) hy.symm
  have hlength := daysBeforeMarch_succ y
  have hk1 : k ≤ 365 := by split at hlength <;> omega
  obtain ⟨hm0, hm1, hday, hnext⟩ := month_bounds (k := k) (by omega) hk1 hm.symm
  have hera := daysBeforeMarch_add (f / 146097) y
  have hera' := daysBeforeMarch_add (f / 146097) (y + 1)
  rw [← Int.add_assoc] at hera'
  -- the months from January on belong to the next year
  split
  · next h =>
    have hyear (day : Nat) : marchYear ⟨400 * (f / 146097) + y, (m + 3).toNat, day⟩ =
        400 * (f / 146097) + y := if_neg (by simp only; omega)
    have hmonth : monthsFromMarch (m + 3).toNat = m := by
      unfold monthsFromMarch
      split <;> omega
    simp only [hyear, hmonth]
    omega
  · next h =>
    have hyear (day : Nat) : marchYear ⟨400 * (f / 146097) + y + 1, (m - 9).toNat, day⟩ =
        400 * (f / 146097) + y := by
      rw [marchYear, if_pos (by simp only; omega), Int.add_sub_cancel]
    have hmonth : monthsFromMarch (m - 9).toNat = m := by
      unfold monthsFromMarch
      split <;> omega
    simp only [hyear, hmonth]
    omega

theorem number_ofNumber (n : Int) : (ofNumber n).number = n := (isDay_ofNumber_and_number n).2

theorem isDay_ofNumber (n : Int) : (ofNumber n).IsDay := (isDay_ofNumber_and_number n).1

theorem ofNumber_number {d : Date} (h : d.IsDay) : ofNumber d.number = d :=
  number_inj (isDay_ofNumber _) h (number_ofNumber _)

theorem daysInMonth_le (y : Int) (m : Nat) : daysInMonth y m ≤ 31 := by
  unfold daysInMonth
  split
  · split <;> omega
  · split <;> omega

/-- Months and days have at most two digits. -/
theorem ofNumber_bounds (n : Int) : (ofNumber n).month ≤ 12 ∧ (ofNumber n).day ≤ 31 := by
  obtain ⟨-, h12, -, hday⟩ := isDay_ofNumber n
  exact ⟨h12, Nat.le_trans hday (daysInMonth_le _ _)⟩

/-! ## Years that start with January -/

theorem number_newYear (y : Int) : number ⟨y, 1, 1⟩ = daysBeforeMarch (y - 1) + 306 - marchEpoch := by
  have hmonth : daysBeforeMonth (monthsFromMarch 1) = 306 := by decide
  rw [number_eq, hmonth]
  simp [marchYear]

theorem newYear_lt_newYear {y z : Int} (h : y < z) : number ⟨y, 1, 1⟩ < number ⟨z, 1, 1⟩ := by
  have hmono := daysBeforeMarch_mono (Int.le_sub_one_of_lt h)
  have hyear := daysBeforeMarch_succ (y - 1)
  rw [Int.sub_add_cancel] at hyear
  rw [number_newYear, number_newYear]
  split at hyear <;> omega

/-- A date lies between the new years of its year and the next one. -/
theorem newYear_bounds {d : Date} (h : d.IsDay) :
    number ⟨d.year, 1, 1⟩ ≤ d.number ∧ d.number < number ⟨d.year + 1, 1, 1⟩ := by
  obtain ⟨h1, h12, hday, hmonth, hyear⟩ := isDay_iff.mp h
  obtain ⟨hfirst, hlast⟩ := monthsFromMarch_bounds h1 h12
  rw [number_newYear, number_newYear, number_eq, Int.add_sub_cancel]
  by_cases hle : d.month ≤ 2
  · have htenth : 10 ≤ monthsFromMarch d.month := by
      rw [monthsFromMarch, if_pos hle]
      omega
    have hbefore : 306 ≤ daysBeforeMonth (monthsFromMarch d.month) := daysBeforeMonth_mono htenth
    rw [marchYear, if_pos hle] at hyear ⊢
    rw [Int.sub_add_cancel] at hyear
    omega
  · have hninth : monthsFromMarch d.month + 1 ≤ 10 := by
      rw [monthsFromMarch, if_neg hle]
      omega
    have hbefore : daysBeforeMonth (monthsFromMarch d.month + 1) ≤ 306 := daysBeforeMonth_mono hninth
    have hzero : 0 ≤ daysBeforeMonth (monthsFromMarch d.month) := daysBeforeMonth_mono hfirst
    have hlength := daysBeforeMarch_succ (d.year - 1)
    rw [Int.sub_add_cancel] at hlength
    rw [marchYear, if_neg hle]
    split at hlength <;> omega

/-- A year is reached with its new year. -/
theorem le_year_iff {d : Date} (h : d.IsDay) {y : Int} :
    y ≤ d.year ↔ number ⟨y, 1, 1⟩ ≤ d.number := by
  obtain ⟨hlow, hhigh⟩ := newYear_bounds h
  constructor
  · intro hy
    rcases Int.lt_or_eq_of_le hy with hlt | rfl
    · exact Int.le_trans (Int.le_of_lt (newYear_lt_newYear hlt)) hlow
    · exact hlow
  · intro hy
    refine Int.not_lt.mp fun hlt => ?_
    rcases Int.lt_or_eq_of_le (Int.add_one_le_of_lt hlt) with hlt | heq
    · have := newYear_lt_newYear hlt
      omega
    · rw [heq] at hhigh
      omega

theorem exists_iff {d : Date} : d.Exists ↔ firstYear ≤ d.year ∧ d.year ≤ lastYear ∧ d.IsDay :=
  Iff.rfl

end Date

namespace WallClock

variable {w : WallClock} {d : Date} {t : TimeOfDay}

/-- The start of the day of a reading is the midnight of its date. -/
theorem ofDateTime_date (w : WallClock) : ofDateTime w.date ⟨0, 0, 0, 0⟩ = w.startOfDay := by
  simp [ofDateTime, date, startOfDay, Date.number_ofNumber]

theorem date_bounds (w : WallClock) : w.date.month ≤ 12 ∧ w.date.day ≤ 31 :=
  Date.ofNumber_bounds _

theorem timeOfDay_bounds (hw : w.nanos < nanosPerSecond) :
    w.timeOfDay.hour < 24 ∧ w.timeOfDay.minute < 60 ∧ w.timeOfDay.second < 60 := by
  have hleap : w.nanos / nanosPerSecond = 0 := Nat.div_eq_of_lt hw
  simp only [timeOfDay, hleap, secondsPerDay]
  omega

/-! ## Readings and what they show -/

/-- Whether a day has the time of a reading: leap seconds come last in their minutes. -/
def HasTime (w : WallClock) : Prop :=
  w.nanos < nanosPerSecond ∨ w.nanos < 2 * nanosPerSecond ∧ w.seconds % 60 = 59

instance (w : WallClock) : Decidable w.HasTime := by
  unfold HasTime
  infer_instance

/-- Whether a reading is one of a date and a time that exist. -/
def Exists (w : WallClock) : Prop := w.Kept ∧ w.HasTime

instance (w : WallClock) : Decidable w.Exists := by
  unfold Exists
  infer_instance

/-- A reading is outside of leap seconds, or it is in one, after the last second of a minute. -/
theorem nanos_cases (hw : w.HasTime) :
    w.nanos / nanosPerSecond = 0 ∧ w.nanos % nanosPerSecond = w.nanos ∨
      w.nanos / nanosPerSecond = 1 ∧ w.nanos % nanosPerSecond + nanosPerSecond = w.nanos ∧
        w.seconds % 60 = 59 := by
  unfold HasTime at hw
  unfold nanosPerSecond at *
  omega

/-- A reading is the one at the date and the time that it shows. -/
theorem ofDateTime_date_timeOfDay (hw : w.HasTime) : ofDateTime w.date w.timeOfDay = w := by
  obtain ⟨seconds, nanos⟩ := w
  rcases nanos_cases hw with ⟨hleap, hnanos⟩ | ⟨hleap, hnanos, hlast⟩
  · have hsecond : (seconds % secondsPerDay).toNat % 60 / 60 = 0 := by omega
    simp only [ofDateTime, date, timeOfDay, Date.number_ofNumber, mk.injEq] at hleap hnanos ⊢
    simp only [hleap, hnanos, Nat.add_zero, hsecond, Nat.zero_mul, Nat.sub_zero, and_true]
    unfold secondsPerDay
    omega
  · have hlast' : (seconds % secondsPerDay).toNat % 60 = 59 := by
      simp only at hlast
      unfold secondsPerDay
      omega
    simp only [ofDateTime, date, timeOfDay, Date.number_ofNumber, mk.injEq] at hleap hnanos ⊢
    simp only [hleap, hlast', Nat.reduceAdd, Nat.reduceDiv, Nat.one_mul, Nat.reduceSub, hnanos,
      and_true]
    unfold secondsPerDay at *
    omega

/-- The day of a reading at a date and a time, and the second of that day. -/
theorem seconds_ofDateTime (d : Date) (ht : t.Exists) :
    (ofDateTime d t).seconds / secondsPerDay = d.number ∧
      (ofDateTime d t).seconds % secondsPerDay =
        (3600 * t.hour + 60 * t.minute + (t.second - t.second / 60) : Nat) := by
  obtain ⟨hhour, hminute, hsecond, -⟩ := ht
  simp only [ofDateTime, secondsPerDay]
  omega

/-- A reading at a date shows that date. -/
theorem date_ofDateTime (hd : d.IsDay) (ht : t.Exists) : (ofDateTime d t).date = d := by
  rw [date, (seconds_ofDateTime d ht).1, Date.ofNumber_number hd]

/-- A reading at a time shows that time. -/
theorem timeOfDay_ofDateTime (ht : t.Exists) : (ofDateTime d t).timeOfDay = t := by
  have hday := (seconds_ofDateTime d ht).2
  obtain ⟨hour, minute, second, nanos⟩ := t
  obtain ⟨hhour, hminute, hsecond, hnanos⟩ := ht
  simp only at hday hhour hminute hsecond hnanos
  have hleap : (nanos + second / 60 * nanosPerSecond) / nanosPerSecond = second / 60 := by
    rw [Nat.add_mul_div_right _ _ (by decide), Nat.div_eq_of_lt hnanos, Nat.zero_add]
  have hrest : (nanos + second / 60 * nanosPerSecond) % nanosPerSecond = nanos := by
    rw [Nat.add_mul_mod_self_right, Nat.mod_eq_of_lt hnanos]
  have hfull : second - second / 60 ≤ 59 := by omega
  have hback : second - second / 60 + second / 60 = second := by omega
  rw [timeOfDay, hday]
  simp only [ofDateTime, hleap, hrest, Int.toNat_natCast, TimeOfDay.mk.injEq, and_true]
  generalize second - second / 60 = full at *
  omega

theorem hasTime_ofDateTime (ht : t.Exists) : (ofDateTime d t).HasTime := by
  obtain ⟨-, -, hsecond, hnanos⟩ := ht
  simp only [HasTime, ofDateTime, secondsPerDay]
  rcases Nat.lt_or_eq_of_le hsecond with hlt | heq
  · left
    rw [Nat.div_eq_of_lt hlt]
    omega
  · right
    rw [heq]
    omega

theorem timeOfDay_exists (hw : w.HasTime) : w.timeOfDay.Exists := by
  have hlow : 0 ≤ w.seconds % secondsPerDay := Int.emod_nonneg _ (by decide)
  have hhigh : w.seconds % secondsPerDay < secondsPerDay := Int.emod_lt_of_pos _ (by decide)
  refine ⟨?_, Nat.mod_lt _ (by decide), ?_, Nat.mod_lt _ (by decide)⟩
  · simp only [timeOfDay]
    unfold secondsPerDay at *
    omega
  · rcases nanos_cases hw with ⟨hleap, -⟩ | ⟨hleap, -⟩
    · simp only [timeOfDay, hleap]
      omega
    · simp only [timeOfDay, hleap]
      omega

/-- A reading is kept exactly if its date is in the years that dates are kept for. -/
theorem kept_iff : w.Kept ↔ Date.firstYear ≤ w.date.year ∧ w.date.year ≤ Date.lastYear := by
  have hday := Date.isDay_ofNumber (w.seconds / secondsPerDay)
  have hlast : w.date.year ≤ Date.lastYear ↔ ¬Date.lastYear + 1 ≤ w.date.year := by omega
  rw [hlast, date, Date.le_year_iff hday, Date.le_year_iff hday, Date.number_ofNumber, Kept]
  unfold secondsPerDay
  omega

/-- The readings that exist are those at a date and a time that exist. -/
theorem exists_iff : w.Exists ↔ ∃ d t, d.Exists ∧ t.Exists ∧ ofDateTime d t = w := by
  constructor
  · rintro ⟨hkept, htime⟩
    obtain ⟨hfirst, hlast⟩ := kept_iff.mp hkept
    exact ⟨w.date, w.timeOfDay, ⟨hfirst, hlast, Date.isDay_ofNumber _⟩, timeOfDay_exists htime,
      ofDateTime_date_timeOfDay htime⟩
  · rintro ⟨d, t, hd, ht, rfl⟩
    obtain ⟨hfirst, hlast, hday⟩ := Date.exists_iff.mp hd
    refine ⟨kept_iff.mpr ?_, hasTime_ofDateTime ht⟩
    rw [date_ofDateTime hday ht]
    exact ⟨hfirst, hlast⟩

end WallClock

end SearchComposer.Time
