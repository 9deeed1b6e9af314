import SearchComposer.Proofs.Text.Numeral
import SearchComposer.Proofs.Time.Calendar
import SearchComposer.Time.Written

/-!
# What is written says which day and second it is

A written date or time is read from its end: the fields after the year have two digits each, so the
last characters give the last field and the sign before it, and what is left is shorter by one field.
The year comes last and may have any number of digits.
-/

namespace SearchComposer.Time

open Text (padded isDigit padded_injective length_padded cons_ne_padded)

/-- A sign and the field of two digits after it can be told from what they end. -/
theorem append_field_inj {xs ys : List Char} {c c' : Char} {m n : Nat} (hm : m < 100)
    (hn : n < 100) (h : xs ++ c :: padded 2 m = ys ++ c' :: padded 2 n) :
    xs = ys ∧ c = c' ∧ m = n := by
  have hlength : (c :: padded 2 m).length = (c' :: padded 2 n).length := by
    rw [List.length_cons, List.length_cons, length_padded (by decide) (by omega),
      length_padded (by decide) (by omega)]
  obtain ⟨hfront, hfield⟩ := List.append_inj' h hlength
  obtain ⟨hsign, hdigits⟩ := List.cons.inj hfield
  exact ⟨hfront, hsign, padded_injective 2 hdigits⟩

theorem yearText_injective : Function.Injective yearText := by
  intro y z h
  have hplus : isDigit '+' = false := by decide
  have hminus : isDigit '-' = false := by decide
  unfold yearText at h
  by_cases hy : 0 ≤ y ∧ y ≤ 9999 <;> by_cases hz : 0 ≤ z ∧ z ≤ 9999
  · rw [if_pos hy, if_pos hz] at h
    have hnat := padded_injective 4 h
    omega
  · rw [if_pos hy, if_neg hz] at h
    split at h
    · exact absurd h.symm (cons_ne_padded hminus _)
    · exact absurd h.symm (cons_ne_padded hplus _)
  · rw [if_neg hy, if_pos hz] at h
    split at h
    · exact absurd h (cons_ne_padded hminus _)
    · exact absurd h (cons_ne_padded hplus _)
  · rw [if_neg hy, if_neg hz] at h
    obtain ⟨hsign, hdigits⟩ := List.cons.inj h
    have habs := padded_injective 4 hdigits
    have hsides : y < 0 ↔ z < 0 := by
      by_cases hneg : y < 0 <;> by_cases hneg' : z < 0 <;> simp [hneg, hneg'] at hsign ⊢
    omega

theorem Date.text_inj {a b : Date} (ha : a.month ≤ 12 ∧ a.day ≤ 31)
    (hb : b.month ≤ 12 ∧ b.day ≤ 31) : a.text = b.text ↔ a = b := by
  constructor
  · intro h
    obtain ⟨hmonths, -, hday⟩ := append_field_inj (by omega) (by omega) h
    obtain ⟨hyears, -, hmonth⟩ := append_field_inj (by omega) (by omega) hmonths
    have hyear := yearText_injective hyears
    cases a
    cases b
    simp only at hyear hmonth hday
    rw [hyear, hmonth, hday]
  · rintro rfl
    rfl

namespace WallClock

variable {w v : WallClock}

/-- Equal dates are written for the readings of one day only. -/
theorem date_text_inj :
    w.date.text = v.date.text ↔ w.seconds / secondsPerDay = v.seconds / secondsPerDay := by
  rw [Date.text_inj w.date_bounds v.date_bounds]
  constructor
  · intro h
    have hnumber := congrArg Date.number h
    rwa [date, date, Date.number_ofNumber, Date.number_ofNumber] at hnumber
  · intro h
    rw [date, date, h]

/-- Equal dates with times are written for the readings of one second only. -/
theorem dateTime_text_inj (hw : w.nanos < nanosPerSecond) (hv : v.nanos < nanosPerSecond) :
    w.date.text ++ ' ' :: w.timeOfDay.text = v.date.text ++ ' ' :: v.timeOfDay.text ↔
      w.seconds = v.seconds := by
  constructor
  · intro h
    obtain ⟨hwh, hwm, hws⟩ := timeOfDay_bounds hw
    obtain ⟨hvh, hvm, hvs⟩ := timeOfDay_bounds hv
    simp only [TimeOfDay.text, ← List.cons_append, ← List.append_assoc] at h
    obtain ⟨h, -, hsecond⟩ := append_field_inj (by omega) (by omega) h
    obtain ⟨h, -, hminute⟩ := append_field_inj (by omega) (by omega) h
    obtain ⟨hdates, -, hhour⟩ := append_field_inj (by omega) (by omega) h
    have hdate := (Date.text_inj w.date_bounds v.date_bounds).mp hdates
    rw [← ofDateTime_date_timeOfDay (.inl hw), ← ofDateTime_date_timeOfDay (.inl hv)]
    simp only [ofDateTime, hdate, hhour, hminute, hsecond]
  · intro h
    have hleap : w.nanos / nanosPerSecond = v.nanos / nanosPerSecond := by
      rw [Nat.div_eq_of_lt hw, Nat.div_eq_of_lt hv]
    simp only [date, timeOfDay, TimeOfDay.text, h, hleap]

/-- A written date ends with a day, a written time with a second. -/
theorem date_text_ne_dateTime_text (hv : v.nanos < nanosPerSecond) :
    w.date.text ≠ v.date.text ++ ' ' :: v.timeOfDay.text := by
  intro h
  have hday := w.date_bounds.2
  have hsecond := (timeOfDay_bounds hv).2.2
  simp only [TimeOfDay.text, ← List.cons_append, ← List.append_assoc] at h
  obtain ⟨-, hsign, -⟩ := append_field_inj (by omega) (by omega) h
  exact absurd hsign (by decide)

end WallClock

end SearchComposer.Time
