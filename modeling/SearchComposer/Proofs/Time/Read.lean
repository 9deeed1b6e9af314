import SearchComposer.Proofs.Text.Numeral
import SearchComposer.Proofs.Time.Zone
import SearchComposer.Time.Written

/-!
# What is written is read back

Each part of a written instant is read up to where the next part starts: a number up to a character
that is no digit or up to its full width, a fraction up to the `Z`. So an instant is read back from
its text, with leap seconds and with years of any sign and width, as long as its date and its time in
UTC exist. And these exist for all instants that are read, as offsets from UTC are in full minutes.
-/

namespace SearchComposer.Time

open Text (isBlank isDigit trimStart padded value value?)

variable {rest : List Char} {c : Char}

/-! ## Numbers -/

/-- Whether a text does not go on with a digit. -/
def Stops (rest : List Char) : Prop := ∀ c ∈ rest.head?, isDigit c = false

theorem trimStart_cons (h : isBlank c = false) : trimStart (c :: rest) = c :: rest := by
  simp [trimStart, h]

/-- Digits are read up to the width, or up to where they stop. -/
theorem number?_append {width : Nat} {digits : List Char} (hne : digits ≠ [])
    (hdigits : ∀ c ∈ digits, isDigit c = true) (hwidth : digits.length ≤ width)
    (hrest : digits.length = width ∨ Stops rest) :
    number? width (digits ++ rest) = some (value digits, rest) := by
  have htail : (rest.take (width - digits.length)).takeWhile isDigit = [] := by
    rcases hrest with hfull | hstops
    · simp [hfull]
    · cases rest with
      | nil => simp
      | cons c rest =>
        have hc : isDigit c = false := hstops c rfl
        cases width - digits.length with
        | zero => simp
        | succ n => simp [hc]
  have htake : ((digits ++ rest).take width).takeWhile isDigit = digits := by
    rw [List.take_append, List.take_of_length_le hwidth, List.takeWhile_append_of_pos hdigits, htail,
      List.append_nil]
  rw [number?, htake, Text.value?_eq_some hne hdigits, Option.map_some, List.drop_left]

theorem number?_padded {width n : Nat} (hwidth : 0 < width) (hn : n < 10 ^ width)
    (rest : List Char) : number? width (padded width n ++ rest) = some (n, rest) := by
  have hlength := Text.length_padded hwidth hn
  rw [number?_append (Text.padded_ne_nil width n) (fun _ => Text.isDigit_of_mem_padded)
    (Nat.le_of_eq hlength) (.inl hlength), Text.value_padded]

theorem isBlank_of_isDigit (h : isDigit c = true) : isBlank c = false := by
  unfold isDigit at h
  simp only [Bool.and_eq_true, decide_eq_true_eq] at h
  obtain ⟨hlow, hhigh⟩ := h
  have hlow' : 48 ≤ c.val.toNat := UInt32.le_iff_toNat_le.mp (Char.le_def.mp hlow)
  have hhigh' : c.val.toNat ≤ 57 := UInt32.le_iff_toNat_le.mp (Char.le_def.mp hhigh)
  simp only [isBlank, Bool.or_eq_false_iff, Bool.and_eq_false_iff, decide_eq_false_iff_not,
    beq_eq_false_iff_ne]
  omega

theorem trimStart_padded (width n : Nat) (rest : List Char) :
    trimStart (padded width n ++ rest) = padded width n ++ rest := by
  cases hdigits : padded width n with
  | nil => exact absurd hdigits (Text.padded_ne_nil width n)
  | cons c digits =>
    have hc : isDigit c = true := Text.isDigit_of_mem_padded (hdigits ▸ List.mem_cons_self)
    exact trimStart_cons (isBlank_of_isDigit hc)

/-! ## Dates and times -/

theorem part?_append {n : Nat} (hc : isBlank c = false) (hn : n < 100) (rest : List Char) :
    part? c (c :: padded 2 n ++ rest) = some (n, rest) := by
  have hsign : sign? c (c :: (padded 2 n ++ rest)) = some (padded 2 n ++ rest) := if_pos rfl
  rw [part?, List.cons_append, trimStart_cons hc, hsign]
  simp only [Option.bind_eq_bind, Option.bind_some]
  rw [trimStart_padded, number?_padded (by decide) hn]

/-- Without a sign a year has four digits at most. -/
theorem year?_of_isDigit (h : isDigit c = true) :
    year? (c :: rest) = (number? 4 (c :: rest)).map fun (n, rest) => ((n : Int), rest) := by
  unfold year?
  split
  · next heq =>
    obtain ⟨rfl, -⟩ := List.cons.inj heq
    exact absurd h (by decide)
  · next heq =>
    obtain ⟨rfl, -⟩ := List.cons.inj heq
    exact absurd h (by decide)
  · rfl

/-- A year is read up to the sign that follows it. -/
theorem year?_append (y : Int) (rest : List Char) :
    year? (yearText y ++ '-' :: rest) = some (y, '-' :: rest) := by
  have hstops : Stops ('-' :: rest) := by
    intro c hc
    obtain rfl : '-' = c := by simpa using hc
    decide
  unfold yearText
  split
  · next hshort =>
    have hwidth : y.toNat < 10 ^ 4 := by omega
    have hnumber := number?_padded (by decide) hwidth ('-' :: rest)
    cases hdigits : padded 4 y.toNat with
    | nil => exact absurd hdigits (Text.padded_ne_nil 4 y.toNat)
    | cons c digits =>
      have hc : isDigit c = true := Text.isDigit_of_mem_padded (hdigits ▸ List.mem_cons_self)
      rw [hdigits, List.cons_append] at hnumber
      rw [List.cons_append, year?_of_isDigit hc, hnumber]
      simp only [Option.map_some, Option.some.injEq, Prod.mk.injEq, and_true]
      omega
  · next hlong =>
    have hnumber := number?_append (Text.padded_ne_nil 4 y.natAbs)
      (fun _ => Text.isDigit_of_mem_padded) (Nat.le_add_right _ ('-' :: rest).length) (.inr hstops)
    rw [Text.value_padded, ← List.length_append] at hnumber
    by_cases hneg : y < 0
    · rw [if_pos hneg, List.cons_append, year?, hnumber]
      simp only [Option.map_some, Option.some.injEq, Prod.mk.injEq, and_true]
      omega
    · rw [if_neg hneg, List.cons_append, year?, hnumber]
      simp only [Option.map_some, Option.some.injEq, Prod.mk.injEq, and_true]
      omega

theorem trimStart_yearText (y : Int) (rest : List Char) :
    trimStart (yearText y ++ rest) = yearText y ++ rest := by
  unfold yearText
  split
  · exact trimStart_padded _ _ _
  · split <;> exact trimStart_cons (by decide)

theorem date?_append {d : Date} (hmonth : d.month < 100) (hday : d.day < 100)
    (rest : List Char) : date? (d.text ++ rest) = some (d, rest) := by
  have htext : d.text ++ rest =
      yearText d.year ++ '-' :: (padded 2 d.month ++ ('-' :: padded 2 d.day ++ rest)) := by
    simp [Date.text]
  have hmonths := part?_append (c := '-') (by decide) hmonth ('-' :: padded 2 d.day ++ rest)
  have hdays := part?_append (c := '-') (by decide) hday rest
  rw [List.cons_append] at hmonths
  rw [date?, htext, trimStart_yearText, year?_append]
  simp only [Option.bind_eq_bind, Option.bind_some, hmonths, hdays, Option.pure_def]

/-! ## Fractions -/

/-- The digits of a fraction count from the first one on. -/
theorem nanosOf_eq {digits : List Char} (h : digits.length ≤ 9) :
    nanosOf digits = value digits * 10 ^ (9 - digits.length) := by
  rw [nanosOf, List.take_append, List.take_of_length_le h, List.take_replicate,
    Nat.min_eq_left (Nat.sub_le 9 digits.length), Text.value_append_replicate_zero]

/-- Digits after a point are read up to where they stop. -/
theorem fraction?_append {digits : List Char} (hne : digits ≠ [])
    (hdigits : ∀ c ∈ digits, isDigit c = true) (hrest : Stops rest) :
    fraction? ('.' :: digits ++ rest) = some (nanosOf digits, rest) := by
  have hnone : rest.takeWhile isDigit = [] ∧ rest.dropWhile isDigit = rest := by
    cases rest with
    | nil => exact ⟨rfl, rfl⟩
    | cons c rest =>
      have hc : isDigit c = false := hrest c rfl
      simp [hc]
  have htake : (digits ++ rest).takeWhile isDigit = digits := by
    rw [List.takeWhile_append_of_pos hdigits, hnone.1, List.append_nil]
  have hdrop : (digits ++ rest).dropWhile isDigit = rest := by
    rw [List.dropWhile_append_of_pos hdigits, hnone.2]
  rw [List.cons_append, fraction?, htake, hdrop, if_neg (by simpa using hne)]

/-- Groups of three digits are left out of a fraction only if they are zeros. -/
theorem fraction?_fractionText {nanos : Nat} (h : nanos < nanosPerSecond) (hrest : Stops rest)
    (hpoint : rest.head? ≠ some '.') : fraction? (fractionText nanos ++ rest) = some (nanos, rest) := by
  have hread (width n : Nat) (hwidth : 0 < width) (hle : width ≤ 9) (hn : n < 10 ^ width) :
      fraction? ('.' :: padded width n ++ rest) = some (n * 10 ^ (9 - width), rest) := by
    have hlength := Text.length_padded hwidth hn
    rw [fraction?_append (Text.padded_ne_nil width n) (fun _ => Text.isDigit_of_mem_padded) hrest,
      nanosOf_eq (by omega), hlength, Text.value_padded]
  unfold nanosPerSecond at h
  unfold fractionText nanosPerMilli nanosPerMicro
  split
  · next hzero =>
    rw [List.nil_append, hzero]
    unfold fraction?
    split
    · exact absurd rfl hpoint
    · rfl
  · split
    · next hmilli =>
      rw [hread 3 (nanos / 1000000) (by decide) (by decide) (by omega)]
      simp only [Option.some.injEq, Prod.mk.injEq, and_true]
      omega
    · split
      · next hmicro =>
        rw [hread 6 (nanos / 1000) (by decide) (by decide) (by omega)]
        simp only [Option.some.injEq, Prod.mk.injEq, and_true]
        omega
      · rw [hread 9 nanos (by decide) (by decide) h]
        simp

/-! ## Instants -/

theorem timeOfDay?_append {t : TimeOfDay} (ht : t.Exists) (hrest : Stops rest)
    (hpoint : rest.head? ≠ some '.') :
    timeOfDay? (t.text ++ (fractionText t.nanos ++ rest)) = some (t, rest) := by
  obtain ⟨hhour, hminute, hsecond, hnanos⟩ := ht
  have htext : t.text ++ (fractionText t.nanos ++ rest) =
      padded 2 t.hour ++ (':' :: (padded 2 t.minute ++
        (':' :: (padded 2 t.second ++ (fractionText t.nanos ++ rest))))) := by
    simp [TimeOfDay.text]
  have hwidth : t.hour < 10 ^ 2 := by omega
  have hhours := number?_padded (by decide) hwidth
    (':' :: (padded 2 t.minute ++ (':' :: (padded 2 t.second ++ (fractionText t.nanos ++ rest)))))
  have hminutes := part?_append (c := ':') (n := t.minute) (by decide) (by omega)
    (':' :: (padded 2 t.second ++ (fractionText t.nanos ++ rest)))
  have hseconds := part?_append (c := ':') (n := t.second) (by decide) (by omega)
    (fractionText t.nanos ++ rest)
  rw [List.cons_append] at hminutes hseconds
  rw [timeOfDay?, htext, trimStart_padded, hhours]
  simp only [Option.bind_eq_bind, Option.bind_some, hminutes, hseconds,
    fraction?_fractionText hnanos hrest hpoint, Option.pure_def]

theorem dateTime?_append {w : WallClock} (hw : w.Exists) (hrest : Stops rest)
    (hpoint : rest.head? ≠ some '.') {between? : List Char → Option (List Char)}
    (hbetween : ∀ cs, between? ('T' :: cs) = some cs) :
    dateTime? between? (w.text ++ rest) = some (w, rest) := by
  obtain ⟨hkept, htime⟩ := hw
  obtain ⟨hfirst, hlast⟩ := WallClock.kept_iff.mp hkept
  obtain ⟨hmonth, hday⟩ := w.date_bounds
  have hdate : w.date.Exists := ⟨hfirst, hlast, Date.isDay_ofNumber _⟩
  have htod := WallClock.timeOfDay_exists htime
  have htext : w.text ++ rest =
      w.date.text ++ 'T' :: (w.timeOfDay.text ++ (fractionText w.timeOfDay.nanos ++ rest)) := by
    simp [WallClock.text]
  rw [dateTime?, htext, date?_append (by omega) (by omega)]
  simp only [Option.bind_eq_bind, Option.bind_some, hbetween,
    timeOfDay?_append htod hrest hpoint, guard, hdate, htod, and_self, if_true, Option.pure_def,
    WallClock.ofDateTime_date_timeOfDay htime]

/-- An instant that exists is read back from its text. -/
theorem Instant.read?_text {i : Instant} (hi : i.toUtc.Exists) : Instant.read? i.text = some i := by
  have hstops : Stops ['Z'] := by
    intro c hc
    obtain rfl : 'Z' = c := by simpa using hc
    decide
  have hoffset : offset? (trimStart ['Z']) = some (0, []) := by decide
  have hclock : Instant.ofClock? 0 i.toUtc = some i :=
    Instant.ofClock?_eq_some_iff.mpr ⟨hi.1, by rw [Int.add_zero]; rfl⟩
  have hbetween (cs : List Char) :
      (sign? 'T' ('T' :: cs) <|> sign? 't' ('T' :: cs) <|> sign? ' ' ('T' :: cs)) = some cs := rfl
  rw [Instant.read?, Instant.text, String.toList_ofList,
    dateTime?_append hi hstops (by decide) hbetween]
  simp only [Option.bind_eq_bind, Option.bind_some, hoffset]
  exact hclock

/-! ## What is read exists -/

theorem exists_of_dateTime? {between? : List Char → Option (List Char)} {cs : List Char}
    {w : WallClock} (h : dateTime? between? cs = some (w, rest)) : w.Exists := by
  unfold dateTime? at h
  simp only [Option.bind_eq_bind, Option.bind_eq_some_iff, Option.guard_eq_some', Option.pure_def,
    Option.some.injEq, Prod.mk.injEq] at h
  obtain ⟨⟨d, _⟩, -, _, -, ⟨t, _⟩, -, _, ⟨hd, ht⟩, rfl, -⟩ := h
  exact WallClock.exists_iff.mpr ⟨d, t, hd, ht, rfl⟩

theorem minutes_of_offsetAmount? {cs : List Char} {ahead : Int}
    (h : offsetAmount? cs = some (ahead, rest)) : ahead % 60 = 0 := by
  unfold offsetAmount? at h
  simp only [Option.bind_eq_bind, Option.bind_eq_some_iff, Option.pure_def, Option.some.injEq,
    Prod.mk.injEq] at h
  obtain ⟨⟨hours, _⟩, -, ⟨minutes, _⟩, -, _, -, rfl, -⟩ := h
  omega

/-- Offsets are in full minutes. -/
theorem minutes_of_offset? {cs : List Char} {ahead : Int} (h : offset? cs = some (ahead, rest)) :
    ahead % 60 = 0 := by
  have hnegative {cs : List Char}
      (h : (offsetAmount? cs).map (fun e => (-e.1, e.2)) = some (ahead, rest)) :
      ahead % 60 = 0 := by
    obtain ⟨⟨n, _⟩, hn, heq⟩ := Option.map_eq_some_iff.mp h
    obtain ⟨rfl, -⟩ := Prod.mk.inj heq
    have hminutes := minutes_of_offsetAmount? hn
    omega
  unfold offset? at h
  split at h
  · cases h
    rfl
  · split at h
    · cases h
      rfl
    · cases h
      rfl
    · exact minutes_of_offsetAmount? h
    · exact hnegative h
    · exact hnegative h
    · cases h

/-- Every instant that is read exists. -/
theorem Instant.exists_of_read? {s : String} {i : Instant} (h : Instant.read? s = some i) :
    i.toUtc.Exists := by
  unfold Instant.read? at h
  simp only [Option.bind_eq_bind, Option.bind_eq_some_iff] at h
  obtain ⟨⟨w, _⟩, hw, ⟨ahead, _⟩, hahead, _, -, hi⟩ := h
  obtain ⟨hkept, rfl⟩ := Instant.ofClock?_eq_some_iff.mp hi
  have htime := (exists_of_dateTime? hw).2
  exact ⟨hkept, (WallClock.hasTime_iff_of_minutes (minutes_of_offset? hahead)).mp htime⟩

end SearchComposer.Time
