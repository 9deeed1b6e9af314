import SearchComposer.Time.Instant
import SearchComposer.Text.Blank
import SearchComposer.Text.Numeral

/-!
# Written dates and times

A reading is written `2020-01-02T12:10:40`, with three, six or nine digits of a fraction if it has
one, and an instant as its reading in UTC with a `Z`. Years outside of 0 to 9999 have a sign.

Reading is more liberal: blanks may stand before numbers and signs, numbers may have fewer digits,
and an instant may be given with any offset from UTC of less than a day.
-/

namespace SearchComposer.Time

open Text (isBlank isDigit trimStart padded)

/-! ## Writing -/

/-- A year: four digits, with a sign if it is not one of 0 to 9999. -/
def yearText (year : Int) : List Char :=
  if 0 ≤ year ∧ year ≤ 9999 then padded 4 year.toNat
  else (if year < 0 then '-' else '+') :: padded 4 year.natAbs

/-- A fraction of a second in the fewest groups of three digits that lose nothing. -/
def fractionText (nanos : Nat) : List Char :=
  if nanos = 0 then []
  else if nanos % nanosPerMilli = 0 then '.' :: padded 3 (nanos / nanosPerMilli)
  else if nanos % nanosPerMicro = 0 then '.' :: padded 6 (nanos / nanosPerMicro)
  else '.' :: padded 9 nanos

/-- A date. -/
def Date.text (d : Date) : List Char :=
  yearText d.year ++ '-' :: padded 2 d.month ++ '-' :: padded 2 d.day

/-- A time of day in full seconds. -/
def TimeOfDay.text (t : TimeOfDay) : List Char :=
  padded 2 t.hour ++ ':' :: padded 2 t.minute ++ ':' :: padded 2 t.second

/-- A reading. -/
def WallClock.text (w : WallClock) : List Char :=
  w.date.text ++ 'T' :: w.timeOfDay.text ++ fractionText w.timeOfDay.nanos

/-- An instant. -/
def Instant.text (i : Instant) : String :=
  String.ofList (i.toUtc.text ++ ['Z'])

/-! ## Reading -/

/-- Reads a number of at least one and at most `width` digits. -/
def number? (width : Nat) (cs : List Char) : Option (Nat × List Char) :=
  let digits := (cs.take width).takeWhile isDigit
  (Text.value? digits).map fun n => (n, cs.drop digits.length)

/-- Reads a character. -/
def sign? (c : Char) : List Char → Option (List Char)
  | d :: rest => if d = c then some rest else none
  | [] => none

/-- Reads a year: up to four digits, or a sign and any number of them. -/
def year? : List Char → Option (Int × List Char)
  | '+' :: cs => (number? cs.length cs).map fun (n, rest) => ((n : Int), rest)
  | '-' :: cs => (number? cs.length cs).map fun (n, rest) => (-(n : Int), rest)
  | cs => (number? 4 cs).map fun (n, rest) => ((n : Int), rest)

/-- Reads a sign and a number of up to two digits, with blanks before both. -/
def part? (c : Char) (cs : List Char) : Option (Nat × List Char) := do
  let cs ← sign? c (trimStart cs)
  number? 2 (trimStart cs)

/-- Reads a date. -/
def date? (cs : List Char) : Option (Date × List Char) := do
  let (year, cs) ← year? (trimStart cs)
  let (month, cs) ← part? '-' cs
  let (day, cs) ← part? '-' cs
  return (⟨year, month, day⟩, cs)

/-- The nanoseconds that the digits of a fraction of a second stand for. The first nine of them
count. -/
def nanosOf (digits : List Char) : Nat :=
  Text.value ((digits ++ List.replicate 9 '0').take 9)

/-- Reads a fraction of a second, if there is one. -/
def fraction? : List Char → Option (Nat × List Char)
  | '.' :: cs =>
    let digits := cs.takeWhile isDigit
    if digits.isEmpty then none else some (nanosOf digits, cs.dropWhile isDigit)
  | cs => some (0, cs)

/-- Reads a time of day. -/
def timeOfDay? (cs : List Char) : Option (TimeOfDay × List Char) := do
  let (hour, cs) ← number? 2 (trimStart cs)
  let (minute, cs) ← part? ':' cs
  let (second, cs) ← part? ':' cs
  let (nanos, cs) ← fraction? cs
  return (⟨hour, minute, second, nanos⟩, cs)

/-- Reads a date and a time, if both exist, and what `between?` reads between them. -/
def dateTime? (between? : List Char → Option (List Char)) (cs : List Char) :
    Option (WallClock × List Char) := do
  let (d, cs) ← date? cs
  let cs ← between? cs
  let (t, cs) ← timeOfDay? cs
  guard (d.Exists ∧ t.Exists)
  return (.ofDateTime d t, cs)

/-- Reads two digits. -/
def twoDigits? : List Char → Option (Nat × List Char)
  | a :: b :: rest => (Text.value? [a, b]).map fun n => (n, rest)
  | _ => none

/-- Reads an offset after its sign: two digits of hours and two of minutes, which colons and blanks
may stand between. -/
def offsetAmount? (cs : List Char) : Option (Int × List Char) := do
  let (hours, cs) ← twoDigits? cs
  let (minutes, cs) ← twoDigits? (cs.dropWhile fun c => c = ':' || isBlank c)
  let seconds : Int := 3600 * hours + 60 * minutes
  guard (minutes < 60 ∧ seconds < secondsPerDay)
  return (seconds, cs)

/-- Reads an offset from UTC: `Z` or `UTC` in letters of either case, or a sign and an amount. -/
def offset? (cs : List Char) : Option (Int × List Char) :=
  if (cs.take 3).map Char.toLower = "utc".toList then some (0, cs.drop 3)
  else
    match cs with
    | 'Z' :: rest => some (0, rest)
    | 'z' :: rest => some (0, rest)
    | '+' :: rest => offsetAmount? rest
    | '-' :: rest => (offsetAmount? rest).map fun (n, cs) => (-n, cs)
    | '−' :: rest => (offsetAmount? rest).map fun (n, cs) => (-n, cs)
    | _ => none

/-- Reads a written instant. Its time follows the date after a `T` of either case or one space. -/
def Instant.read? (s : String) : Option Instant := do
  let between? (cs : List Char) := sign? 'T' cs <|> sign? 't' cs <|> sign? ' ' cs
  let (w, cs) ← dateTime? between? s.toList
  let (ahead, cs) ← offset? (trimStart cs)
  guard (trimStart cs = [])
  Instant.ofClock? ahead w

/-- Reads a written reading of a wall clock. Its time follows the date after a `T`, which blanks may
stand before. -/
def WallClock.read? (s : String) : Option WallClock := do
  let (w, cs) ← dateTime? (fun cs => sign? 'T' (trimStart cs)) s.toList
  guard (trimStart cs = [])
  return w

end SearchComposer.Time
