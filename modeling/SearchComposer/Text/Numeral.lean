/-!
# Decimal numerals

Runs of the ASCII digits: the number they denote, and numbers written with at least a given count
of digits.
-/

namespace SearchComposer.Text

/-- Whether a character is one of the digits `0` to `9`. -/
def isDigit (c : Char) : Bool :=
  '0' ≤ c && c ≤ '9'

/-- The value of a digit; of a character that is no digit, the distance from `0`. -/
def digitValue (c : Char) : Nat :=
  c.toNat - '0'.toNat

/-- The number that digits denote, most significant digit first, after `lead` was read already. -/
def valueFrom (lead : Nat) (digits : List Char) : Nat :=
  digits.foldl (fun n c => 10 * n + digitValue c) lead

/-- The number that digits denote, most significant digit first. -/
def value (digits : List Char) : Nat :=
  valueFrom 0 digits

/-- The number that a nonempty run of digits denotes; nothing for any other text. -/
def value? (digits : List Char) : Option Nat :=
  if digits.isEmpty || !digits.all isDigit then none else some (value digits)

/-- A number written with `width` digits, or with as many as it needs if that is more. -/
def padded (width n : Nat) : List Char :=
  let digits := Nat.toDigits 10 n
  List.replicate (width - digits.length) '0' ++ digits

/-- Zeros in front do not change what digits denote. -/
theorem value_replicate_zero_append (k : Nat) (cs : List Char) :
    value (List.replicate k '0' ++ cs) = value cs := by
  induction k with
  | zero => rfl
  | succ k ih => simpa [value, valueFrom, List.replicate_succ, digitValue] using ih

end SearchComposer.Text
