import SearchComposer.Number.Binary64
import SearchComposer.Text.Numeral

/-!
# Decimal literals

The text of a number: an optional sign, then digits with at most one point among or beside them and
an optional exponent, or the name of an infinity or of "not a number" in letters of either case.
`Binary64.ofText?` reads it and rounds the exact decimal value once.
-/

namespace SearchComposer.Number

open Text (isDigit)

/-- An unsigned decimal: its digits as a natural, to be multiplied by a power of ten. -/
structure Decimal where
  /-- All digits, without the point. -/
  digits : Nat
  /-- How many digits there were, leading zeros included. -/
  length : Nat
  /-- The power of ten. -/
  exponent : Int
  deriving DecidableEq, Repr

namespace Decimal

/-- The exponent that follows the digits: empty, or `e`, an optional sign and at least one digit. -/
def exponent? : List Char → Option Int
  | [] => some 0
  | e :: cs =>
    if e = 'e' ∨ e = 'E' then
      match cs with
      | '+' :: ds => (Text.value? ds).map Int.ofNat
      | '-' :: ds => (Text.value? ds).map fun n => -(n : Int)
      | ds => (Text.value? ds).map Int.ofNat
    else none

/-- Reads digits, a point and an exponent. There is at least one digit, before or after the
point. -/
def read? (cs : List Char) : Option Decimal :=
  let whole := cs.takeWhile isDigit
  let (fraction, tail) :=
    match cs.dropWhile isDigit with
    | '.' :: rest => (rest.takeWhile isDigit, rest.dropWhile isDigit)
    | rest => ([], rest)
  let digits := whole ++ fraction
  if digits.isEmpty then none
  else (exponent? tail).map fun e => ⟨Text.value digits, digits.length, e - fraction.length⟩

/-- Decimals from this power of ten on exceed every finite number of 64 bits. -/
def overflowing : Int := 310

/-- Decimals below this power of ten are nearer to zero than to any other number of 64 bits. -/
def vanishing : Int := -330

/-- The decimal with a sign, rounded to 64 bits. Powers of ten far outside of the format are not
computed. -/
def toBinary64 (negative : Bool) (d : Decimal) : Binary64 :=
  let magnitude : Int := d.length + d.exponent
  if d.digits = 0 then .zero negative
  else if magnitude < vanishing then .zero negative
  else if d.exponent > overflowing then .infinite negative
  else .ofRatio negative (d.digits * tenTo d.exponent.toNat) (tenTo (-d.exponent).toNat)

end Decimal

/-- The letter in lower case, if it is an ASCII letter. -/
def lowered (cs : List Char) : List Char :=
  cs.map Char.toLower

/-- Reads an unsigned literal and gives it a sign. -/
def Binary64.ofUnsigned? (negative : Bool) (cs : List Char) : Option Binary64 :=
  let name := lowered cs
  if name = "inf".toList ∨ name = "infinity".toList then some (.infinite negative)
  else if name = "nan".toList then some .nan
  else (Decimal.read? cs).map (Decimal.toBinary64 negative)

/-- Reads a literal that may have a sign. -/
def Binary64.ofText? (s : String) : Option Binary64 :=
  match s.toList with
  | '+' :: cs => ofUnsigned? false cs
  | '-' :: cs => ofUnsigned? true cs
  | cs => ofUnsigned? false cs

end SearchComposer.Number
