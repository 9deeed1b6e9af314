import SearchComposer.Number.Shortest

/-!
# Numbers of documents

A number in a document is an integer or a floating-point number, and stays what it is: `1` and
`1.0` are written differently.
-/

namespace SearchComposer

/-- A number in a document. -/
inductive Number where
  /-- An integer. -/
  | int (n : Int)
  /-- A floating-point number. -/
  | float (x : Number.Binary64)
  deriving DecidableEq, Repr

namespace Number

/-- The least power of ten of a first digit that is written without an exponent. -/
def leastPositional : Int := -5

/-- The greatest power of ten of a first digit that is written without an exponent. -/
def greatestPositional : Int := 15

/-- Significant digits, the first of which stands for the given power of ten, written with a point.
There is at least one digit on either side of it. -/
def positional (digits : List Char) (exponent : Int) : List Char :=
  if exponent < 0 then
    "0.".toList ++ List.replicate (-exponent - 1).toNat '0' ++ digits
  else
    let whole := exponent.toNat + 1
    let fraction := digits.drop whole
    digits.take whole ++ List.replicate (whole - digits.length) '0' ++
      '.' :: (if fraction.isEmpty then ['0'] else fraction)

/-- Significant digits written as one digit, a point before the others if there are any, and a
signed exponent. -/
def exponential (digits : List Char) (exponent : Int) : List Char :=
  let fraction := digits.drop 1
  let sign := if exponent < 0 then '-' else '+'
  digits.take 1 ++ (if fraction.isEmpty then [] else '.' :: fraction) ++
    'e' :: sign :: Nat.toDigits 10 exponent.natAbs

/-- The text of a positive finite number. -/
def magnitudeText (significand : Nat) (exponent : Int) : List Char :=
  if significand = 0 then "0.0".toList
  else
    let s := Scientific.shortest significand exponent
    let digits := s.significant
    if leastPositional ≤ s.exponent ∧ s.exponent ≤ greatestPositional then
      positional digits s.exponent
    else
      exponential digits s.exponent

/-- The text of a floating-point number. Numbers that are not finite have no numeral and are
written as `null`. -/
def Binary64.text : Binary64 → String
  | .finite negative significand exponent =>
    String.ofList ((if negative then ['-'] else []) ++ magnitudeText significand exponent)
  | _ => "null"

/-- The text of a number. -/
def text : Number → String
  | .int n => toString n
  | .float x => x.text

end Number

end SearchComposer
