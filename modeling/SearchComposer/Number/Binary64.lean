import SearchComposer.Number.Power

/-!
# Binary floating-point numbers of 64 bits

A finite number is kept exactly, as a sign, a significand below `2 ^ 53` and a power of two; every
operation computes with exact naturals and rounds once, to the nearest number of the format and to
the even significand on a tie. No machine arithmetic is involved, so every result can be reasoned
about.
-/

namespace SearchComposer.Number

/-- A number of the format. -/
inductive Binary64 where
  /-- The number `significand * 2 ^ exponent`, with a minus sign if `negative`. Zero has a sign. -/
  | finite (negative : Bool) (significand : Nat) (exponent : Int)
  /-- An infinity. -/
  | infinite (negative : Bool)
  /-- Not a number. -/
  | nan
  deriving DecidableEq, Repr

namespace Binary64

/-- The least power of two of a finite number. -/
def minExponent : Int := -1074

/-- The greatest power of two of a finite number. -/
def maxExponent : Int := 971

/-- Zero with a sign. -/
def zero (negative : Bool) : Binary64 := .finite negative 0 minExponent

/-- The quotient rounded to the nearest natural, to the even one on a tie. -/
def divRound (num den : Nat) : Nat :=
  let q := num / den
  let r := num % den
  if 2 * r > den ∨ (2 * r = den ∧ q % 2 = 1) then q + 1 else q

/-- Numerator and denominator of `num / den` divided by `2 ^ exponent`. -/
def rescale (num den : Nat) (exponent : Int) : Nat × Nat :=
  (num * twoTo (-exponent).toNat, den * twoTo exponent.toNat)

/-- The power of two that gives the positive quotient `num / den` a significand of 53 bits, or the
least power if that is greater. -/
def exponentOf (num den : Nat) : Int :=
  let guess : Int := (Nat.log2 num : Int) - (Nat.log2 den : Int) - 53
  let (n, d) := rescale num den guess
  max minExponent (if n ≥ d * twoTo 53 then guess + 1 else guess)

/-- The quotient `num / den`, with a sign, rounded to the format. -/
def ofRatio (negative : Bool) (num den : Nat) : Binary64 :=
  if num = 0 then zero negative
  else
    let exponent := exponentOf num den
    let (n, d) := rescale num den exponent
    let significand := divRound n d
    let (significand, exponent) :=
      if significand = twoTo 53 then (twoTo 52, exponent + 1) else (significand, exponent)
    if exponent > maxExponent then .infinite negative else .finite negative significand exponent

/-- A natural rounded to the format. -/
def ofNat (n : Nat) : Binary64 := ofRatio false n 1

/-- The power of ten with a natural exponent, rounded to the format. -/
def powerOfTen (n : Nat) : Binary64 := ofNat (tenTo n)

/-- The number with the opposite sign. -/
def neg : Binary64 → Binary64
  | .finite s m e => .finite (!s) m e
  | .infinite s => .infinite (!s)
  | .nan => .nan

/-- The absolute value of a finite number as a quotient of naturals. -/
def ratio (significand : Nat) (exponent : Int) : Nat × Nat :=
  (significand * twoTo exponent.toNat, twoTo (-exponent).toNat)

/-- The product, rounded once. -/
def mul : Binary64 → Binary64 → Binary64
  | .finite s m e, .finite s' m' e' =>
    let (n, d) := ratio (m * m') (e + e')
    ofRatio (s != s') n d
  | .infinite s, .finite s' m' _ => if m' = 0 then .nan else .infinite (s != s')
  | .finite s m _, .infinite s' => if m = 0 then .nan else .infinite (s != s')
  | .infinite s, .infinite s' => .infinite (s != s')
  | .nan, _ => .nan
  | _, .nan => .nan

/-- The quotient, rounded once. -/
def div : Binary64 → Binary64 → Binary64
  | .finite s m e, .finite s' m' e' =>
    if m' = 0 then (if m = 0 then .nan else .infinite (s != s'))
    else
      let (n, d) := ratio m (e - e')
      ofRatio (s != s') n (d * m')
  | .infinite s, .finite s' _ _ => .infinite (s != s')
  | .finite s _ _, .infinite s' => zero (s != s')
  | .infinite _, .infinite _ => .nan
  | .nan, _ => .nan
  | _, .nan => .nan

/-- Whether a number is neither infinite nor undefined. -/
def isFinite : Binary64 → Bool
  | .finite .. => true
  | _ => false

/-- Whether a number is zero, of either sign. -/
def isZero : Binary64 → Bool
  | .finite _ m _ => m == 0
  | _ => false

/-- The integer that a number is exactly, if it is one. -/
def toInt? : Binary64 → Option Int
  | .finite s m e =>
    let (n, d) := ratio m e
    if n % d = 0 then some (if s then -((n / d : Nat) : Int) else ((n / d : Nat) : Int)) else none
  | _ => none

end Binary64

end SearchComposer.Number
