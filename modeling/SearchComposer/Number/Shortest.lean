import SearchComposer.Number.Binary64

/-!
# Shortest decimal digits

The text of a finite number has the fewest significant digits that read back as the same number,
and is the nearest to it of the decimals with so many; of two that are equally near it is the one
with an even last digit. Seventeen digits always suffice.
-/

namespace SearchComposer.Number

/-- A decimal in scientific form: the significant digits as a natural and the power of ten of the
first of them. -/
structure Scientific where
  /-- The significant digits. -/
  digits : Nat
  /-- The power of ten of the first digit. -/
  exponent : Int
  deriving DecidableEq, Repr

namespace Scientific

/-- How many digits a natural is written with. -/
def width (n : Nat) : Nat := (Nat.toDigits 10 n).length

/-- The power of ten of the first digit of the positive quotient `num / den`. -/
def leading (num den : Nat) : Int :=
  if num ≥ den then (width (num / den) : Int) - 1
  else -(width ((den + num - 1) / num - 1) : Int)

/-- The quotient `num / den` as a multiple of `10 ^ unit`, rounded to the nearest one, which is the
even one on a tie; then its neighbour on the other side of the quotient. -/
def neighbours (num den : Nat) (unit : Int) : Nat × Nat :=
  let n := num * tenTo (-unit).toNat
  let d := den * tenTo unit.toNat
  let near := Binary64.divRound n d
  (near, if near = n / d then near + 1 else near - 1)

/-- The decimal `digits * 10 ^ unit` rounded to 64 bits. -/
def reading (digits : Nat) (unit : Int) : Binary64 :=
  .ofRatio false (digits * tenTo unit.toNat) (tenTo (-unit).toNat)

/-- The first grid of decimals, from `count` digits on, with a point that reads back as the positive
number `x = num / den`. -/
def search (x : Binary64) (num den : Nat) (first : Int) : (fuel count : Nat) → Scientific
  | 0, _ => ⟨(neighbours num den (first - 16)).1, first⟩
  | fuel + 1, count =>
    let unit := first - (count : Int) + 1
    let (near, far) := neighbours num den unit
    if reading near unit = x then ⟨near, (width near : Int) - 1 + unit⟩
    else if reading far unit = x then ⟨far, (width far : Int) - 1 + unit⟩
    else search x num den first fuel (count + 1)

/-- The shortest decimal that reads back as the positive number `significand * 2 ^ exponent`. -/
def shortest (significand : Nat) (exponent : Int) : Scientific :=
  let (num, den) := Binary64.ratio significand exponent
  search (.finite false significand exponent) num den (leading num den) 17 1

/-- The significant digits without the zeros they end with. -/
def significant (s : Scientific) : List Char :=
  (Nat.toDigits 10 s.digits).reverse.dropWhile (· == '0') |>.reverse

end Scientific

end SearchComposer.Number
