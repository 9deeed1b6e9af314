/-!
# Powers of two and ten

Numbers are kept as multiples of powers of two and written as multiples of powers of ten.
-/

namespace SearchComposer.Number

/-- The power of two with a natural exponent. -/
def twoTo (n : Nat) : Nat := Nat.pow 2 n

/-- The power of ten with a natural exponent. -/
def tenTo (n : Nat) : Nat := Nat.pow 10 n

end SearchComposer.Number
