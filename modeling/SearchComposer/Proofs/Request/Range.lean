import Mathlib.Data.Rat.Cast.Order
import SearchComposer.Request.Clause

/-!
# Numbers in a range

A range says by up to four bounds which numbers it admits; a bound that is missing admits all. The
range that is made of a bound at an integer value admits exactly the integers that lie to the value
as the bound says, where a value may stand for several integers in a row.
-/

namespace SearchComposer

/-- The value of a number. Floating-point numbers that are not finite have none. -/
def Number.value? : Number → Option ℚ
  | .int n => some n
  | .float (.finite negative significand exponent) =>
    some ((if negative then -1 else 1) * significand * 2 ^ exponent)
  | .float (.infinite _) => none
  | .float .nan => none

/-- Whether a number lies in a range: every bound that there is has a value, on whose right side the
number lies. -/
def Range.Admits (r : Range) (x : ℚ) : Prop :=
  (∀ n, r.lt? = some n → ∃ v, n.value? = some v ∧ x < v) ∧
    (∀ n, r.lte? = some n → ∃ v, n.value? = some v ∧ x ≤ v) ∧
    (∀ n, r.gt? = some n → ∃ v, n.value? = some v ∧ v < x) ∧
    ∀ n, r.gte? = some n → ∃ v, n.value? = some v ∧ v ≤ x

/-- What a bound says of an integer and another one. -/
def Bound.Relates : Bound → Int → Int → Prop
  | eq, m, n => m = n
  | lt, m, n => m < n
  | lte, m, n => m ≤ n
  | gt, m, n => m > n
  | gte, m, n => m ≥ n

instance : ∀ (b : Bound) (m n : Int), Decidable (b.Relates m n)
  | .eq, m, n => inferInstanceAs (Decidable (m = n))
  | .lt, m, n => inferInstanceAs (Decidable (m < n))
  | .lte, m, n => inferInstanceAs (Decidable (m ≤ n))
  | .gt, m, n => inferInstanceAs (Decidable (m > n))
  | .gte, m, n => inferInstanceAs (Decidable (m ≥ n))

namespace Range

/-- The range of a bound between two integers, for integers. -/
theorem admits_of_int (isDate : Bool) (first last : Int) (b : Bound) (w : Int) :
    (Range.of isDate (.int first) (.int last) b).Admits w ↔
      match b with
      | .eq => first ≤ w ∧ w ≤ last
      | .lt => w < first
      | .lte => w ≤ last
      | .gt => last < w
      | .gte => first ≤ w := by
  cases b <;> simp [Range.of, Admits, Number.value?, and_comm]

/-- The range of a bound at a number whose value is an integer, for integers. -/
theorem admits_of_value {n : Number} {m : Int} (hn : n.value? = some (m : ℚ)) (isDate : Bool)
    (b : Bound) (w : Int) : (Range.of isDate n n b).Admits w ↔ b.Relates w m := by
  have hsame : w ≤ m ∧ m ≤ w ↔ w = m := by omega
  cases b <;> simp [Range.of, Admits, hn, Bound.Relates, hsame]

/-- Blocks of `unit` integers each are numbered from zero on. The range of a bound at a whole block
admits the integers whose block lies as the bound says. -/
theorem admits_of_block (isDate : Bool) {unit : Int} (hunit : 0 < unit) (block : Int) (b : Bound)
    (w : Int) :
    (Range.of isDate (.int (unit * block)) (.int (unit * block + unit - 1)) b).Admits w ↔
      b.Relates (w / unit) block := by
  have hfirst : unit * block ≤ w ↔ block ≤ w / unit := by
    rw [Int.le_ediv_iff_mul_le hunit, Int.mul_comm]
  have hlast : w ≤ unit * block + unit - 1 ↔ w / unit ≤ block := by
    have hnext : unit * (block + 1) ≤ w ↔ block + 1 ≤ w / unit := by
      rw [Int.le_ediv_iff_mul_le hunit, Int.mul_comm]
    rw [Int.mul_add, Int.mul_one] at hnext
    omega
  rw [admits_of_int]
  cases b with
  | eq => show _ ∧ _ ↔ w / unit = block; omega
  | lt => show _ ↔ w / unit < block; omega
  | lte => exact hlast
  | gt => show _ ↔ w / unit > block; omega
  | gte => exact hfirst

end Range

end SearchComposer
