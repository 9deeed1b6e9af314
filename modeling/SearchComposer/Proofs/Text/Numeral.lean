import SearchComposer.Text.Numeral
import Mathlib.Data.Nat.Digits.Defs

/-!
# Numerals are read back

The digits of a number denote it, with any number of zeros in front. A number below `10 ^ width` is
padded to exactly `width` digits. A numeral with a sign denotes an integer.
-/

namespace SearchComposer.Text

/-! ## Written numerals -/

theorem value_padded (width n : Nat) : value (padded width n) = n := by
  unfold padded
  rw [value_replicate_zero_append]
  exact Nat.ofDigitChars_toDigits (by decide) (by decide)

theorem padded_injective (width : Nat) : Function.Injective (padded width) := by
  intro m n h
  rw [← value_padded width m, h, value_padded]

theorem length_padded {width n : Nat} (hwidth : 0 < width) (hn : n < 10 ^ width) :
    (padded width n).length = width := by
  have hlength := Nat.toDigits_length 10 n width hwidth hn
  simp only [padded, List.length_append, List.length_replicate]
  omega

theorem isDigit_of_mem_padded {width n : Nat} {c : Char} (hc : c ∈ padded width n) :
    isDigit c = true := by
  unfold padded at hc
  rcases List.mem_append.mp hc with hzero | hdigit
  · rw [List.eq_of_mem_replicate hzero]
    rfl
  · exact Nat.isDigit_of_mem_toDigits (by decide) (by decide) hdigit

/-- A sign does not start a numeral. -/
theorem cons_ne_padded {width n : Nat} {c : Char} (hc : isDigit c = false) (cs : List Char) :
    c :: cs ≠ padded width n := by
  intro h
  have hmem : c ∈ padded width n := by
    rw [← h]
    exact List.mem_cons_self
  rw [isDigit_of_mem_padded hmem] at hc
  cases hc

theorem padded_ne_nil (width n : Nat) : padded width n ≠ [] := by
  unfold padded
  exact List.append_ne_nil_of_right_ne_nil _ Nat.toDigits_ne_nil

/-- Zeros at the end scale what digits denote. -/
theorem value_append_replicate_zero (cs : List Char) (k : Nat) :
    value (cs ++ List.replicate k '0') = value cs * 10 ^ k := by
  induction k with
  | zero => simp
  | succ k ih =>
    have hstep : value (cs ++ List.replicate k '0' ++ ['0']) =
        10 * value (cs ++ List.replicate k '0') := by simp [value, valueFrom, digitValue]
    rw [List.replicate_succ', ← List.append_assoc, hstep, ih, Nat.pow_succ]
    ac_rfl

/-! ## Numerals that are read -/

/-- The integer that digits denote, with a sign before them or without one. -/
def integer? : List Char → Option Int
  | '+' :: cs => (value? cs).map Int.ofNat
  | '-' :: cs => (value? cs).map fun (n : Nat) => -(n : Int)
  | cs => (value? cs).map Int.ofNat

theorem digits_of_value? {cs : List Char} {n : Nat} (h : value? cs = some n) :
    cs ≠ [] ∧ (∀ c ∈ cs, isDigit c = true) ∧ value cs = n := by
  unfold value? at h
  split at h
  · cases h
  · next hdigits =>
    simp only [Bool.or_eq_true, Bool.not_eq_true', not_or, List.isEmpty_iff, Bool.not_eq_false,
      List.all_eq_true] at hdigits
    obtain ⟨hne, hall⟩ := hdigits
    exact ⟨hne, hall, Option.some.inj h⟩

theorem value?_eq_some {cs : List Char} (hne : cs ≠ []) (hcs : ∀ c ∈ cs, isDigit c = true) :
    value? cs = some (value cs) := by
  have hall : cs.all isDigit = true := List.all_eq_true.mpr hcs
  simp [value?, hne, hall]

theorem toLower_of_isDigit {c : Char} (h : isDigit c = true) : c.toLower = c := by
  unfold isDigit at h
  simp only [Bool.and_eq_true, decide_eq_true_eq] at h
  have hhigh : c.val ≤ '9'.val := Char.le_def.mp h.2
  unfold Char.toLower
  rw [dif_neg]
  rintro ⟨hlow, -⟩
  have hbetween : 'A'.val ≤ '9'.val := UInt32.le_trans hlow hhigh
  exact absurd hbetween (by decide)

end SearchComposer.Text
