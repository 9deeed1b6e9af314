import Mathlib.Data.List.TakeWhile
import SearchComposer.Number.Decimal
import SearchComposer.Proofs.Number.Rounding
import SearchComposer.Proofs.Text.Numeral

/-!
# Integers as literals

A literal that is made of digits alone, with a sign before them or without one, denotes an integer.
As a number of 64 bits it is read as the rounded natural with the sign: there is no point and no
exponent, so no power of ten comes in, and no digit is a letter of a name.
-/

namespace SearchComposer

namespace Number

open Text (isDigit value? integer?)

variable {cs : List Char} {n : Nat} {z : Int}

/-- Digits alone are a decimal without a power of ten. -/
theorem Decimal.read?_of_value? (h : value? cs = some n) :
    Decimal.read? cs = some ⟨n, cs.length, 0⟩ := by
  obtain ⟨hne, hdigits, hvalue⟩ := Text.digits_of_value? h
  have htake : cs.takeWhile isDigit = cs := List.takeWhile_eq_self_iff.mpr hdigits
  have hdrop : cs.dropWhile isDigit = [] := List.dropWhile_eq_nil_iff.mpr hdigits
  unfold Decimal.read?
  rw [htake, hdrop]
  simp [hne, Decimal.exponent?, hvalue]

theorem Decimal.toBinary64_natural (negative : Bool) (n length : Nat) :
    Decimal.toBinary64 negative ⟨n, length, 0⟩ = .ofRatio negative n 1 := by
  have hmagnitude : ¬((length : Int) + 0 < vanishing) := by
    unfold vanishing
    omega
  have hexponent : ¬((0 : Int) > overflowing) := by decide
  unfold Decimal.toBinary64
  dsimp only
  by_cases hn : n = 0
  · rw [if_pos hn, Binary64.ofRatio, if_pos hn]
  · rw [if_neg hn, if_neg hmagnitude, if_neg hexponent]
    show Binary64.ofRatio negative (n * 1) 1 = _
    rw [Nat.mul_one]

/-- Digits stay what they are in lower case, so they are no name with a letter. -/
theorem lowered_ne_of_value? (h : value? cs = some n) {name : List Char} {c : Char}
    (hc : c ∈ name) (hletter : isDigit c = false) : lowered cs ≠ name := by
  obtain ⟨-, hdigits, -⟩ := Text.digits_of_value? h
  rintro rfl
  obtain ⟨d, hd, rfl⟩ := List.mem_map.mp hc
  have hdigit := hdigits d hd
  rw [Text.toLower_of_isDigit hdigit, hdigit] at hletter
  cases hletter

namespace Binary64

theorem ofUnsigned?_of_value? (negative : Bool) (h : value? cs = some n) :
    ofUnsigned? negative cs = some (.ofRatio negative n 1) := by
  have hi : isDigit 'i' = false := by decide
  have hn : isDigit 'n' = false := by decide
  have hinf : lowered cs ≠ "inf".toList := lowered_ne_of_value? h (by decide) hi
  have hinfinity : lowered cs ≠ "infinity".toList := lowered_ne_of_value? h (by decide) hi
  have hnan : lowered cs ≠ "nan".toList := lowered_ne_of_value? h (by decide) hn
  unfold ofUnsigned?
  rw [if_neg (not_or.mpr ⟨hinf, hinfinity⟩), if_neg hnan, Decimal.read?_of_value? h,
    Option.map_some, Decimal.toBinary64_natural]

theorem ofText?_unsigned {s : String} (hplus : ∀ ds, s.toList ≠ '+' :: ds)
    (hminus : ∀ ds, s.toList ≠ '-' :: ds) : ofText? s = ofUnsigned? false s.toList := by
  unfold ofText?
  split
  · next ds hs => exact absurd hs (hplus ds)
  · next ds hs => exact absurd hs (hminus ds)
  · rfl

/-- A literal of an integer is read as the rounded natural with the sign of the literal. -/
theorem ofText?_of_integer? {s : String} (h : integer? s.toList = some z) :
    ∃ negative, ofText? s = some (.ofRatio negative z.natAbs 1) ∧
      z = if negative then -(z.natAbs : Int) else z.natAbs := by
  unfold integer? at h
  split at h
  · next ds hs =>
    obtain ⟨n, hn, rfl⟩ := Option.map_eq_some_iff.mp h
    have hread : ofText? s = ofUnsigned? false ds := by
      unfold ofText?
      rw [hs]
      rfl
    exact ⟨false, hread.trans (ofUnsigned?_of_value? false hn), rfl⟩
  · next ds hs =>
    obtain ⟨n, hn, rfl⟩ := Option.map_eq_some_iff.mp h
    have hread : ofText? s = ofUnsigned? true ds := by
      unfold ofText?
      rw [hs]
      rfl
    rw [Int.natAbs_neg, Int.natAbs_natCast]
    exact ⟨true, hread.trans (ofUnsigned?_of_value? true hn), rfl⟩
  · next hplus hminus =>
    obtain ⟨n, hn, rfl⟩ := Option.map_eq_some_iff.mp h
    exact ⟨false, (ofText?_unsigned hplus hminus).trans (ofUnsigned?_of_value? false hn), rfl⟩

end Binary64

end Number

end SearchComposer
