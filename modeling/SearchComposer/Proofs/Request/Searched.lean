import SearchComposer.Proofs.Number.Literal
import SearchComposer.Proofs.Request.Range
import SearchComposer.Request.Basic

/-!
# Integers that are searched for

A number to search for is read as a number of 64 bits, also if it is an integer and is written as
one in the request. So the literal of an integer is not always searched for as it stands: what is
searched for is the nearest integer with at most 53 significant bits. Integers up to `2 ^ 53` and all
others with so few bits are kept, the others are not.
-/

namespace SearchComposer

open Number (Binary64)
open Number.Binary64 (Short rounded excess)

variable {n r : Int} {text : String}

/-- A number of 64 bits that is an integer has that integer as its value. -/
theorem Number.value?_of_toInt? {x : Binary64} (h : x.toInt? = some r) :
    (Number.float x).value? = some (r : ℚ) := by
  cases x with
  | infinite negative => cases h
  | nan => cases h
  | finite negative m e =>
    unfold Number.Binary64.toInt? Number.Binary64.ratio at h
    dsimp only at h
    split at h
    · next hdvd =>
      obtain rfl := Option.some.inj h
      generalize hq : m * Number.twoTo e.toNat / Number.twoTo (-e).toNat = q at h ⊢
      have hscaled : q * 2 ^ (-e).toNat = m * 2 ^ e.toNat := by
        rw [← hq]
        exact Nat.div_mul_cancel (Nat.dvd_of_mod_eq_zero hdvd)
      have hpow : (2 : ℚ) ^ e * 2 ^ (-e).toNat = 2 ^ e.toNat := by
        rw [← zpow_natCast, ← zpow_natCast, ← zpow_add₀ two_ne_zero]
        congr 1
        omega
      have hvalue : (m : ℚ) * 2 ^ e = q := by
        have hcast : (q : ℚ) * 2 ^ (-e).toNat = m * 2 ^ e.toNat := by exact_mod_cast hscaled
        rw [← hpow, ← mul_assoc] at hcast
        exact (mul_right_cancel₀ (pow_ne_zero _ two_ne_zero) hcast).symm
      show some ((if negative = true then (-1 : ℚ) else 1) * m * 2 ^ e) = _
      rw [mul_assoc, hvalue]
      cases negative <;> simp
    · cases h

/-- With the sign of an integer, the rounded natural is the nearest integer with few bits. -/
theorem rounded_nearest_int {negative : Bool}
    (hn : n = if negative then -(n.natAbs : Int) else n.natAbs)
    (hr : r = if negative then -(rounded n.natAbs : Int) else rounded n.natAbs) :
    Short r.natAbs ∧ ∀ y : Int, Short y.natAbs → (r - n).natAbs ≤ (y - n).natAbs := by
  have habs : r.natAbs = rounded n.natAbs := by
    rw [hr]
    split <;> omega
  refine ⟨habs ▸ Number.Binary64.short_rounded _, fun y hy => ?_⟩
  have hnearest := Number.Binary64.rounded_nearest n.natAbs hy
  split at hr
  · next hneg =>
    rw [if_pos hneg] at hn
    omega
  · next hpos =>
    rw [if_neg hpos] at hn
    omega

theorem searchedNumber?_of_integer? (h : Text.integer? (Text.trim text).toList = some n)
    (hn : n.natAbs < 2 ^ 63) : ∃ (r : Int) (x : Number), searchedNumber? text = some x ∧
      x.value? = some (r : ℚ) ∧ (x = .int r ↔ r.natAbs < 2 ^ 63) ∧ Short r.natAbs ∧
      ∀ y : Int, Short y.natAbs → (r - n).natAbs ≤ (y - n).natAbs := by
  obtain ⟨negative, hread, hsign⟩ := Number.Binary64.ofText?_of_integer? h
  have hexcess : excess n.natAbs < 971 := by
    have hlog : n.natAbs.log2 < 63 := by
      by_cases hzero : n.natAbs = 0
      · rw [hzero]
        decide
      · exact (Nat.log2_lt hzero).mpr hn
    unfold excess
    omega
  have hint := Number.Binary64.toInt?_ofRatio negative hexcess
  generalize hr : (if negative then -(rounded n.natAbs : Int) else rounded n.natAbs) = r at hint
  obtain ⟨hshort, hnearest⟩ := rounded_nearest_int hsign hr.symm
  have hbound : integerBound = 2 ^ 63 := rfl
  unfold searchedNumber?
  rw [hread]
  simp only [Option.bind_eq_bind, Option.bind_some, hint, hbound]
  by_cases hsmall : r.natAbs < 2 ^ 63
  · exact ⟨r, .int r, if_pos hsmall, rfl, ⟨fun _ => hsmall, fun _ => rfl⟩, hshort, hnearest⟩
  · refine ⟨r, .float _, if_neg hsmall, Number.value?_of_toInt? hint, ?_, hshort, hnearest⟩
    constructor
    · intro heq
      cases heq
    · intro hlt
      exact absurd hlt hsmall

theorem Test.of?_number (s : Settings) (p : Property) (b : Bound) (text : String) :
    Test.of? s p (.number b) (.text text) =
      (searchedNumber? text).map fun x => .range p.path (.of false x x b) := rfl

/-- A literal of an integer of less than 64 bits makes a range for every bound, and the range says of
all integers how they lie to the nearest integer with at most 53 significant bits. That integer is
written as an integer if it still has less than 64 bits. So the range is that of the literal exactly
if the literal has so few significant bits itself, as all up to `2 ^ 53` have. -/
theorem integer_searches_nearest (h : Text.integer? (Text.trim text).toList = some n)
    (hn : n.natAbs < 2 ^ 63) : ∃ (r : Int) (x : Number),
      (∀ (s : Settings) (p : Property) (b : Bound),
        Test.of? s p (.number b) (.text text) = some (.range p.path (.of false x x b))) ∧
      (∀ (b : Bound) (w : Int), (Range.of false x x b).Admits w ↔ b.Relates w r) ∧
      (x = .int r ↔ r.natAbs < 2 ^ 63) ∧
      (Short r.natAbs ∧ ∀ y : Int, Short y.natAbs → (r - n).natAbs ≤ (y - n).natAbs) ∧
      (x = .int n ↔ Short n.natAbs) ∧ (n.natAbs ≤ 2 ^ 53 → x = .int n) := by
  obtain ⟨r, x, hsearched, hvalue, hint, hshort, hnearest⟩ := searchedNumber?_of_integer? h hn
  have hexact : x = .int n ↔ Short n.natAbs := by
    constructor
    · rintro rfl
      have hsame : n = r := Int.cast_injective (Option.some.inj hvalue)
      exact hsame ▸ hshort
    · intro hn'
      have hsame : r = n := by
        have hzero := hnearest n hn'
        omega
      exact hsame ▸ hint.mpr (hsame ▸ hn)
  refine ⟨r, x, ?_, Range.admits_of_value hvalue false, hint, ⟨hshort, hnearest⟩, hexact, ?_⟩
  · intro s p b
    rw [Test.of?_number, hsearched]
    rfl
  · intro hsmall
    exact hexact.mpr (Number.Binary64.short_of_le hsmall)

/-- Minus the sixty-second power of two has one significant bit, so it is searched for as it stands,
blanks at its ends aside. -/
theorem integer_searches_nearest_power_of_two :
    ∃ (text : String) (n : Int) (x : Number),
      Text.integer? (Text.trim text).toList = some n ∧ n = -4611686018427387904 ∧
      n.natAbs < 2 ^ 63 ∧ x = .int n ∧
      Test.of? .default (.mapped none "size" .number false) (.number .eq) (.text text) =
        some (.range "size" (.of false x x .eq)) ∧
      (Range.of false x x .eq).Admits (-4611686018427387904 : Int) := by
  have hread : Text.integer? (Text.trim " -4611686018427387904 ").toList =
      some (-4611686018427387904) := by decide
  have hsmall : (-4611686018427387904 : Int).natAbs < 2 ^ 63 := by decide
  obtain ⟨r, x, htest, -, -, -, hexact, -⟩ := integer_searches_nearest hread hsmall
  obtain rfl := hexact.mpr ⟨1, 62, by decide, by decide⟩
  exact ⟨_, _, _, hread, rfl, hsmall, rfl, htest .default _ .eq,
    (Range.admits_of_int false _ _ .eq _).mpr ⟨le_refl _, le_refl _⟩⟩

/-- The least natural with more than 53 significant bits is searched for as the one before it. -/
theorem searched_integer_not_exact :
    ¬∀ (text : String) (n : Int), Text.integer? (Text.trim text).toList = some n →
      n.natAbs < 2 ^ 63 → ∀ (s : Settings) (p : Property) (b : Bound),
        Test.of? s p (.number b) (.text text) =
          some (.range p.path (.of false (.int n) (.int n) b)) := by
  intro hexact
  have hread : Text.integer? (Text.trim "9007199254740993").toList = some 9007199254740993 := by
    decide
  have hsearched : searchedNumber? "9007199254740993" = some (.int 9007199254740992) := by
    decide
  have htest := hexact "9007199254740993" 9007199254740993 hread (by decide) .default
    (.mapped none "size" .number false) .eq
  have hmade : Test.of? .default (.mapped none "size" .number false) (.number .eq)
      (.text "9007199254740993") = some (.range "size" (.of false (.int 9007199254740992)
        (.int 9007199254740992) .eq)) := by
    rw [Test.of?_number, hsearched]
    rfl
  rw [hmade] at htest
  exact absurd htest (by decide)

/-- The greatest integer of less than 64 bits is not even searched for as an integer. -/
example : searchedNumber? "9223372036854775807" = some (.float (.finite false (2 ^ 52) 11)) := by
  decide

end SearchComposer
