import Mathlib.Algebra.Group.Nat.Defs
import SearchComposer.Number.Binary64

/-!
# Naturals as numbers of 64 bits

A natural is rounded to 53 significant bits: its quotient by a power of two is rounded, and scaled up
again. The result is the nearest of all naturals with at most 53 significant bits. Those that are
multiples of the same power of two are no nearer than the rounded quotient, and all others are below
the power of two that the natural starts with, which is such a multiple itself.
-/

namespace SearchComposer.Number.Binary64

/-- A natural has at most 53 significant bits: the zeros at its end aside, it is below `2 ^ 53`. -/
def Short (n : Nat) : Prop := ∃ m e, m < 2 ^ 53 ∧ n = m * 2 ^ e

theorem short_of_le {n : Nat} (h : n ≤ 2 ^ 53) : Short n := by
  rcases Nat.lt_or_eq_of_le h with hlt | heq
  · exact ⟨n, 0, hlt, (Nat.mul_one n).symm⟩
  · exact ⟨1, 53, by decide, by rw [heq, Nat.one_mul]⟩

/-- How many bits follow the first 53 significant ones. -/
def excess (n : Nat) : Nat := n.log2 - 52

/-- The natural with the nearest 53 significant bits and zeros after them. -/
def rounded (n : Nat) : Nat := divRound n (2 ^ excess n) * 2 ^ excess n

/-! ## Rounded quotients -/

variable {den n m : Nat}

theorem divRound_one (n : Nat) : divRound n 1 = n := by
  simp [divRound, Nat.mod_one]

/-- A rounded quotient is off by half a unit at most. -/
theorem divRound_bounds (num : Nat) (hd : 0 < den) :
    2 * (divRound num den * den) ≤ 2 * num + den ∧ 2 * num ≤ 2 * (divRound num den * den) + den := by
  have hnum : num / den * den + num % den = num := Nat.div_add_mod' num den
  have hrest : num % den < den := Nat.mod_lt num hd
  have hnext : (num / den + 1) * den = num / den * den + den := Nat.add_one_mul _ _
  unfold divRound
  simp only
  split
  · next hup => omega
  · next hdown =>
    rw [not_or] at hdown
    omega

/-- No multiple of the divisor is nearer than the one with the rounded quotient. -/
theorem divRound_nearest (num : Nat) (hd : 0 < den) (q : Nat) :
    ((divRound num den * den : Nat) - num : Int).natAbs ≤ ((q * den : Nat) - num : Int).natAbs := by
  obtain ⟨hlow, hhigh⟩ := divRound_bounds num hd
  generalize divRound num den = r at hlow hhigh ⊢
  rcases Nat.lt_trichotomy q r with hlt | rfl | hgt
  · have hstep : (q + 1) * den ≤ r * den := Nat.mul_le_mul_right den hlt
    rw [Nat.add_one_mul] at hstep
    omega
  · exact Nat.le_refl _
  · have hstep : (r + 1) * den ≤ q * den := Nat.mul_le_mul_right den hgt
    rw [Nat.add_one_mul] at hstep
    omega

/-! ## Rounded naturals -/

theorem lt_of_excess (n : Nat) : n < 2 ^ (53 + excess n) := by
  have hlog : n < 2 ^ (n.log2 + 1) := Nat.lt_log2_self
  have hpow : 2 ^ (n.log2 + 1) ≤ 2 ^ (53 + excess n) := by
    refine Nat.pow_le_pow_right (by decide) ?_
    unfold excess
    omega
  omega

theorem le_of_excess (h : excess n ≠ 0) : 2 ^ (52 + excess n) ≤ n := by
  have hn : n ≠ 0 := by
    rintro rfl
    exact h rfl
  have hlog : 52 + excess n = n.log2 := by
    unfold excess at h ⊢
    omega
  rw [hlog]
  exact Nat.log2_self_le hn

theorem rounded_of_excess (h : excess n = 0) : rounded n = n := by
  rw [rounded, h, Nat.pow_zero, divRound_one, Nat.mul_one]

theorem divRound_le (n : Nat) : divRound n (2 ^ excess n) ≤ 2 ^ 53 := by
  have hlt := lt_of_excess n
  obtain ⟨hlow, -⟩ := divRound_bounds n (Nat.two_pow_pos (excess n))
  rw [Nat.pow_add] at hlt
  refine Nat.le_of_not_lt fun hgt => ?_
  have hstep : (2 ^ 53 + 1) * 2 ^ excess n ≤ divRound n (2 ^ excess n) * 2 ^ excess n :=
    Nat.mul_le_mul_right _ hgt
  rw [Nat.add_one_mul] at hstep
  have hpos := Nat.two_pow_pos (excess n)
  omega

theorem short_rounded (n : Nat) : Short (rounded n) := by
  unfold rounded
  by_cases htop : divRound n (2 ^ excess n) = 2 ^ 53
  · refine ⟨1, 53 + excess n, by decide, ?_⟩
    rw [htop, Nat.one_mul, Nat.pow_add]
  · exact ⟨_, excess n, Nat.lt_of_le_of_ne (divRound_le n) htop, rfl⟩

/-- No natural with at most 53 significant bits is nearer than the rounded one. -/
theorem rounded_nearest (n : Nat) (hm : Short m) :
    ((rounded n : Nat) - n : Int).natAbs ≤ ((m : Nat) - n : Int).natAbs := by
  obtain ⟨significand, e, hsignificand, rfl⟩ := hm
  by_cases hexcess : excess n = 0
  · rw [rounded_of_excess hexcess]
    omega
  · have hpos := Nat.two_pow_pos (excess n)
    by_cases hplace : excess n ≤ e
    · have hmultiple : significand * 2 ^ e = significand * 2 ^ (e - excess n) * 2 ^ excess n := by
        rw [Nat.mul_assoc, ← Nat.pow_add, Nat.sub_add_cancel hplace]
      rw [hmultiple]
      exact divRound_nearest n hpos _
    · -- with fewer places, the natural is below the power of two that `n` starts with
      have hbelow : significand * 2 ^ e < 2 ^ (52 + excess n) := by
        calc significand * 2 ^ e < 2 ^ 53 * 2 ^ e :=
              Nat.mul_lt_mul_of_pos_right hsignificand (Nat.two_pow_pos e)
          _ = 2 ^ (53 + e) := (Nat.pow_add 2 53 e).symm
          _ ≤ 2 ^ (52 + excess n) := Nat.pow_le_pow_right (by decide) (by omega)
      have hfirst := le_of_excess hexcess
      have hnearest := divRound_nearest n hpos (2 ^ 52)
      rw [← Nat.pow_add] at hnearest
      unfold rounded
      omega

/-! ## Rounding to the format -/

theorem rescale_one (n a b : Nat) :
    rescale n 1 ((a : Int) - b) = (n * 2 ^ (b - a), 2 ^ (a - b)) := by
  have hup : (-((a : Int) - b)).toNat = b - a := by omega
  have hdown : ((a : Int) - b).toNat = a - b := by omega
  unfold rescale
  rw [hup, hdown, Nat.one_mul]
  rfl

/-- The power of two that gives a natural its first 53 significant bits. -/
theorem exponentOf_one (hn : n ≠ 0) : exponentOf n 1 = (n.log2 : Int) - 52 := by
  have hguess : (Nat.log2 n : Int) - (Nat.log2 1 : Int) - 53 = (n.log2 : Int) - (53 : Nat) := by
    have hone : Nat.log2 1 = 0 := by decide
    omega
  have hbig : n * 2 ^ (53 - n.log2) ≥ 2 ^ (n.log2 - 53) * twoTo 53 := by
    calc 2 ^ (n.log2 - 53) * twoTo 53 = 2 ^ (n.log2 - 53 + 53) := (Nat.pow_add 2 _ 53).symm
      _ = 2 ^ n.log2 * 2 ^ (53 - n.log2) := by
          rw [← Nat.pow_add]
          congr 1
          omega
      _ ≤ n * 2 ^ (53 - n.log2) := Nat.mul_le_mul_right _ (Nat.log2_self_le hn)
  unfold exponentOf minExponent
  dsimp only
  rw [hguess, rescale_one]
  dsimp only
  rw [if_pos hbig]
  omega

/-- A natural that was scaled up to 53 bits is found again. -/
theorem toInt?_finite_scaled (negative : Bool) (n k : Nat) :
    (Binary64.finite negative (n * 2 ^ k) (-(k : Int))).toInt? =
      some (if negative then -(n : Int) else n) := by
  have hup : (-(k : Int)).toNat = 0 := by omega
  have hdown : (- -(k : Int)).toNat = k := by omega
  have hratio : ratio (n * 2 ^ k) (-(k : Int)) = (n * 2 ^ k, 2 ^ k) := by
    unfold ratio
    rw [hup, hdown]
    exact Prod.ext (Nat.mul_one _) rfl
  unfold toInt?
  simp only [hratio, Nat.mul_mod_left, if_true, Nat.mul_div_cancel n (Nat.two_pow_pos k)]

theorem toInt?_finite (negative : Bool) (m k : Nat) :
    (Binary64.finite negative m k).toInt? =
      some (if negative then -((m * 2 ^ k : Nat) : Int) else (m * 2 ^ k : Nat)) := by
  have hup : ((k : Int)).toNat = k := by omega
  have hdown : (-(k : Int)).toNat = 0 := by omega
  have hratio : ratio m (k : Int) = (m * 2 ^ k, 1) := by
    unfold ratio
    rw [hup, hdown]
    rfl
  unfold toInt?
  simp only [hratio, Nat.mod_one, if_true, Nat.div_one]

theorem toInt?_finite_zero (negative : Bool) (e : Int) :
    (Binary64.finite negative 0 e).toInt? = some 0 := by
  unfold toInt? ratio
  simp only [Nat.zero_mul, Nat.zero_mod, if_true, Nat.zero_div]
  cases negative <;> rfl

/-- A natural is scaled to 53 bits, up or down; if the significand overflows then, it is halved. -/
theorem ofRatio_one (negative : Bool) (hn : n ≠ 0) (hbound : excess n < 971) :
    ofRatio negative n 1 =
      if divRound (n * 2 ^ (52 - n.log2)) (2 ^ excess n) = 2 ^ 53 then
        .finite negative (2 ^ 52) ((n.log2 : Int) - 52 + 1)
      else
        .finite negative (divRound (n * 2 ^ (52 - n.log2)) (2 ^ excess n)) ((n.log2 : Int) - 52) := by
  have hscaled : rescale n 1 ((n.log2 : Int) - 52) = (n * 2 ^ (52 - n.log2), 2 ^ excess n) :=
    rescale_one n n.log2 52
  have hfinite : ¬(n.log2 : Int) - 52 + 1 > maxExponent := by
    unfold excess at hbound
    unfold maxExponent
    omega
  unfold ofRatio
  rw [if_neg hn, exponentOf_one hn]
  dsimp only
  rw [hscaled]
  dsimp only
  by_cases htop : divRound (n * 2 ^ (52 - n.log2)) (2 ^ excess n) = 2 ^ 53
  · have htop' : divRound (n * 2 ^ (52 - n.log2)) (2 ^ excess n) = twoTo 53 := htop
    rw [if_pos htop, if_pos htop']
    dsimp only
    rw [if_neg hfinite]
    rfl
  · have htop' : ¬divRound (n * 2 ^ (52 - n.log2)) (2 ^ excess n) = twoTo 53 := htop
    have hfinite' : ¬(n.log2 : Int) - 52 > maxExponent := by omega
    rw [if_neg htop, if_neg htop']
    dsimp only
    rw [if_neg hfinite']

/-- A natural below `2 ^ 53` is only scaled up. -/
theorem toInt?_ofRatio_of_fits (negative : Bool) (hn : n ≠ 0) (hexcess : excess n = 0) :
    (ofRatio negative n 1).toInt? = some (if negative then -(n : Int) else n) := by
  have hlog : n.log2 ≤ 52 := Nat.sub_eq_zero_iff_le.mp hexcess
  have hexponent : (n.log2 : Int) - 52 = -((52 - n.log2 : Nat) : Int) := by omega
  have hfits : n * 2 ^ (52 - n.log2) < 2 ^ 53 := by
    calc n * 2 ^ (52 - n.log2) < 2 ^ (n.log2 + 1) * 2 ^ (52 - n.log2) :=
          Nat.mul_lt_mul_of_pos_right Nat.lt_log2_self (Nat.two_pow_pos _)
      _ = 2 ^ 53 := by
          rw [← Nat.pow_add]
          congr 1
          omega
  rw [ofRatio_one negative hn (by omega), hexcess, Nat.pow_zero, divRound_one,
    if_neg (Nat.ne_of_lt hfits), hexponent]
  exact toInt?_finite_scaled negative n _

/-- A natural with further bits is only scaled down. -/
theorem toInt?_ofRatio_of_excess (negative : Bool) (hexcess : excess n ≠ 0)
    (hbound : excess n < 971) :
    (ofRatio negative n 1).toInt? = some (if negative then -(rounded n : Int) else rounded n) := by
  have hn : n ≠ 0 := by
    rintro rfl
    exact hexcess rfl
  have hup : 52 - n.log2 = 0 := by
    unfold excess at hexcess
    omega
  have hexponent : (n.log2 : Int) - 52 = (excess n : Nat) := by
    unfold excess at hexcess ⊢
    omega
  rw [ofRatio_one negative hn hbound, hup, Nat.pow_zero, Nat.mul_one, hexponent, rounded]
  split
  · next htop =>
    have hcarry : 2 ^ 52 * 2 ^ (excess n + 1) = 2 ^ 53 * 2 ^ excess n := by
      rw [← Nat.pow_add, ← Nat.pow_add]
      congr 1
      omega
    have hnext : ((excess n : Nat) : Int) + 1 = (excess n + 1 : Nat) := rfl
    rw [hnext, toInt?_finite, hcarry, htop]
  · exact toInt?_finite negative _ _

/-- A natural that is not too great becomes the rounded one, with the sign. -/
theorem toInt?_ofRatio (negative : Bool) (hbound : excess n < 971) :
    (ofRatio negative n 1).toInt? = some (if negative then -(rounded n : Int) else rounded n) := by
  by_cases hn : n = 0
  · subst hn
    rw [rounded_of_excess rfl, ofRatio, if_pos rfl, zero, toInt?_finite_zero]
    cases negative <;> rfl
  · by_cases hexcess : excess n = 0
    · rw [rounded_of_excess hexcess]
      exact toInt?_ofRatio_of_fits negative hn hexcess
    · exact toInt?_ofRatio_of_excess negative hexcess hbound

end SearchComposer.Number.Binary64
