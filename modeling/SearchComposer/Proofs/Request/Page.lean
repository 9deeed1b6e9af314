import Mathlib.Logic.ExistsUnique
import SearchComposer.Request.Page

/-!
# Pages tile the results

The pages of one size are consecutive windows of the results. A page that has a result starts where
the pages before it end, and nothing is cut off at the greatest word on the way there, so every
result is on exactly one page. Numbers that no page has are brought to the nearest page. This is
computed on words, by a division and a clamp that could both fail; they do not, whatever the words.
-/

namespace SearchComposer.Page

/-- A page has the result with an index. Results are counted from 0, and no sum is cut off. -/
def Shows (p : Page) (k : Nat) : Prop :=
  p.offset.toNat ≤ k ∧ k < p.offset.toNat + p.size.toNat

/-- The pages of a size, as many as a number of results fills, are consecutive windows of them. -/
structure Tiles (p : Page) (total : UInt64) : Prop where
  /-- Every result is on exactly one page. -/
  unique : ∀ k < total.toNat, ∃! n : UInt64, 1 ≤ n ∧ n ≤ p.count total ∧ Shows ⟨n, p.size⟩ k
  /-- Every page starts with a result, where the pages before it end. -/
  starts : ∀ n : UInt64, 1 ≤ n → n ≤ p.count total →
    (offset ⟨n, p.size⟩).toNat = (n.toNat - 1) * p.size.toNat ∧
      (offset ⟨n, p.size⟩).toNat < total.toNat

/-- Every number is brought to the nearest page; the first page is always there. -/
structure Clamps (p : Page) (total : UInt64) : Prop where
  /-- The page is there. -/
  bounds : ∀ n, 1 ≤ p.nearest n total ∧ p.nearest n total ≤ max 1 (p.count total)
  /-- The number of a page that is there stays as it is. -/
  fixed : ∀ n, 1 ≤ n → n ≤ max 1 (p.count total) → p.nearest n total = n
  /-- Doing it twice is doing it once. -/
  idempotent : ∀ n, p.nearest (p.nearest n total) total = p.nearest n total
  /-- The order of numbers is kept. -/
  monotone : ∀ m n, m ≤ n → p.nearest m total ≤ p.nearest n total
  /-- If pages are empty, there is only the first one. -/
  empty : p.size = 0 → ∀ n, p.nearest n total = 1

/-! ## Steps that could fail -/

/-- The quotient of two words, rounded up; there is none by zero. -/
def ceilDiv? (a b : UInt64) : Option UInt64 :=
  if b = 0 then none else if a % b = 0 then some (a / b) else some (a / b + 1)

/-- The word nearest to a word from one bound to another; there is none if they are the wrong way
round. -/
def clamp? (n low high : UInt64) : Option UInt64 :=
  if low ≤ high then some (if n < low then low else if high < n then high else n) else none

/-- How many pages a number of results fills, by a division that may fail. -/
def count? (p : Page) (total : UInt64) : Option UInt64 :=
  if p.size = 0 then some 0 else ceilDiv? total p.size

/-- The number of the nearest page, by a division and a clamp that may fail. -/
def nearest? (p : Page) (number total : UInt64) : Option UInt64 := do
  clamp? number 1 (max 1 (← p.count? total))

variable {p : Page} {total n : UInt64}

/-! ## Words as naturals -/

theorem toNat_le_greatest (n : UInt64) : n.toNat ≤ greatest :=
  Nat.le_sub_one_of_lt n.toNat_lt_size

theorem toNat_saturated_of_le {k : Nat} (h : k ≤ greatest) : (saturated k).toNat = k := by
  have hsize : k < UInt64.size := Nat.lt_of_le_of_lt h (by decide)
  rw [saturated, Nat.min_eq_left h]
  exact UInt64.toNat_ofNat_of_lt' hsize

theorem toNat_max (m n : UInt64) : (max m n).toNat = max m.toNat n.toNat := by
  show (if m ≤ n then n else m).toNat = _
  rw [Nat.max_def, apply_ite UInt64.toNat]
  simp only [UInt64.le_iff_toNat_le]

theorem toNat_min (m n : UInt64) : (min m n).toNat = min m.toNat n.toNat := by
  show (if m ≤ n then m else n).toNat = _
  rw [Nat.min_def, apply_ite UInt64.toNat]
  simp only [UInt64.le_iff_toNat_le]

theorem toNat_size_pos (hp : 0 < p.size) : 0 < p.size.toNat := UInt64.lt_iff_toNat_lt.mp hp

/-! ## Counting pages -/

/-- Pages are never more than results, so their count is a word. -/
theorem toNat_count (hp : 0 < p.size) :
    (p.count total).toNat = (total.toNat + p.size.toNat - 1) / p.size.toNat := by
  have hs := toNat_size_pos hp
  have hne : p.size ≠ 0 := UInt64.pos_iff_ne_zero.mp hp
  have hle : (total.toNat + p.size.toNat - 1) / p.size.toNat ≤ total.toNat := by
    have hmul : total.toNat ≤ total.toNat * p.size.toNat := Nat.le_mul_of_pos_right _ hs
    rw [← Nat.lt_succ_iff, Nat.div_lt_iff_lt_mul hs, Nat.succ_mul]
    omega
  rw [count, if_neg hne]
  exact toNat_saturated_of_le (Nat.le_trans hle (toNat_le_greatest total))

/-- A page is there exactly if there is a result after those of the pages before it. -/
theorem le_count_iff (hp : 0 < p.size) (hn : 1 ≤ n) :
    n ≤ p.count total ↔ (n.toNat - 1) * p.size.toNat < total.toNat := by
  have hs := toNat_size_pos hp
  have hone : 1 ≤ n.toNat := UInt64.le_iff_toNat_le.mp hn
  obtain ⟨before, hbefore⟩ : ∃ before, n.toNat = before + 1 := ⟨n.toNat - 1, by omega⟩
  rw [UInt64.le_iff_toNat_le, toNat_count hp, Nat.le_div_iff_mul_le hs, hbefore,
    Nat.add_sub_cancel, Nat.succ_mul]
  omega

/-- Where a page is there, its first result is not cut off. -/
theorem toNat_offset (hp : 0 < p.size) (hn : 1 ≤ n) (hcount : n ≤ p.count total) :
    (offset ⟨n, p.size⟩).toNat = (n.toNat - 1) * p.size.toNat := by
  have hlt := (le_count_iff hp hn).mp hcount
  exact toNat_saturated_of_le (Nat.le_trans (Nat.le_of_lt hlt) (toNat_le_greatest total))

theorem shows_iff (hp : 0 < p.size) (hn : 1 ≤ n) (hcount : n ≤ p.count total) {k : Nat} :
    Shows ⟨n, p.size⟩ k ↔ k / p.size.toNat = n.toNat - 1 := by
  have hs := toNat_size_pos hp
  rw [Shows, toNat_offset hp hn hcount, Nat.div_eq_iff hs]
  dsimp only
  omega

/-- The result with the index `k` is on the page whose number is `k` divided by the size, from 1
on. -/
theorem exists_unique_page (hp : 0 < p.size) {k : Nat} (hk : k < total.toNat) :
    ∃! n : UInt64, 1 ≤ n ∧ n ≤ p.count total ∧ Shows ⟨n, p.size⟩ k := by
  have hdiv : k / p.size.toNat ≤ k := Nat.div_le_self k p.size.toNat
  have hfits : k / p.size.toNat + 1 ≤ greatest := by
    have htotal := toNat_le_greatest total
    omega
  have hnumber := toNat_saturated_of_le hfits
  have hone : 1 ≤ saturated (k / p.size.toNat + 1) := by
    rw [UInt64.le_iff_toNat_le, hnumber]
    exact Nat.le_add_left 1 _
  have hcount : saturated (k / p.size.toNat + 1) ≤ p.count total := by
    rw [le_count_iff hp hone, hnumber, Nat.add_sub_cancel]
    exact Nat.lt_of_le_of_lt (Nat.div_mul_le_self k p.size.toNat) hk
  refine ⟨_, ⟨hone, hcount, (shows_iff hp hone hcount).mpr ?_⟩, ?_⟩
  · rw [hnumber, Nat.add_sub_cancel]
  · rintro n ⟨hn, hncount, hshows⟩
    have hpage := (shows_iff hp hn hncount).mp hshows
    have hn' : 1 ≤ n.toNat := UInt64.le_iff_toNat_le.mp hn
    rw [← UInt64.toNat_inj, hnumber, hpage]
    omega

theorem tiles (hp : 0 < p.size) (total : UInt64) : p.Tiles total where
  unique := fun _ hk => exists_unique_page hp hk
  starts := by
    intro n hn hcount
    have hoffset := toNat_offset hp hn hcount
    exact ⟨hoffset, hoffset ▸ (le_count_iff hp hn).mp hcount⟩

/-! ## The nearest page -/

theorem toNat_nearest (p : Page) (n total : UInt64) :
    (p.nearest n total).toNat = max 1 (min n.toNat (max 1 (p.count total).toNat)) := by
  rw [nearest, toNat_max, toNat_min, toNat_max]
  rfl

theorem clamps (p : Page) (total : UInt64) : p.Clamps total where
  bounds := by
    intro n
    rw [UInt64.le_iff_toNat_le, UInt64.le_iff_toNat_le, toNat_nearest, toNat_max]
    show 1 ≤ _ ∧ _ ≤ max 1 _
    omega
  fixed := by
    intro n hn hle
    have hn' : 1 ≤ n.toNat := UInt64.le_iff_toNat_le.mp hn
    have hle' : n.toNat ≤ max 1 (p.count total).toNat := by
      rw [UInt64.le_iff_toNat_le, toNat_max] at hle
      exact hle
    rw [← UInt64.toNat_inj, toNat_nearest]
    omega
  idempotent := by
    intro n
    rw [← UInt64.toNat_inj, toNat_nearest, toNat_nearest]
    omega
  monotone := by
    intro m n hmn
    have hmn' : m.toNat ≤ n.toNat := UInt64.le_iff_toNat_le.mp hmn
    rw [UInt64.le_iff_toNat_le, toNat_nearest, toNat_nearest]
    omega
  empty := by
    intro hp n
    have hcount : (p.count total).toNat = 0 := by rw [count, if_pos hp]; rfl
    rw [← UInt64.toNat_inj, toNat_nearest, hcount]
    show max 1 (min n.toNat 1) = 1
    omega

/-! ## No step fails -/

/-- A quotient is rounded up by adding all but one of the divisor before. -/
theorem add_pred_div {a b : Nat} (hb : 0 < b) :
    (a + b - 1) / b = if a % b = 0 then a / b else a / b + 1 := by
  have hdiv := Nat.div_add_mod a b
  have hmod := Nat.mod_lt a hb
  by_cases h : a % b = 0
  · rw [if_pos h, Nat.div_eq_iff hb, Nat.mul_comm]
    omega
  · rw [if_neg h, Nat.div_eq_iff hb, Nat.succ_mul, Nat.mul_comm]
    omega

theorem count?_eq (p : Page) (total : UInt64) : p.count? total = some (p.count total) := by
  by_cases h : p.size = 0
  · rw [count?, count, if_pos h, if_pos h]
  · have hp : 0 < p.size := UInt64.pos_iff_ne_zero.mpr h
    have hs := toNat_size_pos hp
    have hcount : (p.count total).toNat = (total.toNat + p.size.toNat - 1) / p.size.toNat :=
      toNat_count hp
    rw [add_pred_div hs] at hcount
    have hmod : total % p.size = 0 ↔ total.toNat % p.size.toNat = 0 := by
      rw [← UInt64.toNat_inj, UInt64.toNat_mod]
      rfl
    rw [count?, if_neg h, ceilDiv?, if_neg h]
    by_cases hm : total % p.size = 0
    · rw [if_pos hm, Option.some.injEq, ← UInt64.toNat_inj, hcount, if_pos (hmod.mp hm),
        UInt64.toNat_div]
    · rw [if_neg hm, Option.some.injEq, ← UInt64.toNat_inj, hcount, if_neg (mt hmod.mpr hm),
        UInt64.toNat_add, UInt64.toNat_div]
      refine Nat.mod_eq_of_lt ?_
      have hword := (p.count total).toNat_lt
      rw [hcount, if_neg (mt hmod.mpr hm)] at hword
      exact hword

theorem clamp?_eq {low high : UInt64} (h : low ≤ high) (n : UInt64) :
    clamp? n low high = some (max low (min n high)) := by
  rw [clamp?, if_pos h, Option.some.injEq, ← UInt64.toNat_inj, toNat_max, toNat_min]
  have hle := UInt64.le_iff_toNat_le.mp h
  by_cases hlow : n < low
  · have hlow' := UInt64.lt_iff_toNat_lt.mp hlow
    rw [if_pos hlow]
    omega
  · have hlow' := mt UInt64.lt_iff_toNat_lt.mpr hlow
    rw [if_neg hlow]
    by_cases hhigh : high < n
    · have hhigh' := UInt64.lt_iff_toNat_lt.mp hhigh
      rw [if_pos hhigh]
      omega
    · have hhigh' := mt UInt64.lt_iff_toNat_lt.mpr hhigh
      rw [if_neg hhigh]
      omega

theorem nearest?_eq (p : Page) (n total : UInt64) :
    p.nearest? n total = some (p.nearest n total) := by
  have hbounds : (1 : UInt64) ≤ max 1 (p.count total) := by
    rw [UInt64.le_iff_toNat_le, toNat_max]
    exact Nat.le_max_left _ _
  rw [nearest?, count?_eq]
  exact clamp?_eq hbounds n

/-- The pages of a size above zero tile any number of results. Whatever the size, every number is
brought to the nearest page that is there, without a division by zero or a clamp between bounds that
are the wrong way round. -/
theorem pages_tile_results (p : Page) (total : UInt64) :
    (0 < p.size → p.Tiles total) ∧ p.Clamps total ∧ p.count? total = some (p.count total) ∧
      ∀ n, p.nearest? n total = some (p.nearest n total) :=
  ⟨fun hp => tiles hp total, clamps p total, count?_eq p total, fun n => nearest?_eq p n total⟩

/-- The greatest number of results fills two pages of half the words each. The second one has the
last result, and it is the page nearest to the number 9. -/
theorem pages_tile_results_up_to_greatest :
    (∃! n : UInt64, 1 ≤ n ∧ n ≤ 2 ∧ Shows ⟨n, 9223372036854775808⟩ 18446744073709551614) ∧
      (offset ⟨2, 9223372036854775808⟩).toNat = 9223372036854775808 ∧
      nearest? ⟨1, 9223372036854775808⟩ 9 18446744073709551615 = some 2 := by
  have hsize : (0 : UInt64) < 9223372036854775808 := by decide
  have hcount : count ⟨1, 9223372036854775808⟩ 18446744073709551615 = 2 := by decide
  obtain ⟨htiles, -, -, hnearest⟩ :=
    pages_tile_results ⟨1, 9223372036854775808⟩ 18446744073709551615
  obtain ⟨hunique, hstarts⟩ := htiles hsize
  have hlast := hunique 18446744073709551614 (by decide)
  have hsecond := (hstarts 2 (by decide) (by decide)).1
  rw [hcount] at hlast
  exact ⟨hlast, hsecond, hnearest 9⟩

end SearchComposer.Page
