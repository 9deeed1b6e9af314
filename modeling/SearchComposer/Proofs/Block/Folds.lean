import SearchComposer.Block.Search

/-!
# Folds over lists of blocks

The ids, the conditions, the roots and the limits of a list of blocks are those of its parts. With
this, what an edit does to the operands of one operator is seen in what it does to the folds.
-/

namespace SearchComposer.Block

@[simp] theorem idsAll_append (bs cs : List Block) :
    idsAll (bs ++ cs) = idsAll bs ++ idsAll cs := by
  simp [idsAll_eq_flatMap]

@[simp] theorem conditionsAll_append (bs cs : List Block) :
    conditionsAll (bs ++ cs) = conditionsAll bs ++ conditionsAll cs := by
  simp [conditionsAll_eq_flatMap]

@[simp] theorem anyHasRoot_append (bs cs : List Block) :
    anyHasRoot (bs ++ cs) = (anyHasRoot bs || anyHasRoot cs) := by
  simp [anyHasRoot_eq_any]

theorem mem_idsAll {x : BlockId} {bs : List Block} : x ∈ idsAll bs ↔ ∃ b ∈ bs, x ∈ ids b := by
  simp [idsAll_eq_flatMap]

theorem mem_conditionsAll {c : Condition} {bs : List Block} :
    c ∈ conditionsAll bs ↔ ∃ b ∈ bs, c ∈ conditions b := by
  simp [conditionsAll_eq_flatMap]

/-- The first id of a block is its own. -/
theorem id_mem_ids (b : Block) : b.id ∈ b.ids := by
  cases b <;> simp [id, ids]

/-! ## Limits -/

mutual

/-- Whether every operator in a block, itself included, holds no more operands than an operator of
its kind can. -/
def keepsLimits : Block → Bool
  | condition _ => true
  | operator _ kind operands => kind.fits operands.length && allKeepLimits operands

/-- Whether all of some blocks keep the limits. -/
def allKeepLimits : List Block → Bool
  | [] => true
  | b :: bs => keepsLimits b && allKeepLimits bs

end

theorem allKeepLimits_eq_all (bs : List Block) : allKeepLimits bs = bs.all keepsLimits := by
  induction bs with
  | nil => rfl
  | cons b bs ih => simp [allKeepLimits, ih]

@[simp] theorem allKeepLimits_append (bs cs : List Block) :
    allKeepLimits (bs ++ cs) = (allKeepLimits bs && allKeepLimits cs) := by
  simp [allKeepLimits_eq_all]

/-- A limit that admits some number of operands admits every lower one. -/
theorem fits_of_le {kind : Connective} {m n : Nat} (h : kind.fits n = true) (hmn : m ≤ n) :
    kind.fits m = true := by
  cases kind <;> simp_all [Connective.fits, Connective.limit?] <;> omega

/-- Every operator can hold one operand. -/
@[simp] theorem fits_one (kind : Connective) : kind.fits 1 = true := by
  cases kind <;> rfl

/-- Every operator can be empty. -/
@[simp] theorem fits_zero (kind : Connective) : kind.fits 0 = true := by
  cases kind <;> rfl

theorem keepsLimits_empty (id : BlockId) (kind : Connective) :
    keepsLimits (.operator id kind []) = true := by
  simp [keepsLimits, allKeepLimits]

/-- A root holds one block if it holds any. -/
theorem eq_nil_or_singleton_of_fits_root {bs : List Block}
    (h : Connective.root.fits bs.length = true) : bs = [] ∨ ∃ b, bs = [b] := by
  have hlen : bs.length ≤ 1 := by simpa [Connective.fits, Connective.limit?] using h
  cases bs with
  | nil => exact .inl rfl
  | cons b bs =>
    obtain rfl : bs = [] := List.eq_nil_of_length_eq_zero (by simpa using hlen)
    exact .inr ⟨b, rfl⟩

end SearchComposer.Block
