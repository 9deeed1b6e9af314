import SearchComposer.Outline.Shape
import SearchComposer.Proofs.Outline.Chains

/-!
# Merged shapes

A shape is known by its chains of names: shapes with the same chains are the same. To extend a shape
under a name changes the chains that start with this name and no others, so that a merged shape has
the chains of both its parts. Therefore merging has the laws of the union of sets.
-/

namespace SearchComposer.Shape

variable {s t : Shape} {name first : String} {chain rest : List String}

/-! ## Chains of a shape -/

theorem ext_chains (h : ∀ chain, chain ∈ s.chains ↔ chain ∈ t.chains) : s = t := by
  refine Outline.ext_at? fun chain => ?_
  have hiff := h chain
  rw [Outline.mem_chains_iff, Outline.mem_chains_iff] at hiff
  cases hs : s.at? chain with
  | some found =>
    obtain ⟨found', hfound'⟩ := hiff.mp ⟨found, hs⟩
    rw [hfound']
    rfl
  | none =>
    cases ht : t.at? chain with
    | some found' =>
      obtain ⟨found, hfound⟩ := hiff.mpr ⟨found', ht⟩
      rw [hs] at hfound
      cases hfound
    | none => rfl

theorem not_mem_chains_empty : chain ∉ (Outline.empty : Shape).chains :=
  List.not_mem_nil

theorem mem_chains_below (h : rest ≠ []) :
    rest ∈ (s.below name).chains ↔ name :: rest ∈ s.chains := by
  rw [Outline.mem_chains_iff, Outline.mem_chains_iff, Outline.at?_below s name h]

theorem mem_chains_extend {grow : Shape → Shape} : first :: rest ∈ (s.extend name grow).chains ↔
    if first = name then rest = [] ∨ rest ∈ (grow (s.below name)).chains
    else first :: rest ∈ s.chains := by
  rw [Outline.mem_chains_iff, extend, graft, Outline.at?_put]
  by_cases hname : first = name
  · rw [if_pos hname, if_pos hname]
    by_cases hrest : rest = []
    · simp [hrest]
    · simp [hrest, Outline.mem_chains_iff]
  · rw [if_neg hname, if_neg hname, Outline.mem_chains_iff]

/-- If a shape grows by the chains of some set under a name, then it grows as a whole by the name
and by these chains below it. -/
theorem mem_chains_extend_of {grow : Shape → Shape} {added : List String → Prop}
    (h : ∀ rest, rest ∈ (grow (s.below name)).chains ↔ rest ∈ (s.below name).chains ∨ added rest) :
    chain ∈ (s.extend name grow).chains ↔
      chain ∈ s.chains ∨ chain = [name] ∨ ∃ rest, added rest ∧ name :: rest = chain := by
  cases chain with
  | nil => simp [Outline.nil_not_mem_chains]
  | cons first rest =>
    rw [mem_chains_extend]
    by_cases hname : first = name
    · subst hname
      by_cases hrest : rest = []
      · simp [hrest]
      · simp [hrest, h, mem_chains_below hrest]
    · simp [hname, Ne.symm hname]

/-! ## Merging -/

/-- Adding the chains of a forest adds them all and no others. -/
theorem mem_chains_absorb (s : Shape) (f : Forest Unit) (chain : List String) :
    chain ∈ (s.absorb f).chains ↔ chain ∈ s.chains ∨ chain ∈ f.chains := by
  induction f generalizing s chain with
  | nil =>
    rw [absorb, Forest.chains]
    exact (or_iff_left List.not_mem_nil).symm
  | node name v children siblings ihc ihs =>
    rw [absorb, ihs, mem_chains_extend_of (ihc (s.below name)), Forest.mem_chains_node]
    simp only [or_assoc]

theorem mem_chains_merge : chain ∈ (s.merge t).chains ↔ chain ∈ s.chains ∨ chain ∈ t.chains :=
  mem_chains_absorb s t.forest chain

theorem mem_chains_foldl_merge {ss : List Shape} : chain ∈ (ss.foldl merge s).chains ↔
    chain ∈ s.chains ∨ ∃ t ∈ ss, chain ∈ t.chains := by
  induction ss generalizing s with
  | nil => simp
  | cons t ss ih => simp [ih, mem_chains_merge, or_assoc]

/-- A shape is the union of two others if it has their chains and no others. -/
theorem merge_eq_iff {u : Shape} :
    s.merge t = u ↔ ∀ chain, chain ∈ u.chains ↔ chain ∈ s.chains ∨ chain ∈ t.chains := by
  constructor
  · rintro rfl chain
    exact mem_chains_merge
  · intro h
    exact ext_chains fun chain => mem_chains_merge.trans (h chain).symm

/-- The chains of a merged shape are those of its parts. Therefore the parts may be merged in any
order, however they are grouped and repeated, the shape without names adds nothing, and a shape adds
nothing to another one exactly if all its chains are there. -/
theorem merge_unites_chains :
    (∀ (s t : Shape) (chain : List String),
      chain ∈ (s.merge t).chains ↔ chain ∈ s.chains ∨ chain ∈ t.chains) ∧
    (∀ s t : Shape, s.merge t = t.merge s) ∧
    (∀ s t u : Shape, (s.merge t).merge u = s.merge (t.merge u)) ∧
    (∀ s : Shape, s.merge s = s) ∧
    (∀ s : Shape, merge .empty s = s ∧ s.merge .empty = s) ∧
    (∀ s t : Shape, s.merge t = t ↔ s.chains ⊆ t.chains) ∧
    ∀ (ss ts : List Shape), (∀ t, t ∈ ss ↔ t ∈ ts) →
      ∀ s : Shape, ss.foldl merge s = ts.foldl merge s := by
  refine ⟨fun s t chain => mem_chains_merge, ?_, ?_, ?_, ?_, ?_, ?_⟩
  · intro s t
    refine merge_eq_iff.mpr fun chain => ?_
    rw [mem_chains_merge, or_comm]
  · intro s t u
    refine merge_eq_iff.mpr fun chain => ?_
    rw [mem_chains_merge, mem_chains_merge, mem_chains_merge, or_assoc]
  · intro s
    exact merge_eq_iff.mpr fun chain => (or_self_iff).symm
  · intro s
    constructor
    · exact merge_eq_iff.mpr fun chain => (or_iff_right not_mem_chains_empty).symm
    · exact merge_eq_iff.mpr fun chain => (or_iff_left not_mem_chains_empty).symm
  · intro s t
    rw [merge_eq_iff]
    exact forall_congr' fun chain => iff_or_self
  · intro ss ts hsame s
    refine ext_chains fun chain => ?_
    rw [mem_chains_foldl_merge, mem_chains_foldl_merge]
    simp only [hsame]

/-- One of the shapes is there twice, and a name is common to both. -/
theorem merge_unites_chains_of_repeated_shape :
    ∃ s t : Shape, s.chains = [["a"], ["a", "b"]] ∧ t.chains = [["a"], ["a", "c"], ["d"]] ∧
      (s.merge t).merge s = t.merge s ∧ [s, t, s].foldl merge .empty = [t, s].foldl merge .empty ∧
      (t.merge s).chains = [["a"], ["a", "b"], ["a", "c"], ["d"]] := by
  let s : Shape := ensure .empty ["a", "b"]
  let t : Shape := [["d"], ["a", "c"]].foldl ensure .empty
  obtain ⟨-, hcomm, hassoc, hself, -, -, hfoldl⟩ := merge_unites_chains
  refine ⟨s, t, by decide, by decide, ?_, ?_, by decide⟩
  · calc (s.merge t).merge s = (t.merge s).merge s := by rw [hcomm s t]
      _ = t.merge (s.merge s) := hassoc t s s
      _ = t.merge s := by rw [hself]
  · refine hfoldl [s, t, s] [t, s] (fun u => ?_) .empty
    simp only [List.mem_cons, List.not_mem_nil, or_false]
    exact ⟨fun h => h.elim .inr id, .inr⟩

end SearchComposer.Shape
