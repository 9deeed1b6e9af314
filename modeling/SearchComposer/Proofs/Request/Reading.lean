import SearchComposer.Proofs.Block.Change
import SearchComposer.Proofs.Request.Coverage
import SearchComposer.Proofs.Request.Meaning

/-!
# Readings of blocks

The reading of a block is what its query says of a document. An operator puts the readings of its
operands together, so the reading of a whole depends on a block in it only through the reading of
that block: whatever is exchanged somewhere in a tree for blocks of the same reading, the tree reads
as before.
-/

namespace SearchComposer

namespace Block

variable {s : Settings} {passed : Test → Bool} {b : Block}

/-- A block without a root has a reading if all its conditions are complete. -/
theorem exists_reading? (hroot : b.hasRoot = false)
    (hcomplete : ∀ c ∈ b.conditions, c.isComplete = true) :
    ∃ v, b.reading? s passed = some v := by
  have hsome : (b.clause? s).isSome = true := isSome_clause? hroot fun c hc =>
    Condition.isSome_test?_of_isComplete s (hcomplete c hc)
  obtain ⟨q, hq⟩ := Option.isSome_iff_exists.mp hsome
  exact ⟨Clause.isMatch passed q, by rw [reading?, hq, Option.map_some]⟩

end Block

/-- The reading of a path with a block at its end depends on the reading of that block only. -/
theorem Path.reading?_plug {s : Settings} {passed : Test → Bool} {path : Path} {b c : Block}
    (h : b.reading? s passed = c.reading? s passed) :
    (plug path b).reading? s passed = (plug path c).reading? s passed := by
  induction path with
  | nil => exact h
  | cons f fs ih =>
    rw [plug, plug, Block.reading?_operator, Block.reading?_operator]
    simp only [List.map_append, List.map_cons, ih]

/-- An operator reads as before if the operands that changed are put together to the same. -/
theorem Operator.Regrafted.reading?_eq {s : Settings} {passed : Test → Bool} {o o' : Operator}
    {p : BlockId} {kind : Connective} {old new : List Block} (h : o.Regrafted o' p kind old new)
    (hjoin : kind.join? (new.map (Block.reading? s passed)) =
      kind.join? (old.map (Block.reading? s passed))) :
    o'.toBlock.reading? s passed = o.toBlock.reading? s passed := by
  obtain ⟨path, ho, ho'⟩ := h
  rw [ho, ho']
  refine Path.reading?_plug ?_
  rw [Block.reading?_operator, Block.reading?_operator, hjoin]

/-! ## Laws -/

namespace Connective

variable {before inner after : List (Option Bool)} {kind : Connective} {r : Option Bool} {v : Bool}

theorem join?_single (h : kind = .and ∨ kind = .or) (v : Bool) : kind.join? [some v] = some v := by
  rcases h with rfl | rfl <;> simp [join?]

theorem join?_and_flatten (before inner after : List (Option Bool)) :
    join? .and (before ++ inner ++ after) = join? .and (before ++ [join? .and inner] ++ after) := by
  simp [join?, List.reduceOption_append]

/-- A disjunction that says nothing stands for everything, so this one has to say something. -/
theorem join?_or_flatten (h : inner.reduceOption ≠ []) :
    join? .or (before ++ inner ++ after) = join? .or (before ++ [join? .or inner] ++ after) := by
  have hinner : join? .or inner = some (inner.reduceOption.any (· = true)) := by
    simp [join?, h]
  have hflat : (before ++ inner ++ after).reduceOption ≠ [] := by
    simp [List.reduceOption_append, h]
  rw [hinner, join?, List.isEmpty_eq_false_iff.mpr hflat, Bool.false_or]
  simp [join?, List.reduceOption_append]

end Connective

end SearchComposer
