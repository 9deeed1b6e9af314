import SearchComposer.Block.Basic

/-!
# Complete conditions

A condition is complete if it has a property and a comparator that accepts its value. No comparator
accepts a missing value, so a complete condition has all three parts. What a condition accepts as a
new value is what its comparator accepts.
-/

namespace SearchComposer

theorem Comparator.accepts_none (k : Comparator) : k.accepts none = false := by
  cases k <;> rfl

namespace Condition

variable {c : Condition}

/-- Whether the comparator of a condition accepts a value; without a comparator all are accepted. -/
def accepts (c : Condition) (value? : Option Value) : Bool :=
  (c.comparator?.map (·.accepts value?)).getD true

theorem accepts_eq {k : Comparator} (hk : c.comparator? = some k) (value? : Option Value) :
    c.accepts value? = k.accepts value? := by
  rw [accepts, hk]
  rfl

theorem isComplete_iff :
    c.isComplete = true ↔
      ∃ p k, c.property? = some p ∧ c.comparator? = some k ∧ k.accepts c.value? = true := by
  unfold isComplete
  cases c.property? <;> cases c.comparator? <;> simp

/-- A complete condition has a value. -/
theorem exists_value_of_isComplete (h : c.isComplete = true) :
    ∃ p k v, c.property? = some p ∧ c.comparator? = some k ∧ c.value? = some v ∧
      k.accepts (some v) = true := by
  obtain ⟨p, k, hp, hk, haccepts⟩ := isComplete_iff.mp h
  cases hv : c.value? with
  | none =>
    rw [hv, Comparator.accepts_none] at haccepts
    cases haccepts
  | some v => exact ⟨p, k, v, hp, hk, rfl, hv ▸ haccepts⟩

theorem accepts_of_isComplete (h : c.isComplete = true) : c.accepts c.value? = true := by
  obtain ⟨p, k, -, hk, haccepts⟩ := isComplete_iff.mp h
  rw [accepts_eq hk]
  exact haccepts

end Condition

end SearchComposer
