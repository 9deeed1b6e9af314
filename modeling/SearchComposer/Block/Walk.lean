import SearchComposer.Block.Search

/-!
# Walks

A walk looks at blocks one after the other. The blocks that are still to come are on a stack: the
walk takes the one on top, and if that is an operator, its operands are put onto the stack, the last
one uppermost. So an operator comes before the blocks below it, and these come from right to left.

Blocks, operators, holders, conditions and roots can each be found on a walk. Walks for a holder have
operators on their stack only.
-/

namespace SearchComposer

namespace Block

/-- The stack after a block was taken from it and the operands of that block were put onto it. -/
def stackOperands (b : Block) (stack : List Block) : List Block :=
  match b with
  | condition _ => stack
  | operator _ _ operands => operands.reverse ++ stack

/-- Taking a block leaves fewer blocks on the stack and below those on it. -/
theorem length_idsAll_stackOperands (b : Block) (stack : List Block) :
    (idsAll (b.stackOperands stack)).length < (idsAll (b :: stack)).length := by
  cases b with
  | condition c => simp [stackOperands, idsAll, ids]
  | operator id kind operands =>
    simp [stackOperands, idsAll, ids, idsAll_eq_flatMap, List.length_flatMap, List.map_reverse]

/-- The answer of the first block on a walk that has one. -/
def walk? {α : Type} (ask : Block → Option α) : List Block → Option α
  | [] => none
  | b :: stack =>
    match ask b with
    | some a => some a
    | none => walk? ask (b.stackOperands stack)
termination_by stack => (idsAll stack).length
decreasing_by exact length_idsAll_stackOperands b stack

/-- The conditions on a walk, in the order in which they come. -/
def walkConditions : List Block → List Condition
  | [] => []
  | b :: stack => b.condition?.toList ++ walkConditions (b.stackOperands stack)
termination_by stack => (idsAll stack).length
decreasing_by exact length_idsAll_stackOperands b stack

/-- The conditions of a block, listed on a walk from it. -/
def listConditions (b : Block) : List Condition := walkConditions [b]

/-- Whether there is an operator of the kind of the root on a walk from a block. -/
def meetsRoot (b : Block) : Bool :=
  (walk? (fun c => c.operator?.bind fun o => if o.kind = .root then some o else none) [b]).isSome

end Block

namespace Operator

open Block (idsAll idsAll_eq_flatMap)

/-- The operands that are operators. -/
def nested (o : Operator) : List Operator := o.operands.filterMap Block.operator?

/-- The operators among some blocks hold no more blocks than all of them. -/
theorem length_idsAll_operators_le (bs : List Block) :
    (idsAll ((bs.filterMap Block.operator?).map toBlock)).length ≤ (idsAll bs).length := by
  induction bs with
  | nil => exact Nat.le_refl _
  | cons b bs ih =>
    cases b with
    | condition c =>
      rw [List.filterMap_cons_none rfl, idsAll, List.length_append]
      exact Nat.le_add_left_of_le ih
    | operator id kind operands =>
      have hhead : (Block.operator id kind operands).operator? = some ⟨id, kind, operands⟩ := rfl
      rw [List.filterMap_cons_some hhead, List.map_cons, idsAll, idsAll, List.length_append,
        List.length_append]
      exact Nat.add_le_add_left ih _

/-- Taking an operator leaves fewer blocks on the stack and below those on it. -/
theorem length_idsAll_nested (o : Operator) (stack : List Operator) :
    (idsAll ((o.nested.reverse ++ stack).map toBlock)).length <
      (idsAll ((o :: stack).map toBlock)).length := by
  have hnested := length_idsAll_operators_le o.operands
  simp only [nested, toBlock, idsAll_eq_flatMap, List.length_flatMap, List.map_append,
    List.map_reverse, List.map_cons, List.sum_append, List.sum_reverse, List.sum_cons, Block.ids,
    List.length_cons] at hnested ⊢
  omega

/-- The id of the first operator on a walk that holds a block with an id. Operands are looked at
before the operator that is taken next. -/
def walkHolder? (x : BlockId) : List Operator → Option BlockId
  | [] => none
  | o :: stack =>
    if o.operands.any (·.id == x) then some o.id else walkHolder? x (o.nested.reverse ++ stack)
termination_by stack => (idsAll (stack.map toBlock)).length
decreasing_by exact length_idsAll_nested o stack

/-- The block with an id below an operator, found on a walk from its operands. -/
def seek? (o : Operator) (x : BlockId) : Option Block :=
  Block.walk? (fun b => if b.id = x then some b else none) o.operands.reverse

/-- The operator with an id, found on a walk: the operator itself or one below it. -/
def seekOperator? (o : Operator) (x : BlockId) : Option Operator :=
  if o.id = x then some o else (o.seek? x).bind Block.operator?

/-- The id of the operator that directly holds the block with an id, found on a walk. -/
def seekHolder? (o : Operator) (x : BlockId) : Option BlockId :=
  walkHolder? x [o]

/-- The position of the first operand with an id. -/
def position? (o : Operator) (x : BlockId) : Option Nat :=
  o.operands.findIdx? (·.id == x)

end Operator

end SearchComposer
