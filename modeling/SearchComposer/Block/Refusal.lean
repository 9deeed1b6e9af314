import SearchComposer.Block.Basic

/-!
# Refusals

An edit that cannot be made is refused for one of these reasons.
-/

namespace SearchComposer

/-- Why an edit is refused. -/
inductive Refusal where
  /-- There is no block with the id. -/
  | blockNotFound (id : BlockId)
  /-- The block is a condition. -/
  | notAnOperator (id : BlockId)
  /-- The block is an operator. -/
  | notACondition (id : BlockId)
  /-- An operator of this kind holds as many operands as it can. -/
  | operandLimit (kind : Connective) (limit : Nat)
  /-- An operator of this kind cannot hold this many operands. -/
  | tooManyOperands (kind : Connective) (operands : Nat)
  /-- The operands of the block do not fit into the operator that holds it. -/
  | cannotFlatten (id : BlockId)
  /-- A root would be below another block. -/
  | rootNotNestable
  /-- The condition is not being edited. -/
  | notEdited (id : BlockId)
  /-- The value that was edited is not acceptable. -/
  | invalidValue (id : BlockId)
  /-- The condition lacks a part, or its value is not acceptable. -/
  | incomplete (id : BlockId)
  deriving DecidableEq, Repr

/-- An id as it is shown. -/
def BlockId.text (id : BlockId) : String :=
  "#" ++ toString id.number

/-- The text of a refusal. -/
def Refusal.message : Refusal → String
  | blockNotFound id => "Block not found: " ++ id.text
  | notAnOperator id => "Block " ++ id.text ++ " is not an operator"
  | notACondition id => "Block " ++ id.text ++ " is not a condition"
  | operandLimit kind limit =>
    kind.name ++ " operator accepts at most " ++ toString limit ++ " operand(s)"
  | tooManyOperands kind operands =>
    "Cannot change a block with " ++ toString operands ++ " operand(s) to " ++ kind.name
  | cannotFlatten id => "Operands of block " ++ id.text ++ " do not fit into its parent"
  | rootNotNestable => "Root block cannot be nested"
  | notEdited id => "Condition " ++ id.text ++ " is not being edited"
  | invalidValue id => "Condition " ++ id.text ++ " has an invalid value"
  | incomplete id => "Condition " ++ id.text ++ " is incomplete or has an invalid value"

end SearchComposer
