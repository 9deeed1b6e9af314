import SearchComposer.Condition.Comparator
import SearchComposer.Schema.Property

/-!
# Blocks

A search is composed of blocks: conditions, and operators that join the blocks they hold. Every
block has an id of its own, by which edits name it. The root of a composition is an operator of a
kind of its own, which no other block has.
-/

namespace SearchComposer

/-- The id of a block. -/
structure BlockId where
  /-- The number it was given out under. -/
  number : Nat
  deriving DecidableEq, Repr

/-- How an operator joins its operands. -/
inductive Connective where
  /-- All operands hold. -/
  | and
  /-- Some operand holds. -/
  | or
  /-- No operand holds. -/
  | not
  /-- The operand holds; the kind of the root. -/
  | root
  deriving DecidableEq, Repr

namespace Connective

/-- The name of a connective. -/
def name : Connective → String
  | and => "and"
  | or => "or"
  | not => "not"
  | root => "root"

/-- The connective with a name in letters of either case. -/
def ofName? (s : String) : Option Connective :=
  [and, or, not, root].find? (·.name.toList == s.toList.map Char.toLower)

/-- The connectives that can be chosen, in the order of the menu. -/
def selectable : List Connective := [and, or, not]

/-- How many operands an operator can hold, if there is a limit. -/
def limit? : Connective → Option Nat
  | and => none
  | or => none
  | not => some 1
  | root => some 1

/-- Whether an operator can hold this many operands. -/
def fits (c : Connective) (count : Nat) : Bool :=
  match c.limit? with
  | some limit => count ≤ limit
  | none => true

end Connective

/-- A condition: a property is compared with a value. Each part may still be missing. -/
structure Condition where
  /-- The id of the block. -/
  id : BlockId
  /-- The property that is compared. -/
  property? : Option Property
  /-- How it is compared. -/
  comparator? : Option Comparator
  /-- What it is compared with. -/
  value? : Option Value
  deriving DecidableEq, Repr

/-- Whether all parts are there and the comparator accepts the value. -/
def Condition.isComplete (c : Condition) : Bool :=
  match c.property?, c.comparator? with
  | some _, some comparator => comparator.accepts c.value?
  | _, _ => false

/-- A block. -/
inductive Block where
  /-- A condition. -/
  | condition (c : Condition)
  /-- An operator, with the blocks that it joins. -/
  | operator (id : BlockId) (kind : Connective) (operands : List Block)
  deriving Repr

/-- An operator on its own. -/
structure Operator where
  /-- The id of the block. -/
  id : BlockId
  /-- How the operands are joined. -/
  kind : Connective
  /-- The blocks that are joined. -/
  operands : List Block
  deriving Repr

namespace Operator

/-- An operator as a block. -/
def toBlock (o : Operator) : Block := .operator o.id o.kind o.operands

/-- Whether there is room for one more operand. -/
def hasRoom (o : Operator) : Bool := o.kind.fits (o.operands.length + 1)

end Operator

namespace Block

/-- The id of a block. -/
def id : Block → BlockId
  | condition c => c.id
  | operator id _ _ => id

/-- The condition that a block is, if it is one. -/
def condition? : Block → Option Condition
  | condition c => some c
  | operator .. => none

/-- The operator that a block is, if it is one. -/
def operator? : Block → Option Operator
  | condition _ => none
  | operator id kind operands => some ⟨id, kind, operands⟩

@[simp] theorem operator?_toBlock (o : Operator) : o.toBlock.operator? = some o := rfl

/-! ## Folds over a block and all blocks below it -/

mutual

/-- The ids of a block and of all blocks below it, each operator before its operands. -/
def ids : Block → List BlockId
  | condition c => [c.id]
  | operator id _ operands => id :: idsAll operands

/-- The ids of blocks and of all blocks below them. -/
def idsAll : List Block → List BlockId
  | [] => []
  | b :: bs => ids b ++ idsAll bs

end

mutual

/-- The conditions of a block, from left to right. -/
def conditions : Block → List Condition
  | condition c => [c]
  | operator _ _ operands => conditionsAll operands

/-- The conditions of blocks, from left to right. -/
def conditionsAll : List Block → List Condition
  | [] => []
  | b :: bs => conditions b ++ conditionsAll bs

end

mutual

/-- The height of a block: one for a condition and for an operator without operands. -/
def level : Block → Nat
  | condition _ => 1
  | operator _ _ operands => levelAll operands + 1

/-- The greatest height of some blocks. -/
def levelAll : List Block → Nat
  | [] => 0
  | b :: bs => max (level b) (levelAll bs)

end

mutual

/-- Whether some operator in a block, itself included, is of the kind of the root. -/
def hasRoot : Block → Bool
  | condition _ => false
  | operator _ kind operands => kind == .root || anyHasRoot operands

/-- Whether one of some blocks has a root. -/
def anyHasRoot : List Block → Bool
  | [] => false
  | b :: bs => hasRoot b || anyHasRoot bs

end

mutual

/-- Whether two blocks are equal but for the ids. -/
def alike : Block → Block → Bool
  | condition c, condition d =>
    c.property? == d.property? && c.comparator? == d.comparator? && c.value? == d.value?
  | operator _ k bs, operator _ l cs => k == l && alikeAll bs cs
  | _, _ => false

/-- Whether two lists of blocks are equal but for the ids. -/
def alikeAll : List Block → List Block → Bool
  | [], [] => true
  | b :: bs, c :: cs => alike b c && alikeAll bs cs
  | _, _ => false

end

mutual

/-- Induction over blocks: a property of conditions that holds of an operator whenever it holds of
its operands holds of every block. -/
theorem induction {P : Block → Prop} (condition : ∀ c, P (.condition c))
    (operator : ∀ id kind operands, (∀ b ∈ operands, P b) → P (.operator id kind operands)) :
    ∀ b, P b
  | .condition c => condition c
  | .operator id kind operands =>
    operator id kind operands (inductionAll condition operator operands)

/-- The same for all members of a list of blocks. -/
theorem inductionAll {P : Block → Prop} (condition : ∀ c, P (.condition c))
    (operator : ∀ id kind operands, (∀ b ∈ operands, P b) → P (.operator id kind operands)) :
    ∀ bs : List Block, ∀ b ∈ bs, P b
  | [] => by simp
  | b :: bs =>
    List.forall_mem_cons.mpr
      ⟨induction condition operator b, inductionAll condition operator bs⟩

end

theorem idsAll_eq_flatMap (bs : List Block) : idsAll bs = bs.flatMap ids := by
  induction bs with
  | nil => rfl
  | cons b bs ih => simp [idsAll, ih]

theorem conditionsAll_eq_flatMap (bs : List Block) :
    conditionsAll bs = bs.flatMap conditions := by
  induction bs with
  | nil => rfl
  | cons b bs ih => simp [conditionsAll, ih]

theorem anyHasRoot_eq_any (bs : List Block) : anyHasRoot bs = bs.any hasRoot := by
  induction bs with
  | nil => rfl
  | cons b bs ih => simp [anyHasRoot, ih]

end Block

end SearchComposer
