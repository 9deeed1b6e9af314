import SearchComposer.Block.Refusal

/-!
# New blocks

Ids are given out in order by a supply and never twice. A new block takes its id from the supply; a
copy of a block takes an id for every block in it, each operator before its operands.
-/

namespace SearchComposer

/-- The ids that are still to be given out: all from a number on. -/
structure Supply where
  /-- The number of the next id. -/
  next : Nat
  deriving DecidableEq, Repr

/-- A step that may take ids from the supply. -/
abbrev Fresh := StateM Supply

namespace Supply

/-- Takes the next id. -/
def take : Fresh BlockId := fun s => (⟨s.next⟩, ⟨s.next + 1⟩)

end Supply

/-- A new condition. -/
def Condition.new (property? : Option Property) (comparator? : Option Comparator)
    (value? : Option Value) : Fresh Condition := do
  return { id := ← Supply.take, property?, comparator?, value? }

namespace Operator

/-- A new operator without operands. -/
def new (kind : Connective) : Fresh Operator := do
  return { id := ← Supply.take, kind, operands := [] }

/-- The operator with one more operand, if there is room for it and it has no root. -/
def push (o : Operator) (b : Block) : Except Refusal Operator :=
  if b.hasRoot then .error .rootNotNestable
  else
    match o.kind.limit? with
    | some limit =>
      if limit ≤ o.operands.length then .error (.operandLimit o.kind limit)
      else .ok { o with operands := o.operands ++ [b] }
    | none => .ok { o with operands := o.operands ++ [b] }

/-- A new operator with the given operands. Its id is taken even if they do not fit. -/
def ofOperands (kind : Connective) (operands : List Block) : Fresh (Except Refusal Operator) := do
  return operands.foldlM push (← new kind)

end Operator

namespace Block

mutual

/-- A copy of a block under new ids. -/
def copy : Block → Fresh Block
  | condition c => do return condition { c with id := ← Supply.take }
  | operator _ kind operands => do
    let id ← Supply.take
    return operator id kind (← copyAll operands)

/-- Copies of blocks under new ids, in order. -/
def copyAll : List Block → Fresh (List Block)
  | [] => return []
  | b :: bs => do
    let b' ← copy b
    let bs' ← copyAll bs
    return b' :: bs'

end

end Block

end SearchComposer
