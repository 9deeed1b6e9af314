import SearchComposer.Block.Basic

/-!
# Finding blocks

Blocks are found by their ids at any depth. The slot of a block is its place among the operands of
an operator: what stands before it, the block, and what stands after it. Filling a slot puts any
number of blocks into that place.
-/

namespace SearchComposer

namespace Block

mutual

/-- The block with an id, among a block and all blocks below it. -/
def find? (x : BlockId) : Block → Option Block
  | condition c => if c.id = x then some (condition c) else none
  | operator id kind operands =>
    if id = x then some (operator id kind operands) else findIn? x operands

/-- The block with an id, among some blocks and all blocks below them. -/
def findIn? (x : BlockId) : List Block → Option Block
  | [] => none
  | b :: bs => (find? x b).or (findIn? x bs)

end

mutual

/-- The id of the operator in a block that directly holds the block with an id. -/
def holder? (x : BlockId) : Block → Option BlockId
  | condition _ => none
  | operator id _ operands =>
    if operands.any (·.id == x) then some id else holderIn? x operands

/-- The id of the operator in one of some blocks that directly holds the block with an id. -/
def holderIn? (x : BlockId) : List Block → Option BlockId
  | [] => none
  | b :: bs => (holder? x b).or (holderIn? x bs)

end

mutual

/-- A block in which the operator with an id holds the given operands instead. -/
def setOperands (p : BlockId) (operands : List Block) : Block → Block
  | condition c => condition c
  | operator id kind bs =>
    operator id kind (if id = p then operands else setOperandsIn p operands bs)

/-- Blocks in which the operator with an id holds the given operands instead. -/
def setOperandsIn (p : BlockId) (operands : List Block) : List Block → List Block
  | [] => []
  | b :: bs => setOperands p operands b :: setOperandsIn p operands bs

end

mutual

/-- A block in which the condition with an id has the given value instead. -/
def setValue (x : BlockId) (value? : Option Value) : Block → Block
  | condition c => condition (if c.id = x then { c with value? := value? } else c)
  | operator id kind operands => operator id kind (setValueIn x value? operands)

/-- Blocks in which the condition with an id has the given value instead. -/
def setValueIn (x : BlockId) (value? : Option Value) : List Block → List Block
  | [] => []
  | b :: bs => setValue x value? b :: setValueIn x value? bs

end

end Block

/-- The place of a block among the operands of an operator. -/
structure Slot where
  /-- The operands before the block. -/
  before : List Block
  /-- The block. -/
  block : Block
  /-- The operands after the block. -/
  after : List Block

namespace Slot

/-- The slot of the first block with an id. -/
def find? (x : BlockId) : List Block → Option Slot
  | [] => none
  | b :: bs =>
    if b.id = x then some ⟨[], b, bs⟩
    else (find? x bs).map fun s => { s with before := b :: s.before }

/-- The operands with some blocks in the place of the block. -/
def fill (s : Slot) (blocks : List Block) : List Block :=
  s.before ++ blocks ++ s.after

/-- The slot of a block has that block, and filling it with the block changes nothing. -/
theorem find?_eq_some {x : BlockId} {bs : List Block} {s : Slot} (h : find? x bs = some s) :
    s.block.id = x ∧ s.fill [s.block] = bs := by
  induction bs generalizing s with
  | nil => simp [find?] at h
  | cons b bs ih =>
    unfold find? at h
    split at h
    · next hb => cases h; exact ⟨hb, rfl⟩
    · obtain ⟨t, ht, rfl⟩ := Option.map_eq_some_iff.mp h
      obtain ⟨hid, hfill⟩ := ih ht
      exact ⟨hid, by simpa [fill] using hfill⟩

/-- There is no slot exactly if no operand has the id. -/
theorem find?_eq_none {x : BlockId} {bs : List Block} :
    find? x bs = none ↔ ∀ b ∈ bs, b.id ≠ x := by
  induction bs with
  | nil => simp [find?]
  | cons b bs ih =>
    by_cases hb : b.id = x
    · simp [find?, hb]
    · simp [find?, hb, ih]

end Slot

namespace Operator

/-- The block with an id below an operator. The operator itself is not looked at. -/
def find? (o : Operator) (x : BlockId) : Option Block :=
  Block.findIn? x o.operands

/-- The operator with an id: the operator itself or one below it. -/
def operatorAt? (o : Operator) (x : BlockId) : Option Operator :=
  if o.id = x then some o else (o.find? x).bind Block.operator?

/-- The id of the operator that directly holds the block with an id. -/
def holder? (o : Operator) (x : BlockId) : Option BlockId :=
  Block.holder? x o.toBlock

/-- The place of the block with an id among the operands. -/
def slot? (o : Operator) (x : BlockId) : Option Slot :=
  Slot.find? x o.operands

/-- The operator after the operator with an id, itself or one below it, was given other operands. -/
def setOperands (o : Operator) (p : BlockId) (operands : List Block) : Operator :=
  { o with
    operands := if o.id = p then operands else Block.setOperandsIn p operands o.operands }

/-- The operator after the condition with an id was given another value. -/
def setValue (o : Operator) (x : BlockId) (value? : Option Value) : Operator :=
  { o with operands := Block.setValueIn x value? o.operands }

theorem toBlock_setOperands (o : Operator) (p : BlockId) (operands : List Block) :
    (o.setOperands p operands).toBlock = o.toBlock.setOperands p operands := rfl

end Operator

end SearchComposer
