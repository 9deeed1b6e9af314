import SearchComposer.Block.Search
import SearchComposer.Block.Supply

/-!
# Trees

A tree is the composition that is being edited: its root, and the supply that new blocks take their
ids from. The root holds at most one block, the main block.
-/

namespace SearchComposer

/-- A composition. -/
structure Tree where
  /-- The root. -/
  root : Operator
  /-- The ids that were not given out yet. -/
  supply : Supply

namespace Tree

/-- A tree without blocks, with a root that takes its id from a supply. -/
def new (supply : Supply) : Tree :=
  let (root, supply) := (Operator.new .root).run supply
  ⟨root, supply⟩

/-- The block that the root holds, if there is one. -/
def main? (t : Tree) : Option Block := t.root.operands.head?

/-- Whether there is no block but the root. -/
def isEmpty (t : Tree) : Bool := t.root.operands.isEmpty

/-- The block with an id; the root is not looked at. -/
def find? (t : Tree) (x : BlockId) : Option Block := t.root.find? x

/-- The operator with an id, the root included. -/
def operatorAt? (t : Tree) (x : BlockId) : Option Operator := t.root.operatorAt? x

/-- The condition with an id. -/
def condition? (t : Tree) (x : BlockId) : Option Condition := (t.find? x).bind (·.condition?)

/-- The id of the operator that directly holds the block with an id. -/
def holder? (t : Tree) (x : BlockId) : Option BlockId := t.root.holder? x

/-- The height of the main block; zero if there is none. -/
def level (t : Tree) : Nat := (t.main?.map (·.level)).getD 0

/-- The conditions, from left to right. -/
def conditions (t : Tree) : List Condition := (t.main?.map (·.conditions)).getD []

/-! ## Places of edits -/

/-- The operator with an id, or why there is none. -/
def operatorAt (t : Tree) (p : BlockId) : Except Refusal Operator :=
  match t.operatorAt? p with
  | some o => .ok o
  | none => .error (if (t.find? p).isSome then .notAnOperator p else .blockNotFound p)

/-- The operator with an id and the slot of one of its operands, or why there is none. -/
def slotAt (t : Tree) (p x : BlockId) : Except Refusal (Operator × Slot) := do
  let o ← t.operatorAt p
  match o.slot? x with
  | some slot => .ok (o, slot)
  | none => .error (.blockNotFound x)

/-- The operator that directly holds an operator, the slot of the latter and the latter itself. -/
def operatorSlotAt (t : Tree) (p x : BlockId) : Except Refusal (Operator × Slot × Operator) := do
  let (o, slot) ← t.slotAt p x
  match slot.block.operator? with
  | some inner => .ok (o, slot, inner)
  | none => .error (.notAnOperator x)

/-- Whether the operands of an operator fit into the operator that holds it, in its place. -/
def canSplice (outer inner : Operator) : Bool :=
  inner.operands.isEmpty || outer.kind.fits (outer.operands.length - 1 + inner.operands.length)

/-! ## What can be edited -/

/-- Whether there is room for a further operand of the operator with an id. -/
def canAdd (t : Tree) (p : BlockId) : Bool :=
  ((t.operatorAt? p).map (·.hasRoom)).getD false

/-- Whether the operator with an id can be dissolved into the operator that holds it. -/
def canFlatten (t : Tree) (x : BlockId) : Bool :=
  match (t.holder? x).map fun p => t.operatorSlotAt p x with
  | some (.ok (outer, _, inner)) => canSplice outer inner
  | _ => false

/-- The connectives that the operator with an id can be changed to, in the order of the menu. -/
def allowedChanges (t : Tree) (x : BlockId) : List Connective :=
  match (t.find? x).bind (·.operator?) with
  | none => []
  | some o =>
    Connective.selectable.filter fun kind => kind != o.kind && kind.fits o.operands.length

end Tree

end SearchComposer
