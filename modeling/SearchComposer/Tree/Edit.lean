import SearchComposer.Tree.Basic

/-!
# Edits of a tree

Edits name the blocks that they are about by their ids, together with the operator that holds them.
An edit looks up the slot it is about, and then changes the operands of one operator. All reasons
for refusal are met before the change. Edits that take blocks out of the tree return them.
-/

namespace SearchComposer.Tree

/-- An edit of a tree: it may be refused, and what it did to the tree until then remains. -/
abbrev Edit := EStateM Refusal Tree

/-- What a look-up in the tree gives. -/
def look {α : Type} (lookUp : Tree → Except Refusal α) : Edit α := do
  match lookUp (← get) with
  | .ok a => return a
  | .error e => throw e

/-- Gives the operator with an id other operands. -/
def setOperands (p : BlockId) (operands : List Block) : Edit Unit :=
  modify fun t => { t with root := t.root.setOperands p operands }

/-- Takes a new id. -/
def takeId : Edit BlockId :=
  modifyGet fun t =>
    let (id, supply) := Supply.take.run t.supply
    (id, { t with supply := supply })

/-- Refuses a block with a root in it. -/
def requireNestable (b : Block) : Edit Unit :=
  if b.hasRoot then throw .rootNotNestable else pure ()

/-- Refuses the kind of the root. -/
def requireSelectable (kind : Connective) : Edit Unit :=
  if kind = .root then throw .rootNotNestable else pure ()

/-- Adds a block as the last operand of an operator. Returns its id. -/
def add (p : BlockId) (b : Block) : Edit BlockId := do
  requireNestable b
  let o ← look (·.operatorAt p)
  match o.push b with
  | .ok o' =>
    setOperands p o'.operands
    return b.id
  | .error e => throw e

/-- Puts a block in the place of an operand. Returns that operand. -/
def replace (p old : BlockId) (b : Block) : Edit Block := do
  requireNestable b
  let (_, slot) ← look (·.slotAt p old)
  setOperands p (slot.fill [b])
  return slot.block

/-- Takes out an operand. Returns it. -/
def remove (p x : BlockId) : Edit Block := do
  let (_, slot) ← look (·.slotAt p x)
  setOperands p (slot.fill [])
  return slot.block

/-- Puts a new operator in the place of an operand, with that operand as its only one. Returns the
id of the new operator. -/
def surround (x p : BlockId) (kind : Connective) : Edit BlockId := do
  requireSelectable kind
  let (_, slot) ← look (·.slotAt p x)
  let id ← takeId
  setOperands p (slot.fill [.operator id kind [slot.block]])
  return id

/-- Changes the kind of an operator, under a new id. Returns the new id. -/
def change (x p : BlockId) (kind : Connective) : Edit BlockId := do
  requireSelectable kind
  let (_, slot, o) ← look (·.operatorSlotAt p x)
  if kind.fits o.operands.length then
    let id ← takeId
    setOperands p (slot.fill [.operator id kind o.operands])
    return id
  else
    throw (.tooManyOperands kind o.operands.length)

/-- Puts the operands of an operator in its place. -/
def flatten (x p : BlockId) : Edit Unit := do
  let (outer, slot, inner) ← look (·.operatorSlotAt p x)
  if canSplice outer inner then
    setOperands p (slot.fill inner.operands)
  else
    throw (.cannotFlatten x)

/-- The tree after the condition with an id was given another value. -/
def setValue (t : Tree) (x : BlockId) (value? : Option Value) : Tree :=
  { t with root := t.root.setValue x value? }

end SearchComposer.Tree
