import SearchComposer.Condition.Input
import SearchComposer.Condition.Viewer
import SearchComposer.Drafts
import SearchComposer.Request.Basic
import SearchComposer.Tree.Edit

/-!
# Sessions

A session is the work of one viewer on one composition: the tree, the drafts of the conditions that
are being edited, and what is known about the viewer. Only complete conditions enter the tree, a
draft is put into its condition only if it is valid, and the drafts of conditions that leave the
tree go with them. So the tree holds complete conditions only, and a request can be made whenever no
draft is invalid.
-/

namespace SearchComposer

/-- The work on one composition. -/
structure Session where
  /-- The settings. -/
  settings : Settings
  /-- Who composes. -/
  viewer : Viewer
  /-- The composition. -/
  tree : Tree
  /-- The drafts of the conditions that are being edited. -/
  drafts : Drafts

namespace Session

/-- An edit of a session: it may be refused, and what it did to the session until then remains. -/
abbrev Edit := EStateM Refusal Session

/-- A session with an empty tree. -/
def new (settings : Settings) (spaces : List Space) (supply : Supply) : Session where
  settings := settings
  viewer := ⟨spaces, settings.zone⟩
  tree := .new supply
  drafts := .empty

/-- Changes the spaces to choose from. -/
def setSpaces (s : Session) (spaces : List Space) : Session :=
  { s with viewer := { s.viewer with spaces := spaces } }

/-- Starts over with an empty tree. -/
def reset (s : Session) : Session :=
  { s with tree := .new s.tree.supply, drafts := .empty }

/-! ## New conditions -/

/-- A new condition with the value that its comparator starts with. -/
def newCondition (s : Session) (now : Time.Instant) (p : Property) (c : Comparator) :
    Fresh Condition :=
  Condition.new (some p) (some c) (s.viewer.defaultValue? now c)

/-- A new condition with the first comparator for the type of its property, if there is one. -/
def newConditionOn (s : Session) (now : Time.Instant) (p : Property) : Option (Fresh Condition) :=
  (Comparator.forType p.dataType).head?.map (s.newCondition now p)

/-! ## Edits of the tree -/

/-- Edits the tree of the session. -/
def onTree {α : Type} (edit : Tree.Edit α) : Edit α := fun s =>
  match edit s.tree with
  | .ok a t => .ok a { s with tree := t }
  | .error e t => .error e { s with tree := t }

/-- The rightmost condition of a block that is not complete. -/
def incomplete? (b : Block) : Option Condition :=
  b.conditions.reverse.find? (!·.isComplete)

/-- Refuses a block with a condition that is not complete. -/
def requireComplete (b : Block) : Edit Unit :=
  match incomplete? b with
  | some c => throw (.incomplete c.id)
  | none => pure ()

/-- Ends the drafts of all conditions of a block. -/
def forget (b : Block) : Edit Unit :=
  modify fun s => { s with drafts := s.drafts.forget b }

/-- Puts an operator in the place of the main block, which becomes its last operand. -/
def wrap (p : BlockId) (main b : Block) : Edit BlockId := do
  match b.operator? with
  | none => throw (.operandLimit .root 1)
  | some o =>
    if b.hasRoot then throw .rootNotNestable
    if !o.hasRoom then throw (.operandLimit o.kind (o.kind.limit?.getD o.operands.length))
    let previous ← onTree (Tree.replace p main.id b)
    discard (onTree (Tree.add b.id previous))
    return b.id

/-- Adds a block to an operator. If the operator is the root and holds a block already, the new
block has to be an operator, which takes that block in. Returns the id of the new block. -/
def add (p : BlockId) (b : Block) : Edit BlockId := do
  requireComplete b
  let t := (← get).tree
  match t.main? with
  | some main => if p = t.root.id then wrap p main b else onTree (Tree.add p b)
  | none => onTree (Tree.add p b)

/-- Puts a block in the place of an operand. -/
def replace (p old : BlockId) (b : Block) : Edit Unit := do
  requireComplete b
  forget (← onTree (Tree.replace p old b))

/-- Takes out an operand. -/
def remove (p x : BlockId) : Edit Unit := do
  forget (← onTree (Tree.remove p x))

/-- Puts a new operator around an operand. Returns its id. -/
def surround (x p : BlockId) (kind : Connective) : Edit BlockId :=
  onTree (Tree.surround x p kind)

/-- Changes the kind of an operator. Returns its new id. -/
def change (x p : BlockId) (kind : Connective) : Edit BlockId :=
  onTree (Tree.change x p kind)

/-- Puts the operands of an operator in its place. -/
def flatten (x p : BlockId) : Edit Unit :=
  onTree (Tree.flatten x p)

/-! ## Edits of conditions -/

/-- The condition with an id, or why there is none. -/
def condition (x : BlockId) : Edit Condition := do
  match (← get).tree.find? x with
  | some (.condition c) => return c
  | some (.operator ..) => throw (.notACondition x)
  | none => throw (.blockNotFound x)

/-- The draft of a condition, or a refusal. -/
def draft (x : BlockId) : Edit Draft := do
  match (← get).drafts.get? x with
  | some d => return d
  | none => throw (.notEdited x)

/-- Changes the drafts. -/
def modifyDrafts (f : Drafts → Drafts) : Edit Unit :=
  modify fun s => { s with drafts := f s.drafts }

/-- Starts to edit a condition: its value becomes a draft. -/
def startEdit (x : BlockId) : Edit Unit := do
  let c ← condition x
  modifyDrafts (·.start x c.value?)

/-- Applies a step of editing to the draft of a condition. Returns whether the draft is valid. -/
def updateEdit (x : BlockId) (input : Input) : Edit Bool := do
  let c ← condition x
  let d ← draft x
  let value? := input.apply d.value?
  let isValid := (c.comparator?.map (·.accepts value?)).getD true
  modifyDrafts (·.update x value? isValid)
  return isValid

/-- Puts the draft of a condition into the condition. A draft that is not valid stays a draft. -/
def finishEdit (x : BlockId) : Edit Unit := do
  let d ← draft x
  if !d.isValid then throw (.invalidValue x)
  match (← get).tree.condition? x with
  | none => throw (.blockNotFound x)
  | some _ =>
    modify fun s => { s with tree := s.tree.setValue x d.value?, drafts := s.drafts.finish x }

/-- Drops the draft of a condition. -/
def cancelEdit (x : BlockId) : Edit Unit := do
  discard (draft x)
  modifyDrafts (·.finish x)

/-! ## The request -/

/-- Whether a request can be made: no draft is invalid, and all conditions are complete. -/
def canSubmit (s : Session) : Bool :=
  !s.drafts.anyInvalid && s.tree.conditions.all (·.isComplete)

/-- The ordering unless something else is asked for. -/
def defaultRanking (s : Session) : Ranking := ⟨none, s.settings.direction⟩

/-- The request, if one can be made. -/
def request? (s : Session) (visible? : Option Shape) (ranking : Ranking) (page : Page) :
    Option Request :=
  if s.canSubmit then some (.of s.settings s.tree.root visible? ranking page) else none

end Session

end SearchComposer
