import SearchComposer.Block.Basic

/-!
# Drafts

While a condition is edited its new value is a draft: it is kept beside the tree, with whether the
comparator accepts it, until it is put into the condition or dropped. At most one draft is kept for
a condition.
-/

namespace SearchComposer

/-- The value of a condition that is being edited. -/
structure Draft where
  /-- Whether the value is acceptable. -/
  isValid : Bool
  /-- The value so far. -/
  value? : Option Value
  deriving DecidableEq, Repr

/-- The drafts of the conditions that are being edited, the latest first. -/
structure Drafts where
  /-- The drafts, each under the id of its condition. -/
  entries : List (BlockId × Draft)
  deriving DecidableEq, Repr

namespace Drafts

/-- No drafts. -/
def empty : Drafts := ⟨[]⟩

/-- The draft of a condition. -/
def get? (ds : Drafts) (x : BlockId) : Option Draft :=
  (ds.entries.find? (·.1 == x)).map (·.2)

/-- The drafts of conditions with a property. -/
def restrict (ds : Drafts) (keep : BlockId → Bool) : Drafts :=
  ⟨ds.entries.filter fun e => keep e.1⟩

/-- Starts a draft, in the place of an earlier one. It counts as valid. -/
def start (ds : Drafts) (x : BlockId) (value? : Option Value) : Drafts :=
  ⟨(x, ⟨true, value?⟩) :: (ds.restrict (· != x)).entries⟩

/-- Changes the draft of a condition, if there is one. -/
def modify (ds : Drafts) (x : BlockId) (f : Draft → Draft) : Drafts :=
  ⟨ds.entries.map fun (y, d) => (y, if y = x then f d else d)⟩

/-- Says whether a draft is valid. -/
def setValidity (ds : Drafts) (x : BlockId) (isValid : Bool) : Drafts :=
  ds.modify x fun d => { d with isValid := isValid }

/-- Gives a draft another value. -/
def update (ds : Drafts) (x : BlockId) (value? : Option Value) (isValid : Bool) : Drafts :=
  ds.modify x fun _ => ⟨isValid, value?⟩

/-- Ends a draft. -/
def finish (ds : Drafts) (x : BlockId) : Drafts :=
  ds.restrict (· != x)

/-- Whether a condition has a draft. -/
def has (ds : Drafts) (x : BlockId) : Bool :=
  (ds.get? x).isSome

/-- Ends the drafts of all conditions of a block. -/
def forget (ds : Drafts) (b : Block) : Drafts :=
  ds.restrict fun x => !b.conditions.any (·.id == x)

/-- Whether some draft is not valid. -/
def anyInvalid (ds : Drafts) : Bool :=
  ds.entries.any fun e => !e.2.isValid

/-- The number of drafts. -/
def size (ds : Drafts) : Nat :=
  ds.entries.length

/-- The drafts in the order of the ids. -/
def sorted (ds : Drafts) : List (BlockId × Draft) :=
  ds.entries.mergeSort fun e f => decide (e.1.number ≤ f.1.number)

@[simp] theorem get?_start_self (ds : Drafts) (x : BlockId) (value? : Option Value) :
    (ds.start x value?).get? x = some ⟨true, value?⟩ := by
  simp [start, get?]

end Drafts

end SearchComposer
