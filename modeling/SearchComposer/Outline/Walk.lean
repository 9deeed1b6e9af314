import SearchComposer.Outline.Shape

/-!
# Walks for leaves and for names

The leaves of a shape are found on a walk through it, and the names of a document are gathered into
a shape on a walk through the document. What is still to come on a walk is on a stack, together with
the way that leads there: a path, or the names along it.

A walk for leaves puts the children of a node onto the stack from right to left, so that the first
of them is uppermost. A walk for names goes through the parts of a value from left to right. Each
name that it meets is made sure of in the shape at once, and the value under it is put onto the
stack, so that the last value is looked into first.
-/

namespace SearchComposer

/-- The names and the children of the nodes on the top level, from left to right. -/
def Forest.branches {α : Type} : Forest α → List (String × Forest α)
  | nil => []
  | node name _ children siblings => (name, children) :: branches siblings

namespace Shape

/-! ## Leaves -/

/-- A node that is still to come on a walk for leaves. -/
structure Branch where
  /-- The path of the node. -/
  path : String
  /-- The nodes below it. -/
  children : Forest Unit

/-- Puts the nodes on the top level of a forest onto a stack, the last one first. Their paths are
their names behind a common start. -/
def pushBranches (start : String) (f : Forest Unit) (stack : List Branch) : List Branch :=
  f.branches.reverse.foldl (fun stack b => ⟨start ++ b.1, b.2⟩ :: stack) stack

/-- The values of a node and of all that is below it. -/
def Branch.met (b : Branch) : List Unit :=
  () :: b.children.values

theorem pushBranches_eq (start : String) (f : Forest Unit) (stack : List Branch) :
    pushBranches start f stack = f.branches.map (fun b => ⟨start ++ b.1, b.2⟩) ++ stack := by
  rw [pushBranches, List.foldl_reverse, List.foldr_cons_eq_append]

theorem flatMap_met_pushBranches (start : String) (f : Forest Unit) (stack : List Branch) :
    (pushBranches start f stack).flatMap Branch.met = f.values ++ stack.flatMap Branch.met := by
  rw [pushBranches_eq, List.flatMap_append]
  refine congrArg (· ++ _) ?_
  induction f with
  | nil => rfl
  | node name v children siblings _ ih =>
    rw [Forest.branches, List.map_cons, List.flatMap_cons, ih]
    rfl

/-- The paths of the leaves that a walk with a stack comes to. -/
def leavesFrom : List Branch → List String
  | [] => []
  | b :: stack =>
    if b.children.names.isEmpty then b.path :: leavesFrom stack
    else leavesFrom (pushBranches (b.path ++ ".") b.children stack)
termination_by stack => (stack.flatMap Branch.met).length
decreasing_by
  · rw [List.flatMap_cons, List.length_append]
    exact Nat.lt_add_of_pos_left (Nat.succ_pos _)
  · rw [flatMap_met_pushBranches, List.flatMap_cons]
    exact Nat.lt_succ_self _

/-- The paths of the leaves that a walk through a shape comes to. -/
def listLeafPaths (s : Shape) : List String :=
  leavesFrom (pushBranches "" s.forest [])

/-! ## Names -/

/-- A way to look into the values of a type. -/
structure View (α : Type) where
  /-- The parts of a value, in order. Each has a name, a value to look into, or both. -/
  parts : α → List (Option String × Option α)
  /-- By some size, the values in the parts of a value are smaller than it, all together. -/
  exists_size : ∃ size : α → Nat, ∀ a, ((parts a).filterMap (·.2)).foldr (size · + ·) 0 < size a

/-- A value that is still to be looked into on a walk for names. -/
structure Pending (α : Type) where
  /-- The value. -/
  value : α
  /-- The names on the way to it. -/
  above : List String

namespace View

variable {α : Type}

/-- If each member of a list becomes a part whose value is no larger than the member, then these
values are smaller than the list, all together. -/
theorem size_map_lt {β : Type} [SizeOf β] {size : α → Nat} {part : β → Option String × Option α}
    {bs : List β} (h : ∀ b ∈ bs, ∀ a ∈ (part b).2, size a ≤ sizeOf b) :
    ((bs.map part).filterMap (·.2)).foldr (size · + ·) 0 < sizeOf bs := by
  induction bs with
  | nil => exact Nat.zero_lt_one
  | cons b rest ih =>
    obtain ⟨hb, hrest⟩ := List.forall_mem_cons.mp h
    have hlt := ih hrest
    rw [List.map_cons, List.filterMap_cons, List.cons.sizeOf_spec]
    cases hvalue : (part b).2 with
    | none => exact Nat.lt_of_lt_of_le hlt (Nat.le_add_left _ _)
    | some a =>
      have hle := hb a hvalue
      rw [List.foldr_cons]
      omega

/-- What a part of a value does to the shape and to the stack. -/
def visit (above : List String) (state : Shape × List (Pending α))
    (part : Option String × Option α) : Shape × List (Pending α) :=
  (part.1.elim state.1 fun name => state.1.ensure (above ++ [name]),
    part.2.elim state.2 fun value => ⟨value, above ++ part.1.toList⟩ :: state.2)

/-- The size of a value. -/
noncomputable def size (view : View α) : α → Nat :=
  view.exists_size.choose

theorem size_parts (view : View α) (a : α) :
    ((view.parts a).filterMap (·.2)).foldr (view.size · + ·) 0 < view.size a :=
  view.exists_size.choose_spec a

/-- The size of the values on a stack. -/
noncomputable def load (view : View α) (stack : List (Pending α)) : Nat :=
  stack.foldr (view.size ·.value + ·) 0

theorem load_cons (view : View α) (n : Pending α) (stack : List (Pending α)) :
    view.load (n :: stack) = view.size n.value + view.load stack := rfl

theorem load_foldl_visit (view : View α) (above : List String)
    (parts : List (Option String × Option α)) (state : Shape × List (Pending α)) :
    view.load (parts.foldl (visit above) state).2 =
      (parts.filterMap (·.2)).foldr (view.size · + ·) 0 + view.load state.2 := by
  induction parts generalizing state with
  | nil => exact (Nat.zero_add _).symm
  | cons part rest ih =>
    obtain ⟨name?, value?⟩ := part
    rw [List.foldl_cons, ih, List.filterMap_cons]
    cases value? with
    | none => rfl
    | some value =>
      simp only [visit, Option.elim_some, load_cons, List.foldr_cons]
      omega

/-- What all parts of a value do, one after the other. -/
def step (view : View α) (s : Shape) (n : Pending α) (stack : List (Pending α)) :
    Shape × List (Pending α) :=
  (view.parts n.value).foldl (visit n.above) (s, stack)

theorem load_step_lt (view : View α) (s : Shape) (n : Pending α) (stack : List (Pending α)) :
    view.load (view.step s n stack).2 < view.load (n :: stack) := by
  rw [step, load_foldl_visit, load_cons]
  exact Nat.add_lt_add_right (view.size_parts n.value) _

/-- A shape with the names that a walk with a stack meets. -/
def gatherFrom (view : View α) (s : Shape) : List (Pending α) → Shape
  | [] => s
  | n :: stack => gatherFrom view (view.step s n stack).1 (view.step s n stack).2
termination_by stack => view.load stack
decreasing_by exact view.load_step_lt s n stack

/-- A shape together with the names in a value. -/
def gather (view : View α) (s : Shape) (a : α) : Shape :=
  view.gatherFrom s [⟨a, []⟩]

end View

end Shape

end SearchComposer
