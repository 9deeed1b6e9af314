import SearchComposer.Outline.Forest

/-!
# Outlines

An outline is a sorted forest of names: on every level a name occurs at most once, and the order in
which nodes were put does not show. `node?` looks at the top level, `at?` follows a chain of names.
-/

namespace SearchComposer

/-- A sorted forest of names. -/
structure Outline (α : Type) where
  /-- The nodes. -/
  forest : Forest α
  /-- The names on every level increase strictly. -/
  sorted : forest.Sorted
  deriving DecidableEq

namespace Outline

variable {α : Type}

/-- The outline without nodes. -/
def empty : Outline α := ⟨.nil, trivial⟩

/-- Whether there are no nodes. -/
def isEmpty (o : Outline α) : Bool :=
  o.forest.names.isEmpty

/-- The number of nodes on the top level. -/
def size (o : Outline α) : Nat :=
  o.forest.names.length

/-- The names on the top level. -/
def names (o : Outline α) : List String :=
  o.forest.names

/-- The value and the children of the node with a name on the top level. -/
def node? (o : Outline α) (name : String) : Option (α × Outline α) :=
  match h : o.forest.find? name with
  | none => none
  | some (value, children) => some (value, ⟨children, o.sorted.find? h⟩)

/-- The children of the node with a name on the top level; none if there is no such node. -/
def below (o : Outline α) (name : String) : Outline α :=
  ((o.node? name).map (·.2)).getD empty

/-- The value and the children of the node that a nonempty chain of names leads to. -/
def at? (o : Outline α) : List String → Option (α × Outline α)
  | [] => none
  | [name] => o.node? name
  | name :: next :: chain => (o.node? name).bind fun found => found.2.at? (next :: chain)

/-- Puts a node on the top level, in the place of a node of the same name. -/
def put (o : Outline α) (name : String) (value : α) (children : Outline α) : Outline α :=
  ⟨.put name value children.forest o.forest, children.sorted.put name value o.sorted⟩

/-- The values of all nodes, a node before its children and these before its siblings. -/
def values (o : Outline α) : List α :=
  o.forest.values

/-- The chains of names that lead to the nodes, in the order of `values`. -/
def chains (o : Outline α) : List (List String) :=
  o.forest.chains

@[ext] theorem ext {o p : Outline α} (h : o.forest = p.forest) : o = p := by
  cases o; cases p; cases h; rfl

theorem node?_eq_some {o : Outline α} {name : String} {value : α} {children : Outline α} :
    o.node? name = some (value, children) ↔
      o.forest.find? name = some (value, children.forest) := by
  unfold node?
  split <;> rename_i h <;> simp only [h]
  · simp
  · simp [Outline.ext_iff]

@[simp] theorem node?_put_self (o : Outline α) (name : String) (value : α)
    (children : Outline α) : (o.put name value children).node? name = some (value, children) := by
  simp [node?_eq_some, put]

theorem node?_put_of_ne {name other : String} (h : other ≠ name) (o : Outline α) (value : α)
    (children : Outline α) : (o.put name value children).node? other = o.node? other := by
  refine Option.ext fun found => ?_
  rw [node?_eq_some, node?_eq_some, put, Forest.find?_put_of_ne h]

/-- The node at the end of a chain is one of the nodes below the rest of the chain. -/
theorem at?_concat {chain : List String} (h : chain ≠ []) (o : Outline α) (name : String) :
    o.at? (chain ++ [name]) = (o.at? chain).bind fun found => found.2.node? name := by
  induction chain generalizing o with
  | nil => exact absurd rfl h
  | cons first chain ih =>
    cases chain with
    | nil => rfl
    | cons next chain =>
      simp only [List.cons_append, at?, Option.bind_assoc]
      exact congrArg _ (funext fun found => ih (List.cons_ne_nil _ _) found.2)

end Outline

end SearchComposer
