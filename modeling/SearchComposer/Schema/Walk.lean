import SearchComposer.Schema.Basic

/-!
# Walks through a schema

A walk meets the properties of a schema one after the other. The nodes that are still to come are on
a stack, each with a flag that says whether all types above it are supported. The walk takes the
node on top and puts those right below it onto the stack from right to left, so that the first of
them is uppermost.

The walk ends because with every node that it takes there is one less to meet. What there is to meet
of a node is written down by recursion, as `Pending.met`.
-/

namespace SearchComposer.Schema

/-- A node that is still to come on a walk. -/
structure Pending where
  /-- Its property. -/
  property : Property
  /-- The nodes below it. -/
  children : Forest Property
  /-- Whether all types above it are supported. -/
  supported : Bool

/-- Whether the type of a node and all types above it are supported. -/
def Pending.here (n : Pending) : Bool :=
  n.supported && n.property.dataType.isSupported

/-- What there is to meet of a node: the node, and then all that is below it. -/
def Pending.met (n : Pending) : List (Property × Bool) :=
  (n.property, n.here) :: marked n.here n.children

/-- Puts the nodes on the top level of a forest onto a stack, the last one first. -/
def pushLevel (f : Forest Property) (supported : Bool) (stack : List Pending) : List Pending :=
  f.level.reverse.foldl (fun stack node => ⟨node.1, node.2, supported⟩ :: stack) stack

theorem pushLevel_eq (f : Forest Property) (supported : Bool) (stack : List Pending) :
    pushLevel f supported stack =
      f.level.map (fun node => ⟨node.1, node.2, supported⟩) ++ stack := by
  rw [pushLevel, List.foldl_reverse, List.foldr_cons_eq_append]

/-- A level that was put onto the stack is met in its own order, before the rest. -/
theorem flatMap_met_pushLevel (f : Forest Property) (supported : Bool) (stack : List Pending) :
    (pushLevel f supported stack).flatMap Pending.met =
      marked supported f ++ stack.flatMap Pending.met := by
  rw [pushLevel_eq, List.flatMap_append]
  refine congrArg (· ++ _) ?_
  induction f with
  | nil => rfl
  | node name p children siblings _ ih =>
    rw [Forest.level, List.map_cons, List.flatMap_cons, ih]
    rfl

/-- Taking a node from the stack leaves all that is to be met after it. -/
theorem flatMap_met_cons (n : Pending) (stack : List Pending) :
    (n :: stack).flatMap Pending.met =
      (n.property, n.here) :: (pushLevel n.children n.here stack).flatMap Pending.met := by
  rw [flatMap_met_pushLevel]
  rfl

/-- The properties that a walk with a stack meets. -/
def walkFrom : List Pending → List (Property × Bool)
  | [] => []
  | n :: stack => (n.property, n.here) :: walkFrom (pushLevel n.children n.here stack)
termination_by stack => (stack.flatMap Pending.met).length
decreasing_by
  rw [flatMap_met_cons]
  exact Nat.lt_succ_self _

/-- The properties that a walk through a schema meets, and for each whether its own type and those
of all properties above it are supported. -/
def walk (s : Schema) : List (Property × Bool) :=
  walkFrom (pushLevel s.nodes.forest true [])

end SearchComposer.Schema
