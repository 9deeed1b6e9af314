/-!
# Forests of names

A forest holds nodes side by side, each with a name, a value and a forest of children. A node is
stored with its children and the siblings to its right, so that a forest is a plain inductive type.
In a sorted forest the names on every level increase strictly in the order of their code points.
-/

namespace SearchComposer

/-- A forest whose nodes have names and values. -/
inductive Forest (α : Type) where
  /-- The empty forest. -/
  | nil
  /-- The first node with its children, and its siblings. -/
  | node (name : String) (value : α) (children siblings : Forest α)
  deriving DecidableEq, Repr

namespace Forest

variable {α : Type}

/-- The value and the children of the node with a name on the top level. -/
def find? (name : String) : Forest α → Option (α × Forest α)
  | nil => none
  | node m value children siblings =>
    if name = m then some (value, children) else find? name siblings

/-- Puts a node on the top level, in the place of a node of the same name or before the first
greater name. -/
def put (name : String) (value : α) (children : Forest α) : Forest α → Forest α
  | nil => node name value children nil
  | node m v cs siblings =>
    if name < m then node name value children (node m v cs siblings)
    else if name = m then node name value children siblings
    else node m v cs (put name value children siblings)

/-- The names on the top level, from left to right. -/
def names : Forest α → List String
  | nil => []
  | node name _ _ siblings => name :: names siblings

/-- The values and the children of the nodes on the top level, from left to right. -/
def level : Forest α → List (α × Forest α)
  | nil => []
  | node _ value children siblings => (value, children) :: level siblings

/-- The values of all nodes, a node before its children and these before its siblings. -/
def values : Forest α → List α
  | nil => []
  | node _ value children siblings => value :: (values children ++ values siblings)

/-- The chains of names that lead to the nodes, in the order of `values`. -/
def chains : Forest α → List (List String)
  | nil => []
  | node name _ children siblings =>
    [name] :: ((chains children).map (name :: ·) ++ chains siblings)

/-- The chains of names that lead to the nodes without children, from left to right. -/
def leafChains : Forest α → List (List String)
  | nil => []
  | node name _ nil siblings => [name] :: leafChains siblings
  | node name _ (node m v cs ss) siblings =>
    (leafChains (node m v cs ss)).map (name :: ·) ++ leafChains siblings

/-- Whether every name on the top level is greater than a given one. -/
def Above (name : String) : Forest α → Prop
  | nil => True
  | node m _ _ siblings => name < m ∧ Above name siblings

/-- Whether the names on every level increase strictly. -/
def Sorted : Forest α → Prop
  | nil => True
  | node name _ children siblings => Above name siblings ∧ Sorted children ∧ Sorted siblings

/-! ## Sorted forests -/

theorem Above.trans {a b : String} (h : a < b) {f : Forest α} (hf : Above b f) : Above a f := by
  induction f with
  | nil => trivial
  | node m v cs ss _ ih => exact ⟨String.lt_trans h hf.1, ih hf.2⟩

/-- A put node keeps names above a lesser one. -/
theorem Above.put {a name : String} (h : a < name) (value : α) (children : Forest α)
    {f : Forest α} (hf : Above a f) : Above a (put name value children f) := by
  induction f with
  | nil => exact ⟨h, trivial⟩
  | node m v cs ss _ ih =>
    unfold Forest.put
    split
    · exact ⟨h, hf⟩
    · split
      · exact ⟨h, hf.2⟩
      · exact ⟨hf.1, ih hf.2⟩

/-- Putting a sorted node into a sorted forest keeps it sorted. -/
theorem Sorted.put (name : String) (value : α) {children f : Forest α} (hc : Sorted children)
    (hf : Sorted f) : Sorted (put name value children f) := by
  induction f with
  | nil => exact ⟨trivial, hc, trivial⟩
  | node m v cs ss _ ih =>
    unfold Forest.put
    split
    · next h => exact ⟨⟨h, hf.1.trans h⟩, hc, hf⟩
    · split
      · next h => subst h; exact ⟨hf.1, hc, hf.2.2⟩
      · next h h' =>
        have hlt := Std.lt_of_le_of_ne (String.not_lt.mp h) (Ne.symm h')
        exact ⟨hf.1.put hlt value children, hf.2.1, ih hf.2.2⟩

/-- The children of a node of a sorted forest are sorted. -/
theorem Sorted.find? {name : String} {f : Forest α} (hf : Sorted f) {found : α × Forest α}
    (h : find? name f = some found) : Sorted found.2 := by
  induction f with
  | nil => simp [Forest.find?] at h
  | node m v cs ss _ ih =>
    unfold Forest.find? at h
    split at h
    · simp only [Option.some.injEq] at h
      subst h
      exact hf.2.1
    · exact ih hf.2.2 h

@[simp] theorem find?_put_self (name : String) (value : α) (children f : Forest α) :
    find? name (put name value children f) = some (value, children) := by
  induction f with
  | nil => simp [put, find?]
  | node m v cs ss _ ih =>
    unfold put
    split
    · simp [find?]
    · split
      · simp [find?]
      · next h => simp [find?, h, ih]

theorem find?_put_of_ne {name other : String} (h : other ≠ name) (value : α)
    (children f : Forest α) : find? other (put name value children f) = find? other f := by
  induction f with
  | nil => simp [put, find?, h]
  | node m v cs ss _ ih =>
    unfold put
    split
    · simp [find?, h]
    · split
      · next h' => subst h'; simp [find?, h]
      · by_cases hm : other = m
        · simp [find?, hm]
        · simp [find?, hm, ih]

end Forest

end SearchComposer
