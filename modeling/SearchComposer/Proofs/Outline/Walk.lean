import SearchComposer.Outline.Walk
import SearchComposer.Proofs.Outline.Leaves

/-!
# Walks and recursion

A walk for leaves lists what the recursion does. Each node on its stack stands for the leaves at or
below it, and putting the children of a node in its place changes nothing about them, since the
first child is then on top.

A walk for names meets them in another order than a recursion does, so it is told by the chains of
the shape instead. A value on the stack stands for the chains that lead through it, behind the names
on the way to it, and for all they begin with. Looking into a value adds some of these chains to the
shape, and leaves the others to the values that are put onto the stack.
-/

namespace SearchComposer.Shape

/-! ## Leaves -/

theorem path_cons {rest : List String} (h : rest ≠ []) (name : String) :
    path (name :: rest) = name ++ "." ++ path rest := by
  rw [path, ← List.singleton_append,
    String.intercalate_append_of_ne_nil (List.cons_ne_nil name []) h, String.intercalate_singleton]
  rfl

/-- The paths of the leaves at or below a node. -/
def Branch.leaves (b : Branch) : List String :=
  if b.children.names.isEmpty then [b.path]
  else b.children.leafChains.map (b.path ++ "." ++ Shape.path ·)

theorem leaves_branch (start name : String) (children : Forest Unit) :
    Branch.leaves ⟨start ++ name, children⟩ =
      (Forest.leafChains (.node name () children .nil)).map (start ++ path ·) := by
  cases children with
  | nil =>
    show [start ++ name] = [start ++ path [name]]
    rw [path, String.intercalate_singleton]
  | node m v cs ss =>
    show (Forest.leafChains (.node m v cs ss)).map (start ++ name ++ "." ++ path ·) = _
    rw [Forest.leafChains, Forest.leafChains, List.append_nil, List.map_map]
    refine List.map_congr_left fun chain hchain => ?_
    have hne : chain ≠ [] := by
      rintro rfl
      exact Forest.nil_not_mem_chains _ ((Forest.leafChains_sublist _).subset hchain)
    rw [Function.comp_apply, path_cons hne, String.append_assoc, String.append_assoc,
      String.append_assoc]

theorem flatMap_leaves_pushBranches (start : String) (f : Forest Unit) (stack : List Branch) :
    (pushBranches start f stack).flatMap Branch.leaves =
      f.leafChains.map (start ++ path ·) ++ stack.flatMap Branch.leaves := by
  rw [pushBranches_eq, List.flatMap_append]
  refine congrArg (· ++ _) ?_
  induction f with
  | nil => rfl
  | node name v children siblings _ ih =>
    rw [Forest.branches, List.map_cons, List.flatMap_cons, ih, leaves_branch, ← List.map_append]
    cases children <;> simp [Forest.leafChains]

theorem leavesFrom_eq_flatMap (stack : List Branch) :
    leavesFrom stack = stack.flatMap Branch.leaves := by
  fun_induction leavesFrom stack with
  | case1 => rfl
  | case2 b stack hleaf ih =>
    rw [ih, List.flatMap_cons, Branch.leaves, if_pos hleaf]
    rfl
  | case3 b stack hinner ih =>
    rw [ih, flatMap_leaves_pushBranches, List.flatMap_cons, Branch.leaves, if_neg hinner]

/-- A walk through a shape lists the paths of its leaves in the order of their chains. -/
theorem listLeafPaths_eq_leafPaths (s : Shape) : s.listLeafPaths = s.leafPaths := by
  rw [listLeafPaths, leavesFrom_eq_flatMap, flatMap_leaves_pushBranches, List.flatMap_nil,
    List.append_nil, leafPaths]
  exact List.map_congr_left fun chain _ => String.empty_append

/-! ## Names -/

namespace View

variable {α : Type} {view : View α} {a : α} {above chain rest : List String} {s : Shape}
  {n : Pending α} {stack : List (Pending α)} {state : Shape × List (Pending α)}
  {parts : List (Option String × Option α)}

/-- A chain of names that leads through a value. -/
inductive Leads (view : View α) : α → List String → Prop where
  /-- The name of a part is a chain. -/
  | name {a : α} {part : Option String × Option α} {name : String} (h : part ∈ view.parts a)
      (hname : name ∈ part.1) : Leads view a [name]
  /-- A chain through the value of a part leads on from the name of the part, if it has one. -/
  | through {a value : α} {part : Option String × Option α} {chain : List String}
      (h : part ∈ view.parts a) (hvalue : value ∈ part.2) (hchain : Leads view value chain) :
      Leads view a (part.1.toList ++ chain)

theorem leads_iff : view.Leads a chain ↔ ∃ part ∈ view.parts a, (∃ name ∈ part.1, chain = [name]) ∨
    ∃ value ∈ part.2, ∃ rest, view.Leads value rest ∧ part.1.toList ++ rest = chain := by
  constructor
  · intro h
    cases h with
    | name h hname => exact ⟨_, h, .inl ⟨_, hname, rfl⟩⟩
    | through h hvalue hchain => exact ⟨_, h, .inr ⟨_, hvalue, _, hchain, rfl⟩⟩
  · rintro ⟨part, h, ⟨name, hname, rfl⟩ | ⟨value, hvalue, rest, hrest, rfl⟩⟩
    · exact .name h hname
    · exact .through h hvalue hrest

theorem Leads.ne_nil (h : view.Leads a chain) : chain ≠ [] := by
  induction h with
  | name h hname => exact List.cons_ne_nil _ _
  | through h hvalue _ ih => exact List.append_ne_nil_of_right_ne_nil _ ih

/-- What a chain begins with leads through the value too. -/
theorem Leads.of_prefix (h : view.Leads a chain) (hne : above ≠ []) (hpre : above <+: chain) :
    view.Leads a above := by
  induction h generalizing above with
  | @name a part name h hname =>
    obtain ⟨first, rest, rfl⟩ := List.exists_cons_of_ne_nil hne
    obtain ⟨rfl, hrest⟩ := List.cons_prefix_cons.mp hpre
    rw [List.prefix_nil.mp hrest]
    exact .name h hname
  | @through a value part chain h hvalue _ ih =>
    obtain ⟨name?, value?⟩ := part
    cases name? with
    | none => exact .through h hvalue (ih hne hpre)
    | some name =>
      obtain ⟨first, rest, rfl⟩ := List.exists_cons_of_ne_nil hne
      obtain ⟨rfl, hrest⟩ := List.cons_prefix_cons.mp hpre
      by_cases hnil : rest = []
      · rw [hnil]
        exact .name h rfl
      · exact .through h hvalue (ih hnil hrest)

/-- The chains that a value on the stack stands for. -/
def Adds (view : View α) (n : Pending α) (chain : List String) : Prop :=
  chain ≠ [] ∧ ∃ rest, view.Leads n.value rest ∧ chain <+: n.above ++ rest

theorem mem_chains_foldl_visit : chain ∈ (parts.foldl (visit above) state).1.chains ↔
    chain ∈ state.1.chains ∨
      ∃ part ∈ parts, ∃ name ∈ part.1, chain ≠ [] ∧ chain <+: above ++ [name] := by
  induction parts generalizing state with
  | nil => simp
  | cons part parts ih =>
    obtain ⟨name?, value?⟩ := part
    rw [List.foldl_cons, ih, List.exists_mem_cons_iff, ← or_assoc]
    refine or_congr_left ?_
    cases name? with
    | none => simp [visit]
    | some name => simp [visit, mem_chains_ensure]

theorem mem_foldl_visit : n ∈ (parts.foldl (visit above) state).2 ↔
    n ∈ state.2 ∨ ∃ part ∈ parts, ∃ value ∈ part.2, n = ⟨value, above ++ part.1.toList⟩ := by
  induction parts generalizing state with
  | nil => simp
  | cons part parts ih =>
    obtain ⟨name?, value?⟩ := part
    rw [List.foldl_cons, ih, List.exists_mem_cons_iff, ← or_assoc]
    refine or_congr_left ?_
    cases value? with
    | none => simp [visit]
    | some value => simp [visit, or_comm]

/-- A value adds the chains up to the names of its parts, and what the values of these add. -/
theorem adds_iff : view.Adds n chain ↔
    (∃ part ∈ view.parts n.value, ∃ name ∈ part.1, chain ≠ [] ∧ chain <+: n.above ++ [name]) ∨
      ∃ part ∈ view.parts n.value, ∃ value ∈ part.2,
        view.Adds ⟨value, n.above ++ part.1.toList⟩ chain := by
  constructor
  · rintro ⟨hne, rest, hrest, hpre⟩
    obtain ⟨part, h, ⟨name, hname, rfl⟩ | ⟨value, hvalue, below, hbelow, rfl⟩⟩ :=
      leads_iff.mp hrest
    · exact .inl ⟨part, h, name, hname, hne, hpre⟩
    · rw [← List.append_assoc] at hpre
      exact .inr ⟨part, h, value, hvalue, hne, below, hbelow, hpre⟩
  · rintro (⟨part, h, name, hname, hne, hpre⟩ | ⟨part, h, value, hvalue, hne, below, hbelow, hpre⟩)
    · exact ⟨hne, [name], .name h hname, hpre⟩
    · rw [List.append_assoc] at hpre
      exact ⟨hne, part.1.toList ++ below, .through h hvalue hbelow, hpre⟩

/-- A step adds the chains that the value stands for, at once or later. -/
theorem mem_chains_step :
    (chain ∈ (view.step s n stack).1.chains ∨ ∃ m ∈ (view.step s n stack).2, view.Adds m chain) ↔
      chain ∈ s.chains ∨ ∃ m ∈ n :: stack, view.Adds m chain := by
  have hstack : (∃ m ∈ (view.step s n stack).2, view.Adds m chain) ↔
      (∃ m ∈ stack, view.Adds m chain) ∨ ∃ part ∈ view.parts n.value, ∃ value ∈ part.2,
        view.Adds ⟨value, n.above ++ part.1.toList⟩ chain := by
    constructor
    · rintro ⟨m, hm, hadds⟩
      rcases mem_foldl_visit.mp hm with hm | ⟨part, h, value, hvalue, rfl⟩
      · exact .inl ⟨m, hm, hadds⟩
      · exact .inr ⟨part, h, value, hvalue, hadds⟩
    · rintro (⟨m, hm, hadds⟩ | ⟨part, h, value, hvalue, hadds⟩)
      · exact ⟨m, mem_foldl_visit.mpr (.inl hm), hadds⟩
      · exact ⟨_, mem_foldl_visit.mpr (.inr ⟨part, h, value, hvalue, rfl⟩), hadds⟩
  rw [hstack, step, mem_chains_foldl_visit, List.exists_mem_cons_iff, adds_iff, or_assoc]
  exact or_congr_right (or_assoc.symm.trans or_right_comm)

theorem mem_chains_gatherFrom : chain ∈ (view.gatherFrom s stack).chains ↔
    chain ∈ s.chains ∨ ∃ n ∈ stack, view.Adds n chain := by
  fun_induction gatherFrom view s stack with
  | case1 s => simp
  | case2 s n stack ih => rw [ih, mem_chains_step]

/-- A walk through a value adds the chains that lead through it, and no others. -/
theorem mem_chains_gather :
    chain ∈ (view.gather s a).chains ↔ chain ∈ s.chains ∨ view.Leads a chain := by
  rw [gather, mem_chains_gatherFrom]
  refine or_congr_right ?_
  constructor
  · rintro ⟨n, hn, hne, rest, hrest, hpre⟩
    obtain rfl := List.mem_singleton.mp hn
    exact hrest.of_prefix hne hpre
  · intro h
    exact ⟨⟨a, []⟩, List.mem_singleton_self _, h.ne_nil, chain, h, List.prefix_rfl⟩

end View

end SearchComposer.Shape
