import SearchComposer.Proofs.Outline.Merge
import SearchComposer.Request.Basic

/-!
# Leaf paths

The chains of a shape are the beginnings of the chains of its leaves, so that these rebuild the
shape. Names without dots can be read off a path again. Therefore the paths of the leaves tell such
a shape from all others, and they stand in the order of the names along them, which is not the order
of the paths as texts.
-/

namespace SearchComposer

/-! ## Leaves and chains -/

namespace Forest

variable {α : Type} {name : String} {value : α} {chain leaf : List String}
  {f children siblings : Forest α}

/-- The leaves of a forest are among its nodes, in the same order. -/
theorem leafChains_sublist (f : Forest α) : f.leafChains.Sublist f.chains := by
  induction f with
  | nil => exact .refl _
  | node name v children siblings ihc ihs =>
    cases children with
    | nil => exact ihs.cons_cons _
    | node m w cs ss => exact ((ihc.map _).append ihs).cons _

theorem exists_leaf_of_mem_chains (h : chain ∈ f.chains) :
    ∃ leaf ∈ f.leafChains, chain <+: leaf := by
  induction f generalizing chain with
  | nil => cases h
  | node name v children siblings ihc ihs =>
    simp only [mem_leafChains_node]
    rcases mem_chains_node.mp h with rfl | ⟨rest, hrest, rfl⟩ | hmem
    · cases children with
      | nil => exact ⟨[name], .inl ⟨rfl, rfl⟩, List.prefix_rfl⟩
      | node m w cs ss =>
        -- below the node there is a leaf at or under its first child
        obtain ⟨leaf, hleaf, -⟩ := ihc List.mem_cons_self
        exact ⟨name :: leaf, .inr (.inl ⟨leaf, hleaf, rfl⟩), List.prefix_append [name] leaf⟩
    · obtain ⟨leaf, hleaf, hpre⟩ := ihc hrest
      exact ⟨name :: leaf, .inr (.inl ⟨leaf, hleaf, rfl⟩), List.cons_prefix_cons.mpr ⟨rfl, hpre⟩⟩
    · obtain ⟨leaf, hleaf, hpre⟩ := ihs hmem
      exact ⟨leaf, .inr (.inr hleaf), hpre⟩

theorem mem_chains_of_prefix_leaf (hleaf : leaf ∈ f.leafChains) (hne : chain ≠ [])
    (hpre : chain <+: leaf) : chain ∈ f.chains := by
  induction f generalizing chain leaf with
  | nil => cases hleaf
  | node name v children siblings ihc ihs =>
    obtain ⟨first, rest, rfl⟩ := List.exists_cons_of_ne_nil hne
    rw [mem_chains_node]
    rcases mem_leafChains_node.mp hleaf with ⟨-, rfl⟩ | ⟨below, hbelow, rfl⟩ | hmem
    · obtain ⟨rfl, hrest⟩ := List.cons_prefix_cons.mp hpre
      exact .inl (by rw [List.prefix_nil.mp hrest])
    · obtain ⟨rfl, hrest⟩ := List.cons_prefix_cons.mp hpre
      by_cases hnil : rest = []
      · exact .inl (by rw [hnil])
      · exact .inr (.inl ⟨rest, ihc hbelow hnil hrest, rfl⟩)
    · exact .inr (.inr (ihs hmem hne hpre))

/-- The chains of a forest are the beginnings of the chains of its leaves. -/
theorem mem_chains_iff_prefix_leaf :
    chain ∈ f.chains ↔ chain ≠ [] ∧ ∃ leaf ∈ f.leafChains, chain <+: leaf := by
  constructor
  · intro h
    exact ⟨fun hnil => nil_not_mem_chains f (hnil ▸ h), exists_leaf_of_mem_chains h⟩
  · rintro ⟨hne, leaf, hleaf, hpre⟩
    exact mem_chains_of_prefix_leaf hleaf hne hpre

end Forest

namespace Shape

variable {s t : Shape} {chain c : List String}

/-! ## Ensured chains -/

theorem mem_chains_ensure :
    chain ∈ (s.ensure c).chains ↔ chain ∈ s.chains ∨ chain ≠ [] ∧ chain <+: c := by
  induction c generalizing s chain with
  | nil =>
    have hnil : ¬(chain ≠ [] ∧ chain <+: []) := by
      rintro ⟨hne, hpre⟩
      exact hne (List.prefix_nil.mp hpre)
    rw [ensure]
    exact (or_iff_left hnil).symm
  | cons name c ih =>
    rw [ensure, mem_chains_extend_of fun rest => ih]
    refine or_congr_right ?_
    cases chain with
    | nil => simp
    | cons first rest =>
      rw [List.cons_prefix_cons]
      by_cases hrest : rest = []
      · simp [hrest]
      · simp [hrest, and_comm, eq_comm]

theorem mem_chains_foldl_ensure {cs : List (List String)} : chain ∈ (cs.foldl ensure s).chains ↔
    chain ∈ s.chains ∨ chain ≠ [] ∧ ∃ c ∈ cs, chain <+: c := by
  induction cs generalizing s with
  | nil => simp
  | cons c cs ih => simp [ih, mem_chains_ensure, and_or_left, or_assoc]

/-- The chains of the leaves make up the shape. -/
theorem foldl_ensure_leafChains (s : Shape) : s.forest.leafChains.foldl ensure .empty = s := by
  refine ext_chains fun chain => ?_
  rw [mem_chains_foldl_ensure, or_iff_right not_mem_chains_empty]
  exact Forest.mem_chains_iff_prefix_leaf.symm

/-! ## Paths of names without dots -/

/-- The pieces of a path between its dots. -/
def pieces (path : String) : List String :=
  (path.split '.').toList.map String.Slice.copy

theorem pieces_path (hne : chain ≠ []) (hdots : ∀ name ∈ chain, '.' ∉ name.toList) :
    pieces (path chain) = chain := by
  have hsplit := String.toList_split_intercalate hdots
  rwa [if_neg hne] at hsplit

/-- Two chains of names without dots have one path only if they are the same. -/
theorem eq_of_path_eq {chain' : List String} (hne : chain ≠ []) (hne' : chain' ≠ [])
    (hdots : ∀ name ∈ chain, '.' ∉ name.toList) (hdots' : ∀ name ∈ chain', '.' ∉ name.toList)
    (h : path chain = path chain') : chain = chain' := by
  rw [← pieces_path hne hdots, h, pieces_path hne' hdots']

/-- No name of a shape has a dot in it, at whatever depth. -/
def DotFree (s : Shape) : Prop :=
  ∀ chain ∈ s.chains, ∀ name ∈ chain, '.' ∉ name.toList

instance (s : Shape) : Decidable s.DotFree :=
  inferInstanceAs (Decidable (∀ chain ∈ s.chains, ∀ name ∈ chain, '.' ∉ name.toList))

theorem map_pieces_leafPaths (hs : s.DotFree) : s.leafPaths.map pieces = s.forest.leafChains := by
  have hpieces : ∀ leaf ∈ s.forest.leafChains, pieces (path leaf) = leaf := by
    intro leaf hleaf
    have hmem : leaf ∈ s.chains := s.forest.leafChains_sublist.subset hleaf
    exact pieces_path (fun hnil => s.nil_not_mem_chains (hnil ▸ hmem)) (hs leaf hmem)
  rw [leafPaths, List.map_map]
  exact (List.map_congr_left hpieces).trans (List.map_id _)

/-! ## What the paths of the leaves tell -/

theorem foldl_ensure_pieces (hs : s.DotFree) :
    (s.leafPaths.map pieces).foldl ensure .empty = s := by
  rw [map_pieces_leafPaths hs, foldl_ensure_leafChains]

theorem pairwise_pieces_leafPaths (hs : s.DotFree) :
    (s.leafPaths.map pieces).Pairwise (· < ·) := by
  rw [map_pieces_leafPaths hs]
  exact s.sorted.pairwise_chains.sublist s.forest.leafChains_sublist

/-- A request that is limited to the leaves of a shape tells the paths of these leaves. -/
theorem source?_of_eq_iff {settings : Settings} {root : Operator} {ranking : Ranking}
    {page : Page} : (Request.of settings root (some s) ranking page).source? =
      (Request.of settings root (some t) ranking page).source? ↔ s.leafPaths = t.leafPaths := by
  simp only [Request.of, Option.map_some]
  cases s.leafPaths <;> cases t.leafPaths <;> simp [Option.filter]

/-- If there are no dots in the names of a shape, then the paths of its leaves, cut at the dots,
rebuild it. No path occurs twice, and the chains of names that they are cut into increase strictly,
compared name by name. So requests that are limited to two such shapes return the same properties
only if the shapes are the same. -/
theorem leafPaths_lose_nothing (hs : s.DotFree) :
    (s.leafPaths.map pieces).foldl ensure .empty = s ∧
    s.leafPaths.Nodup ∧
    (s.leafPaths.map pieces).Pairwise (· < ·) ∧
    ∀ t : Shape, t.DotFree →
      ∀ (settings : Settings) (root : Operator) (ranking : Ranking) (page : Page),
        (Request.of settings root (some s) ranking page).source? =
          (Request.of settings root (some t) ranking page).source? ↔ s = t := by
  have hincreasing := pairwise_pieces_leafPaths hs
  refine ⟨foldl_ensure_pieces hs, ?_, hincreasing, ?_⟩
  · have hnodup : (s.leafPaths.map pieces).Nodup := by
      refine hincreasing.imp ?_
      rintro chain _ hlt rfl
      exact List.lt_irrefl chain hlt
    exact hnodup.of_map pieces
  · intro t ht settings root ranking page
    rw [source?_of_eq_iff]
    constructor
    · intro h
      rw [← foldl_ensure_pieces hs, h, foldl_ensure_pieces ht]
    · rintro rfl
      rfl

-- with a dot in a name, a path may be that of two chains
example : leafPaths (ensure .empty ["a.b"]) = leafPaths (ensure .empty ["a", "b"]) := by decide

/-- A name may be empty, and chains may be ordered in another way than their paths. -/
theorem leafPaths_lose_nothing_of_empty_name :
    ∃ s t : Shape, s.DotFree ∧ t.DotFree ∧ s.leafPaths = ["a.", "a.b", "a b"] ∧ "a b" < "a." ∧
      (s.leafPaths.map pieces).foldl ensure .empty = s ∧
      (s.leafPaths.map pieces).Pairwise (· < ·) ∧
      ∀ (settings : Settings) (root : Operator) (ranking : Ranking) (page : Page),
        (Request.of settings root (some s) ranking page).source? ≠
          (Request.of settings root (some t) ranking page).source? := by
  let s : Shape := [["a b"], ["a", "b"], ["a", ""]].foldl ensure .empty
  let t : Shape := s.ensure ["a", "b", ""]
  have hs : s.DotFree := by decide
  have ht : t.DotFree := by decide
  obtain ⟨hrebuilt, -, hincreasing, hsource⟩ := leafPaths_lose_nothing hs
  refine ⟨s, t, hs, ht, by decide, by decide, hrebuilt, hincreasing, ?_⟩
  intro settings root ranking page heq
  have hst : s = t := (hsource t ht settings root ranking page).mp heq
  exact absurd hst (by decide)

end Shape

end SearchComposer
