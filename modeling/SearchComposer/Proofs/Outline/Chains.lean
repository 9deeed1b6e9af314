import Mathlib.Data.List.Nodup
import SearchComposer.Outline.Basic

/-!
# Chains of an outline

The chains of an outline are exactly those that lead to a node, each listed once, and the values of
the nodes stand in the same order. Since the names on a level increase, the name that a chain starts
with tells on which side of a node to go on: below it, or among its siblings.
-/

namespace SearchComposer

variable {α : Type}

namespace Forest

variable {name : String} {value : α} {chain : List String} {f children siblings : Forest α}

/-- The nodes with the chains that lead to them, a node before its children and these before its
siblings. -/
def nodes : Forest α → List (List String × α)
  | nil => []
  | node name value children siblings =>
    ([name], value) :: ((nodes children).map (fun e => (name :: e.1, e.2)) ++ nodes siblings)

theorem map_fst_nodes (f : Forest α) : f.nodes.map (·.1) = f.chains := by
  induction f with
  | nil => rfl
  | node name value children siblings ihc ihs =>
    rw [nodes, chains, ← ihc, ← ihs]
    simp [Function.comp_def]

theorem map_snd_nodes (f : Forest α) : f.nodes.map (·.2) = f.values := by
  induction f with
  | nil => rfl
  | node name value children siblings ihc ihs =>
    rw [nodes, values, ← ihc, ← ihs]
    simp [Function.comp_def]

theorem Above.find?_eq_none (h : Above name f) : f.find? name = none := by
  induction f with
  | nil => rfl
  | node m v cs ss _ ih =>
    have hne : name ≠ m := by
      intro heq
      exact absurd h.1 (heq ▸ Std.lt_irrefl)
    rw [find?, if_neg hne, ih h.2]

theorem Above.lt_of_mem_names {other : String} (h : Above name f) (hmem : other ∈ f.names) :
    name < other := by
  induction f with
  | nil => cases hmem
  | node m v cs ss _ ih =>
    rcases List.mem_cons.mp hmem with rfl | hmem
    · exact h.1
    · exact ih h.2 hmem

theorem Sorted.nodup_names (hf : f.Sorted) : f.names.Nodup := by
  induction f with
  | nil => exact .nil
  | node m v cs ss _ ih =>
    have hother : m ∉ ss.names := fun hmem => absurd (hf.1.lt_of_mem_names hmem) Std.lt_irrefl
    exact List.nodup_cons.mpr ⟨hother, ih hf.2.2⟩

theorem mem_chains_node : chain ∈ (node name value children siblings).chains ↔
    chain = [name] ∨ (∃ rest ∈ children.chains, name :: rest = chain) ∨
      chain ∈ siblings.chains := by
  simp [chains]

theorem mem_leafChains_node : chain ∈ (node name value children siblings).leafChains ↔
    (children = nil ∧ chain = [name]) ∨ (∃ rest ∈ children.leafChains, name :: rest = chain) ∨
      chain ∈ siblings.leafChains := by
  cases children <;> simp [leafChains]

theorem nil_not_mem_chains (f : Forest α) : [] ∉ f.chains := by
  induction f with
  | nil => exact List.not_mem_nil
  | node m v cs ss _ ih =>
    rw [mem_chains_node]
    rintro (heq | ⟨rest, -, heq⟩ | hmem)
    · cases heq
    · cases heq
    · exact ih hmem

theorem nil_not_mem_nodes (f : Forest α) (value : α) : ([], value) ∉ f.nodes := by
  intro hmem
  have hchain : [] ∈ f.nodes.map (·.1) := List.mem_map_of_mem hmem
  rw [map_fst_nodes] at hchain
  exact nil_not_mem_chains f hchain

/-- The chains of a forest above a name start with greater names. -/
theorem Above.lt_of_mem_chains {first : String} {rest : List String} (h : Above name f)
    (hmem : first :: rest ∈ f.chains) : name < first := by
  induction f with
  | nil => cases hmem
  | node m v cs ss _ ih =>
    rcases mem_chains_node.mp hmem with heq | ⟨below, -, heq⟩ | hmem
    · cases heq
      exact h.1
    · cases heq
      exact h.1
    · exact ih h.2 hmem

/-- The chains of a sorted forest stand in the order of their names, compared name by name. -/
theorem Sorted.pairwise_chains (hf : f.Sorted) : f.chains.Pairwise (· < ·) := by
  induction f with
  | nil => exact .nil
  | node name v children siblings ihc ihs =>
    obtain ⟨habove, hc, hs⟩ := hf
    have hbelow : (children.chains.map (name :: ·)).Pairwise (· < ·) := by
      refine List.pairwise_map.mpr ((ihc hc).imp fun hlt => ?_)
      exact List.cons_lt_cons_iff.mpr (.inr ⟨rfl, hlt⟩)
    -- a chain among the siblings starts with a greater name
    have hother : ∀ rest, ∀ chain ∈ siblings.chains, name :: rest < chain := by
      intro rest chain hchain
      cases chain with
      | nil => exact absurd hchain (nil_not_mem_chains siblings)
      | cons first chain =>
        exact List.cons_lt_cons_iff.mpr (.inl (habove.lt_of_mem_chains hchain))
    rw [chains, List.pairwise_cons, List.pairwise_append]
    refine ⟨?_, hbelow, ihs hs, ?_⟩
    · intro chain hmem
      rcases List.mem_append.mp hmem with hmem | hmem
      · obtain ⟨rest, hrest, rfl⟩ := List.mem_map.mp hmem
        have hne : rest ≠ [] := fun hnil => nil_not_mem_chains children (hnil ▸ hrest)
        obtain ⟨next, rest, rfl⟩ := List.exists_cons_of_ne_nil hne
        exact List.cons_lt_cons_iff.mpr (.inr ⟨rfl, List.nil_lt_cons next rest⟩)
      · exact hother [] chain hmem
    · intro above hmem chain hchain
      obtain ⟨rest, -, rfl⟩ := List.mem_map.mp hmem
      exact hother rest chain hchain

end Forest

namespace Outline

variable {name : String} {value : α} {chain rest : List String} {o : Outline α}
  {children siblings : Forest α}

/-! ## From node to node -/

theorem node?_node (h : (Forest.node name value children siblings).Sorted) (first : String) :
    node? ⟨.node name value children siblings, h⟩ first =
      if first = name then some (value, ⟨children, h.2.1⟩) else node? ⟨siblings, h.2.2⟩ first := by
  refine Option.ext fun found => ?_
  obtain ⟨v, c⟩ := found
  rw [node?_eq_some, Forest.find?]
  by_cases hname : first = name
  · rw [if_pos hname, if_pos hname]
    simp [Outline.ext_iff]
  · rw [if_neg hname, if_neg hname, node?_eq_some]

theorem at?_cons (o : Outline α) (first : String) (rest : List String) :
    o.at? (first :: rest) =
      (o.node? first).bind fun found => if rest = [] then some found else found.2.at? rest := by
  cases rest with
  | nil => simp [at?]
  | cons next rest => simp [at?]

theorem at?_node (h : (Forest.node name value children siblings).Sorted) (first : String)
    (rest : List String) : at? ⟨.node name value children siblings, h⟩ (first :: rest) =
      if first = name then
        if rest = [] then some (value, ⟨children, h.2.1⟩) else at? ⟨children, h.2.1⟩ rest
      else at? ⟨siblings, h.2.2⟩ (first :: rest) := by
  rw [at?_cons, node?_node, at?_cons]
  by_cases hname : first = name
  · rw [if_pos hname, if_pos hname, Option.bind_some]
  · rw [if_neg hname, if_neg hname]

theorem at?_node_self (h : (Forest.node name value children siblings).Sorted) :
    at? ⟨.node name value children siblings, h⟩ [name] = some (value, ⟨children, h.2.1⟩) := by
  rw [at?_node, if_pos rfl, if_pos rfl]

theorem at?_node_below (h : (Forest.node name value children siblings).Sorted)
    (hne : rest ≠ []) : at? ⟨.node name value children siblings, h⟩ (name :: rest) =
      at? ⟨children, h.2.1⟩ rest := by
  rw [at?_node, if_pos rfl, if_neg hne]

theorem at?_node_beside (h : (Forest.node name value children siblings).Sorted) {first : String}
    (hne : first ≠ name) (rest : List String) :
    at? ⟨.node name value children siblings, h⟩ (first :: rest) =
      at? ⟨siblings, h.2.2⟩ (first :: rest) := by
  rw [at?_node, if_neg hne]

/-- No chain leads to a sibling by the name of the node itself. -/
theorem at?_siblings (h : (Forest.node name value children siblings).Sorted)
    (rest : List String) : at? ⟨siblings, h.2.2⟩ (name :: rest) = none := by
  have hnone : node? ⟨siblings, h.2.2⟩ name = none := by
    refine Option.eq_none_iff_forall_not_mem.mpr fun found hfound => ?_
    have hsome := node?_eq_some.mp hfound
    rw [h.1.find?_eq_none] at hsome
    cases hsome
  rw [at?_cons, hnone, Option.bind_none]

theorem at?_put (o : Outline α) (name : String) (value : α) (below : Outline α) (first : String)
    (rest : List String) : (o.put name value below).at? (first :: rest) =
      if first = name then if rest = [] then some (value, below) else below.at? rest
      else o.at? (first :: rest) := by
  rw [at?_cons, at?_cons]
  by_cases hname : first = name
  · rw [if_pos hname, hname, node?_put_self, Option.bind_some]
  · rw [if_neg hname, node?_put_of_ne hname]

theorem at?_below (o : Outline α) (name : String) {rest : List String} (h : rest ≠ []) :
    (o.below name).at? rest = o.at? (name :: rest) := by
  rw [at?_cons, below]
  cases o.node? name with
  | none =>
    obtain ⟨next, rest, rfl⟩ := List.exists_cons_of_ne_nil h
    rw [Option.map_none, Option.getD_none, at?_cons, Option.bind_none]
    rfl
  | some found => simp [h]

/-! ## Nodes and chains -/

/-- The listed nodes are those that chains lead to. -/
theorem mem_nodes_iff (o : Outline α) (chain : List String) (value : α) :
    (chain, value) ∈ o.forest.nodes ↔ ∃ below, o.at? chain = some (value, below) := by
  obtain ⟨f, hf⟩ := o
  show (chain, value) ∈ f.nodes ↔ ∃ below, at? ⟨f, hf⟩ chain = some (value, below)
  induction f generalizing chain with
  | nil =>
    cases chain with
    | nil => simp [Forest.nodes, at?]
    | cons first rest =>
      have hnone : node? ⟨Forest.nil, hf⟩ first = (none : Option (α × Outline α)) := rfl
      simp [Forest.nodes, at?_cons, hnone]
  | node name v children siblings ihc ihs =>
    have hc := fun chain => ihc chain hf.2.1
    have hs := fun chain => ihs chain hf.2.2
    cases chain with
    | nil => simp [Forest.nodes, at?, Forest.nil_not_mem_nodes]
    | cons first rest =>
      rw [at?_node]
      by_cases hname : first = name
      · subst hname
        have hsiblings : (first :: rest, value) ∉ siblings.nodes := by
          rw [hs, at?_siblings hf rest]
          rintro ⟨below, hbelow⟩
          cases hbelow
        by_cases hrest : rest = []
        · subst hrest
          simp [Forest.nodes, hsiblings, Forest.nil_not_mem_nodes, eq_comm]
        · have hbelow := hc rest
          simp [Forest.nodes, hsiblings, hrest, hbelow]
      · have hnot : ∀ e ∈ children.nodes, (name :: e.1, e.2) ≠ (first :: rest, value) := by
          intro e _ heq
          exact hname (List.cons.inj (Prod.mk.inj heq).1).1.symm
        rw [if_neg hname, ← hs (first :: rest)]
        simp only [Forest.nodes, List.mem_cons, List.mem_append, List.mem_map]
        constructor
        · rintro (heq | ⟨e, he, heq⟩ | hmem)
          · exact absurd (List.cons.inj (Prod.mk.inj heq).1).1 hname
          · exact absurd heq (hnot e he)
          · exact hmem
        · intro hmem
          exact .inr (.inr hmem)

theorem mem_chains_iff {chain : List String} :
    chain ∈ o.chains ↔ ∃ found, o.at? chain = some found := by
  rw [chains, ← Forest.map_fst_nodes, List.mem_map]
  constructor
  · rintro ⟨⟨chain, value⟩, he, rfl⟩
    obtain ⟨below, hbelow⟩ := (mem_nodes_iff o chain value).mp he
    exact ⟨_, hbelow⟩
  · rintro ⟨⟨value, below⟩, hfound⟩
    exact ⟨_, (mem_nodes_iff o chain value).mpr ⟨below, hfound⟩, rfl⟩

theorem nil_not_mem_chains (o : Outline α) : [] ∉ o.chains :=
  o.forest.nil_not_mem_chains

theorem mem_values_iff : value ∈ o.values ↔ ∃ chain below, o.at? chain = some (value, below) := by
  rw [values, ← Forest.map_snd_nodes, List.mem_map]
  constructor
  · rintro ⟨⟨chain, value⟩, he, rfl⟩
    exact ⟨chain, (mem_nodes_iff o chain value).mp he⟩
  · rintro ⟨chain, hfound⟩
    exact ⟨_, (mem_nodes_iff o chain value).mpr hfound, rfl⟩

/-- No chain is listed twice. -/
theorem nodup_chains (o : Outline α) : o.chains.Nodup := by
  refine o.sorted.pairwise_chains.imp ?_
  rintro chain _ hlt rfl
  exact List.lt_irrefl chain hlt

/-! ## Outlines with the same nodes -/

/-- Chains that lead to a sibling start with a greater name. -/
theorem lt_of_at? (h : (Forest.node name value children siblings).Sorted) {first : String}
    {found : α × Outline α} (hfound : at? ⟨siblings, h.2.2⟩ (first :: rest) = some found) :
    name < first :=
  h.1.lt_of_mem_chains (mem_chains_iff (o := ⟨siblings, h.2.2⟩).mpr ⟨found, hfound⟩)

theorem forest_eq_of_at? {f g : Forest α} (hf : f.Sorted) (hg : g.Sorted)
    (h : ∀ chain, (at? ⟨f, hf⟩ chain).map (·.1) = (at? ⟨g, hg⟩ chain).map (·.1)) : f = g := by
  have hnil (chain : List String) (hnil : Forest.nil.Sorted) :
      at? (⟨.nil, hnil⟩ : Outline α) chain = none := by
    cases chain with
    | nil => rfl
    | cons first rest => exact at?_cons _ _ _
  induction f generalizing g with
  | nil =>
    cases g with
    | nil => rfl
    | node m w ds ts =>
      have hnode := h [m]
      rw [hnil, at?_node_self] at hnode
      cases hnode
  | node n v cs ss ihc ihs =>
    cases g with
    | nil =>
      have hnode := h [n]
      rw [hnil, at?_node_self] at hnode
      cases hnode
    | node m w ds ts =>
      -- the least name of each outline is a name of the other one
      obtain rfl : n = m := by
        by_contra hne
        have hn := h [n]
        have hm := h [m]
        rw [at?_node_self, at?_node_beside hg hne] at hn
        rw [at?_node_beside hf (Ne.symm hne), at?_node_self] at hm
        obtain ⟨found, hfound, -⟩ := Option.map_eq_some_iff.mp hn.symm
        obtain ⟨found', hfound', -⟩ := Option.map_eq_some_iff.mp hm
        exact absurd (lt_of_at? hg hfound) (String.lt_asymm (lt_of_at? hf hfound'))
      have hvalue : v = w := by
        have hn := h [n]
        rw [at?_node_self, at?_node_self] at hn
        exact Option.some.inj hn
      have hchildren : cs = ds := by
        refine ihc hf.2.1 hg.2.1 fun chain => ?_
        by_cases hchain : chain = []
        · rw [hchain]
          rfl
        · have hbelow := h (n :: chain)
          rwa [at?_node_below hf hchain, at?_node_below hg hchain] at hbelow
      have hsiblings : ss = ts := by
        refine ihs hf.2.2 hg.2.2 fun chain => ?_
        cases chain with
        | nil => rfl
        | cons first rest =>
          by_cases hfirst : first = n
          · rw [hfirst, at?_siblings hf, at?_siblings hg]
          · have hbeside := h (first :: rest)
            rwa [at?_node_beside hf hfirst, at?_node_beside hg hfirst] at hbeside
      rw [hvalue, hchildren, hsiblings]

/-- Outlines are the same if chains lead to nodes with the same values. -/
theorem ext_at? {o p : Outline α} (h : ∀ chain, (o.at? chain).map (·.1) = (p.at? chain).map (·.1)) :
    o = p :=
  Outline.ext (forest_eq_of_at? o.sorted p.sorted h)

theorem ext_node? {o p : Outline α} (h : ∀ name, o.node? name = p.node? name) : o = p := by
  refine ext_at? fun chain => ?_
  cases chain with
  | nil => rfl
  | cons first rest => rw [at?_cons, at?_cons, h]

/-! ## On the way along a chain -/

/-- The values of the nodes on the way along a chain of names, as far as it leads. -/
def lineage : Outline α → List String → List α
  | _, [] => []
  | o, name :: chain =>
    (o.node? name).elim [] fun found => found.1 :: lineage found.2 chain

/-- The values on the way along a chain are those of the nodes that its beginnings lead to. -/
theorem mem_lineage_iff : value ∈ o.lineage chain ↔
    ∃ above below, above <+: chain ∧ o.at? above = some (value, below) := by
  induction chain generalizing o with
  | nil =>
    simp only [lineage, List.not_mem_nil, false_iff]
    rintro ⟨above, below, hpre, hfound⟩
    rw [List.prefix_nil.mp hpre] at hfound
    cases hfound
  | cons name chain ih =>
    -- a beginning of the chain that leads somewhere starts with its first name
    have hstart (above : List String) (below : Outline α) : (above <+: name :: chain ∧
        o.at? above = some (value, below)) ↔ ∃ rest, above = name :: rest ∧ rest <+: chain ∧
          o.at? (name :: rest) = some (value, below) := by
      rw [List.prefix_cons_iff]
      constructor
      · rintro ⟨rfl | ⟨rest, rfl, hpre⟩, hfound⟩
        · cases hfound
        · exact ⟨rest, rfl, hpre, hfound⟩
      · rintro ⟨rest, rfl, hpre, hfound⟩
        exact ⟨.inr ⟨rest, rfl, hpre⟩, hfound⟩
    simp only [hstart, at?_cons]
    cases hnode : o.node? name with
    | none => simp [lineage, hnode]
    | some found =>
      obtain ⟨v, children⟩ := found
      simp only [lineage, hnode, Option.elim_some, List.mem_cons, ih, Option.bind_some]
      constructor
      · rintro (rfl | ⟨above, below, hpre, hfound⟩)
        · exact ⟨_, children, [], rfl, List.nil_prefix, rfl⟩
        · have hne : above ≠ [] := by
            rintro rfl
            cases hfound
          exact ⟨_, below, above, rfl, hpre, by rw [if_neg hne, hfound]⟩
      · rintro ⟨_, below, above, rfl, hpre, hfound⟩
        by_cases habove : above = []
        · rw [if_pos habove] at hfound
          exact .inl (Prod.mk.inj (Option.some.inj hfound)).1.symm
        · rw [if_neg habove] at hfound
          exact .inr ⟨above, below, hpre, hfound⟩

/-- A leaf is a node without children. -/
theorem at?_of_mem_leafChains (h : chain ∈ o.forest.leafChains) :
    ∃ value, o.at? chain = some (value, empty) := by
  obtain ⟨f, hf⟩ := o
  replace h : chain ∈ f.leafChains := h
  induction f generalizing chain with
  | nil => cases h
  | node name v children siblings ihc ihs =>
    rcases Forest.mem_leafChains_node.mp h with ⟨rfl, rfl⟩ | ⟨rest, hrest, rfl⟩ | hmem
    · exact ⟨v, at?_node_self hf⟩
    · obtain ⟨value, hvalue⟩ := ihc hf.2.1 hrest
      have hne : rest ≠ [] := by
        rintro rfl
        cases hvalue
      exact ⟨value, (at?_node_below hf hne).trans hvalue⟩
    · obtain ⟨value, hvalue⟩ := ihs hf.2.2 hmem
      cases chain with
      | nil => cases hvalue
      | cons first rest =>
        have hne : first ≠ name := by
          rintro rfl
          rw [at?_siblings hf rest] at hvalue
          cases hvalue
        exact ⟨value, (at?_node_beside hf hne rest).trans hvalue⟩

end Outline

end SearchComposer
