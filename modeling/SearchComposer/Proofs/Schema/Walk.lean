import SearchComposer.Proofs.Schema.Listed
import SearchComposer.Schema.Walk

/-!
# A walk meets the nodes in the order of their chains

The stack of a walk stands for nodes that are still to come: each of those on it, and right after it
all that are below it. Taking a node and putting its children onto the stack changes nothing about
that, since the first child is then on top. So a walk is the traversal by recursion, and as the
names on every level increase, the chains of the nodes that it meets increase too.

A flag is handed down from a node to its children. At a node it has therefore gone through the types
of all nodes on the way to it.
-/

namespace SearchComposer.Schema

/-! ## The walk and the recursion -/

theorem walkFrom_eq_flatMap (stack : List Pending) :
    walkFrom stack = stack.flatMap Pending.met := by
  fun_induction walkFrom stack with
  | case1 => rfl
  | case2 n stack ih => rw [flatMap_met_cons, ih]

theorem walk_eq_marked (s : Schema) : s.walk = marked true s.nodes.forest := by
  rw [walk, walkFrom_eq_flatMap, flatMap_met_pushLevel, List.flatMap_nil, List.append_nil]

/-! ## Nodes in order -/

/-- Nodes of a schema are listed in the order of their chains, each with its property and with a
flag about the types on the way to it. -/
structure ListsInOrder (s : Schema) (listed : List (List String × Property × Bool)) : Prop where
  /-- The listed nodes are those that chains lead to. The flag is set where no type on the way, the
  one of the node included, is unknown. -/
  mem_iff : ∀ chain p supported, (chain, p, supported) ∈ listed ↔
    (∃ below, s.nodes.at? chain = some (p, below)) ∧ (supported = true ↔ s.SupportedAlong chain)
  /-- The chains increase strictly, compared name by name, so no node is listed twice. -/
  increasing : (listed.map (·.1)).Pairwise (· < ·)
  /-- A node stands before all nodes below it. -/
  parents_first : (listed.map (·.1)).Pairwise fun chain later => ¬later <+: chain

/-- The nodes of a schema with their flags. -/
def flagged (s : Schema) : List (List String × Property × Bool) :=
  s.nodes.forest.nodes.map fun e => (e.1, e.2, (s.nodes.lineage e.1).all (·.dataType.isSupported))

theorem map_chain_flagged (s : Schema) : s.flagged.map (·.1) = s.nodes.chains := by
  rw [flagged, List.map_map, Outline.chains, ← Forest.map_fst_nodes]
  rfl

theorem map_property_flagged (s : Schema) : s.flagged.map (·.2.1) = s.nodes.values := by
  rw [flagged, List.map_map, Outline.values, ← Forest.map_snd_nodes]
  rfl

theorem walk_eq_flagged (s : Schema) : s.walk = s.flagged.map (·.2) := by
  rw [walk_eq_marked, marked_eq s.nodes.sorted, flagged, List.map_map]
  rfl

theorem mem_flagged_iff {s : Schema} {chain : List String} {p : Property} {supported : Bool} :
    (chain, p, supported) ∈ s.flagged ↔
      (∃ below, s.nodes.at? chain = some (p, below)) ∧
        (supported = true ↔ s.SupportedAlong chain) := by
  rw [flagged, List.mem_map]
  constructor
  · rintro ⟨⟨chain, p⟩, hnode, heq⟩
    cases heq
    exact ⟨(s.nodes.mem_nodes_iff chain p).mp hnode, s.supportedAlong_iff chain⟩
  · rintro ⟨hnode, hsupported⟩
    have hflag : (s.nodes.lineage chain).all (·.dataType.isSupported) = supported := by
      rw [Bool.eq_iff_iff, hsupported]
      exact s.supportedAlong_iff chain
    refine ⟨(chain, p), (s.nodes.mem_nodes_iff chain p).mpr hnode, ?_⟩
    rw [hflag]

theorem listsInOrder_flagged (s : Schema) : s.ListsInOrder s.flagged where
  mem_iff := fun _ _ _ => mem_flagged_iff
  increasing := by
    rw [map_chain_flagged]
    exact s.nodes.sorted.pairwise_chains
  parents_first := by
    rw [map_chain_flagged]
    refine s.nodes.sorted.pairwise_chains.imp ?_
    intro chain later hlt hpre
    -- what a chain starts with is no greater than the chain
    exact hpre.le hlt

/-! ## Main statement -/

/-- A walk through a schema meets each node that a chain leads to once, in the order of the chains
and with the flag that says whether all types on the way are known. It is the traversal by
recursion, and the listing of all properties is what it meets, followed by the two that no mapping
defines. -/
theorem walk_meets_nodes_in_order (s : Schema) :
    (∃ listed, s.ListsInOrder listed ∧ s.walk = listed.map (·.2)) ∧
      s.walk = marked true s.nodes.forest ∧
      s.properties = s.walk.map (·.1) ++ [Property.anyProperty, Property.space] := by
  refine ⟨⟨s.flagged, s.listsInOrder_flagged, s.walk_eq_flagged⟩, s.walk_eq_marked, ?_⟩
  rw [properties, walk_eq_flagged, List.map_map, ← map_property_flagged]
  rfl

/-- The field `b` comes before `a-`, although its path is greater, and a type that is not known
counts for the nodes below it too. -/
example :
    let a := Property.mapped none "a" .object false
    let b := Property.mapped (some a) "b" .keyword true
    let c := Property.mapped none "a-" (.other "nested") false
    let d := Property.mapped (some c) "d" .number false
    let first := Outline.empty.put "a" a (Outline.empty.put "b" b .empty)
    let s : Schema := ⟨first.put "a-" c (Outline.empty.put "d" d .empty), .empty⟩
    s.walk = [(a, true), (b, true), (c, false), (d, false)] ∧ c.path < b.path := by
  cbv

end SearchComposer.Schema
