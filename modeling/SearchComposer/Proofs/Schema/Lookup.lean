import SearchComposer.Proofs.Outline.Leaves
import SearchComposer.Proofs.Schema.Mapping

/-!
# Looking up listed properties

Names without dots can be read off a path again, so that no two chains of them have one path. A
property of the mapping is therefore found under its own path. The two properties that no mapping
defines come last in the listing, and their paths are labels without a dot: such a property is found
under its label unless the mapping defines a property of that name on the top level.
-/

namespace SearchComposer

/-! ## Definitions without dots in their names -/

/-- No name on the way to a definition has a dot in it. -/
def Mapping.DotFree (definitions : Json.Entries) : Prop :=
  ∀ chain found, definition? definitions chain = some found → ∀ name ∈ chain, '.' ∉ name.toList

namespace Schema

open Mapping (definition? indexed DotFree)

variable {mapping : Json} {s : Schema} {p q : Property}

/-! ## What the listing holds -/

theorem mem_properties_iff : p ∈ s.properties ↔
    (∃ chain below, s.nodes.at? chain = some (p, below)) ∨ p ∈ Property.synthetic := by
  rw [properties, List.mem_append, Outline.mem_values_iff]

/-- A node has a property of the mapping, whose path is made of the names that lead there. -/
theorem of_at? (hd : mapping.distinctKeys = true) (h : ofMapping mapping = .ok s)
    {chain : List String} {below : Outline Property} (hp : s.nodes.at? chain = some (p, below)) :
    chain ≠ [] ∧ p.isMapped = true ∧ p.path = Shape.path chain := by
  obtain ⟨above, name, found, rfl, -, rfl⟩ := exists_definition hd h hp
  exact ⟨List.append_ne_nil_of_right_ne_nil _ (List.cons_ne_nil _ _), rfl, rfl⟩

theorem dotFree_of_at? (hd : mapping.distinctKeys = true) (h : ofMapping mapping = .ok s)
    (hdots : DotFree (indexed (Mapping.definitions mapping))) {chain : List String}
    {below : Outline Property} (hp : s.nodes.at? chain = some (p, below)) :
    ∀ name ∈ chain, '.' ∉ name.toList := by
  obtain ⟨above, name, found, -, hfound, -⟩ := exists_definition hd h hp
  exact hdots chain found hfound

/-- Two nodes with properties of one path are the same node. -/
theorem at?_inj (hd : mapping.distinctKeys = true) (h : ofMapping mapping = .ok s)
    (hdots : DotFree (indexed (Mapping.definitions mapping))) {chain chain' : List String}
    {below below' : Outline Property} (hp : s.nodes.at? chain = some (p, below))
    (hq : s.nodes.at? chain' = some (q, below')) (hpath : p.path = q.path) : chain = chain' := by
  obtain ⟨hne, -, hpathp⟩ := of_at? hd h hp
  obtain ⟨hne', -, hpathq⟩ := of_at? hd h hq
  have hsame : Shape.path chain = Shape.path chain' := by rw [← hpathp, hpath, hpathq]
  exact Shape.eq_of_path_eq hne hne' (dotFree_of_at? hd h hdots hp) (dotFree_of_at? hd h hdots hq)
    hsame

/-- The names on the way to definitions are those on the way to nodes. -/
theorem dotFree_iff (hd : mapping.distinctKeys = true) (h : ofMapping mapping = .ok s) :
    DotFree (indexed (Mapping.definitions mapping)) ↔
      ∀ chain ∈ s.nodes.chains, ∀ name ∈ chain, '.' ∉ name.toList := by
  constructor
  · intro hdots chain hchain
    obtain ⟨⟨p, below⟩, hp⟩ := Outline.mem_chains_iff.mp hchain
    exact dotFree_of_at? hd h hdots hp
  · intro hchains chain found hfound
    obtain ⟨above, name, below, -, hnode⟩ := exists_node hd h hfound
    exact hchains chain (Outline.mem_chains_iff.mpr ⟨_, hnode⟩)

/-- There is a node on the top level for each definition there. -/
theorem isSome_at?_iff (hd : mapping.distinctKeys = true) (h : ofMapping mapping = .ok s)
    {name : String} (hname : name ≠ Reserved.root) : (∃ node, s.nodes.at? [name] = some node) ↔
      (Mapping.definitions mapping).get? name ≠ none := by
  obtain ⟨hn, -⟩ := Json.distinctKeys_obj.mp (Mapping.distinctKeys_definitions hd)
  have hget : (indexed (Mapping.definitions mapping)).get? name =
      (Mapping.definitions mapping).get? name := by
    rw [Mapping.get?_indexed hn, if_neg hname]
  constructor
  · rintro ⟨⟨p, below⟩, hp⟩ hnone
    obtain ⟨-, -, found, -, hfound, -⟩ := exists_definition hd h hp
    rw [definition?, hget, hnone] at hfound
    cases hfound
  · intro hsome
    obtain ⟨d, hget'⟩ := Option.ne_none_iff_exists'.mp hsome
    have hfound : definition? (indexed (Mapping.definitions mapping)) [name] = some (false, d) := by
      rw [definition?, hget, hget']
      rfl
    obtain ⟨above, last, below, -, hnode⟩ := exists_node hd h hfound
    exact ⟨_, hnode⟩

/-! ## What is found -/

theorem property?_of_at? (hd : mapping.distinctKeys = true) (h : ofMapping mapping = .ok s)
    (hdots : DotFree (indexed (Mapping.definitions mapping))) {chain : List String}
    {below : Outline Property} (hp : s.nodes.at? chain = some (p, below)) :
    s.property? p.path = some p := by
  have hmem : p ∈ s.nodes.values := Outline.mem_values_iff.mpr ⟨chain, below, hp⟩
  have hsome : (s.nodes.values.find? (·.path == p.path)).isSome = true :=
    List.find?_isSome.mpr ⟨p, hmem, beq_self_eq_true _⟩
  obtain ⟨q, hfind⟩ := Option.isSome_iff_exists.mp hsome
  -- what is found has the path of `p`, so it is the property of the same node
  have hpath : q.path = p.path := by simpa using List.find?_some hfind
  obtain ⟨chain', below', hq⟩ := Outline.mem_values_iff.mp (List.mem_of_find?_eq_some hfind)
  obtain rfl := at?_inj hd h hdots hp hq hpath.symm
  rw [hp] at hq
  obtain ⟨rfl, -⟩ := Prod.mk.inj (Option.some.inj hq)
  rw [property?, properties, List.find?_append, hfind, Option.some_or]

theorem path_of_mem_synthetic (hp : p ∈ Property.synthetic) :
    p.isMapped = false ∧ '.' ∉ p.path.toList ∧ p.path ≠ Reserved.root ∧
      Property.synthetic.find? (·.path == p.path) = some p := by
  rcases List.mem_pair.mp hp with rfl | rfl <;> decide

/-- A property that no mapping defines is found unless a definition has its label as a name. -/
theorem property?_of_mem_synthetic (hd : mapping.distinctKeys = true)
    (h : ofMapping mapping = .ok s) (hdots : DotFree (indexed (Mapping.definitions mapping)))
    (hp : p ∈ Property.synthetic) :
    s.property? p.path = some p ↔ (Mapping.definitions mapping).get? p.path = none := by
  obtain ⟨hmapped, hdot, hroot, hfind⟩ := path_of_mem_synthetic hp
  have hlabel : Shape.path [p.path] = p.path := String.intercalate_singleton
  have hnode := isSome_at?_iff hd h hroot
  constructor
  · intro hlookup
    by_contra hdefined
    obtain ⟨⟨q, below⟩, hq⟩ := hnode.mpr hdefined
    obtain ⟨-, hqmapped, hqpath⟩ := of_at? hd h hq
    have hfound := property?_of_at? hd h hdots hq
    rw [hqpath, hlabel, hlookup] at hfound
    obtain rfl := Option.some.inj hfound
    rw [hmapped] at hqmapped
    cases hqmapped
  · intro hundefined
    have hnone : s.nodes.values.find? (·.path == p.path) = none := by
      rw [List.find?_eq_none]
      intro q hq hsame
      obtain ⟨chain, below, hchain⟩ := Outline.mem_values_iff.mp hq
      obtain ⟨hne, -, hqpath⟩ := of_at? hd h hchain
      have hpath : Shape.path chain = Shape.path [p.path] := by
        rw [hlabel, ← hqpath]
        exact beq_iff_eq.mp hsame
      have hlabels : ∀ name ∈ [p.path], '.' ∉ name.toList := by simpa using hdot
      obtain rfl := Shape.eq_of_path_eq hne (List.cons_ne_nil _ _)
        (dotFree_of_at? hd h hdots hchain) hlabels hpath
      exact hnode.mp ⟨_, hchain⟩ hundefined
    rw [property?, properties, List.find?_append, hnone, Option.none_or, hfind]

/-! ## Main statement -/

/-- Let the objects of a mapping have distinct keys, as in all that is read from a text, and let no
name of a definition have a dot in it. Then every listed property of its schema is found under its
own path, with one exception: a property that no mapping defines is not found if the mapping has a
property on the top level whose name is the label of that one. -/
theorem lookup_inverts_listing (hd : mapping.distinctKeys = true) (h : ofMapping mapping = .ok s)
    (hdots : DotFree (indexed (Mapping.definitions mapping))) (hp : p ∈ s.properties) :
    s.property? p.path = some p ↔
      p.isMapped = true ∨ (Mapping.definitions mapping).get? p.path = none := by
  rcases mem_properties_iff.mp hp with ⟨chain, below, hnode⟩ | hsynthetic
  · obtain ⟨-, hmapped, -⟩ := of_at? hd h hnode
    have hfound := property?_of_at? hd h hdots hnode
    exact ⟨fun _ => .inl hmapped, fun _ => hfound⟩
  · obtain ⟨hmapped, -⟩ := path_of_mem_synthetic hsynthetic
    rw [property?_of_mem_synthetic hd h hdots hsynthetic, hmapped]
    simp

/-- Empty names keep their places in a path, and a field is found below them. -/
theorem lookup_inverts_listing_below_empty_names :
    ∃ (mapping : Json) (s : Schema) (p : Property), mapping.distinctKeys = true ∧
      ofMapping mapping = .ok s ∧ DotFree (indexed (Mapping.definitions mapping)) ∧
      p ∈ s.properties ∧ Property.space ∈ s.properties ∧
      p = ⟨"raw", "..raw", .keyword, .mapped, true, some "."⟩ ∧
      s.property? "..raw" = some p ∧ s.property? "space" = some .space := by
  let object (key : String) (entries : Json.Entries) : String × Json := (key, .obj entries)
  let mapping : Json := .obj [object "mappings" [object "properties"
    [object "" [object "properties" [object "" [("type", .str "text"),
      object "fields" [object "raw" [("type", .str "keyword")]]]]]]]]
  have hd : mapping.distinctKeys = true := by decide
  obtain ⟨s, hs, hchains, hmem, hspace⟩ : ∃ s, ofMapping mapping = .ok s ∧
      (∀ chain ∈ s.nodes.chains, ∀ name ∈ chain, '.' ∉ name.toList) ∧
      ⟨"raw", "..raw", .keyword, .mapped, true, some "."⟩ ∈ s.properties ∧
      Property.space ∈ s.properties :=
    ⟨_, rfl, by decide, by decide, by decide⟩
  have hdots := (dotFree_iff hd hs).mpr hchains
  exact ⟨mapping, s, _, hd, hs, hdots, hmem, hspace, rfl,
    (lookup_inverts_listing hd hs hdots hmem).mpr (.inl rfl),
    (lookup_inverts_listing hd hs hdots hspace).mpr (.inr rfl)⟩

/-- A property that the mapping calls `space` is found under the label of the space of a document,
and that one is not found, although no name has a dot in it. -/
theorem lookup_misses_shadowed_space :
    ∃ (mapping : Json) (s : Schema), mapping.distinctKeys = true ∧ ofMapping mapping = .ok s ∧
      DotFree (Mapping.definitions mapping) ∧ Property.space ∈ s.properties ∧
      s.property? Property.space.path ≠ some .space := by
  let object (key : String) (entries : Json.Entries) : String × Json := (key, .obj entries)
  let mapping : Json := .obj [object "mappings" [object "properties"
    [object "space" [("type", .str "keyword")]]]]
  have hd : mapping.distinctKeys = true := by decide
  obtain ⟨s, hs, hchains, hspace, hfound⟩ : ∃ s, ofMapping mapping = .ok s ∧
      (∀ chain ∈ s.nodes.chains, ∀ name ∈ chain, '.' ∉ name.toList) ∧
      Property.space ∈ s.properties ∧ s.property? Property.space.path ≠ some .space :=
    ⟨_, rfl, by decide, by decide, by decide⟩
  exact ⟨mapping, s, hd, hs, (dotFree_iff hd hs).mpr hchains, hspace, hfound⟩

end Schema

end SearchComposer
