import SearchComposer.Hits
import SearchComposer.Proofs.Json.Reordered
import SearchComposer.Proofs.Outline.Walk

/-!
# The shape of hits

A chain of names leads through a value if each name is a key of an object and the next one is a key
of an object in the value under it, where lists are looked through. The shape of some hits consists
of the chains that lead through their sources. So it is the union of the shapes of the single hits,
and whatever keeps these chains keeps the shape: neither the order of hits, keys and items shows in
it, nor how items are gathered in lists, nor in which order a walk looks into values.
-/

namespace SearchComposer

namespace Json

/-! ## Chains through a value -/

/-- A chain of names that leads through a value. -/
inductive Contains : Json → List String → Prop where
  /-- A key of an object is a chain of one name. -/
  | key {entries : Entries} {name : String} {j : Json} (h : (name, j) ∈ entries) :
      Contains (.obj entries) [name]
  /-- From a key a chain goes on through the value under it. -/
  | under {entries : Entries} {name : String} {j : Json} {chain : List String}
      (h : (name, j) ∈ entries) (hchain : Contains j chain) :
      Contains (.obj entries) (name :: chain)
  /-- A chain through an item of a list leads through the list. -/
  | item {items : List Json} {j : Json} {chain : List String} (h : j ∈ items)
      (hchain : Contains j chain) : Contains (.arr items) chain

variable {j j' j₁ j₂ : Json} {chain : List String} {items : List Json} {entries : Entries}

theorem contains_arr : (arr items).Contains chain ↔ ∃ j ∈ items, j.Contains chain := by
  constructor
  · rintro (_ | _ | ⟨hj, hchain⟩)
    exact ⟨_, hj, hchain⟩
  · rintro ⟨j, hj, hchain⟩
    exact .item hj hchain

/-- The chains through an object start with its keys. -/
theorem contains_obj : (obj entries).Contains chain ↔
    ∃ e ∈ entries, chain = [e.1] ∨ ∃ rest, e.2.Contains rest ∧ e.1 :: rest = chain := by
  constructor
  · intro h
    cases h with
    | key h => exact ⟨_, h, .inl rfl⟩
    | under h hchain => exact ⟨_, h, .inr ⟨_, hchain, rfl⟩⟩
  · rintro ⟨⟨name, j⟩, h, rfl | ⟨rest, hrest, rfl⟩⟩
    · exact .key h
    · exact .under h hrest

theorem contains_arr_append {front back : List Json} :
    (arr (front ++ back)).Contains chain ↔
      (arr front).Contains chain ∨ (arr back).Contains chain := by
  simp only [contains_arr, List.mem_append, or_and_right, exists_or]

theorem contains_arr_cons :
    (arr (j :: items)).Contains chain ↔ j.Contains chain ∨ (arr items).Contains chain := by
  simp only [contains_arr, List.mem_cons, or_and_right, exists_or, exists_eq_left]

theorem contains_obj_append {front back : Entries} :
    (obj (front ++ back)).Contains chain ↔
      (obj front).Contains chain ∨ (obj back).Contains chain := by
  simp only [contains_obj, List.mem_append, or_and_right, exists_or]

theorem contains_obj_cons {key : String} :
    (obj ((key, j) :: entries)).Contains chain ↔
      (chain = [key] ∨ ∃ rest, j.Contains rest ∧ key :: rest = chain) ∨
        (obj entries).Contains chain := by
  simp only [contains_obj, List.mem_cons, or_and_right, exists_or, exists_eq_left]

theorem not_contains_arr_nil : ¬(arr []).Contains chain := by
  simp [contains_arr]

theorem not_contains_obj_nil : ¬(obj []).Contains chain := by
  simp [contains_obj]

/-- The values right inside a value. -/
def parts : Json → List Json
  | .arr items => items
  | .obj entries => entries.map (·.2)
  | _ => []

theorem sizeOf_lt_of_mem_parts {part : Json} (h : part ∈ j.parts) : sizeOf part < sizeOf j := by
  cases j with
  | arr items =>
    have hlt : sizeOf part < sizeOf items := List.sizeOf_lt_of_mem h
    simp only [arr.sizeOf_spec]
    omega
  | obj entries =>
    obtain ⟨e, he, rfl⟩ := List.mem_map.mp h
    exact sizeOf_lt_of_mem he
  | _ => cases h

/-- What holds of a value if it holds of those right inside it holds of all. -/
theorem induction_parts {P : Json → Prop} (step : ∀ j, (∀ part ∈ j.parts, P part) → P j)
    (j : Json) : P j :=
  step j fun part _ => induction_parts step part
termination_by sizeOf j
decreasing_by exact sizeOf_lt_of_mem_parts ‹_›

/-! ## Values that are arranged in another way -/

/-- A value is split in two, which share out its items or entries, or parts of the value under one
of its keys. -/
inductive Splits : Json → Json → Json → Prop where
  /-- The items of a list are shared out. -/
  | items (front back : List Json) : Splits (.arr (front ++ back)) (.arr front) (.arr back)
  /-- The entries of an object are shared out. -/
  | entries (front back : Entries) : Splits (.obj (front ++ back)) (.obj front) (.obj back)
  /-- The value under a key is split. -/
  | under (front back : Entries) (key : String) {j j₁ j₂ : Json} (h : Splits j j₁ j₂) :
      Splits (.obj (front ++ (key, j) :: back)) (.obj (front ++ (key, j₁) :: back))
        (.obj [(key, j₂)])

/-- A value becomes another one that has the same parts in other places. -/
inductive Rearranges : Json → Json → Prop where
  /-- The keys of an object are put into another order. -/
  | keys {j j' : Json} (h : PermutesKeys j j') : Rearranges j j'
  /-- The items of a list are put into another order. -/
  | items {items items' : List Json} (h : items.Perm items') : Rearranges (.arr items) (.arr items')
  /-- The items of a list within a list take its place. -/
  | nested (front items back : List Json) :
      Rearranges (.arr (front ++ .arr items :: back)) (.arr (front ++ (items ++ back)))
  /-- An item of a list is split into two items. -/
  | split (front back : List Json) {j j₁ j₂ : Json} (h : Splits j j₁ j₂) :
      Rearranges (.arr (front ++ j :: back)) (.arr (front ++ j₁ :: j₂ :: back))

/-- Equal up to the order of keys and items and up to the way in which items are gathered in lists,
at any depth. -/
def Rearranged : Json → Json → Prop := Relation.EqvGen (Within Rearranges)

theorem Rearranges.rearranged (h : Rearranges j j') : Rearranged j j' :=
  Relation.EqvGen.rel _ _ (.here h)

/-- Each chain leads through one of the two values or through both. -/
theorem Splits.contains_iff (h : Splits j j₁ j₂) :
    j.Contains chain ↔ j₁.Contains chain ∨ j₂.Contains chain := by
  induction h generalizing chain with
  | items front back => exact contains_arr_append
  | entries front back => exact contains_obj_append
  | under front back key _ ih =>
    -- The key stands in both objects, the keys around it in the first one only.
    simp only [contains_obj_append, contains_obj_cons, not_contains_obj_nil, or_false, ih,
      or_and_right, exists_or]
    grind

theorem Rearranges.contains_iff (h : Rearranges j j') : j.Contains chain ↔ j'.Contains chain := by
  cases h with
  | keys h =>
    obtain ⟨hperm⟩ := h
    simp only [contains_obj, hperm.mem_iff]
  | items hperm => simp only [contains_arr, hperm.mem_iff]
  | nested front items back => simp only [contains_arr_append, contains_arr_cons]
  | split front back h =>
    simp only [contains_arr_append, contains_arr_cons, h.contains_iff, or_assoc]

theorem Rearranged.contains_iff (h : Rearranged j j') : j.Contains chain ↔ j'.Contains chain := by
  induction h generalizing chain with
  | refl j => exact Iff.rfl
  | symm j j' _ ih => exact ih.symm
  | trans j j' j'' _ _ ih ih' => exact ih.trans ih'
  | rel j j' h =>
    induction h generalizing chain with
    | here h => exact h.contains_iff
    | item front back _ ih => simp only [contains_arr_append, contains_arr_cons, ih]
    | entry front back key _ ih => simp only [contains_obj_append, contains_obj_cons, ih]

end Json

namespace Hits

open Json (Contains)

variable {hs hs' : Hits} {chain : List String} {items : List Json} {entries : Json.Entries}

/-! ## What a shape grows by -/

/-- A shape that grows by a value grows by the chains through it. -/
def GrowsBy (j : Json) : Prop :=
  ∀ (s : Shape) (chain : List String),
    chain ∈ (grow s j).chains ↔ chain ∈ s.chains ∨ j.Contains chain

theorem mem_chains_growItems (h : ∀ j ∈ items, GrowsBy j) (s : Shape) (chain : List String) :
    chain ∈ (growItems s items).chains ↔ chain ∈ s.chains ∨ (Json.arr items).Contains chain := by
  induction items generalizing s with
  | nil => simp [growItems, Json.not_contains_arr_nil]
  | cons j rest ih =>
    obtain ⟨hj, hrest⟩ := List.forall_mem_cons.mp h
    rw [growItems, ih hrest, hj, Json.contains_arr_cons, or_assoc]

theorem mem_chains_growEntries (h : ∀ e ∈ entries, GrowsBy e.2) (s : Shape) (chain : List String) :
    chain ∈ (growEntries s entries).chains ↔
      chain ∈ s.chains ∨ (Json.obj entries).Contains chain := by
  induction entries generalizing s with
  | nil => simp [growEntries, Json.not_contains_obj_nil]
  | cons e rest ih =>
    obtain ⟨key, j⟩ := e
    obtain ⟨hj, hrest⟩ := List.forall_mem_cons.mp h
    rw [growEntries, ih hrest, Shape.mem_chains_extend_of (hj (s.below key)),
      Json.contains_obj_cons, or_assoc]

theorem growsBy (j : Json) : GrowsBy j := by
  induction j using Json.induction_parts with
  | step j ih =>
    intro s chain
    have hscalar (hnone : ¬j.Contains chain) :
        chain ∈ s.chains ↔ chain ∈ s.chains ∨ j.Contains chain := (or_iff_left hnone).symm
    cases j with
    | arr items => exact mem_chains_growItems ih s chain
    | obj entries =>
      refine mem_chains_growEntries (fun e he => ih e.2 ?_) s chain
      exact List.mem_map_of_mem he
    | _ => exact hscalar (by rintro ⟨⟩)

/-! ## The walk -/

theorem leads_view_arr : view.Leads (.arr items) chain ↔ ∃ j ∈ items, view.Leads j chain := by
  have hparts : view.parts (.arr items) = items.map fun j => (none, some j) := rfl
  rw [Shape.View.leads_iff, hparts]
  simp

theorem leads_view_obj : view.Leads (.obj entries) chain ↔
    ∃ e ∈ entries, chain = [e.1] ∨ ∃ rest, view.Leads e.2 rest ∧ e.1 :: rest = chain := by
  have hparts : view.parts (.obj entries) = entries.map fun e => (some e.1, some e.2) := rfl
  rw [Shape.View.leads_iff, hparts]
  simp

theorem leads_view_iff {j : Json} : view.Leads j chain ↔ j.Contains chain := by
  induction j using Json.induction_parts generalizing chain with
  | step j ih =>
    have hscalar (hnone : view.parts j = []) (hchain : ¬j.Contains chain) :
        view.Leads j chain ↔ j.Contains chain := by
      rw [Shape.View.leads_iff, hnone]
      simpa using hchain
    cases j with
    | arr items =>
      rw [leads_view_arr, Json.contains_arr]
      exact exists_congr fun j => and_congr_right fun hj => ih j hj
    | obj entries =>
      rw [leads_view_obj, Json.contains_obj]
      refine exists_congr fun e => and_congr_right fun he => or_congr_right ?_
      exact exists_congr fun rest => and_congr_left' (ih e.2 (List.mem_map_of_mem he))
    | _ => exact hscalar rfl (by rintro ⟨⟩)

theorem gather_view_eq_grow (s : Shape) (j : Json) : view.gather s j = grow s j := by
  refine Shape.ext_chains fun chain => ?_
  rw [Shape.View.mem_chains_gather, leads_view_iff, growsBy]

/-- Walks through the sources gather the shape that is grown by recursion. -/
theorem gather_eq_shape (hs : Hits) : hs.gather = hs.shape := by
  have hstep : view.gather = grow := funext fun s => funext fun j => gather_view_eq_grow s j
  rw [gather, shape, hstep]

/-! ## The shape -/

theorem mem_chains_foldl_grow (sources : List Json) (s : Shape) :
    chain ∈ (sources.foldl grow s).chains ↔
      chain ∈ s.chains ∨ ∃ source ∈ sources, source.Contains chain := by
  induction sources generalizing s with
  | nil => simp
  | cons source sources ih => simp [ih, growsBy source s chain, or_assoc]

theorem mem_chains_shape : chain ∈ hs.shape.chains ↔
    ∃ h ∈ hs.hits, ∃ source ∈ h.source?, source.Contains chain := by
  rw [shape, mem_chains_foldl_grow]
  simp only [Shape.not_mem_chains_empty, false_or, List.mem_filterMap]
  constructor
  · rintro ⟨source, ⟨h, hh, hsource⟩, hchain⟩
    exact ⟨h, hh, source, hsource, hchain⟩
  · rintro ⟨h, hh, source, hsource, hchain⟩
    exact ⟨source, ⟨h, hh, hsource⟩, hchain⟩

/-- Hits with the same sources up to how these are arranged, in any order, and each of them any
number of times. -/
def Rearranged (hs hs' : Hits) : Prop :=
  (∀ h ∈ hs.hits, ∃ h' ∈ hs'.hits, Option.Rel Json.Rearranged h.source? h'.source?) ∧
    ∀ h' ∈ hs'.hits, ∃ h ∈ hs.hits, Option.Rel Json.Rearranged h.source? h'.source?

theorem exists_contains_iff_of_rel {source? source'? : Option Json}
    (hrel : Option.Rel Json.Rearranged source? source'?) :
    (∃ source ∈ source?, source.Contains chain) ↔ ∃ source ∈ source'?, source.Contains chain := by
  cases hrel with
  | none => exact Iff.rfl
  | some h => simp [h.contains_iff]

theorem Rearranged.mem_chains_shape_iff (h : hs.Rearranged hs') :
    chain ∈ hs.shape.chains ↔ chain ∈ hs'.shape.chains := by
  obtain ⟨hto, hfrom⟩ := h
  rw [mem_chains_shape, mem_chains_shape]
  constructor
  · rintro ⟨h, hh, hchain⟩
    obtain ⟨h', hh', hrel⟩ := hto h hh
    exact ⟨h', hh', (exists_contains_iff_of_rel hrel).mp hchain⟩
  · rintro ⟨h', hh', hchain⟩
    obtain ⟨h, hh, hrel⟩ := hfrom h' hh'
    exact ⟨h, hh, (exists_contains_iff_of_rel hrel).mpr hchain⟩

/-- The hits that consist of a single one. -/
def single (h : Hit) : Hits :=
  { hits := [h], total := 1 }

theorem mem_chains_shape_single {h : Hit} : chain ∈ (single h).shape.chains ↔
    ∃ source ∈ h.source?, source.Contains chain := by
  rw [mem_chains_shape]
  simp only [single, List.mem_singleton, exists_eq_left]

/-- The shape of hits has the chains that lead through one of the sources, and no others. So it is
the union of the shapes of the single hits, and the same for hits whose sources are the same up to
their order and repetition, the order of keys, and the way in which lists are arranged. -/
theorem shape_collects_chains (hs : Hits) :
    (∀ chain, chain ∈ hs.shape.chains ↔
      ∃ h ∈ hs.hits, ∃ source ∈ h.source?, source.Contains chain) ∧
    hs.shape = (hs.hits.map fun h => (single h).shape).foldl Shape.merge .empty ∧
    ∀ hs' : Hits, hs.Rearranged hs' → hs.shape = hs'.shape := by
  refine ⟨fun chain => mem_chains_shape, ?_, ?_⟩
  · refine Shape.ext_chains fun chain => ?_
    rw [mem_chains_shape, Shape.mem_chains_foldl_merge]
    simp only [Shape.not_mem_chains_empty, false_or, List.mem_map, exists_exists_and_eq_and,
      mem_chains_shape_single]
  · intro hs' h
    exact Shape.ext_chains fun chain => h.mem_chains_shape_iff

/-- A name is that of a scalar in the one hit and that of lists of objects in the other one. -/
theorem shape_collects_chains_of_nested_lists :
    ∃ hs hs' : Hits, hs.Rearranged hs' ∧ hs.hits.length = 2 ∧ hs'.hits.length = 3 ∧
      hs.shape = hs'.shape ∧ hs'.shape.chains = [["a"], ["a", "b"], ["a", "c"], ["e"]] := by
  let hit (j : Json) : Hit := { id? := none, source? := some j, fileName? := none }
  let b : String × Json := ("b", .null)
  let c : String × Json := ("c", .str "text")
  let nested : Json := .arr [.arr [.obj [b, c]], .null]
  let split : Json := .arr [.null, .obj [b], .obj [c]]
  let scalar : Json.Entries := [("e", .arr []), ("a", .null)]
  have hlists : Json.Rearranged nested split :=
    ((Json.Rearranges.nested [] [.obj [b, c]] [.null]).rearranged.trans _ _ _
      (Json.Rearranges.items (List.Perm.swap _ _ [])).rearranged).trans _ _ _
      (Json.Rearranges.split [.null] [] (.entries [b] [c])).rearranged
  have hnested : Json.Rearranged (.obj [("a", nested)]) (.obj [("a", split)]) :=
    Json.Within.eqvGen_entry [] [] "a" hlists
  have hscalar : Json.Rearranged (.obj scalar) (.obj scalar.reverse) :=
    (Json.Rearranges.keys (.intro (List.reverse_perm scalar).symm)).rearranged
  let hs : Hits := { hits := [hit (.obj [("a", nested)]), hit (.obj scalar)], total := 2 }
  let hs' : Hits :=
    { hits := [hit (.obj scalar.reverse), hit (.obj [("a", split)]), hit (.obj scalar.reverse)],
      total := 3 }
  have h : hs.Rearranged hs' := by
    simp [Rearranged, hs, hs', hit, hnested, hscalar]
  exact ⟨hs, hs', h, rfl, rfl, (shape_collects_chains hs).2.2 hs' h, by decide⟩

end Hits

end SearchComposer
