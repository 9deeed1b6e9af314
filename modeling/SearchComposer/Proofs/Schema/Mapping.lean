import SearchComposer.Proofs.Json.Reordered
import SearchComposer.Proofs.Schema.Definitions

/-!
# The properties of a mapping

A mapping defines the properties of its schema, and no others are there: a chain of names leads to a
node exactly if it leads to a definition, and the property of that node is the one that the
definition makes at that place. The id of the space is deleted first. The reader moves entries about
when it takes out that id, which does not show in what chains of names lead to.
-/

namespace SearchComposer

namespace Mapping

open Json (Entries)

/-- The definitions of a mapping; none without an object of them. -/
def definitions (mapping : Json) : Entries :=
  match (mapping.field? "mappings").bind (Json.field? propertiesKey) with
  | some (.obj definitions) => definitions
  | _ => []

/-- Whether a value is there that is neither `null` nor an object. -/
def isMisplaced : Option Json → Bool
  | none => false
  | some .null => false
  | some (.obj _) => false
  | some _ => true

/-- The reserved definition after the id of the space was deleted from the definitions nested in it.
If that leaves none there, nothing is left of the definition either. -/
def reservedLeft? (definition : Json) : Option Json :=
  let nested := under propertiesKey definition
  let others := nested.filter (·.1 != Reserved.spaceId)
  if others.length = nested.length then some definition
  else if others = [] then none
  else
    match definition with
    | .obj entries =>
      some (.obj (entries.map fun e => if e.1 = propertiesKey then (e.1, .obj others) else e))
    | _ => some definition

/-- The definitions that properties are made of. -/
def indexed (definitions : Entries) : Entries :=
  definitions.filterMap fun e =>
    if e.1 = Reserved.root then (reservedLeft? e.2).map (e.1, ·) else some e

variable {entries nested reserved : Entries} {d d' : Json}

/-- Two definitions of the same type, from which the same names lead on to the same definitions. -/
def Alike (d d' : Json) : Prop :=
  d.field? "type" = d'.field? "type" ∧ ∀ name, child? name d = child? name d'

theorem Alike.refl (d : Json) : Alike d d := ⟨rfl, fun _ => rfl⟩

/-- Definitions are alike if they differ in the order of the nested properties only. -/
theorem alike_of_nested {nested' reserved' : Entries}
    (hothers : ∀ key, key ≠ propertiesKey → reserved.get? key = reserved'.get? key)
    (h : reserved.get? propertiesKey = some (.obj nested))
    (h' : reserved'.get? propertiesKey = some (.obj nested'))
    (hnested : ∀ name, nested.get? name = nested'.get? name) :
    Alike (.obj reserved) (.obj reserved') := by
  have hfields : under fieldsKey (.obj reserved) = under fieldsKey (.obj reserved') := by
    have hkey : reserved.get? fieldsKey = reserved'.get? fieldsKey := hothers _ (by decide)
    simp only [under, Json.field?, hkey]
  refine ⟨hothers "type" (by decide), fun name => ?_⟩
  unfold child?
  rw [hfields]
  simp only [under, Json.field?, h, h', hnested]

/-! ## Taking out the id of the space -/

/-- Either there is no id of the space and nothing is done, or it is taken out. -/
theorem withoutSpaceId_cases (entries : Entries) :
    (withoutSpaceId entries = entries ∧ ∀ d, entries.get? Reserved.root = some d →
      (under propertiesKey d).has Reserved.spaceId = false) ∨
    ∃ reserved nested, entries.get? Reserved.root = some (.obj reserved) ∧
      Entries.get? propertiesKey reserved = some (.obj nested) ∧
      Entries.has Reserved.spaceId nested = true ∧
      ((Entries.swapErase Reserved.spaceId nested = [] ∧
          withoutSpaceId entries = entries.swapErase Reserved.root) ∨
        (Entries.swapErase Reserved.spaceId nested ≠ [] ∧
          withoutSpaceId entries = entries.insert Reserved.root (.obj (Entries.insert propertiesKey
            (.obj (Entries.swapErase Reserved.spaceId nested)) reserved)))) := by
  unfold withoutSpaceId
  split
  · next reserved hroot =>
    split
    · next nested hnested =>
      by_cases hid : Entries.has Reserved.spaceId nested = true
      · refine .inr ⟨reserved, nested, hroot, hnested, hid, ?_⟩
        rw [if_pos hid]
        by_cases hempty : Entries.swapErase Reserved.spaceId nested = []
        · simp [hempty]
        · simp [hempty]
      · rw [if_neg hid]
        refine .inl ⟨rfl, fun d hd => ?_⟩
        obtain rfl := Option.some.inj (hroot.symm.trans hd)
        simpa [under, Json.field?, hnested] using hid
    · next hnested =>
      refine .inl ⟨rfl, fun d hd => ?_⟩
      obtain rfl := Option.some.inj (hroot.symm.trans hd)
      unfold under
      split
      · next h => exact absurd h (hnested _)
      · rfl
  · next hroot =>
    refine .inl ⟨rfl, fun d hd => ?_⟩
    cases d with
    | obj reserved => exact absurd hd (hroot reserved)
    | _ => rfl

theorem get?_withoutSpaceId_of_ne (hn : entries.keys.Nodup) {name : String}
    (hname : name ≠ Reserved.root) : (withoutSpaceId entries).get? name = entries.get? name := by
  rcases withoutSpaceId_cases entries with ⟨h, -⟩ | ⟨_, _, -, -, -, ⟨-, h⟩ | ⟨-, h⟩⟩
  · rw [h]
  · rw [h, Entries.get?_swapErase hn, if_neg hname]
  · rw [h, Entries.get?_insert_of_ne hname]

theorem distinctKeys_withoutSpaceId (hd : (Json.obj entries).distinctKeys = true) :
    (Json.obj (withoutSpaceId entries)).distinctKeys = true := by
  rcases withoutSpaceId_cases entries with
    ⟨h, -⟩ | ⟨reserved, nested, hroot, hnested, -, ⟨-, h⟩ | ⟨-, h⟩⟩
  · rwa [h]
  · rw [h]
    exact Json.distinctKeys_swapErase hd Reserved.root
  · have hreserved := Json.distinctKeys_of_get? hd hroot
    have hdefinitions := Json.distinctKeys_of_get? hreserved hnested
    have hkept := Json.distinctKeys_swapErase hdefinitions Reserved.spaceId
    rw [h]
    exact Json.distinctKeys_insert hd _ (Json.distinctKeys_insert hreserved _ hkept)

theorem length_others_eq_iff : (nested.filter (·.1 != Reserved.spaceId)).length = nested.length ↔
    nested.has Reserved.spaceId = false := by
  rw [List.length_filter_eq_length_iff, Entries.has, Option.isSome_eq_false_iff,
    Option.isNone_iff_eq_none, Entries.get?_eq_none]
  constructor
  · intro h hmem
    obtain ⟨e, he, hkey⟩ := List.mem_map.mp hmem
    simpa [hkey] using h e he
  · intro h e he
    have hne : e.1 ≠ Reserved.spaceId := fun hkey => h (hkey ▸ Entries.key_mem_keys he)
    simpa using hne

/-- Taken out or deleted, the id of the space leaves definitions that are alike. -/
theorem rel_get?_root (hd : (Json.obj entries).distinctKeys = true) :
    Option.Rel Alike ((withoutSpaceId entries).get? Reserved.root)
      ((entries.get? Reserved.root).bind reservedLeft?) := by
  obtain ⟨hn, -⟩ := Json.distinctKeys_obj.mp hd
  rcases withoutSpaceId_cases entries with ⟨h, hnone⟩ | ⟨reserved, nested, hroot, hnested, hid, h⟩
  · rw [h]
    cases hroot : entries.get? Reserved.root with
    | none => exact .none
    | some d =>
      have hleft : reservedLeft? d = some d := by
        unfold reservedLeft?
        rw [if_pos (length_others_eq_iff.mpr (hnone d hroot))]
      rw [Option.bind_some, hleft]
      exact .some (Alike.refl d)
  · have hreserved := Json.distinctKeys_of_get? hd hroot
    have hdefinitions := Json.distinctKeys_of_get? hreserved hnested
    obtain ⟨hkeys, -⟩ := Json.distinctKeys_obj.mp hdefinitions
    have hperm := Entries.swapErase_perm hkeys Reserved.spaceId
    have hunder : under propertiesKey (.obj reserved) = nested := by
      simp only [under, Json.field?, hnested]
    have hlength : (nested.filter (·.1 != Reserved.spaceId)).length ≠ nested.length := by
      rw [Ne, length_others_eq_iff, hid]
      decide
    rcases h with ⟨hempty, h⟩ | ⟨hsome, h⟩
    · have hothers : nested.filter (·.1 != Reserved.spaceId) = [] := (hempty ▸ hperm).nil_eq.symm
      have hleft : reservedLeft? (.obj reserved) = none := by
        unfold reservedLeft?
        rw [hunder]
        dsimp only
        rw [if_neg hlength, if_pos hothers]
      rw [h, hroot, Entries.get?_swapErase hn, if_pos rfl, Option.bind_some, hleft]
      exact .none
    · have hothers : nested.filter (·.1 != Reserved.spaceId) ≠ [] :=
        fun hnil => hsome (hnil ▸ hperm).eq_nil
      have hleft : reservedLeft? (.obj reserved) = some (.obj (reserved.map fun e =>
          if e.1 = propertiesKey then (e.1, .obj (nested.filter (·.1 != Reserved.spaceId)))
          else e)) := by
        unfold reservedLeft?
        rw [hunder]
        dsimp only
        rw [if_neg hlength, if_neg hothers]
      have hvalue : Entries.get? propertiesKey (reserved.map fun e =>
          if e.1 = propertiesKey then (e.1, .obj (nested.filter (·.1 != Reserved.spaceId)))
          else e) = some (.obj (nested.filter (·.1 != Reserved.spaceId))) := by
        rw [Entries.get?_map_key, if_pos rfl, hnested, Option.map_some]
      rw [h, hroot, Entries.get?_insert_self, Option.bind_some, hleft]
      refine .some (alike_of_nested (fun key hkey => ?_) (Entries.get?_insert_self _ _ _) hvalue
        fun name => ?_)
      · rw [Entries.get?_insert_of_ne hkey, Entries.get?_map_key, if_neg hkey]
      · exact Entries.get?_eq_of_perm (Entries.nodup_keys_swapErase hkeys _) hperm

theorem get?_indexed (hn : entries.keys.Nodup) (name : String) :
    (indexed entries).get? name = if name = Reserved.root then
      (entries.get? name).bind reservedLeft? else entries.get? name := by
  rw [indexed, Entries.get?_filterMap_key hn]

theorem rel_get? (hd : (Json.obj entries).distinctKeys = true) (name : String) :
    Option.Rel Alike ((withoutSpaceId entries).get? name) ((indexed entries).get? name) := by
  obtain ⟨hn, -⟩ := Json.distinctKeys_obj.mp hd
  rw [get?_indexed hn]
  by_cases hname : name = Reserved.root
  · rw [if_pos hname, hname]
    exact rel_get?_root hd
  · rw [if_neg hname, get?_withoutSpaceId_of_ne hn hname]
    exact Option.Rel.refl Alike.refl _

/-- Chains lead to definitions of one type, whether the id was taken out or deleted. -/
theorem rel_definition?_indexed (hd : (Json.obj entries).distinctKeys = true)
    (chain : List String) :
    Option.Rel (fun found left => found.1 = left.1 ∧ found.2.field? "type" = left.2.field? "type")
      (definition? (withoutSpaceId entries) chain) (definition? (indexed entries) chain) := by
  cases chain with
  | nil => exact .none
  | cons name chain =>
    have hrel := rel_get? hd name
    simp only [definition?]
    generalize (withoutSpaceId entries).get? name = found? at hrel ⊢
    generalize (indexed entries).get? name = left? at hrel ⊢
    cases hrel with
    | none => exact .none
    | @some d d' halike =>
      rw [Option.bind_some, Option.bind_some]
      cases chain with
      | nil => exact .some ⟨rfl, halike.1⟩
      | cons next chain =>
        -- from here on the chain leads through the same definitions
        simp only [List.foldlM_cons, halike.2 next]
        exact Option.Rel.refl (fun _ => ⟨rfl, rfl⟩) _

/-- The properties of the nodes that are read are those that definitions make. -/
theorem map_property_at? {nodes : Outline Property} (hd : (Json.obj entries).distinctKeys = true)
    (h : readAll none false (withoutSpaceId entries) .empty = .ok nodes) (above : List String)
    (name : String) : (nodes.at? (above ++ [name])).map (·.1) =
      (definition? (indexed entries) (above ++ [name])).map
        fun found => propertyAt above name found.1 found.2 := by
  have hnode := rel_definition? (distinctKeys_withoutSpaceId hd) h above name
  have hleft := rel_definition?_indexed hd (above ++ [name])
  generalize nodes.at? (above ++ [name]) = node? at hnode ⊢
  generalize definition? (withoutSpaceId entries) (above ++ [name]) = found? at hnode hleft
  generalize definition? (indexed entries) (above ++ [name]) = left? at hleft ⊢
  cases hnode with
  | none =>
    cases hleft
    rfl
  | some hread =>
    cases hleft with
    | some hsame =>
      obtain ⟨-, parent, hparent, hread⟩ := hread
      obtain ⟨hfield, htype⟩ := hsame
      rw [Option.map_some, Option.map_some, propertyAt_of_read hread hparent]
      unfold propertyAt
      rw [hfield, htype]

theorem distinctKeys_definitions {mapping : Json} (hd : mapping.distinctKeys = true) :
    (Json.obj (definitions mapping)).distinctKeys = true := by
  unfold definitions
  split
  · next entries hfield =>
    obtain ⟨mappings, hmappings, hproperties⟩ := Option.bind_eq_some_iff.mp hfield
    exact Json.distinctKeys_of_field? (Json.distinctKeys_of_field? hd hmappings) hproperties
  · rfl

end Mapping

namespace Schema

open Mapping (definition? propertyAt)

/-! ## The schema of a mapping -/

variable {mapping : Json} {s : Schema}

/-- A mapping is read by its definitions, unless something else is in their place. -/
theorem ofMapping_eq (mapping : Json) : ofMapping mapping =
    if Mapping.isMisplaced ((mapping.field? "mappings").bind (Json.field? Mapping.propertiesKey))
    then .error .propertiesNotObject else ofDefinitions (Mapping.definitions mapping) := by
  unfold ofMapping Mapping.definitions
  cases (mapping.field? "mappings").bind (Json.field? Mapping.propertiesKey) with
  | none => rfl
  | some j => cases j <;> rfl

theorem ofMapping_eq_ok (h : ofMapping mapping = .ok s) :
    Mapping.readAll none false (Mapping.withoutSpaceId (Mapping.definitions mapping)) .empty =
        .ok s.nodes ∧
      s.shape = Mapping.growAll .empty (Mapping.definitions mapping) := by
  rw [ofMapping_eq] at h
  split at h
  · cases h
  · obtain ⟨nodes, hnodes, hs⟩ := except_bind_eq_ok.mp h
    cases hs
    exact ⟨hnodes, rfl⟩

/-- The property of a node is made by the definition that its chain leads to. -/
theorem exists_definition (hd : mapping.distinctKeys = true) (h : ofMapping mapping = .ok s)
    {chain : List String} {p : Property} {below : Outline Property}
    (hnode : s.nodes.at? chain = some (p, below)) :
    ∃ above name found, chain = above ++ [name] ∧
      definition? (Mapping.indexed (Mapping.definitions mapping)) chain = some found ∧
      p = propertyAt above name found.1 found.2 := by
  obtain ⟨hread, -⟩ := ofMapping_eq_ok h
  rcases List.eq_nil_or_concat chain with rfl | ⟨above, name, hchain⟩
  · cases hnode
  · rw [List.concat_eq_append] at hchain
    subst hchain
    have hmap := Mapping.map_property_at? (Mapping.distinctKeys_definitions hd) hread above name
    rw [hnode, Option.map_some] at hmap
    obtain ⟨found, hfound, hp⟩ := Option.map_eq_some_iff.mp hmap.symm
    exact ⟨above, name, found, rfl, hfound, hp.symm⟩

/-- Where a chain leads to a definition, the node has the property that the definition makes. -/
theorem exists_node (hd : mapping.distinctKeys = true) (h : ofMapping mapping = .ok s)
    {chain : List String} {found : Bool × Json}
    (hfound : definition? (Mapping.indexed (Mapping.definitions mapping)) chain = some found) :
    ∃ above name below, chain = above ++ [name] ∧
      s.nodes.at? chain = some (propertyAt above name found.1 found.2, below) := by
  obtain ⟨hread, -⟩ := ofMapping_eq_ok h
  rcases List.eq_nil_or_concat chain with rfl | ⟨above, name, hchain⟩
  · cases hfound
  · rw [List.concat_eq_append] at hchain
    subst hchain
    have hmap := Mapping.map_property_at? (Mapping.distinctKeys_definitions hd) hread above name
    rw [hfound, Option.map_some] at hmap
    obtain ⟨⟨p, below⟩, hnode, hp⟩ := Option.map_eq_some_iff.mp hmap
    obtain rfl : p = propertyAt above name found.1 found.2 := hp
    exact ⟨above, name, below, rfl, hnode⟩

/-- Let the objects of a mapping have distinct keys, as in all that is read from a text. A schema that
was made of it has a node at the end of a chain of names exactly if the chain leads to a definition
that is not the id of the space, where a field goes before a nested property of its name, together
with what is nested in it. The property of the node is the one that the definition makes there. -/
theorem nodes_are_definitions {mapping : Json} {s : Schema} (hd : mapping.distinctKeys = true)
    (h : ofMapping mapping = .ok s) (above : List String) (name : String) :
    (s.nodes.at? (above ++ [name])).map (·.1) =
      (definition? (Mapping.indexed (Mapping.definitions mapping)) (above ++ [name])).map
        fun found => propertyAt above name found.1 found.2 := by
  have hempty : (empty.nodes.at? (above ++ [name])).map (·.1) =
      (definition? (Mapping.indexed []) (above ++ [name])).map
        fun found => propertyAt above name found.1 found.2 := by
    cases above with
    | nil => rfl
    | cons first above => cases above <;> rfl
  unfold ofMapping at h
  unfold Mapping.definitions
  cases hfield : (mapping.field? "mappings").bind (Json.field? Mapping.propertiesKey) with
  | none =>
    rw [hfield] at h
    cases h
    exact hempty
  | some j =>
    obtain ⟨mappings, hmappings, hproperties⟩ := Option.bind_eq_some_iff.mp hfield
    have hj : j.distinctKeys = true :=
      Json.distinctKeys_of_field? (Json.distinctKeys_of_field? hd hmappings) hproperties
    rw [hfield] at h
    cases j with
    | null =>
      cases h
      exact hempty
    | obj entries =>
      obtain ⟨nodes, hnodes, hs⟩ := except_bind_eq_ok.mp h
      cases hs
      exact Mapping.map_property_at? hj hnodes above name
    | _ => cases h

/-- A field takes the place of a nested property and of what is nested in that one, and the id of the
space is no property. -/
theorem nodes_are_definitions_of_shadowing_field :
    ∃ (mapping : Json) (s : Schema), mapping.distinctKeys = true ∧ ofMapping mapping = .ok s ∧
      (s.nodes.at? ["title", "raw"]).map (·.1) =
        some ⟨"raw", "title.raw", .keyword, .mapped, true, some "title"⟩ ∧
      (s.nodes.at? ["title", "raw", "old"]).map (·.1) = none ∧
      (s.nodes.at? ["__onedata", "spaceId"]).map (·.1) = none ∧
      (s.nodes.at? ["__onedata", "fileName"]).map (·.1) =
        some ⟨"fileName", "__onedata.fileName", .text, .mapped, false, some "__onedata"⟩ := by
  let object (key : String) (entries : Json.Entries) : String × Json := (key, .obj entries)
  let mapping : Json := .obj [object "mappings" [object "properties"
    [object "title" [("type", .str "text"),
        object "properties" [object "raw" [object "properties" [object "old" []]]],
        object "fields" [object "raw" [("type", .str "keyword")]]],
      object "__onedata" [object "properties" [object "spaceId" [("type", .str "keyword")],
        object "fileName" [("type", .str "text")]]]]]]
  have hd : mapping.distinctKeys = true := by decide
  obtain ⟨s, hs⟩ : ∃ s, ofMapping mapping = .ok s := ⟨_, rfl⟩
  exact ⟨mapping, s, hd, hs, nodes_are_definitions hd hs ["title"] "raw",
    nodes_are_definitions hd hs ["title", "raw"] "old",
    nodes_are_definitions hd hs ["__onedata"] "spaceId",
    nodes_are_definitions hd hs ["__onedata"] "fileName"⟩

end Schema

end SearchComposer
