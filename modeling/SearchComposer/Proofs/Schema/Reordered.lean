import SearchComposer.Proofs.Json.Reordered
import SearchComposer.Proofs.Schema.Refused
import SearchComposer.Proofs.Schema.Shape

/-!
# Mappings with keys in another order

The reader goes through the definitions of a mapping in the order in which they stand, and it moves
some of them when it takes out the id of the space. Neither shows in the schema: mappings that are
equal up to the order of keys have one schema, or none of them has any. What reading definitions
gives is known by what it gives under each name, and so does not depend on the order of names, as
long as a definition below reads the same; and the definitions below are the same up to the order of
keys again. Only the error of a mapping that is refused may be another one.
-/

namespace SearchComposer

namespace Mapping

open Json (Entries Reordered)

variable {d d' mapping mapping' : Json} {definitions definitions' entries entries' : Entries}
  {j? j'? : Option Json} {parent : Option Property} {isField : Bool}
  {nodes nodes' : Outline Property}

/-! ## What stands in a definition -/

theorem get?_under (key : String) (d : Json) (name : String) :
    (under key d).get? name = (d.field? key).bind (Json.field? name) := by
  unfold under
  cases d.field? key with
  | none => rfl
  | some j => cases j <;> rfl

theorem rel_get?_under (h : Reordered d d') (hd : d.distinctKeys = true) (key name : String) :
    Option.Rel Reordered ((under key d).get? name) ((under key d').get? name) := by
  rw [get?_under, get?_under]
  refine (h.rel_field? hd key).bind fun j hj j' _ hrel => ?_
  exact hrel.rel_field? (Json.distinctKeys_of_field? hd hj) name

theorem reordered_under (h : Reordered d d') (hd : d.distinctKeys = true) (key : String) :
    Reordered (.obj (under key d)) (.obj (under key d')) :=
  .of_rel_get? (nodup_keys_under hd key) (nodup_keys_under (h.distinctKeys_iff.mp hd) key)
    (rel_get?_under h hd key)

theorem str?_eq (h : Reordered d d') : d.str? = d'.str? := by
  rcases h.cases with rfl | ⟨_, _, rfl, rfl⟩ | ⟨_, _, rfl, rfl⟩ <;> rfl

theorem isMisplaced_eq (h : Option.Rel Reordered j? j'?) : isMisplaced j? = isMisplaced j'? := by
  cases h with
  | none => rfl
  | some h => rcases h.cases with rfl | ⟨_, _, rfl, rfl⟩ | ⟨_, _, rfl, rfl⟩ <;> rfl

theorem dataType_eq_of_rel (h : Option.Rel Reordered (entries.get? "type") (entries'.get? "type"))
    (path : String) : dataType path entries = dataType path entries' := by
  rw [dataType_eq, dataType_eq]
  generalize entries.get? "type" = j? at h ⊢
  generalize entries'.get? "type" = j'? at h ⊢
  cases h with
  | none => rfl
  | some h => simp only [Option.any_some, Option.bind_some, str?_eq h]

theorem checkNested_eq_of_rel {key : String}
    (h : Option.Rel Reordered (entries.get? key) (entries'.get? key)) (path : String) :
    checkNested key path entries = checkNested key path entries' := by
  rw [checkNested_eq, checkNested_eq, isMisplaced_eq h]

/-! ## Reading definitions -/

theorem exists_readAll_eq_ok (parent : Option Property) (isField : Bool) (nodes : Outline Property)
    (h : ∀ e ∈ definitions, ∃ node, readDefinition parent isField e.1 e.2 = .ok node) :
    ∃ nodes', readAll parent isField definitions nodes = .ok nodes' := by
  induction definitions generalizing nodes with
  | nil => exact ⟨nodes, rfl⟩
  | cons e rest ih =>
    obtain ⟨⟨node, hnode⟩, hrest⟩ := List.forall_mem_cons.mp h
    obtain ⟨nodes', hnodes'⟩ := ih (nodes.put e.1 node.1 node.2) hrest
    exact ⟨nodes', except_bind_eq_ok.mpr ⟨node, hnode, hnodes'⟩⟩

/-- Definitions are read in any order with one result, if what stands under each name reads the
same. -/
theorem readAll_eq_ok_of_rel (hn : definitions.keys.Nodup) (hn' : definitions'.keys.Nodup)
    (h : ∀ name, Option.Rel (fun d d' => ∀ node, readDefinition parent isField name d = .ok node →
      readDefinition parent isField name d' = .ok node)
      (definitions.get? name) (definitions'.get? name))
    (hread : readAll parent isField definitions nodes = .ok nodes') :
    readAll parent isField definitions' nodes = .ok nodes' := by
  have hall : ∀ e ∈ definitions', ∃ node, readDefinition parent isField e.1 e.2 = .ok node := by
    intro e he
    have hrel := h e.1
    rw [(Entries.get?_eq_some hn').mpr he] at hrel
    obtain ⟨-, hdefinition⟩ := node?_of_readAll hn hread e.1
    generalize definitions.get? e.1 = found at hrel hdefinition
    cases hrel with
    | some hsame =>
      obtain ⟨node, hnode, -⟩ := hdefinition _ rfl
      exact ⟨node, hsame node hnode⟩
  obtain ⟨others, hothers⟩ := exists_readAll_eq_ok parent isField nodes hall
  obtain rfl : nodes' = others := by
    refine Outline.ext_node? fun name => ?_
    have hrel := h name
    obtain ⟨hkept, hdefinition⟩ := node?_of_readAll hn hread name
    obtain ⟨hkept', hdefinition'⟩ := node?_of_readAll hn' hothers name
    generalize definitions.get? name = found at hrel hkept hdefinition
    generalize definitions'.get? name = found' at hrel hkept' hdefinition'
    cases hrel with
    | none => rw [hkept rfl, hkept' rfl]
    | some hsame =>
      obtain ⟨node, hnode, hfound⟩ := hdefinition _ rfl
      obtain ⟨node', hnode', hfound'⟩ := hdefinition' _ rfl
      rw [hsame node hnode] at hnode'
      rw [hfound, hfound', Except.ok.inj hnode']
  exact hothers

/-- A definition that is read reads the same with keys in another order. -/
def ReadsAlike (d : Json) : Prop :=
  ∀ d', Reordered d d' → d.distinctKeys = true → ∀ parent isField name node,
    readDefinition parent isField name d = .ok node →
      readDefinition parent isField name d' = .ok node

theorem readAll_eq_ok_of_readsAlike (h : Reordered (.obj definitions) (.obj definitions'))
    (hd : (Json.obj definitions).distinctKeys = true) (hreads : ∀ e ∈ definitions, ReadsAlike e.2)
    (hread : readAll parent isField definitions nodes = .ok nodes') :
    readAll parent isField definitions' nodes = .ok nodes' := by
  obtain ⟨hn, hdistinct⟩ := Json.distinctKeys_obj.mp hd
  obtain ⟨hn', -⟩ := Json.distinctKeys_obj.mp (h.distinctKeys_iff.mp hd)
  refine readAll_eq_ok_of_rel hn hn' (fun name => ?_) hread
  refine (h.rel_field? hd name).imp fun d hget d' _ hsame => ?_
  have hmem := Entries.mem_of_get? hget
  exact hreads _ hmem d' hsame (hdistinct _ hmem) parent isField name

theorem readsAlike (d : Json) : ReadsAlike d := by
  induction d using induction_below with
  | step d ih =>
    intro d' h hd parent isField name node hread
    cases d with
    | obj entries =>
      obtain ⟨entries', rfl⟩ : ∃ entries', d' = .obj entries' := by
        rcases h.cases with rfl | ⟨_, _, heq, -⟩ | ⟨_, entries', -, rfl⟩
        · exact ⟨entries, rfl⟩
        · cases heq
        · exact ⟨entries', rfl⟩
      have hkey := h.rel_field? hd
      simp only [readDefinition, except_bind_eq_ok, readUnder_eq] at hread ⊢
      obtain ⟨t, ht, _, hproperties, _, hfields, nested, hnested, children, hchildren, hnode⟩ :=
        hread
      rw [dataType_eq_of_rel (hkey "type")] at ht
      rw [checkNested_eq_of_rel (hkey propertiesKey)] at hproperties
      rw [checkNested_eq_of_rel (hkey fieldsKey)] at hfields
      have hnested' := readAll_eq_ok_of_readsAlike (reordered_under h hd propertiesKey)
        (distinctKeys_under hd propertiesKey) (fun e he => ih e (List.mem_append_left _ he)) hnested
      have hchildren' := readAll_eq_ok_of_readsAlike (reordered_under h hd fieldsKey)
        (distinctKeys_under hd fieldsKey) (fun e he => ih e (List.mem_append_right _ he)) hchildren
      exact ⟨t, ht, _, hproperties, _, hfields, nested, hnested', children, hchildren', hnode⟩
    | _ => cases hread

/-! ## Taking out the id of the space -/

theorem reordered_swapErase (h : Reordered (.obj entries) (.obj entries'))
    (hd : (Json.obj entries).distinctKeys = true) (key : String) :
    Reordered (.obj (entries.swapErase key)) (.obj (entries'.swapErase key)) := by
  obtain ⟨hn, -⟩ := Json.distinctKeys_obj.mp hd
  obtain ⟨hn', -⟩ := Json.distinctKeys_obj.mp (h.distinctKeys_iff.mp hd)
  refine .of_rel_get? (Entries.nodup_keys_swapErase hn key)
    (Entries.nodup_keys_swapErase hn' key) fun k => ?_
  rw [Entries.get?_swapErase hn, Entries.get?_swapErase hn']
  split
  · exact .none
  · exact h.rel_field? hd k

theorem reordered_insert (h : Reordered (.obj entries) (.obj entries'))
    (hd : (Json.obj entries).distinctKeys = true) (key : String) (hvalue : Reordered d d') :
    Reordered (.obj (entries.insert key d)) (.obj (entries'.insert key d')) := by
  obtain ⟨hn, -⟩ := Json.distinctKeys_obj.mp hd
  obtain ⟨hn', -⟩ := Json.distinctKeys_obj.mp (h.distinctKeys_iff.mp hd)
  refine .of_rel_get? (Entries.nodup_keys_insert hn key d)
    (Entries.nodup_keys_insert hn' key d') fun k => ?_
  by_cases hk : k = key
  · rw [hk, Entries.get?_insert_self, Entries.get?_insert_self]
    exact .some hvalue
  · rw [Entries.get?_insert_of_ne hk, Entries.get?_insert_of_ne hk]
    exact h.rel_field? hd k

theorem eq_nil_of_reordered (h : Reordered (.obj []) (.obj entries)) : entries = [] := by
  refine List.eq_nil_iff_forall_not_mem.mpr fun e he => ?_
  obtain ⟨hn, -⟩ := Json.distinctKeys_obj.mp (h.distinctKeys_iff.mp rfl)
  have hrel := h.rel_field? rfl e.1
  simp only [Json.field?, (Entries.get?_eq_some hn).mpr he] at hrel
  cases hrel

/-- If the id of the space is nested in the reserved definition of one mapping, it is so in another
order as well. -/
theorem exists_has_spaceId (h : Reordered (.obj entries) (.obj entries'))
    (hd : (Json.obj entries).distinctKeys = true) (hroot : entries.get? Reserved.root = some d)
    (hid : (under propertiesKey d).has Reserved.spaceId = true) :
    ∃ d', entries'.get? Reserved.root = some d' ∧ Reordered d d' ∧
      (under propertiesKey d').has Reserved.spaceId = true := by
  have hrel : Option.Rel Reordered (entries.get? Reserved.root) (entries'.get? Reserved.root) :=
    h.rel_field? hd Reserved.root
  rw [hroot] at hrel
  generalize entries'.get? Reserved.root = found at hrel ⊢
  cases hrel with
  | some hsame =>
    have hbelow := rel_get?_under hsame (Json.distinctKeys_of_get? hd hroot) propertiesKey
      Reserved.spaceId
    exact ⟨_, rfl, hsame, hbelow.isSome_eq.symm.trans hid⟩

theorem reordered_withoutSpaceId (h : Reordered (.obj entries) (.obj entries'))
    (hd : (Json.obj entries).distinctKeys = true) :
    Reordered (.obj (withoutSpaceId entries)) (.obj (withoutSpaceId entries')) := by
  have hd' := h.distinctKeys_iff.mp hd
  have hunder {reserved nested : Entries}
      (hnested : Entries.get? propertiesKey reserved = some (.obj nested)) :
      under propertiesKey (.obj reserved) = nested := by
    simp only [under, Json.field?, hnested]
  rcases withoutSpaceId_cases entries with
    ⟨heq, hnone⟩ | ⟨reserved, nested, hroot, hnested, hid, hout⟩
  · rcases withoutSpaceId_cases entries' with
      ⟨heq', -⟩ | ⟨reserved', nested', hroot', hnested', hid', -⟩
    · rwa [heq, heq']
    · obtain ⟨d, hd, -, hhas⟩ := exists_has_spaceId h.symm hd' hroot' (by rwa [hunder hnested'])
      rw [hnone d hd] at hhas
      cases hhas
  · obtain ⟨d', hroot'', hreserved, hhas⟩ := exists_has_spaceId h hd hroot (by rwa [hunder hnested])
    rcases withoutSpaceId_cases entries' with
      ⟨-, hnone⟩ | ⟨reserved', nested', hroot', hnested', -, hout'⟩
    · rw [hnone d' hroot''] at hhas
      cases hhas
    · obtain rfl := Option.some.inj (hroot'.symm.trans hroot'')
      have hdreserved := Json.distinctKeys_of_get? hd hroot
      have hdnested := Json.distinctKeys_of_get? hdreserved hnested
      have hbelow : Reordered (.obj nested) (.obj nested') := by
        have hsame := reordered_under hreserved hdreserved propertiesKey
        rwa [hunder hnested, hunder hnested'] at hsame
      have hkept := reordered_swapErase hbelow hdnested Reserved.spaceId
      rcases hout with ⟨hnil, hleft⟩ | ⟨hsome, hleft⟩
      · rcases hout' with ⟨-, hleft'⟩ | ⟨hsome', -⟩
        · rw [hleft, hleft']
          exact reordered_swapErase h hd Reserved.root
        · rw [hnil] at hkept
          exact absurd (eq_nil_of_reordered hkept) hsome'
      · rcases hout' with ⟨hnil', -⟩ | ⟨-, hleft'⟩
        · rw [hnil'] at hkept
          exact absurd (eq_nil_of_reordered hkept.symm) hsome
        · rw [hleft, hleft']
          exact reordered_insert h hd _ (reordered_insert hreserved hdreserved _ hkept)

/-! ## The shape -/

theorem rel_nestedAt? (h : Reordered (.obj definitions) (.obj definitions'))
    (hd : (Json.obj definitions).distinctKeys = true) (chain : List String) :
    Option.Rel Reordered (nestedAt? definitions chain) (nestedAt? definitions' chain) := by
  induction chain generalizing definitions definitions' with
  | nil => exact .none
  | cons first chain ih =>
    rw [nestedAt?_cons, nestedAt?_cons]
    refine (h.rel_field? hd first).bind fun d hget d' _ hsame => ?_
    by_cases hchain : chain = []
    · rw [if_pos hchain, if_pos hchain]
      exact .some hsame
    · rw [if_neg hchain, if_neg hchain]
      have hdistinct := Json.distinctKeys_of_get? hd hget
      exact ih (reordered_under hsame hdistinct propertiesKey)
        (distinctKeys_under hdistinct propertiesKey)

theorem growAll_eq_of_reordered (h : Reordered (.obj definitions) (.obj definitions'))
    (hd : (Json.obj definitions).distinctKeys = true) (s : Shape) :
    growAll s definitions = growAll s definitions' := by
  refine Shape.ext_chains fun chain => ?_
  have hsome := (rel_nestedAt? h hd chain).isSome_eq
  rw [mem_chains_growAll hd, mem_chains_growAll (h.distinctKeys_iff.mp hd),
    ← Option.isSome_iff_exists, ← Option.isSome_iff_exists, hsome]

/-! ## The definitions of a mapping -/

theorem rel_properties (h : Reordered mapping mapping') (hd : mapping.distinctKeys = true) :
    Option.Rel Reordered ((mapping.field? "mappings").bind (Json.field? propertiesKey))
      ((mapping'.field? "mappings").bind (Json.field? propertiesKey)) := by
  refine (h.rel_field? hd "mappings").bind fun j hj j' _ hsame => ?_
  exact hsame.rel_field? (Json.distinctKeys_of_field? hd hj) propertiesKey

theorem reordered_definitions (h : Reordered mapping mapping') (hd : mapping.distinctKeys = true) :
    Reordered (.obj (Mapping.definitions mapping)) (.obj (Mapping.definitions mapping')) := by
  have hrel := rel_properties h hd
  unfold Mapping.definitions
  generalize (mapping.field? "mappings").bind (Json.field? propertiesKey) = j? at hrel ⊢
  generalize (mapping'.field? "mappings").bind (Json.field? propertiesKey) = j'? at hrel ⊢
  cases hrel with
  | none => exact .refl _
  | some hsame =>
    rcases hsame.cases with rfl | ⟨_, _, rfl, rfl⟩ | ⟨_, _, rfl, rfl⟩
    · exact .refl _
    · exact .refl _
    · exact hsame

end Mapping

namespace Schema

open Json (Reordered)

variable {mapping mapping' : Json} {s : Schema}

theorem ofMapping_eq_ok_of_reordered (hd : mapping.distinctKeys = true)
    (h : Reordered mapping mapping') (hs : ofMapping mapping = .ok s) :
    ofMapping mapping' = .ok s := by
  have hdefinitions := Mapping.reordered_definitions h hd
  have hdistinct := Mapping.distinctKeys_definitions hd
  have hleft := Mapping.reordered_withoutSpaceId hdefinitions hdistinct
  have hdleft := Mapping.distinctKeys_withoutSpaceId hdistinct
  rw [ofMapping_eq] at hs ⊢
  rw [← Mapping.isMisplaced_eq (Mapping.rel_properties h hd)]
  split at hs
  · cases hs
  · next hplaced =>
    rw [if_neg hplaced]
    obtain ⟨nodes, hnodes, hschema⟩ := except_bind_eq_ok.mp hs
    rw [Mapping.growAll_eq_of_reordered hdefinitions hdistinct] at hschema
    have hnodes' := Mapping.readAll_eq_ok_of_readsAlike hleft hdleft
      (fun e _ => Mapping.readsAlike e.2) hnodes
    exact except_bind_eq_ok.mpr ⟨nodes, hnodes', hschema⟩

/-- Let the objects of a mapping have distinct keys, as in all that is read from a text. If the keys
of its objects stand in another order, at any depth, then both mappings make one schema, with the
same nodes, the same shape and therefore the same listings, or both are refused. -/
theorem ofMapping_ignores_key_order (hd : mapping.distinctKeys = true)
    (h : Reordered mapping mapping') :
    (∃ s, ofMapping mapping = .ok s ∧ ofMapping mapping' = .ok s) ∨
      ∃ e e', ofMapping mapping = .error e ∧ ofMapping mapping' = .error e' := by
  cases hs : ofMapping mapping with
  | ok s => exact .inl ⟨s, rfl, ofMapping_eq_ok_of_reordered hd h hs⟩
  | error e =>
    cases hs' : ofMapping mapping' with
    | error e' => exact .inr ⟨e, e', rfl, rfl⟩
    | ok s =>
      have hok := ofMapping_eq_ok_of_reordered (h.distinctKeys_iff.mp hd) h.symm hs'
      rw [hs] at hok
      cases hok

-- only the error may be another one: the first fault of the one order is not that of the other
example :
    let mapping (definitions : Json.Entries) : Json :=
      .obj [("mappings", .obj [("properties", .obj definitions)])]
    ofMapping (mapping [("a", .null), ("b", .null)]) = .error (.definitionNotObject "a") ∧
      ofMapping (mapping [("b", .null), ("a", .null)]) = .error (.definitionNotObject "b") :=
  ⟨rfl, rfl⟩

/-- The id of the space is taken out of the reserved definition, in whose place another definition
then stands or not, and a field comes before or after the nested property that it replaces. -/
theorem ofMapping_ignores_key_order_around_space_id :
    ∃ (mapping mapping' : Json) (s : Schema), mapping.distinctKeys = true ∧
      Reordered mapping mapping' ∧
      (Mapping.definitions mapping).keys = [Reserved.root, "title", "date"] ∧
      (Mapping.definitions mapping').keys = ["date", "title", Reserved.root] ∧
      ofMapping mapping = .ok s ∧ ofMapping mapping' = .ok s ∧
      s.nodes.chains = [["date"], ["title"], ["title", "raw"]] := by
  let object (key : String) (entries : Json.Entries) : String × Json := (key, .obj entries)
  let title : Json.Entries :=
    [object "properties" [object "raw" [object "properties" [object "old" []]]],
      object "fields" [object "raw" [("type", .str "keyword")]]]
  let definitions (title : Json.Entries) : Json.Entries := [object Reserved.root
    [object "properties" [object Reserved.spaceId []]], object "title" title,
      object "date" [("type", .str "date")]]
  let mapping : Json := .obj [object "mappings" [object "properties" (definitions title)]]
  let mapping' : Json :=
    .obj [object "mappings" [object "properties" (definitions title.reverse).reverse]]
  have hd : mapping.distinctKeys = true := by decide
  have hreordered : Reordered mapping mapping' := by
    have htitle : Reordered (.obj title) (.obj title.reverse) :=
      .of_perm (List.reverse_perm title).symm
    have hinside : Reordered (.obj (definitions title)) (.obj (definitions title.reverse)) :=
      htitle.entry [_] [_] "title"
    have houtside : Reordered (.obj (definitions title.reverse))
        (.obj (definitions title.reverse).reverse) :=
      .of_perm (List.reverse_perm _).symm
    exact ((hinside.trans houtside).entry [] [] "properties").entry [] [] "mappings"
  obtain ⟨s, hs, hchains⟩ : ∃ s, ofMapping mapping = .ok s ∧
      s.nodes.chains = [["date"], ["title"], ["title", "raw"]] := ⟨_, rfl, rfl⟩
  refine ⟨mapping, mapping', s, hd, hreordered, rfl, rfl, hs, ?_, hchains⟩
  rcases ofMapping_ignores_key_order hd hreordered with ⟨t, ht, ht'⟩ | ⟨e, e', he, -⟩
  · obtain rfl := Except.ok.inj (hs.symm.trans ht)
    exact ht'
  · rw [hs] at he
    cases he

end Schema

end SearchComposer
