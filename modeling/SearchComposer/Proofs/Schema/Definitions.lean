import Mathlib.Data.List.Induction
import SearchComposer.Proofs.Json.Entries
import SearchComposer.Proofs.Steps
import SearchComposer.Schema.Mapping

/-!
# Definitions and nodes

A chain of names leads from definition to definition, and it leads from node to node. What is found
on the one way is what the reader made of that which is found on the other: this holds of the first
name, and if it holds of a chain, it holds of each longer one, since the node of a definition has
the nodes that were read below that definition and no others. In an object with distinct keys no
definition is hidden by a later one.
-/

namespace SearchComposer

theorem Shape.path_concat {above : List String} (h : above ≠ []) (name : String) :
    path (above ++ [name]) = path above ++ "." ++ name := by
  unfold path
  rw [String.intercalate_append_of_ne_nil h (List.cons_ne_nil name []),
    String.intercalate_singleton]

namespace Mapping

open Json (Entries)

/-! ## Chains of names -/

/-- The definitions under a key of a definition; none without an object there. -/
def under (key : String) (definition : Json) : Entries :=
  match definition.field? key with
  | some (.obj definitions) => definitions
  | _ => []

/-- The definitions right below a definition, its nested properties before its fields. -/
def below (definition : Json) : Entries :=
  under propertiesKey definition ++ under fieldsKey definition

/-- What a name leads to from a definition, and whether that is a field. A nested property is only
found if there is no field of that name. -/
def child? (name : String) (definition : Json) : Option (Bool × Json) :=
  match (under fieldsKey definition).get? name with
  | some field => some (true, field)
  | none => ((under propertiesKey definition).get? name).map fun nested => (false, nested)

/-- What a chain of names leads to, starting at some definitions, and whether that is a field. -/
def definition? (definitions : Entries) : List String → Option (Bool × Json)
  | [] => none
  | name :: chain =>
    (definitions.get? name).bind fun definition =>
      chain.foldlM (fun found next => child? next found.2) (false, definition)

/-- The path of the definition that a chain leads to; none if the chain is empty. -/
def pathAbove? (above : List String) : Option String :=
  if above = [] then none else some (Shape.path above)

/-- The property that a definition makes at the end of a chain. -/
def propertyAt (above : List String) (name : String) (isField : Bool) (definition : Json) :
    Property where
  name := name
  path := Shape.path (above ++ [name])
  dataType := .ofMapping ((definition.field? "type").bind Json.str?)
  origin := .mapped
  isField := isField
  parentPath? := pathAbove? above

variable {definitions : Entries} {parent : Option Property} {isField : Bool} {name : String}
  {definition : Json} {p : Property} {nodes nodes' children : Outline Property}

theorem definition?_concat {chain : List String} (h : chain ≠ []) (definitions : Entries)
    (name : String) : definition? definitions (chain ++ [name]) =
      (definition? definitions chain).bind fun found => child? name found.2 := by
  cases chain with
  | nil => exact absurd rfl h
  | cons first chain =>
    simp only [List.cons_append, definition?, List.foldlM_append, Option.bind_assoc]
    refine congrArg _ (funext fun found => ?_)
    simp [List.foldlM]

/-! ## Definitions below definitions -/

theorem sizeOf_lt_of_mem_below {f : String × Json} (h : f ∈ below definition) :
    sizeOf f.2 < sizeOf definition := by
  have hunder (key : String) (hf : f ∈ under key definition) : sizeOf f.2 < sizeOf definition := by
    unfold under at hf
    split at hf
    · next definitions hfield =>
      exact Nat.lt_trans (Json.sizeOf_lt_of_mem hf) (Json.sizeOf_lt_of_field? hfield)
    · cases hf
  rcases List.mem_append.mp h with hf | hf
  · exact hunder propertiesKey hf
  · exact hunder fieldsKey hf

/-- What holds of a definition if it holds of those right below it holds of all. -/
theorem induction_below {P : Json → Prop} (step : ∀ d, (∀ f ∈ below d, P f.2) → P d) (d : Json) :
    P d :=
  step d fun f _ => induction_below step f.2
termination_by sizeOf d
decreasing_by exact sizeOf_lt_of_mem_below ‹_›

/-! ## What is read -/

theorem dataType_eq_ok {path : String} {entries : Entries} {t : DataType}
    (h : dataType path entries = .ok t) :
    t = .ofMapping ((entries.get? "type").bind Json.str?) := by
  unfold dataType at h
  split at h
  · next hnone => cases h; rw [hnone, Option.bind_none]
  · next hstr => cases h; rw [hstr]; rfl
  · cases h

theorem readUnder_eq (parent : Property) (key : String) (isField : Bool) (entries : Entries)
    (nodes : Outline Property) : readUnder parent key isField entries nodes =
      readAll (some parent) isField (under key (.obj entries)) nodes := by
  induction entries with
  | nil => rfl
  | cons e rest ih =>
    obtain ⟨k, j⟩ := e
    unfold readUnder
    by_cases hk : k = key
    · rw [if_pos hk]
      cases j <;> simp [readNested, under, Json.field?, Entries.get?, hk, readAll]
    · rw [if_neg hk, ih]
      simp [under, Json.field?, Entries.get?, hk]

/-- A definition is read with its nested properties first, and then its fields. -/
theorem readDefinition_eq_ok (h : readDefinition parent isField name definition = .ok (p, children)) :
    p = Property.mapped parent name (.ofMapping ((definition.field? "type").bind Json.str?))
        isField ∧
      ∃ nested, readAll (some p) false (under propertiesKey definition) .empty = .ok nested ∧
        readAll (some p) true (under fieldsKey definition) nested = .ok children := by
  cases definition with
  | obj entries =>
    simp only [readDefinition, except_bind_eq_ok] at h
    obtain ⟨t, ht, _, -, _, -, nested, hnested, children', hchildren, hok⟩ := h
    cases hok
    rw [dataType_eq_ok ht] at hnested hchildren ⊢
    rw [readUnder_eq] at hnested hchildren
    exact ⟨rfl, nested, hnested, hchildren⟩
  | _ => cases h

/-- Reading definitions puts the node of each in the place of the node of that name. -/
theorem node?_of_readAll (hn : definitions.keys.Nodup)
    (h : readAll parent isField definitions nodes = .ok nodes') (name : String) :
    (definitions.get? name = none → nodes'.node? name = nodes.node? name) ∧
      ∀ definition, definitions.get? name = some definition →
        ∃ node, readDefinition parent isField name definition = .ok node ∧
          nodes'.node? name = some node := by
  induction definitions generalizing nodes with
  | nil =>
    cases h
    exact ⟨fun _ => rfl, fun _ hnone => by cases hnone⟩
  | cons e rest ih =>
    obtain ⟨first, j⟩ := e
    obtain ⟨⟨p, children⟩, hfirst, hrest⟩ := except_bind_eq_ok.mp h
    rw [Entries.keys_cons, List.nodup_cons] at hn
    obtain ⟨hkept, hread⟩ := ih hn.2 hrest
    by_cases hname : first = name
    · -- the names of the rest are others, so this node stays
      subst hname
      have hothers : Entries.get? first rest = none := Entries.get?_eq_none.mpr hn.1
      have hnode : nodes'.node? first = some (p, children) := by
        rw [hkept hothers, Outline.node?_put_self]
      refine ⟨fun hnone => ?_, fun definition hsome => ?_⟩
      · simp [Entries.get?] at hnone
      · obtain rfl : j = definition := by simpa [Entries.get?] using hsome
        exact ⟨_, hfirst, hnode⟩
    · rw [Entries.get?, if_neg hname]
      refine ⟨fun hnone => ?_, hread⟩
      rw [hkept hnone, Outline.node?_put_of_ne (Ne.symm hname)]

theorem distinctKeys_under (hd : definition.distinctKeys = true) (key : String) :
    (Json.obj (under key definition)).distinctKeys = true := by
  unfold under
  split
  · next h => exact Json.distinctKeys_of_field? hd h
  · rfl

theorem nodup_keys_under (hd : definition.distinctKeys = true) (key : String) :
    (under key definition).keys.Nodup :=
  (Json.distinctKeys_obj.mp (distinctKeys_under hd key)).1

/-- The names that lead on from a definition are those of the nodes below its node, and each of these
nodes is what was read of the definition that the name leads to. -/
theorem rel_child? (hd : definition.distinctKeys = true)
    (h : readDefinition parent isField name definition = .ok (p, children)) (next : String) :
    Option.Rel (fun found node => readDefinition (some p) found.1 next found.2 = .ok node)
      (child? next definition) (children.node? next) := by
  obtain ⟨-, nested, hnested, hfields⟩ := readDefinition_eq_ok h
  obtain ⟨hkept, hfield⟩ := node?_of_readAll (nodup_keys_under hd fieldsKey) hfields next
  obtain ⟨hnone, hproperty⟩ := node?_of_readAll (nodup_keys_under hd propertiesKey) hnested next
  unfold child?
  cases hf : (under fieldsKey definition).get? next with
  | some field =>
    obtain ⟨node, hread, hnode⟩ := hfield field hf
    rw [hnode]
    exact .some hread
  | none =>
    rw [hkept hf]
    cases hp : (under propertiesKey definition).get? next with
    | some property =>
      obtain ⟨node, hread, hnode⟩ := hproperty property hp
      rw [hnode]
      exact .some hread
    | none =>
      rw [hnone hp]
      exact .none

/-! ## Nodes at the end of chains -/

/-- A reader that stands at the end of a chain of names calls what is below by the longer chain. -/
theorem pathBelow_eq {above : List String} (hparent : parent.map (·.path) = pathAbove? above)
    (name : String) : Property.pathBelow parent name = Shape.path (above ++ [name]) := by
  by_cases habove : above = []
  · subst habove
    obtain rfl := Option.map_eq_none_iff.mp hparent
    exact String.intercalate_singleton.symm
  · rw [pathAbove?, if_neg habove] at hparent
    obtain ⟨q, rfl, hq⟩ := Option.map_eq_some_iff.mp hparent
    rw [Shape.path_concat habove, ← hq]
    rfl

theorem propertyAt_of_read (h : readDefinition parent isField name definition = .ok (p, children))
    {above : List String} (hparent : parent.map (·.path) = pathAbove? above) :
    p = propertyAt above name isField definition := by
  obtain ⟨rfl, -⟩ := readDefinition_eq_ok h
  rw [Property.mapped, propertyAt, pathBelow_eq hparent, hparent]

/-- What holds of the definition and the node at the end of the chain with a last name: the node is
what was read of the definition, below a property that has the path of the rest of the chain. -/
def ReadAt (above : List String) (name : String) (found : Bool × Json)
    (node : Property × Outline Property) : Prop :=
  found.2.distinctKeys = true ∧ ∃ parent : Option Property,
    parent.map (·.path) = pathAbove? above ∧ readDefinition parent found.1 name found.2 = .ok node

theorem distinctKeys_of_child? {name : String} {found : Bool × Json}
    (hd : definition.distinctKeys = true) (h : child? name definition = some found) :
    found.2.distinctKeys = true := by
  have hunder (key : String) (d : Json) (hget : (under key definition).get? name = some d) :
      d.distinctKeys = true :=
    Json.distinctKeys_of_get? (distinctKeys_under hd key) hget
  unfold child? at h
  split at h
  · next hf => cases h; exact hunder _ _ hf
  · obtain ⟨d, hd, rfl⟩ := Option.map_eq_some_iff.mp h
    exact hunder _ _ hd

/-- A chain leads to a node exactly if it leads to a definition, and then the node is what was read
of that definition. -/
theorem rel_definition? (hd : (Json.obj definitions).distinctKeys = true)
    (h : readAll none false definitions .empty = .ok nodes) (above : List String) (name : String) :
    Option.Rel (ReadAt above name) (definition? definitions (above ++ [name]))
      (nodes.at? (above ++ [name])) := by
  obtain ⟨hkeys, hentries⟩ := Json.distinctKeys_obj.mp hd
  induction above using List.reverseRecOn generalizing name with
  | nil =>
    obtain ⟨hnone, hread⟩ := node?_of_readAll hkeys h name
    simp only [List.nil_append, definition?, Outline.at?, List.foldlM_nil]
    cases hget : definitions.get? name with
    | none =>
      rw [hnone hget]
      exact .none
    | some definition =>
      obtain ⟨node, hnode, hfound⟩ := hread definition hget
      rw [hfound]
      exact .some ⟨hentries _ (Entries.mem_of_get? hget), none, rfl, hnode⟩
  | append_singleton init last ih =>
    have hne : init ++ [last] ≠ [] := List.append_ne_nil_of_right_ne_nil _ (List.cons_ne_nil _ _)
    rw [definition?_concat hne, Outline.at?_concat hne]
    -- the chain without its last name leads to a definition and a node that belong together
    have hlast := ih last
    generalize definition? definitions (init ++ [last]) = found? at hlast ⊢
    generalize nodes.at? (init ++ [last]) = node? at hlast ⊢
    cases hlast with
    | none => exact .none
    | @some found node hfound =>
      obtain ⟨hdistinct, parent, hparent, hread⟩ := hfound
      have hpath : (some node.1).map (·.path) = pathAbove? (init ++ [last]) := by
        rw [pathAbove?, if_neg hne, propertyAt_of_read hread hparent]
        rfl
      have hrel := rel_child? hdistinct hread name
      rw [Option.bind_some, Option.bind_some]
      generalize hbelow : child? name found.2 = below at hrel ⊢
      generalize node.2.node? name = nodeBelow at hrel ⊢
      cases hrel with
      | none => exact .none
      | some hnext => exact .some ⟨distinctKeys_of_child? hdistinct hbelow, some node.1, hpath, hnext⟩

end Mapping

end SearchComposer
