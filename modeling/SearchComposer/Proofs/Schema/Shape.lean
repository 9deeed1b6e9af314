import SearchComposer.Proofs.Outline.Walk
import SearchComposer.Proofs.Schema.Lookup

/-!
# The shape of the documents and the properties

The shape of the mapped documents is grown from the definitions as they stand, by recursion or on a
walk, and the properties are read after the id of the space was taken out. Both lead along the same
chains of nested properties, the shape along those of the entries that were taken out as well, and
the properties along fields. If no definition calls a field like one of its nested properties, no
chain of nested properties leads through a field, and the leaves of the shape are properties of
their own.
-/

namespace SearchComposer

namespace Mapping

open Json (Entries)

/-! ## Chains of nested properties -/

/-- What a chain of names leads to through nested properties only, starting at some definitions. -/
def nestedAt? (definitions : Entries) : List String → Option Json
  | [] => none
  | name :: chain =>
    (definitions.get? name).bind fun d =>
      chain.foldlM (fun d next => (under propertiesKey d).get? next) d

variable {definitions rest : Entries} {name first : String} {chain : List String} {d j : Json}
  {s : Shape}

theorem nestedAt?_cons (definitions : Entries) (first : String) (chain : List String) :
    nestedAt? definitions (first :: chain) = (definitions.get? first).bind fun d =>
      if chain = [] then some d else nestedAt? (under propertiesKey d) chain := by
  cases chain with
  | nil => rfl
  | cons next chain => rfl

theorem growNested_eq (s : Shape) (d : Json) :
    growNested s d = growAll s (under propertiesKey d) := by
  cases d with
  | obj entries =>
    rw [growNested]
    induction entries with
    | nil => rfl
    | cons e rest ih =>
      obtain ⟨k, j⟩ := e
      unfold growUnder
      by_cases hk : k = propertiesKey
      · rw [if_pos hk]
        cases j <;> simp [growIn, under, Json.field?, Entries.get?, hk, growAll]
      · rw [if_neg hk, ih]
        simp [under, Json.field?, Entries.get?, hk]
  | _ => rfl

theorem under_propertiesKey_eq (d : Json) : under propertiesKey d = (nested? d).getD [] := by
  unfold under nested?
  generalize d.field? propertiesKey = j?
  cases j? with
  | none => rfl
  | some j => cases j <;> rfl

theorem not_leads_view_nil : ¬view.Leads [] chain := by
  rw [Shape.View.leads_iff]
  rintro ⟨part, hpart, -⟩
  cases hpart

/-- The chains through definitions start with their names, and go on through what is nested. -/
theorem leads_view_iff : view.Leads definitions chain ↔ ∃ e ∈ definitions,
    chain = [e.1] ∨ ∃ below, view.Leads (under propertiesKey e.2) below ∧ e.1 :: below = chain := by
  have hparts : view.parts definitions = definitions.map fun e => (some e.1, nested? e.2) := rfl
  rw [Shape.View.leads_iff, hparts]
  simp only [List.mem_map, exists_exists_and_eq_and]
  refine exists_congr fun e => and_congr_right fun _ => or_congr (by simp) ?_
  rw [under_propertiesKey_eq]
  cases nested? e.2 with
  | none => simp [not_leads_view_nil]
  | some nested => simp

theorem leads_view_cons : view.Leads ((name, d) :: rest) chain ↔
    (chain = [name] ∨ ∃ below, view.Leads (under propertiesKey d) below ∧ name :: below = chain) ∨
      view.Leads rest chain := by
  rw [leads_view_iff, List.exists_mem_cons_iff, ← leads_view_iff]

/-- Where keys are distinct, the chains of a walk are those that lead to a definition. -/
theorem leads_view_iff_nestedAt? (hd : (Json.obj definitions).distinctKeys = true) :
    view.Leads definitions chain ↔ ∃ d, nestedAt? definitions chain = some d := by
  induction chain generalizing definitions with
  | nil =>
    constructor
    · intro h
      exact absurd rfl h.ne_nil
    · rintro ⟨d, hnone⟩
      cases hnone
  | cons first chain ih =>
    obtain ⟨hkeys, hentries⟩ := Json.distinctKeys_obj.mp hd
    have hbelow {e : String × Json} (he : e ∈ definitions) :=
      ih (distinctKeys_under (hentries e he) propertiesKey)
    rw [leads_view_iff, nestedAt?_cons]
    constructor
    · rintro ⟨⟨name, d⟩, he, heq | ⟨below, hleads, heq⟩⟩
      · cases heq
        rw [(Entries.get?_eq_some hkeys).mpr he]
        exact ⟨d, rfl⟩
      · cases heq
        rw [(Entries.get?_eq_some hkeys).mpr he, Option.bind_some, if_neg hleads.ne_nil]
        exact (hbelow he).mp hleads
    · rintro ⟨d, hfound⟩
      obtain ⟨d', hget, hrest⟩ := Option.bind_eq_some_iff.mp hfound
      have he := (Entries.get?_eq_some hkeys).mp hget
      refine ⟨(first, d'), he, ?_⟩
      by_cases hchain : chain = []
      · exact .inl (by rw [hchain])
      · rw [if_neg hchain] at hrest
        exact .inr ⟨chain, (hbelow he).mpr ⟨d, hrest⟩, rfl⟩

/-- A shape that grows by what is nested in a definition grows by the chains of a walk. -/
def GrowsAlong (d : Json) : Prop :=
  ∀ (s : Shape) (chain : List String), chain ∈ (growNested s d).chains ↔
    chain ∈ s.chains ∨ view.Leads (under propertiesKey d) chain

theorem mem_chains_growAll_of (h : ∀ e ∈ definitions, GrowsAlong e.2) (s : Shape)
    (chain : List String) : chain ∈ (growAll s definitions).chains ↔
      chain ∈ s.chains ∨ view.Leads definitions chain := by
  induction definitions generalizing s with
  | nil => simp [growAll, not_leads_view_nil]
  | cons e rest ih =>
    obtain ⟨name, j⟩ := e
    obtain ⟨hj, hrest⟩ := List.forall_mem_cons.mp h
    rw [growAll, ih hrest, Shape.mem_chains_extend_of (hj (s.below name)), leads_view_cons,
      or_assoc]

theorem growsAlong (d : Json) : GrowsAlong d := by
  induction d using induction_below with
  | step d ih =>
    intro s chain
    rw [growNested_eq]
    exact mem_chains_growAll_of (fun e he => ih e (List.mem_append_left _ he)) s chain

/-- Growing a shape by definitions adds the chains of nested properties. -/
theorem mem_chains_growAll (hd : (Json.obj definitions).distinctKeys = true) (s : Shape)
    (chain : List String) : chain ∈ (growAll s definitions).chains ↔
      chain ∈ s.chains ∨ ∃ d, nestedAt? definitions chain = some d := by
  rw [mem_chains_growAll_of fun e _ => growsAlong e.2, leads_view_iff_nestedAt? hd]

/-- A walk through definitions gathers the shape that is grown by recursion. -/
theorem gather_eq_growAll (definitions : Entries) :
    gather definitions = growAll .empty definitions := by
  refine Shape.ext_chains fun chain => ?_
  rw [gather, Shape.View.mem_chains_gather, mem_chains_growAll_of fun e _ => growsAlong e.2]

theorem nestedAt?_append {above : List String} (h : above ≠ []) (definitions : Entries)
    (chain : List String) : nestedAt? definitions (above ++ chain) =
      (nestedAt? definitions above).bind fun d =>
        chain.foldlM (fun d next => (under propertiesKey d).get? next) d := by
  obtain ⟨first, above, rfl⟩ := List.exists_cons_of_ne_nil h
  simp only [List.cons_append, nestedAt?, List.foldlM_append, Option.bind_assoc]
  rfl

theorem nestedAt?_concat {above : List String} (h : above ≠ []) (definitions : Entries)
    (name : String) : nestedAt? definitions (above ++ [name]) =
      (nestedAt? definitions above).bind fun d => (under propertiesKey d).get? name := by
  rw [nestedAt?_append h]
  refine congrArg _ (funext fun d => ?_)
  simp [List.foldlM]

/-! ## The id of the space -/

variable {d' : Json}

theorem field?_of_under_ne_nil {key : String} (h : under key d ≠ []) :
    d.field? key = some (.obj (under key d)) := by
  unfold under at h ⊢
  split at h
  · next entries hfield => rw [hfield]
  · exact absurd rfl h

/-- What is left of the reserved definition: all of it if there is no id of the space, and otherwise
nothing if nothing else is nested in it, or a definition with the other nested properties. -/
theorem reservedLeft?_cases (d : Json) :
    ((under propertiesKey d).has Reserved.spaceId = false ∧ reservedLeft? d = some d) ∨
      ((under propertiesKey d).has Reserved.spaceId = true ∧
        (((under propertiesKey d).filter (·.1 != Reserved.spaceId) = [] ∧ reservedLeft? d = none) ∨
          ((under propertiesKey d).filter (·.1 != Reserved.spaceId) ≠ [] ∧
            ∃ entries, d = .obj entries ∧ reservedLeft? d = some (.obj (entries.map fun e =>
              if e.1 = propertiesKey then
                (e.1, .obj ((under propertiesKey d).filter (·.1 != Reserved.spaceId)))
              else e))))) := by
  unfold reservedLeft?
  dsimp only
  by_cases hlength : ((under propertiesKey d).filter (·.1 != Reserved.spaceId)).length =
      (under propertiesKey d).length
  · rw [if_pos hlength]
    exact .inl ⟨length_others_eq_iff.mp hlength, rfl⟩
  · have hhas : (under propertiesKey d).has Reserved.spaceId = true := by
      rwa [length_others_eq_iff, Bool.not_eq_false] at hlength
    rw [if_neg hlength]
    refine .inr ⟨hhas, ?_⟩
    by_cases hothers : (under propertiesKey d).filter (·.1 != Reserved.spaceId) = []
    · rw [if_pos hothers]
      exact .inl ⟨hothers, rfl⟩
    · rw [if_neg hothers]
      refine .inr ⟨hothers, ?_⟩
      cases d with
      | obj entries => exact ⟨entries, rfl, rfl⟩
      | _ => cases hhas

theorem reservedLeft?_eq_none_iff (hd : d.distinctKeys = true) :
    reservedLeft? d = none ↔ (under propertiesKey d).keys = [Reserved.spaceId] := by
  rw [Entries.keys_eq_singleton_iff (nodup_keys_under hd propertiesKey)]
  rcases reservedLeft?_cases d with ⟨hhas, h⟩ | ⟨hhas, ⟨hothers, h⟩ | ⟨hothers, entries, -, h⟩⟩
  · simp [h, hhas]
  · simp [h, hhas, hothers]
  · simp only [h, hothers]
    simp

/-- Only the id of the space is missing among the nested properties that are left. -/
theorem get?_under_of_reservedLeft? (h : reservedLeft? d = some d') (name : String) :
    (under propertiesKey d').get? name =
      if name = Reserved.spaceId then none else (under propertiesKey d).get? name := by
  rcases reservedLeft?_cases d with ⟨hhas, h'⟩ | ⟨-, ⟨-, h'⟩ | ⟨hothers, entries, rfl, h'⟩⟩
  · obtain rfl := Option.some.inj (h'.symm.trans h)
    by_cases hname : name = Reserved.spaceId
    · rw [if_pos hname, hname]
      exact Option.isSome_eq_false_iff.mp hhas |> Option.isNone_iff_eq_none.mp
    · rw [if_neg hname]
  · cases h'.symm.trans h
  · obtain rfl := Option.some.inj (h'.symm.trans h)
    have hne : under propertiesKey (.obj entries) ≠ [] := by
      intro hnil
      exact hothers (by rw [hnil]; rfl)
    have hfield : Entries.get? propertiesKey entries =
        some (.obj (under propertiesKey (.obj entries))) := field?_of_under_ne_nil hne
    have hleft : under propertiesKey (.obj (entries.map fun e => if e.1 = propertiesKey then
        (e.1, .obj ((under propertiesKey (.obj entries)).filter (·.1 != Reserved.spaceId)))
        else e)) = (under propertiesKey (.obj entries)).filter (·.1 != Reserved.spaceId) := by
      rw [under, Json.field?, Entries.get?_map_key, if_pos rfl, hfield]
      rfl
    rw [hleft, Entries.get?_filter]

theorem under_fieldsKey_of_reservedLeft? (h : reservedLeft? d = some d') :
    under fieldsKey d' = under fieldsKey d := by
  rcases reservedLeft?_cases d with ⟨-, h'⟩ | ⟨-, ⟨-, h'⟩ | ⟨-, entries, rfl, h'⟩⟩
  · obtain rfl := Option.some.inj (h'.symm.trans h)
    rfl
  · cases h'.symm.trans h
  · obtain rfl := Option.some.inj (h'.symm.trans h)
    have hne : fieldsKey ≠ propertiesKey := by decide
    simp only [under, Json.field?]
    rw [Entries.get?_map_key, if_neg hne]

/-- Below the reserved definition only the id of the space is missing. -/
theorem nestedAt?_indexed_root (hd : (Json.obj definitions).distinctKeys = true) (next : String)
    (chain : List String) :
    nestedAt? (indexed definitions) (Reserved.root :: next :: chain) =
      if next = Reserved.spaceId then none
      else nestedAt? definitions (Reserved.root :: next :: chain) := by
  obtain ⟨hn, hentries⟩ := Json.distinctKeys_obj.mp hd
  rw [nestedAt?_cons, nestedAt?_cons, get?_indexed hn, if_pos rfl]
  simp only [if_neg (List.cons_ne_nil next chain), nestedAt?_cons]
  cases hroot : definitions.get? Reserved.root with
  | none => simp
  | some d =>
    have hdistinct := hentries _ (Entries.mem_of_get? hroot)
    rw [Option.bind_some, Option.bind_some]
    cases hleft : reservedLeft? d with
    | none =>
      have hkeys := (reservedLeft?_eq_none_iff hdistinct).mp hleft
      by_cases hnext : next = Reserved.spaceId
      · rw [if_pos hnext, Option.bind_none]
      · have hnone : (under propertiesKey d).get? next = none := by
          rw [Entries.get?_eq_none, hkeys, List.mem_singleton]
          exact hnext
        rw [if_neg hnext, hnone, Option.bind_none, Option.bind_none]
    | some d' =>
      rw [Option.bind_some, get?_under_of_reservedLeft? hleft]
      by_cases hnext : next = Reserved.spaceId
      · rw [if_pos hnext, if_pos hnext, Option.bind_none]
      · rw [if_neg hnext, if_neg hnext]

/-- What is left along a chain: nothing at the id of the space and below it, what is left of the
reserved definition, and everything elsewhere. -/
theorem nestedAt?_indexed (hd : (Json.obj definitions).distinctKeys = true)
    (chain : List String) : nestedAt? (indexed definitions) chain =
      if [Reserved.root, Reserved.spaceId] <+: chain then none
      else if chain = [Reserved.root] then (nestedAt? definitions chain).bind reservedLeft?
      else nestedAt? definitions chain := by
  obtain ⟨hn, -⟩ := Json.distinctKeys_obj.mp hd
  cases chain with
  | nil => rfl
  | cons first rest =>
    by_cases hfirst : first = Reserved.root
    · subst hfirst
      cases rest with
      | nil => simp [nestedAt?_cons, get?_indexed hn]
      | cons next chain =>
        have hpre : [Reserved.root, Reserved.spaceId] <+: Reserved.root :: next :: chain ↔
            next = Reserved.spaceId := by
          simp [List.cons_prefix_cons, eq_comm]
        rw [nestedAt?_indexed_root hd]
        simp [hpre]
    · have hpre : ¬[Reserved.root, Reserved.spaceId] <+: first :: rest := by
        intro h
        exact hfirst (List.cons_prefix_cons.mp h).1.symm
      have hne : first :: rest ≠ [Reserved.root] := by
        intro h
        exact hfirst (List.cons.inj h).1
      rw [if_neg hpre, if_neg hne, nestedAt?_cons, nestedAt?_cons, get?_indexed hn,
        if_neg hfirst]

/-- The chains of nested properties that were taken out: those that lead to the id of the space and
on below it, and the one that leads to the reserved definition if nothing else was nested there. -/
def TakenOut (definitions : Entries) (chain : List String) : Prop :=
  (∃ d, nestedAt? definitions chain = some d) ∧
    ([Reserved.root, Reserved.spaceId] <+: chain ∨ (chain = [Reserved.root] ∧
      ∃ d, definitions.get? Reserved.root = some d ∧
        (under propertiesKey d).keys = [Reserved.spaceId]))

/-- A chain of nested properties is left, or it was taken out. -/
theorem exists_nestedAt?_iff (hd : (Json.obj definitions).distinctKeys = true)
    (chain : List String) : (∃ d, nestedAt? definitions chain = some d) ↔
      (∃ d, nestedAt? (indexed definitions) chain = some d) ∨ TakenOut definitions chain := by
  rw [nestedAt?_indexed hd]
  by_cases hpre : [Reserved.root, Reserved.spaceId] <+: chain
  · simp [TakenOut, hpre]
  · rw [if_neg hpre]
    by_cases hchain : chain = [Reserved.root]
    · subst hchain
      rw [if_pos rfl]
      cases hroot : definitions.get? Reserved.root with
      | none => simp [TakenOut, nestedAt?, hroot]
      | some d =>
        obtain ⟨-, hentries⟩ := Json.distinctKeys_obj.mp hd
        have hdistinct := hentries _ (Entries.mem_of_get? hroot)
        have hnested : nestedAt? definitions [Reserved.root] = some d := by
          rw [nestedAt?_cons, hroot]
          rfl
        rw [hnested, Option.bind_some]
        cases hleft : reservedLeft? d with
        | none =>
          have hkeys := (reservedLeft?_eq_none_iff hdistinct).mp hleft
          have htaken : TakenOut definitions [Reserved.root] :=
            ⟨⟨d, hnested⟩, .inr ⟨rfl, d, hroot, hkeys⟩⟩
          simp [htaken]
        | some d' => simp
    · have hnot : ¬TakenOut definitions chain := by
        rintro ⟨-, h | ⟨h, -⟩⟩
        · exact hpre h
        · exact hchain h
      simp [hchain, hnot]

/-! ## Nested properties and fields -/

/-- No definition on a chain of nested properties uses one name for a nested property and for a
field. -/
def NamesApart (definitions : Entries) : Prop :=
  ∀ chain d, nestedAt? definitions chain = some d → ∀ name,
    (under propertiesKey d).get? name ≠ none → (under fieldsKey d).get? name = none

/-- The chains to look at are those of the shape that grows by the definitions. -/
theorem namesApart_iff (hd : (Json.obj definitions).distinctKeys = true) :
    NamesApart definitions ↔ ∀ chain ∈ (growAll .empty definitions).chains,
      ∀ d ∈ nestedAt? definitions chain, ∀ name ∈ (under propertiesKey d).keys,
        (under fieldsKey d).has name = false := by
  constructor
  · intro h chain _ d hchain name hname
    have hnone := h chain d hchain name fun hnone => Entries.get?_eq_none.mp hnone hname
    rw [Entries.has, hnone, Option.isSome_none]
  · intro h chain d hchain name hname
    have hmem : chain ∈ (growAll .empty definitions).chains :=
      (mem_chains_growAll hd .empty chain).mpr (.inr ⟨d, hchain⟩)
    have hkey : name ∈ (under propertiesKey d).keys := by
      by_contra hmissing
      exact hname (Entries.get?_eq_none.mpr hmissing)
    have hfields := h chain hmem d hchain name hkey
    exact Option.isNone_iff_eq_none.mp (Option.isSome_eq_false_iff.mp hfields)

theorem namesApart_indexed (hd : (Json.obj definitions).distinctKeys = true)
    (h : NamesApart definitions) : NamesApart (indexed definitions) := by
  intro chain d hchain name hname
  rw [nestedAt?_indexed hd] at hchain
  obtain ⟨-, hchain⟩ := Option.ite_none_left_eq_some.mp hchain
  by_cases hroot : chain = [Reserved.root]
  · rw [if_pos hroot] at hchain
    obtain ⟨whole, hwhole, hreserved⟩ := Option.bind_eq_some_iff.mp hchain
    rw [under_fieldsKey_of_reservedLeft? hreserved]
    refine h chain whole hwhole name ?_
    rw [get?_under_of_reservedLeft? hreserved] at hname
    split at hname
    · exact absurd rfl hname
    · exact hname
  · rw [if_neg hroot] at hchain
    exact h chain d hchain name hname

/-- With such names, a chain of nested properties leads through no field. -/
theorem definition?_of_nestedAt? (h : NamesApart definitions)
    (hchain : nestedAt? definitions chain = some d) :
    definition? definitions chain = some (false, d) := by
  induction chain using List.reverseRecOn generalizing d with
  | nil => cases hchain
  | append_singleton above name ih =>
    by_cases habove : above = []
    · subst habove
      simp only [List.nil_append, nestedAt?, definition?, List.foldlM_nil] at hchain ⊢
      obtain ⟨d', hd', hd⟩ := Option.bind_eq_some_iff.mp hchain
      obtain rfl := Option.some.inj hd
      rw [hd']
      rfl
    · rw [nestedAt?_concat habove] at hchain
      obtain ⟨d', hd', hname⟩ := Option.bind_eq_some_iff.mp hchain
      have hfield : (under fieldsKey d').get? name = none := by
        refine h above d' hd' name ?_
        rw [hname]
        exact Option.some_ne_none d
      rw [definition?_concat habove, ih hd', Option.bind_some, child?, hfield, hname]
      rfl

/-- A chain that leads through no field is a chain of nested properties. -/
theorem nestedAt?_of_definition? (hne : chain ≠ [])
    (h : ∀ above, above ≠ [] → above <+: chain →
      ∃ d, definition? definitions above = some (false, d)) :
    ∃ d, nestedAt? definitions chain = some d ∧
      definition? definitions chain = some (false, d) := by
  induction chain using List.reverseRecOn with
  | nil => exact absurd rfl hne
  | append_singleton above name ih =>
    obtain ⟨d, hd⟩ := h _ hne (List.prefix_refl _)
    refine ⟨d, ?_, hd⟩
    by_cases habove : above = []
    · subst habove
      simp only [List.nil_append, nestedAt?, definition?, List.foldlM_nil] at hd ⊢
      obtain ⟨d', hd', hfound⟩ := Option.bind_eq_some_iff.mp hd
      obtain ⟨-, rfl⟩ := Prod.mk.inj (Option.some.inj hfound)
      rw [hd']
      rfl
    · obtain ⟨d', hnested, hd'⟩ := ih habove fun init hinit hpre =>
        h init hinit (hpre.trans (List.prefix_append _ _))
      rw [definition?_concat habove, hd', Option.bind_some] at hd
      rw [nestedAt?_concat habove, hnested, Option.bind_some]
      unfold child? at hd
      split at hd
      · cases hd
      · obtain ⟨d'', hname, hfound⟩ := Option.map_eq_some_iff.mp hd
        obtain ⟨-, rfl⟩ := Prod.mk.inj hfound
        exact hname

theorem exists_nestedAt?_of_prefix {above : List String} (hne : above ≠ [])
    (hpre : above <+: chain) (h : ∃ d, nestedAt? definitions chain = some d) :
    ∃ d, nestedAt? definitions above = some d := by
  obtain ⟨rest, rfl⟩ := hpre
  obtain ⟨d, hd⟩ := h
  rw [nestedAt?_append hne] at hd
  obtain ⟨d', hd', -⟩ := Option.bind_eq_some_iff.mp hd
  exact ⟨d', hd'⟩

end Mapping

namespace Schema

open Mapping (definition? indexed nestedAt? NamesApart TakenOut)

variable {mapping : Json} {s : Schema} {chain : List String}

/-- A chain of names leads to a node, and no node on the way is that of a field, nor is the last. -/
def AvoidsFields (s : Schema) (chain : List String) : Prop :=
  chain ≠ [] ∧ ∀ above, above ≠ [] → above <+: chain →
    ∃ p below, s.nodes.at? above = some (p, below) ∧ p.isField = false

theorem exists_at?_iff (hd : mapping.distinctKeys = true) (h : ofMapping mapping = .ok s)
    (chain : List String) :
    (∃ p below, s.nodes.at? chain = some (p, below) ∧ p.isField = false) ↔
      ∃ d, definition? (indexed (Mapping.definitions mapping)) chain = some (false, d) := by
  constructor
  · rintro ⟨p, below, hp, hfield⟩
    obtain ⟨above, name, ⟨isField, d⟩, -, hfound, rfl⟩ := exists_definition hd h hp
    obtain rfl : isField = false := hfield
    exact ⟨d, hfound⟩
  · rintro ⟨d, hfound⟩
    obtain ⟨above, name, below, -, hnode⟩ := exists_node hd h hfound
    exact ⟨_, below, hnode, rfl⟩

theorem avoidsFields_iff (hd : mapping.distinctKeys = true) (h : ofMapping mapping = .ok s)
    (hnames : NamesApart (Mapping.definitions mapping)) (chain : List String) :
    s.AvoidsFields chain ↔
      ∃ d, nestedAt? (indexed (Mapping.definitions mapping)) chain = some d := by
  have hapart := Mapping.namesApart_indexed (Mapping.distinctKeys_definitions hd) hnames
  constructor
  · rintro ⟨hne, hplain⟩
    obtain ⟨d, hnested, -⟩ := Mapping.nestedAt?_of_definition? hne fun above habove hpre =>
      (exists_at?_iff hd h above).mp (hplain above habove hpre)
    exact ⟨d, hnested⟩
  · intro hnested
    have hne : chain ≠ [] := by
      rintro rfl
      obtain ⟨d, hd⟩ := hnested
      cases hd
    refine ⟨hne, fun above habove hpre => ?_⟩
    obtain ⟨d, hat⟩ := Mapping.exists_nestedAt?_of_prefix habove hpre hnested
    exact (exists_at?_iff hd h above).mpr ⟨d, Mapping.definition?_of_nestedAt? hapart hat⟩

/-- The chains of the shape are those of the nested properties, as they stand. -/
theorem mem_chains_shape_iff (hd : mapping.distinctKeys = true) (h : ofMapping mapping = .ok s)
    (chain : List String) :
    chain ∈ s.shape.chains ↔ ∃ d, nestedAt? (Mapping.definitions mapping) chain = some d := by
  obtain ⟨-, hshape⟩ := ofMapping_eq_ok h
  have hempty : chain ∉ (Outline.empty : Shape).chains := List.not_mem_nil
  rw [hshape, Mapping.mem_chains_growAll (Mapping.distinctKeys_definitions hd)]
  exact or_iff_right hempty

/-- The reserved definition is no leaf of the shape if the id of the space is nested in it. -/
theorem not_mem_leafChains_root (hd : mapping.distinctKeys = true) (h : ofMapping mapping = .ok s)
    {d : Json} (hroot : (Mapping.definitions mapping).get? Reserved.root = some d)
    (hkeys : (Mapping.under Mapping.propertiesKey d).keys = [Reserved.spaceId]) :
    [Reserved.root] ∉ s.shape.forest.leafChains := by
  intro hleaf
  obtain ⟨value, hvalue⟩ := Outline.at?_of_mem_leafChains hleaf
  have hmem : Reserved.spaceId ∈ (Mapping.under Mapping.propertiesKey d).keys := by
    rw [hkeys]
    exact List.mem_singleton_self _
  obtain ⟨d', hd'⟩ := Option.ne_none_iff_exists'.mp fun hnone =>
    Json.Entries.get?_eq_none.mp hnone hmem
  have hnested : nestedAt? (Mapping.definitions mapping) ([Reserved.root] ++ [Reserved.spaceId]) =
      some d' := by
    rw [Mapping.nestedAt?_concat (List.cons_ne_nil _ _), Mapping.nestedAt?_cons, hroot]
    exact hd'
  have hchain := (mem_chains_shape_iff hd h _).mpr ⟨d', hnested⟩
  obtain ⟨found, hfound⟩ := Outline.mem_chains_iff.mp hchain
  rw [Outline.at?_concat (List.cons_ne_nil _ _), hvalue] at hfound
  cases hfound

/-! ## Main statement -/

/-- Let the objects of a mapping have distinct keys, as in all that is read from a text, and let no
definition call a field like one of its nested properties. Then the chains of names in the shape of
the documents are those that lead to a node and avoid fields, and those of the reserved entries that
were taken out. So every leaf of the shape has the path of a property of the mapping that is no
field, unless it is the id of the space or below it. -/
theorem shape_agrees_with_nodes (hd : mapping.distinctKeys = true) (h : ofMapping mapping = .ok s)
    (hnames : NamesApart (Mapping.definitions mapping)) :
    (∀ chain, chain ∈ s.shape.chains ↔
      s.AvoidsFields chain ∨ TakenOut (Mapping.definitions mapping) chain) ∧
    ∀ chain ∈ s.shape.forest.leafChains, ¬[Reserved.root, Reserved.spaceId] <+: chain →
      ∃ p ∈ s.properties, p.isMapped = true ∧ p.isField = false ∧ p.path = Shape.path chain := by
  have hchains (chain : List String) : chain ∈ s.shape.chains ↔
      s.AvoidsFields chain ∨ TakenOut (Mapping.definitions mapping) chain := by
    rw [mem_chains_shape_iff hd h, avoidsFields_iff hd h hnames]
    exact Mapping.exists_nestedAt?_iff (Mapping.distinctKeys_definitions hd) chain
  refine ⟨hchains, ?_⟩
  intro chain hleaf houtside
  obtain ⟨value, hvalue⟩ := Outline.at?_of_mem_leafChains hleaf
  rcases (hchains chain).mp (Outline.mem_chains_iff.mpr ⟨_, hvalue⟩) with ⟨hne, hplain⟩ |
    ⟨-, hpre | ⟨rfl, d, hroot, hkeys⟩⟩
  · obtain ⟨p, below, hp, hfield⟩ := hplain chain hne (List.prefix_refl chain)
    obtain ⟨-, hmapped, hpath⟩ := of_at? hd h hp
    exact ⟨p, mem_properties_iff.mpr (.inl ⟨chain, below, hp⟩), hmapped, hfield, hpath⟩
  · exact absurd hpre houtside
  · exact absurd hleaf (not_mem_leafChains_root hd h hroot hkeys)

/-- The id of the space is taken out along with what is nested in it, and the reserved definition
with it. The part of a title is a leaf of the shape, and the field of the title is no part of it. -/
theorem shape_agrees_with_nodes_of_taken_out_space :
    ∃ (mapping : Json) (s : Schema), mapping.distinctKeys = true ∧ ofMapping mapping = .ok s ∧
      NamesApart (Mapping.definitions mapping) ∧
      TakenOut (Mapping.definitions mapping) [Reserved.root] ∧
      TakenOut (Mapping.definitions mapping) [Reserved.root, Reserved.spaceId, "part"] ∧
      [Reserved.root, Reserved.spaceId, "part"] ∈ s.shape.chains ∧
      s.AvoidsFields ["title", "part"] ∧ ¬s.AvoidsFields ["title", "raw"] ∧
      (s.nodes.at? ["title", "raw"]).isSome = true ∧
      ∃ p ∈ s.properties, p.isMapped = true ∧ p.isField = false ∧ p.path = "title.part" := by
  let object (key : String) (entries : Json.Entries) : String × Json := (key, .obj entries)
  let mapping : Json := .obj [object "mappings" [object "properties"
    [object Reserved.root [object "properties" [object Reserved.spaceId
        [("type", .null), object "properties" [object "part" []]]]],
      object "title" [("type", .str "text"), object "properties" [object "part" []],
        object "fields" [object "raw" [("type", .str "keyword")]]]]]]
  have hd : mapping.distinctKeys = true := by decide
  have hnames : NamesApart (Mapping.definitions mapping) :=
    (Mapping.namesApart_iff (Mapping.distinctKeys_definitions hd)).mpr (by decide)
  have hroot : TakenOut (Mapping.definitions mapping) [Reserved.root] :=
    ⟨⟨_, rfl⟩, .inr ⟨rfl, _, rfl, rfl⟩⟩
  have hpart : TakenOut (Mapping.definitions mapping) [Reserved.root, Reserved.spaceId, "part"] :=
    ⟨⟨_, rfl⟩, .inl (List.prefix_append _ ["part"])⟩
  obtain ⟨s, hs, hpartChain, hrawChain, hrawNode, hleaf⟩ : ∃ s, ofMapping mapping = .ok s ∧
      ["title", "part"] ∈ s.shape.chains ∧ ["title", "raw"] ∉ s.shape.chains ∧
      (s.nodes.at? ["title", "raw"]).isSome = true ∧
      ["title", "part"] ∈ s.shape.forest.leafChains :=
    ⟨_, rfl, by decide, by decide, by decide, by decide⟩
  have houtside : ¬[Reserved.root, Reserved.spaceId] <+: ["title", "part"] := by decide
  obtain ⟨hchains, hleaves⟩ := shape_agrees_with_nodes hd hs hnames
  refine ⟨mapping, s, hd, hs, hnames, hroot, hpart, (hchains _).mpr (.inr hpart), ?_, ?_, hrawNode,
    hleaves _ hleaf houtside⟩
  · rcases (hchains _).mp hpartChain with hplain | ⟨-, hpre | ⟨heq, -⟩⟩
    · exact hplain
    · exact absurd (List.cons_prefix_cons.mp hpre).1 (by decide)
    · exact absurd heq (by decide)
  · intro hplain
    exact hrawChain ((hchains _).mpr (.inl hplain))

end Schema

end SearchComposer
