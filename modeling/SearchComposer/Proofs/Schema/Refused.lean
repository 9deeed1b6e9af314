import Mathlib.Data.List.Lex
import SearchComposer.Proofs.Schema.Mapping

/-!
# Mappings that are refused

A mapping is refused if and only if one of its definitions is malformed, however deep it is nested,
and it is refused for the first one. The address of a definition is made of its position among the
definitions of its level and those of the definitions above it, where fields are counted after
nested properties. Addresses are compared like words: a definition comes before those below it, and
these come before all that stand to its right. The id of the space is taken out before anything is
looked at, which can hide a malformed definition and which moves another one.
-/

namespace SearchComposer

namespace Mapping

open Json (Entries)

/-! ## Faults of definitions -/

/-- Whether a definition is none, or has something else in the place of its type, of its nested
properties or of its fields. Nested properties and fields may be `null`, a type may not. -/
def Malformed (definition : Json) : Prop :=
  (∀ entries, definition ≠ .obj entries) ∨
    (∃ j, definition.field? "type" = some j ∧ j.str? = none) ∨
    isMisplaced (definition.field? propertiesKey) = true ∨
    isMisplaced (definition.field? fieldsKey) = true

/-- What is wrong with a definition first, apart from the definitions below it. -/
def fault? (path : String) : Json → Option MappingError
  | .obj entries =>
    if (Entries.get? "type" entries).any (·.str?.isNone) then some (.typeNotText path)
    else if isMisplaced (Entries.get? propertiesKey entries) then
      some (.nestedNotObject propertiesKey path)
    else if isMisplaced (Entries.get? fieldsKey entries) then some (.nestedNotObject fieldsKey path)
    else none
  | _ => some (.definitionNotObject path)

/-- The definition at an address, with the names that lead there after the names above. -/
def place? (above : List String) (definitions : Entries) :
    List Nat → Option (List String × Json)
  | [] => none
  | [i] => definitions[i]?.map fun e => (above ++ [e.1], e.2)
  | i :: next :: address =>
    definitions[i]?.bind fun e => place? (above ++ [e.1]) (below e.2) (next :: address)

/-- No definition has a fault. -/
def NoFault (above : List String) (definitions : Entries) : Prop :=
  ∀ address chain d, place? above definitions address = some (chain, d) →
    fault? (Shape.path chain) d = none

/-- No definition before an address has a fault. -/
def ClearBefore (above : List String) (definitions : Entries) (address : List Nat) : Prop :=
  ∀ earlier < address, ∀ chain d, place? above definitions earlier = some (chain, d) →
    fault? (Shape.path chain) d = none

/-- An error is the fault of a definition before which no definition has one. -/
def FirstFault (above : List String) (definitions : Entries) (e : MappingError) : Prop :=
  ∃ address chain d, place? above definitions address = some (chain, d) ∧
    fault? (Shape.path chain) d = some e ∧ ClearBefore above definitions address

variable {above : List String} {definitions rest : Entries} {name : String} {d : Json}
  {e e' : MappingError}

theorem isSome_fault?_iff (path : String) (d : Json) :
    (fault? path d).isSome = true ↔ Malformed d := by
  cases d with
  | obj entries =>
    have htype : (Entries.get? "type" entries).any (·.str?.isNone) = true ↔
        ∃ j, (Json.obj entries).field? "type" = some j ∧ j.str? = none := by
      simp [Option.any_eq_true, Json.field?]
    have hobj : ¬∀ entries', Json.obj entries ≠ .obj entries' := fun h => h entries rfl
    rw [Malformed, ← htype]
    simp only [hobj, false_or, fault?, Json.field?]
    split
    · next h => simp [h]
    · next h =>
      split
      · next h' => simp [h']
      · next h' => split <;> simp_all
  | _ => exact iff_of_true rfl (.inl (by simp))

/-! ## Addresses -/

theorem place?_eq_some_cons {address : List Nat} {chain : List String} {d' : Json} :
    place? above ((name, d) :: rest) address = some (chain, d') ↔
      (address = [0] ∧ chain = above ++ [name] ∧ d' = d) ∨
      (∃ a, address = 0 :: a ∧ place? (above ++ [name]) (below d) a = some (chain, d')) ∨
      ∃ i a, address = (i + 1) :: a ∧ place? above rest (i :: a) = some (chain, d') := by
  match address with
  | [] => simp [place?]
  | [0] => simp [place?, eq_comm]
  | 0 :: next :: address => simp [place?]
  | [i + 1] => simp [place?]
  | (i + 1) :: next :: address => simp [place?]

theorem noFault_nil : NoFault above [] := by
  intro address chain d h
  match address with
  | [] => cases h
  | [_] => cases h
  | _ :: _ :: _ => cases h

theorem noFault_cons : NoFault above ((name, d) :: rest) ↔
    fault? (Shape.path (above ++ [name])) d = none ∧ NoFault (above ++ [name]) (below d) ∧
      NoFault above rest := by
  constructor
  · intro h
    refine ⟨h [0] _ _ rfl, ?_, ?_⟩
    · intro address chain d' hplace
      exact h (0 :: address) chain d' (place?_eq_some_cons.mpr (.inr (.inl ⟨_, rfl, hplace⟩)))
    · intro address chain d' hplace
      cases address with
      | nil => cases hplace
      | cons i address =>
        exact h ((i + 1) :: address) chain d'
          (place?_eq_some_cons.mpr (.inr (.inr ⟨_, _, rfl, hplace⟩)))
  · rintro ⟨hself, hbelow, hrest⟩ address chain d' hplace
    rcases place?_eq_some_cons.mp hplace with ⟨-, rfl, rfl⟩ | ⟨a, -, hat⟩ | ⟨i, a, -, hat⟩
    · exact hself
    · exact hbelow a chain d' hat
    · exact hrest _ chain d' hat

/-- Before a definition further down come the first one itself and what is before it below that. -/
theorem clearBefore_zero {address : List Nat} :
    ClearBefore above ((name, d) :: rest) (0 :: address) ↔
      (address ≠ [] → fault? (Shape.path (above ++ [name])) d = none) ∧
        ClearBefore (above ++ [name]) (below d) address := by
  constructor
  · intro h
    refine ⟨fun hne => h [0] ?_ _ _ rfl, ?_⟩
    · obtain ⟨next, address, rfl⟩ := List.exists_cons_of_ne_nil hne
      exact List.cons_lt_cons_iff.mpr (.inr ⟨rfl, List.nil_lt_cons _ _⟩)
    · intro earlier hlt chain d' hplace
      have hlt' : 0 :: earlier < 0 :: address := List.cons_lt_cons_iff.mpr (.inr ⟨rfl, hlt⟩)
      exact h _ hlt' chain d' (place?_eq_some_cons.mpr (.inr (.inl ⟨_, rfl, hplace⟩)))
  · rintro ⟨hself, hbelow⟩ earlier hlt chain d' hplace
    rcases place?_eq_some_cons.mp hplace with ⟨rfl, rfl, rfl⟩ | ⟨a, rfl, hat⟩ | ⟨i, a, rfl, -⟩
    · refine hself ?_
      rintro rfl
      exact absurd hlt (List.lt_irrefl _)
    · obtain hlt | ⟨-, hlt⟩ := List.cons_lt_cons_iff.mp hlt
      · exact absurd hlt (Nat.lt_irrefl 0)
      · exact hbelow a hlt chain d' hat
    · obtain hlt | ⟨heq, -⟩ := List.cons_lt_cons_iff.mp hlt
      · omega
      · omega

/-- Before a definition further to the right come the first one, all below it, and what is before it
among the others. -/
theorem clearBefore_succ {i : Nat} {address : List Nat} :
    ClearBefore above ((name, d) :: rest) ((i + 1) :: address) ↔
      fault? (Shape.path (above ++ [name])) d = none ∧ NoFault (above ++ [name]) (below d) ∧
        ClearBefore above rest (i :: address) := by
  have hzero (a : List Nat) : 0 :: a < (i + 1) :: address :=
    List.cons_lt_cons_iff.mpr (.inl (Nat.succ_pos i))
  have hsucc {j : Nat} {a : List Nat} :
      (j + 1) :: a < (i + 1) :: address ↔ j :: a < i :: address := by
    simp only [List.cons_lt_cons_iff, Nat.add_lt_add_iff_right, Nat.add_right_cancel_iff]
  constructor
  · intro h
    refine ⟨h [0] (hzero []) _ _ rfl, ?_, ?_⟩
    · intro a chain d' hplace
      exact h _ (hzero a) chain d' (place?_eq_some_cons.mpr (.inr (.inl ⟨_, rfl, hplace⟩)))
    · intro earlier hlt chain d' hplace
      cases earlier with
      | nil => cases hplace
      | cons j a =>
        exact h _ (hsucc.mpr hlt) chain d'
          (place?_eq_some_cons.mpr (.inr (.inr ⟨_, _, rfl, hplace⟩)))
  · rintro ⟨hself, hbelow, hrest⟩ earlier hlt chain d' hplace
    rcases place?_eq_some_cons.mp hplace with ⟨-, rfl, rfl⟩ | ⟨a, -, hat⟩ | ⟨j, a, rfl, hat⟩
    · exact hself
    · exact hbelow a chain d' hat
    · exact hrest _ (hsucc.mp hlt) chain d' hat

theorem firstFault_nil : ¬FirstFault above [] e := by
  rintro ⟨address, chain, d, hplace, hfault, -⟩
  rw [noFault_nil address chain d hplace] at hfault
  cases hfault

/-- The first fault is that of the first definition, or the first one below it, or the first one of
the others, in this order. -/
theorem firstFault_cons : FirstFault above ((name, d) :: rest) e ↔
    fault? (Shape.path (above ++ [name])) d = some e ∨
      (fault? (Shape.path (above ++ [name])) d = none ∧
        (FirstFault (above ++ [name]) (below d) e ∨
          (NoFault (above ++ [name]) (below d) ∧ FirstFault above rest e))) := by
  constructor
  · rintro ⟨address, chain, d', hplace, hfault, hclear⟩
    rcases place?_eq_some_cons.mp hplace with ⟨-, rfl, rfl⟩ | ⟨a, rfl, hat⟩ | ⟨i, a, rfl, hat⟩
    · exact .inl hfault
    · obtain ⟨hself, hbefore⟩ := clearBefore_zero.mp hclear
      have hne : a ≠ [] := by
        rintro rfl
        cases hat
      exact .inr ⟨hself hne, .inl ⟨a, chain, d', hat, hfault, hbefore⟩⟩
    · obtain ⟨hself, hbelow, hbefore⟩ := clearBefore_succ.mp hclear
      exact .inr ⟨hself, .inr ⟨hbelow, _, chain, d', hat, hfault, hbefore⟩⟩
  · rintro (hfault | ⟨hself, hbelow | ⟨hnone, hrest⟩⟩)
    · have hclear : ClearBefore above ((name, d) :: rest) [0] := by
        refine clearBefore_zero.mpr ⟨fun hne => absurd rfl hne, ?_⟩
        intro earlier hlt
        exact absurd hlt (List.not_lt_nil _)
      exact ⟨[0], _, d, rfl, hfault, hclear⟩
    · obtain ⟨a, chain, d', hplace, hfault, hbefore⟩ := hbelow
      exact ⟨0 :: a, chain, d', place?_eq_some_cons.mpr (.inr (.inl ⟨_, rfl, hplace⟩)), hfault,
        clearBefore_zero.mpr ⟨fun _ => hself, hbefore⟩⟩
    · obtain ⟨address, chain, d', hplace, hfault, hbefore⟩ := hrest
      cases address with
      | nil => cases hplace
      | cons i a =>
        exact ⟨(i + 1) :: a, chain, d', place?_eq_some_cons.mpr (.inr (.inr ⟨_, _, rfl, hplace⟩)),
          hfault, clearBefore_succ.mpr ⟨hself, hnone, hbefore⟩⟩

theorem noFault_append {others : Entries} :
    NoFault above (definitions ++ others) ↔ NoFault above definitions ∧ NoFault above others := by
  induction definitions with
  | nil => simp [noFault_nil]
  | cons f definitions ih =>
    rw [List.cons_append, noFault_cons, noFault_cons, ih, and_assoc, and_assoc]

theorem firstFault_append {others : Entries} : FirstFault above (definitions ++ others) e ↔
    FirstFault above definitions e ∨ (NoFault above definitions ∧ FirstFault above others e) := by
  induction definitions with
  | nil => simp [noFault_nil, firstFault_nil]
  | cons f definitions ih =>
    rw [List.cons_append, firstFault_cons, firstFault_cons, noFault_cons, ih]
    tauto

/-- There is one first fault at most. -/
theorem FirstFault.unique (h : FirstFault above definitions e)
    (h' : FirstFault above definitions e') : e = e' := by
  obtain ⟨address, chain, d, hplace, hfault, hclear⟩ := h
  obtain ⟨address', chain', d', hplace', hfault', hclear'⟩ := h'
  have hnot : ¬address < address' := by
    intro hlt
    rw [hclear' _ hlt chain d hplace] at hfault
    cases hfault
  have hnot' : ¬address' < address := by
    intro hlt
    rw [hclear _ hlt chain' d' hplace'] at hfault'
    cases hfault'
  obtain rfl : address = address' := le_antisymm (not_lt.mp hnot') (not_lt.mp hnot)
  rw [hplace] at hplace'
  obtain ⟨rfl, rfl⟩ := Prod.mk.inj (Option.some.inj hplace')
  exact Option.some.inj (hfault.symm.trans hfault')

theorem NoFault.not_firstFault (h : NoFault above definitions) :
    ¬FirstFault above definitions e := by
  rintro ⟨address, chain, d, hplace, hfault, -⟩
  rw [h address chain d hplace] at hfault
  cases hfault

/-! ## What the reader reports -/

variable {α β : Type} {parent : Option Property} {isField : Bool} {nodes : Outline Property}

/-- A reading of definitions fails with the first fault, and succeeds if there is none. -/
def Reports (above : List String) (definitions : Entries) : Except MappingError α → Prop
  | .ok _ => NoFault above definitions
  | .error e => FirstFault above definitions e

/-- One reading after another reports the first fault of all if those of the first reading come
before those of the second one. -/
theorem Reports.bind {above' above'' : List String} {first others all : Entries}
    {r : Except MappingError α} {next : α → Except MappingError β} (h : Reports above' first r)
    (hnext : ∀ a, Reports above'' others (next a))
    (hnone : NoFault above' first → NoFault above'' others → NoFault above all)
    (hfirst : ∀ e, FirstFault above' first e → FirstFault above all e)
    (hothers : ∀ e, NoFault above' first → FirstFault above'' others e → FirstFault above all e) :
    Reports above all (r >>= next) := by
  cases r with
  | error e => exact hfirst e h
  | ok a =>
    have hreports := hnext a
    show Reports above all (next a)
    cases hresult : next a with
    | error e =>
      rw [hresult] at hreports
      exact hothers e h hreports
    | ok b =>
      rw [hresult] at hreports
      exact hnone h hreports

theorem Reports.append {others : Entries} {r : Except MappingError α}
    {next : α → Except MappingError β} (h : Reports above definitions r)
    (hnext : ∀ a, Reports above others (next a)) :
    Reports above (definitions ++ others) (r >>= next) := by
  refine h.bind hnext ?_ ?_ ?_
  · intro hclear hothers
    exact noFault_append.mpr ⟨hclear, hothers⟩
  · intro e hfirst
    exact firstFault_append.mpr (.inl hfirst)
  · intro e hclear hfirst
    exact firstFault_append.mpr (.inr ⟨hclear, hfirst⟩)

theorem Reports.map {r : Except MappingError α} (h : Reports above definitions r) (f : α → β) :
    Reports above definitions (r >>= fun a => pure (f a)) := by
  cases r with
  | error e => exact h
  | ok a => exact h

theorem dataType_eq (path : String) (entries : Entries) : dataType path entries =
    if (entries.get? "type").any (·.str?.isNone) then .error (.typeNotText path)
    else .ok (.ofMapping ((entries.get? "type").bind Json.str?)) := by
  unfold dataType
  cases entries.get? "type" with
  | none => rfl
  | some j => cases j <;> rfl

theorem checkNested_eq (key path : String) (entries : Entries) : checkNested key path entries =
    if isMisplaced (entries.get? key) then .error (.nestedNotObject key path) else .ok () := by
  unfold checkNested
  cases entries.get? key with
  | none => rfl
  | some j => cases j <;> rfl

theorem readDefinition_of_fault (h : fault? (Property.pathBelow parent name) d = some e)
    (isField : Bool) : readDefinition parent isField name d = .error e := by
  cases d with
  | obj entries =>
    simp only [readDefinition, dataType_eq, checkNested_eq]
    rw [fault?] at h
    split at h
    · next htype =>
      obtain rfl := Option.some.inj h
      rw [if_pos htype]
      rfl
    · next htype =>
      rw [if_neg htype]
      split at h
      · next hproperties =>
        obtain rfl := Option.some.inj h
        rw [if_pos hproperties]
        rfl
      · next hproperties =>
        rw [if_neg hproperties]
        obtain ⟨hfields, h⟩ := Option.ite_none_right_eq_some.mp h
        obtain rfl := Option.some.inj h
        rw [if_pos hfields]
        rfl
  | _ =>
    obtain rfl := Option.some.inj h
    rfl

/-- A definition without a fault of its own is read by the definitions below it. -/
theorem readDefinition_of_no_fault (h : fault? (Property.pathBelow parent name) d = none)
    (isField : Bool) : ∃ p : Property, p.path = Property.pathBelow parent name ∧
      readDefinition parent isField name d =
        readAll (some p) false (under propertiesKey d) .empty >>= fun nested =>
          readAll (some p) true (under fieldsKey d) nested >>= fun children =>
            pure (p, children) := by
  cases d with
  | obj entries =>
    rw [fault?] at h
    split at h
    · cases h
    · next htype =>
      split at h
      · cases h
      · next hproperties =>
        split at h
        · cases h
        · next hfields =>
          refine ⟨Property.mapped parent name
            (.ofMapping ((Entries.get? "type" entries).bind Json.str?)) isField, rfl, ?_⟩
          simp only [readDefinition, dataType_eq, checkNested_eq, readUnder_eq]
          rw [if_neg htype, if_neg hproperties, if_neg hfields]
          rfl
  | _ => cases h

/-- What the reader of a definition without a fault of its own reports of those below it. -/
def ReportsBelow (d : Json) : Prop :=
  ∀ (parent : Option Property) (isField : Bool) (name : String) (above : List String),
    parent.map (·.path) = pathAbove? above → fault? (Shape.path (above ++ [name])) d = none →
    Reports (above ++ [name]) (below d) (readDefinition parent isField name d)

theorem reports_readAll (h : ∀ f ∈ definitions, ReportsBelow f.2)
    (hparent : parent.map (·.path) = pathAbove? above) (isField : Bool)
    (nodes : Outline Property) :
    Reports above definitions (readAll parent isField definitions nodes) := by
  induction definitions generalizing nodes with
  | nil => exact noFault_nil
  | cons f rest ih =>
    obtain ⟨name, d⟩ := f
    obtain ⟨hd, hrest⟩ := List.forall_mem_cons.mp h
    have hpath := pathBelow_eq hparent name
    rw [readAll]
    cases hfault : fault? (Shape.path (above ++ [name])) d with
    | some e =>
      rw [readDefinition_of_fault (hpath ▸ hfault) isField]
      exact firstFault_cons.mpr (.inl hfault)
    | none =>
      have hbelow := hd parent isField name above hparent hfault
      refine hbelow.bind (fun node => ih hrest (nodes.put name node.1 node.2)) ?_ ?_ ?_
      · intro hclear hothers
        exact noFault_cons.mpr ⟨hfault, hclear, hothers⟩
      · intro e hfirst
        exact firstFault_cons.mpr (.inr ⟨hfault, .inl hfirst⟩)
      · intro e hclear hfirst
        exact firstFault_cons.mpr (.inr ⟨hfault, .inr ⟨hclear, hfirst⟩⟩)

theorem reportsBelow (d : Json) : ReportsBelow d := by
  induction d using induction_below with
  | step d ih =>
    intro parent isField name above hparent hfault
    have hpath := pathBelow_eq hparent name
    obtain ⟨p, hp, hread⟩ := readDefinition_of_no_fault (hpath ▸ hfault) isField
    have habove : (some p).map (·.path) = pathAbove? (above ++ [name]) := by
      have hne : above ++ [name] ≠ [] := List.append_ne_nil_of_right_ne_nil _ (List.cons_ne_nil _ _)
      rw [pathAbove?, if_neg hne, Option.map_some, hp, hpath]
    rw [hread]
    refine Reports.append ?_ fun nested => ?_
    · exact reports_readAll (fun f hf => ih f (List.mem_append_left _ hf)) habove false .empty
    · have hfields := reports_readAll (fun f hf => ih f (List.mem_append_right _ hf)) habove true
      exact (hfields nested).map _

theorem reports_top (definitions : Entries) :
    Reports [] definitions (readAll none false definitions .empty) :=
  reports_readAll (fun f _ => reportsBelow f.2) rfl false .empty

theorem readAll_eq_error_iff (definitions : Entries) (e : MappingError) :
    readAll none false definitions .empty = .error e ↔ FirstFault [] definitions e := by
  have hreports := reports_top definitions
  constructor
  · intro herror
    rw [herror] at hreports
    exact hreports
  · intro hfirst
    cases hresult : readAll none false definitions .empty with
    | error e' =>
      rw [hresult] at hreports
      rw [FirstFault.unique hreports hfirst]
    | ok nodes =>
      rw [hresult] at hreports
      exact absurd hfirst (NoFault.not_firstFault hreports)

/-! ## Taking out the id of the space -/

/-- The entry with a key is taken out, and the last entry comes into its place. -/
def SwapsOut (key : String) (entries left : Entries) : Prop :=
  ∃ (front : Entries) (value : Json) (back : Entries),
    entries = front ++ (key, value) :: back ∧ key ∉ front.keys ∧
      left = front ++ (back.getLast?.toList ++ back.dropLast)

/-- If there is an id of the space among the reserved definitions, then it is taken out, and the
reserved definition too if no other definition is nested in it. -/
def TakesOutSpaceId (definitions left : Entries) : Prop :=
  (left = definitions ∧ ∀ d, definitions.get? Reserved.root = some d →
      (under propertiesKey d).has Reserved.spaceId = false) ∨
    ∃ reserved nested others, definitions.get? Reserved.root = some (.obj reserved) ∧
      Entries.get? propertiesKey reserved = some (.obj nested) ∧
      SwapsOut Reserved.spaceId nested others ∧
      ((others = [] ∧ SwapsOut Reserved.root definitions left) ∨
        (others ≠ [] ∧ left = definitions.insert Reserved.root
          (.obj (Entries.insert propertiesKey (.obj others) reserved))))

theorem swapsOut_swapErase {key : String} {entries : Entries} (h : entries.has key = true) :
    SwapsOut key entries (entries.swapErase key) := by
  induction entries with
  | nil => cases h
  | cons f rest ih =>
    obtain ⟨k, v⟩ := f
    by_cases hk : k = key
    · subst hk
      refine ⟨[], v, rest, rfl, List.not_mem_nil, ?_⟩
      rw [Entries.swapErase, if_pos rfl]
      cases hlast : rest.getLast? with
      | none => simp [List.getLast?_eq_none_iff.mp hlast]
      | some last => rfl
    · have hrest : Entries.has key rest = true := by
        rwa [Entries.has, Entries.get?, if_neg hk] at h
      obtain ⟨front, value, back, hentries, hkey, hleft⟩ := ih hrest
      refine ⟨(k, v) :: front, value, back, ?_, ?_, ?_⟩
      · rw [hentries]
        rfl
      · rw [Entries.keys_cons, List.mem_cons, not_or]
        exact ⟨Ne.symm hk, hkey⟩
      · rw [Entries.swapErase, if_neg hk, hleft, List.cons_append]

theorem takesOutSpaceId_withoutSpaceId (definitions : Entries) :
    TakesOutSpaceId definitions (withoutSpaceId definitions) := by
  rcases withoutSpaceId_cases definitions with h | ⟨reserved, nested, hroot, hnested, hid, h⟩
  · exact .inl h
  · have hswap := swapsOut_swapErase hid
    refine .inr ⟨reserved, nested, _, hroot, hnested, hswap, ?_⟩
    rcases h with ⟨hempty, h⟩ | hsome
    · have hhas : definitions.has Reserved.root = true := by
        rw [Entries.has, hroot, Option.isSome_some]
      exact .inl ⟨hempty, h ▸ swapsOut_swapErase hhas⟩
    · exact .inr hsome

end Mapping

namespace Schema

open Mapping (isMisplaced propertiesKey withoutSpaceId TakesOutSpaceId FirstFault Malformed place?)

/-- A mapping is refused for what is in the place of its definitions, or for their first fault. -/
theorem ofMapping_eq_error_iff (mapping : Json) (e : MappingError) :
    ofMapping mapping = .error e ↔
      (isMisplaced ((mapping.field? "mappings").bind (Json.field? propertiesKey)) = true ∧
        e = .propertiesNotObject) ∨
      FirstFault [] (withoutSpaceId (Mapping.definitions mapping)) e := by
  have hdefinitions : ofDefinitions (Mapping.definitions mapping) = .error e ↔
      FirstFault [] (withoutSpaceId (Mapping.definitions mapping)) e := by
    rw [← Mapping.readAll_eq_error_iff, ofDefinitions]
    cases Mapping.readAll none false (withoutSpaceId (Mapping.definitions mapping)) .empty with
    | error e' => simp [bind, Except.bind]
    | ok nodes => exact iff_of_false (by intro h; cases h) (by intro h; cases h)
  rw [ofMapping_eq, ← hdefinitions]
  by_cases hmisplaced :
      isMisplaced ((mapping.field? "mappings").bind (Json.field? propertiesKey)) = true
  · have hnil : Mapping.definitions mapping = [] := by
      unfold Mapping.definitions
      split
      · next h =>
        rw [h] at hmisplaced
        cases hmisplaced
      · rfl
    rw [if_pos hmisplaced, hnil]
    constructor
    · intro h
      cases h
      exact .inl ⟨hmisplaced, rfl⟩
    · rintro (⟨-, rfl⟩ | h)
      · rfl
      · cases h
  · rw [if_neg hmisplaced]
    simp only [hmisplaced, Bool.false_eq_true, false_and, false_or]

/-- A mapping is refused exactly if something else is in the place of its definitions, or if some
definition is malformed, at any depth and also where a field takes its place, after the id of the
space was taken out. It is refused for the first such definition: for what is wrong with that one
first, under its path. -/
theorem refused_for_first_fault (mapping : Json) :
    ∃ left, TakesOutSpaceId (Mapping.definitions mapping) left ∧
      ((∃ e, ofMapping mapping = .error e) ↔
        isMisplaced ((mapping.field? "mappings").bind (Json.field? propertiesKey)) = true ∨
          ∃ address chain d, place? [] left address = some (chain, d) ∧ Malformed d) ∧
      ∀ e, ofMapping mapping = .error e ↔
        (isMisplaced ((mapping.field? "mappings").bind (Json.field? propertiesKey)) = true ∧
          e = .propertiesNotObject) ∨ FirstFault [] left e := by
  refine ⟨_, Mapping.takesOutSpaceId_withoutSpaceId _, ?_, ofMapping_eq_error_iff mapping⟩
  constructor
  · rintro ⟨e, he⟩
    rcases (ofMapping_eq_error_iff mapping e).mp he with ⟨hmisplaced, -⟩ |
      ⟨address, chain, d, hplace, hfault, -⟩
    · exact .inl hmisplaced
    · have hmalformed := (Mapping.isSome_fault?_iff _ d).mp (Option.isSome_of_eq_some hfault)
      exact .inr ⟨address, chain, d, hplace, hmalformed⟩
  · rintro (hmisplaced | ⟨address, chain, d, hplace, hmalformed⟩)
    · exact ⟨_, (ofMapping_eq_error_iff mapping _).mpr (.inl ⟨hmisplaced, rfl⟩)⟩
    · cases hresult : ofMapping mapping with
      | error e => exact ⟨e, rfl⟩
      | ok s =>
        -- what was read has no fault, so no definition is malformed
        obtain ⟨hread, -⟩ := ofMapping_eq_ok hresult
        have hreports := Mapping.reports_top (withoutSpaceId (Mapping.definitions mapping))
        rw [hread] at hreports
        have hsome := (Mapping.isSome_fault?_iff (Shape.path chain) d).mpr hmalformed
        rw [hreports address chain d hplace] at hsome
        cases hsome

-- the last definition comes into the place of the reserved one, and so before the other fault
example : ofMapping (.obj [("mappings", .obj [("properties", .obj
    [(Reserved.root, .obj [("properties", .obj [(Reserved.spaceId, .null)])]),
      ("b", .null), ("c", .null)])])]) = .error (.definitionNotObject "c") := by
  rfl

end Schema

end SearchComposer
