import Mathlib.Data.List.Pairwise
import SearchComposer.Proofs.Schema.Lookup
import SearchComposer.Session

/-!
# What is listed for conditions and for sorting

The listings pick nodes of the schema and put them in the order of their paths. Two nodes may have
equal properties if their names have dots in them, so it is the nodes that are listed once each, and
where paths are equal they stay in the order of the schema. Conditions can be about a property if no
type on the way to it is unknown, and then there is a comparator for it.
-/

namespace SearchComposer

/-! ## Stable sorting -/

section Stable

variable {α : Type} {le : α → α → Bool} {l : List α} {a b : α}

theorem sublist_or_sublist (ha : a ∈ l) (hb : b ∈ l) (hne : a ≠ b) :
    [a, b].Sublist l ∨ [b, a].Sublist l := by
  have hpairs : l.Pairwise fun x y => [x, y].Sublist l ∨ [y, x].Sublist l :=
    List.pairwise_iff_forall_sublist.mpr fun h => .inl h
  have hsymm : Std.Symm fun x y => [x, y].Sublist l ∨ [y, x].Sublist l := ⟨fun _ _ => Or.symm⟩
  exact hpairs.forall ha hb hne

theorem not_sublist_swap (hn : l.Nodup) (h : [a, b].Sublist l) : ¬[b, a].Sublist l := by
  induction l with
  | nil => cases h
  | cons c l ih =>
    obtain ⟨hc, hn⟩ := List.nodup_cons.mp hn
    intro h'
    cases h with
    | cons _ h =>
      cases h' with
      | cons _ h' => exact ih hn h h'
      | cons_cons _ h' => exact hc (h.subset (List.mem_cons_of_mem _ (List.mem_singleton_self _)))
    | cons_cons _ h =>
      cases h' with
      | cons _ h' => exact hc (h'.subset (List.mem_cons_of_mem _ (List.mem_singleton_self _)))
      | cons_cons _ h' => exact hc (h.subset (List.mem_singleton_self _))

/-- After sorting, elements that are not told apart are in the order in which they were. -/
theorem pairwise_mergeSort_of_nodup (trans : ∀ a b c, le a b = true → le b c = true → le a c = true)
    (total : ∀ a b, (le a b || le b a) = true) (hn : l.Nodup) :
    (l.mergeSort le).Pairwise fun a b => le a b = true ∧ (le b a = true → [a, b].Sublist l) := by
  have hsorted := List.pairwise_mergeSort trans total l
  have hnodup : (l.mergeSort le).Nodup := (List.mergeSort_perm l le).nodup_iff.mpr hn
  rw [List.pairwise_iff_forall_sublist]
  intro a b hab
  refine ⟨List.pairwise_iff_forall_sublist.mp hsorted hab, fun hba => ?_⟩
  have ha : a ∈ l := List.mem_mergeSort.mp (hab.subset List.mem_cons_self)
  have hb : b ∈ l :=
    List.mem_mergeSort.mp (hab.subset (List.mem_cons_of_mem _ (List.mem_singleton_self _)))
  have hne : a ≠ b := by
    rintro rfl
    exact not_sublist_swap hnodup hab hab
  rcases sublist_or_sublist ha hb hne with h | h
  · exact h
  · -- the other way round they would have stayed
    have hstay := List.pair_sublist_mergeSort trans total hba h
    exact absurd hstay (not_sublist_swap hnodup hab)

end Stable

namespace Schema

variable {mapping : Json} {s : Schema} {p : Property} {chain : List String}

/-! ## Nodes with supported types on the way -/

/-- No property on the way along a chain has a type that is not known, nor has the last one. -/
def SupportedAlong (s : Schema) (chain : List String) : Prop :=
  ∀ above p below, above <+: chain → s.nodes.at? above = some (p, below) →
    ∀ name, p.dataType ≠ .other name

theorem isSupported_iff {t : DataType} : t.isSupported = true ↔ ∀ name, t ≠ .other name := by
  cases t <;> simp [DataType.isSupported]

theorem supportedAlong_iff (s : Schema) (chain : List String) :
    (s.nodes.lineage chain).all (·.dataType.isSupported) = true ↔ s.SupportedAlong chain := by
  rw [List.all_eq_true]
  constructor
  · intro h above p below hpre hp
    exact isSupported_iff.mp (h p (Outline.mem_lineage_iff.mpr ⟨above, below, hpre, hp⟩))
  · intro h p hp
    obtain ⟨above, below, hpre, hp⟩ := Outline.mem_lineage_iff.mp hp
    exact isSupported_iff.mpr (h above p below hpre hp)

/-- The flag that goes down the forest says whether all types on the way are supported. -/
theorem marked_eq {f : Forest Property} (h : f.Sorted) (supported : Bool) :
    marked supported f = f.nodes.map fun e =>
      (e.2, supported && (Outline.lineage ⟨f, h⟩ e.1).all (·.dataType.isSupported)) := by
  induction f generalizing supported with
  | nil => rfl
  | node name p children siblings ihc ihs =>
    have hfirst (rest : List String) : Outline.lineage ⟨.node name p children siblings, h⟩
        (name :: rest) = p :: Outline.lineage ⟨children, h.2.1⟩ rest := by
      rw [Outline.lineage, Outline.node?_node, if_pos rfl]
      rfl
    have hother : ∀ e ∈ siblings.nodes, Outline.lineage ⟨.node name p children siblings, h⟩ e.1 =
        Outline.lineage ⟨siblings, h.2.2⟩ e.1 := by
      rintro ⟨chain, q⟩ he
      obtain ⟨below, hbelow⟩ := (Outline.mem_nodes_iff ⟨siblings, h.2.2⟩ chain q).mp he
      cases chain with
      | nil => rfl
      | cons first rest =>
        have hne : first ≠ name := by
          rintro rfl
          rw [Outline.at?_siblings h rest] at hbelow
          cases hbelow
        rw [Outline.lineage, Outline.node?_node, if_neg hne, Outline.lineage]
    rw [marked, Forest.nodes, List.map_cons, List.map_append, List.map_map]
    simp only [ihc h.2.1, ihs h.2.2]
    refine congrArg₂ _ ?_ (congrArg₂ _ ?_ ?_)
    · rw [hfirst]
      simp [Outline.lineage]
    · refine List.map_congr_left fun e _ => ?_
      simp [hfirst, Bool.and_assoc]
    · refine List.map_congr_left fun e he => ?_
      rw [hother e he]

/-! ## Listings of nodes -/

/-- Some nodes are listed: all of which a condition holds, each once, in the order of their paths,
and those with equal paths in the order of the schema. -/
structure Lists (s : Schema) (P : List String → Property → Prop)
    (listed : List (List String × Property)) : Prop where
  /-- The listed nodes are those of which the condition holds. -/
  mem_iff : ∀ chain p,
    (chain, p) ∈ listed ↔ (∃ below, s.nodes.at? chain = some (p, below)) ∧ P chain p
  /-- No node is listed twice. -/
  nodup : (listed.map (·.1)).Nodup
  /-- The paths do not decrease, and nodes with equal paths keep their order. -/
  ordered : listed.Pairwise fun a b => a.2.path < b.2.path ∨
    (a.2.path = b.2.path ∧ [a, b].Sublist s.nodes.forest.nodes)

/-- Whether a node may stand before another one in the order of paths. -/
def pathLe (a b : List String × Property) : Bool :=
  decide (a.2.path ≤ b.2.path)

theorem pathLe_trans (a b c : List String × Property) (hab : pathLe a b = true)
    (hbc : pathLe b c = true) : pathLe a c = true :=
  decide_eq_true (String.le_trans (of_decide_eq_true hab) (of_decide_eq_true hbc))

theorem pathLe_total (a b : List String × Property) : (pathLe a b || pathLe b a) = true := by
  rw [Bool.or_eq_true, pathLe, pathLe, decide_eq_true_iff, decide_eq_true_iff]
  exact String.le_total a.2.path b.2.path

theorem sortedByPath_map (l : List (List String × Property)) :
    sortedByPath (l.map (·.2)) = (l.mergeSort pathLe).map (·.2) := by
  symm
  exact List.map_mergeSort fun _ _ _ _ => rfl

theorem nodup_nodes (s : Schema) : (s.nodes.forest.nodes.map (·.1)).Nodup := by
  rw [Forest.map_fst_nodes]
  exact s.nodes.nodup_chains

/-- Sorting and then keeping nodes of the schema lists them. -/
theorem lists_filter_mergeSort {l : List (List String × Property)}
    {keep : List String × Property → Bool} {P : List String → Property → Prop} (hn : l.Nodup)
    (hnodes : (l.filter keep).Sublist s.nodes.forest.nodes)
    (hP : ∀ chain p, (chain, p) ∈ s.nodes.forest.nodes →
      ((chain, p) ∈ l.filter keep ↔ P chain p)) :
    s.Lists P ((l.mergeSort pathLe).filter keep) where
  mem_iff := by
    intro chain p
    have hperm := (List.mergeSort_perm l pathLe).filter keep
    rw [hperm.mem_iff, ← Outline.mem_nodes_iff]
    constructor
    · intro hmem
      have hnode := hnodes.subset hmem
      exact ⟨hnode, (hP chain p hnode).mp hmem⟩
    · rintro ⟨hnode, hp⟩
      exact (hP chain p hnode).mpr hp
  nodup := by
    have hperm := ((List.mergeSort_perm l pathLe).filter keep).map (·.1)
    exact hperm.nodup_iff.mpr ((hnodes.map (·.1)).nodup s.nodup_nodes)
  ordered := by
    have hsorted := pairwise_mergeSort_of_nodup pathLe_trans pathLe_total hn
    rw [List.pairwise_filter]
    refine hsorted.imp fun {a b} hab ha hb => ?_
    obtain ⟨hle, hkeeps⟩ := hab
    by_cases heq : a.2.path = b.2.path
    · have hback : pathLe b a = true := decide_eq_true (heq ▸ String.le_refl _)
      have hpair := (hkeeps hback).filter keep
      rw [List.filter_cons_of_pos ha, List.filter_cons_of_pos hb] at hpair
      exact .inr ⟨heq, hpair.trans hnodes⟩
    · exact .inl (Std.lt_of_le_of_ne (of_decide_eq_true hle) heq)

/-! ## What is sorted -/

theorem sortable_eq (s : Schema) : s.sortable =
    ((s.nodes.forest.nodes.filter (·.2.dataType.isSortable)).mergeSort pathLe).map (·.2) := by
  rw [← sortedByPath_map, sortable, Outline.values, ← Forest.map_snd_nodes, List.filter_map]
  rfl

theorem lists_sortable (s : Schema) : ∃ listed, s.sortable = listed.map (·.2) ∧
    s.Lists (fun _ p => p.dataType ∈ [.keyword, .boolean, .date, .number]) listed := by
  have hsortable (t : DataType) :
      t.isSortable = true ↔ t ∈ [DataType.keyword, .boolean, .date, .number] := by
    cases t <;> simp [DataType.isSortable]
  refine ⟨_, s.sortable_eq, ?_⟩
  rw [← List.filter_true (List.mergeSort _ _)]
  refine lists_filter_mergeSort (s.nodup_nodes.of_map.filter _) ?_ ?_
  · rw [List.filter_true]
    exact List.filter_sublist
  · intro chain p hnode
    rw [List.filter_true, List.mem_filter, hsortable]
    exact and_iff_right hnode

/-- The nodes that conditions can be about. -/
def usable (s : Schema) : List (List String × Property) :=
  s.nodes.forest.nodes.filter fun e =>
    (s.nodes.lineage e.1).all (·.dataType.isSupported) && e.2.dataType != .object

theorem mem_usable_iff : (chain, p) ∈ s.usable ↔
    (chain, p) ∈ s.nodes.forest.nodes ∧ s.SupportedAlong chain ∧ p.dataType ≠ .object := by
  rw [usable, List.mem_filter, Bool.and_eq_true, supportedAlong_iff, bne_iff_ne]

/-- The usable nodes, and the properties that no mapping defines. These have no chain. -/
def candidates (s : Schema) : List (List String × Property) :=
  s.usable ++ Property.synthetic.map ([], ·)

theorem map_snd_candidates (s : Schema) : s.candidates.map (·.2) =
    ((marked true s.nodes.forest).filter fun (p, here) =>
      here && p.dataType != .object).map (·.1) ++ Property.synthetic := by
  rw [marked_eq s.nodes.sorted, List.filter_map, List.map_map, candidates, List.map_append, usable]
  rfl

theorem nodup_candidates (s : Schema) : s.candidates.Nodup := by
  have husable : s.usable.Nodup := s.nodup_nodes.of_map.filter _
  rw [candidates, List.nodup_append]
  refine ⟨husable, by decide, ?_⟩
  rintro ⟨chain, p⟩ hmem e he rfl
  obtain ⟨q, -, heq⟩ := List.mem_map.mp he
  obtain rfl : [] = chain := (Prod.mk.inj heq).1
  obtain ⟨below, hbelow⟩ := (s.nodes.mem_nodes_iff [] p).mp (mem_usable_iff.mp hmem).1
  cases hbelow

theorem queryable_eq (s : Schema) : s.queryable =
    ((s.candidates.mergeSort pathLe).filter (!·.2.isMapped)).map (·.2) ++
    ((s.candidates.mergeSort pathLe).filter fun e => !isInternal e.2 && e.2.isMapped).map (·.2) ++
    ((s.candidates.mergeSort pathLe).filter fun e => isInternal e.2 && e.2.isMapped).map (·.2) := by
  unfold queryable
  dsimp only
  rw [← map_snd_candidates, sortedByPath_map, List.filter_filter, List.filter_filter,
    List.filter_map, List.filter_map, List.filter_map]
  rfl

theorem isMapped_of_mem_usable (hd : mapping.distinctKeys = true) (h : ofMapping mapping = .ok s)
    {e : List String × Property} (he : e ∈ s.usable) : e.2.isMapped = true := by
  obtain ⟨chain, p⟩ := e
  obtain ⟨below, hp⟩ := (s.nodes.mem_nodes_iff chain p).mp (mem_usable_iff.mp he).1
  obtain ⟨-, hmapped, -⟩ := of_at? hd h hp
  exact hmapped

/-- The properties that no mapping defines come first. -/
theorem unmapped_candidates (hd : mapping.distinctKeys = true) (h : ofMapping mapping = .ok s) :
    (s.candidates.mergeSort pathLe).filter (!·.2.isMapped) = Property.synthetic.map ([], ·) := by
  have hcandidates : s.candidates.filter (!·.2.isMapped) = Property.synthetic.map ([], ·) := by
    have hnil : s.usable.filter (!·.2.isMapped) = [] := by
      rw [List.filter_eq_nil_iff]
      intro e he
      simp [isMapped_of_mem_usable hd h he]
    rw [candidates, List.filter_append, hnil]
    rfl
  have hperm := (List.mergeSort_perm s.candidates pathLe).filter (!·.2.isMapped)
  rw [hcandidates] at hperm
  have hsorted := (List.pairwise_mergeSort pathLe_trans pathLe_total s.candidates).filter
    (!·.2.isMapped)
  refine hperm.eq_of_pairwise ?_ hsorted (by decide)
  intro a b ha hb hab hba
  -- the labels of the two differ
  rcases List.mem_pair.mp (hperm.mem_iff.mp ha) with rfl | rfl <;>
    rcases List.mem_pair.mp hb with rfl | rfl
  · rfl
  · exact absurd hba (by decide)
  · exact absurd hab (by decide)
  · rfl

/-- Of the usable nodes those are listed that a test on properties keeps. -/
theorem lists_candidates (hd : mapping.distinctKeys = true) (h : ofMapping mapping = .ok s)
    (test : Property → Bool) :
    s.Lists (fun chain p => s.SupportedAlong chain ∧ p.dataType ≠ .object ∧ test p = true)
      ((s.candidates.mergeSort pathLe).filter fun e => test e.2 && e.2.isMapped) := by
  have hnil : (Property.synthetic.map (([] : List String), ·)).filter
      (fun e => test e.2 && e.2.isMapped) = [] := by
    rw [List.filter_eq_nil_iff]
    intro e he
    obtain ⟨p, hp, rfl⟩ := List.mem_map.mp he
    obtain ⟨hmapped, -⟩ := path_of_mem_synthetic hp
    simp [hmapped]
  have hfilter : s.candidates.filter (fun e => test e.2 && e.2.isMapped) =
      s.usable.filter fun e => test e.2 && e.2.isMapped := by
    rw [candidates, List.filter_append, hnil, List.append_nil]
  refine lists_filter_mergeSort s.nodup_candidates ?_ ?_
  · rw [hfilter]
    exact List.filter_sublist.trans List.filter_sublist
  · intro chain p hnode
    rw [hfilter, List.mem_filter, mem_usable_iff, Bool.and_eq_true]
    constructor
    · rintro ⟨⟨-, hsupported, hobject⟩, htest, -⟩
      exact ⟨hsupported, hobject, htest⟩
    · rintro ⟨hsupported, hobject, htest⟩
      have husable : (chain, p) ∈ s.usable := mem_usable_iff.mpr ⟨hnode, hsupported, hobject⟩
      exact ⟨⟨hnode, hsupported, hobject⟩, htest, isMapped_of_mem_usable hd h husable⟩

theorem lists_queryable (hd : mapping.distinctKeys = true) (h : ofMapping mapping = .ok s) :
    ∃ ordinary internal,
      s.queryable = Property.synthetic ++ ordinary.map (·.2) ++ internal.map (·.2) ∧
      s.Lists (fun chain p => s.SupportedAlong chain ∧ p.dataType ≠ .object ∧
        p.path.toList.head? ≠ some '_') ordinary ∧
      s.Lists (fun chain p => s.SupportedAlong chain ∧ p.dataType ≠ .object ∧
        p.path.toList.head? = some '_') internal := by
  have hinternal (p : Property) : isInternal p = true ↔ p.path.toList.head? = some '_' :=
    beq_iff_eq
  have hordinary (p : Property) : (!isInternal p) = true ↔ p.path.toList.head? ≠ some '_' := by
    rw [ne_eq, ← hinternal, Bool.not_eq_true, Bool.not_eq_true']
  have hfirst := lists_candidates hd h (!isInternal ·)
  have hlast := lists_candidates hd h isInternal
  simp only [hordinary] at hfirst
  simp only [hinternal] at hlast
  refine ⟨_, _, ?_, hfirst, hlast⟩
  rw [queryable_eq, unmapped_candidates hd h]
  rfl

end Schema

/-! ## Comparators for what is listed -/

namespace Comparator

theorem mem_forType_iff {c : Comparator} {t : DataType} : c ∈ forType t ↔ c.dataType = t := by
  have hall : c ∈ all := by
    cases c <;> first | decide | (rename_i b; cases b <;> decide)
  rw [forType, List.mem_filter, beq_iff_eq]
  exact and_iff_right hall

/-- Only for objects and for types that are not known there is no comparator. -/
theorem forType_eq_nil_iff {t : DataType} :
    forType t = [] ↔ t = .object ∨ ∃ name, t = .other name := by
  rw [List.eq_nil_iff_forall_not_mem]
  simp only [mem_forType_iff]
  constructor
  · intro h
    cases t with
    | object => exact .inl rfl
    | other name => exact .inr ⟨name, rfl⟩
    | text => exact absurd rfl (h .textContains)
    | number => exact absurd rfl (h (.number .eq))
    | keyword => exact absurd rfl (h .keywordIs)
    | date => exact absurd rfl (h (.date .eq))
    | boolean => exact absurd rfl (h .booleanIs)
    | space => exact absurd rfl (h .spaceIs)
    | anyProperty => exact absurd rfl (h .anyHasPhrase)
  · rintro (rfl | ⟨name, rfl⟩) c hc
    · cases c <;> cases hc
    · cases c <;> cases hc

end Comparator

/-- Where there is a comparator for the type of a property, a new condition gets one of them. -/
theorem Session.exists_newConditionOn (session : Session) (now : Time.Instant) {p : Property}
    (h : Comparator.forType p.dataType ≠ []) : ∃ new, session.newConditionOn now p = some new ∧
      ∀ supply, (new.run supply).1.property? = some p ∧
        ∃ c, (new.run supply).1.comparator? = some c ∧ c.dataType = p.dataType := by
  obtain ⟨c, rest, hcons⟩ := List.exists_cons_of_ne_nil h
  have hmem : c ∈ Comparator.forType p.dataType := hcons ▸ List.mem_cons_self
  refine ⟨session.newCondition now p c, ?_, fun supply => ⟨rfl, c, rfl, ?_⟩⟩
  · rw [newConditionOn, hcons]
    rfl
  · exact Comparator.mem_forType_iff.mp hmem

namespace Schema

variable {mapping : Json} {s : Schema} {p : Property}

theorem forType_ne_nil_of_mem_queryable (hd : mapping.distinctKeys = true)
    (h : ofMapping mapping = .ok s) (hp : p ∈ s.queryable) :
    Comparator.forType p.dataType ≠ [] := by
  obtain ⟨ordinary, internal, hqueryable, hordinary, hinternal⟩ := lists_queryable hd h
  have hlisted : p ∈ Property.synthetic ∨
      ∃ chain, s.SupportedAlong chain ∧ p.dataType ≠ .object ∧
        ∃ below, s.nodes.at? chain = some (p, below) := by
    rw [hqueryable, List.append_assoc, List.mem_append, ← List.map_append] at hp
    rcases hp with hp | hp
    · exact .inl hp
    · obtain ⟨⟨chain, p⟩, hmem, rfl⟩ := List.mem_map.mp hp
      rcases List.mem_append.mp hmem with hmem | hmem
      · obtain ⟨hnode, hsupported, hobject, -⟩ := (hordinary.mem_iff chain p).mp hmem
        exact .inr ⟨chain, hsupported, hobject, hnode⟩
      · obtain ⟨hnode, hsupported, hobject, -⟩ := (hinternal.mem_iff chain p).mp hmem
        exact .inr ⟨chain, hsupported, hobject, hnode⟩
  rw [ne_eq, Comparator.forType_eq_nil_iff, not_or, not_exists]
  rcases hlisted with hp | ⟨chain, hsupported, hobject, below, hnode⟩
  · rcases List.mem_pair.mp hp with rfl | rfl
    · exact ⟨by decide, fun name h => by cases h⟩
    · exact ⟨by decide, fun name h => by cases h⟩
  · exact ⟨hobject, hsupported chain p below (List.prefix_refl chain) hnode⟩

/-! ## Main statement -/

/-- Let the objects of a mapping have distinct keys, as in all that is read from a text. Then
conditions can be about the two properties that no mapping defines, and about those nodes of the
schema that are no objects and along which no type is unknown. They stand in three groups, the nodes
whose paths start with an underscore last. For each of them there is a comparator, and a new
condition gets one for its type. Results can be sorted by the nodes of four types, whatever is above
them. -/
theorem listings_hold_supported_nodes (hd : mapping.distinctKeys = true)
    (h : ofMapping mapping = .ok s) :
    (∃ ordinary internal,
      s.queryable = Property.synthetic ++ ordinary.map (·.2) ++ internal.map (·.2) ∧
      s.Lists (fun chain p => s.SupportedAlong chain ∧ p.dataType ≠ .object ∧
        p.path.toList.head? ≠ some '_') ordinary ∧
      s.Lists (fun chain p => s.SupportedAlong chain ∧ p.dataType ≠ .object ∧
        p.path.toList.head? = some '_') internal) ∧
    (∀ p ∈ s.queryable, Comparator.forType p.dataType ≠ [] ∧
      ∀ (session : Session) (now : Time.Instant), ∃ new,
        session.newConditionOn now p = some new ∧ ∀ supply, (new.run supply).1.property? = some p ∧
          ∃ c, (new.run supply).1.comparator? = some c ∧ c.dataType = p.dataType) ∧
    ∃ listed, s.sortable = listed.map (·.2) ∧
      s.Lists (fun _ p => p.dataType ∈ [.keyword, .boolean, .date, .number]) listed := by
  refine ⟨lists_queryable hd h, ?_, s.lists_sortable⟩
  intro p hp
  have hcomparators := forType_ne_nil_of_mem_queryable hd h hp
  exact ⟨hcomparators, fun session now => session.exists_newConditionOn now hcomparators⟩

/-- Below a type that is not known results can be sorted by a number, but no condition can be about
it. Two nodes with the path `x.y` are both listed, and a date that is called `_a` is in the last
group. -/
theorem listings_hold_supported_nodes_below_unknown_type :
    ∃ (mapping : Json) (s : Schema) (ordinary internal listed : List (List String × Property)),
      mapping.distinctKeys = true ∧ ofMapping mapping = .ok s ∧
      s.queryable = Property.synthetic ++ ordinary.map (·.2) ++ internal.map (·.2) ∧
      s.sortable = listed.map (·.2) ∧
      (["x", "y"], .mapped (some (.mapped none "x" .object false)) "y" .keyword false) ∈ ordinary ∧
      (["x.y"], .mapped none "x.y" .boolean false) ∈ ordinary ∧
      (["_a"], .mapped none "_a" .date false) ∈ internal ∧
      (∀ p, (["b", "c"], p) ∉ ordinary) ∧ (∃ p, (["b", "c"], p) ∈ listed) ∧
      ∀ p ∈ s.queryable, Comparator.forType p.dataType ≠ [] := by
  let object (key : String) (entries : Json.Entries) : String × Json := (key, .obj entries)
  let mapping : Json := .obj [object "mappings" [object "properties"
    [object "x" [object "properties" [object "y" [("type", .str "keyword")]]],
      object "x.y" [("type", .str "boolean")],
      object "b" [("type", .str "geo_point"),
        object "properties" [object "c" [("type", .str "long")]]],
      object "_a" [("type", .str "date")]]]]
  have hd : mapping.distinctKeys = true := by decide
  obtain ⟨s, hs, hnested, hdotted, hinternal, hplain, hunknown, number, below, hnumber, htype⟩ :
      ∃ s, ofMapping mapping = .ok s ∧
        (∃ below, s.nodes.at? ["x", "y"] =
          some (.mapped (some (.mapped none "x" .object false)) "y" .keyword false, below)) ∧
        (∃ below, s.nodes.at? ["x.y"] = some (.mapped none "x.y" .boolean false, below)) ∧
        (∃ below, s.nodes.at? ["_a"] = some (.mapped none "_a" .date false, below)) ∧
        (∀ chain ∈ [["x", "y"], ["x.y"], ["_a"]],
          (s.nodes.lineage chain).all (·.dataType.isSupported) = true) ∧
        (s.nodes.lineage ["b", "c"]).all (·.dataType.isSupported) = false ∧
        ∃ p below, s.nodes.at? ["b", "c"] = some (p, below) ∧ p.dataType = .number :=
    ⟨_, rfl, ⟨_, rfl⟩, ⟨_, rfl⟩, ⟨_, rfl⟩, by decide, by decide, _, _, rfl, rfl⟩
  obtain ⟨⟨ordinary, internal, hqueryable, hordinary, hlast⟩, hconditions, listed, hsortable,
    hlisted⟩ := listings_hold_supported_nodes hd hs
  have hsupported (chain : List String) (hchain : chain ∈ [["x", "y"], ["x.y"], ["_a"]]) :
      s.SupportedAlong chain := (s.supportedAlong_iff chain).mp (hplain chain hchain)
  refine ⟨mapping, s, ordinary, internal, listed, hd, hs, hqueryable, hsortable, ?_, ?_, ?_, ?_, ?_,
    fun p hp => (hconditions p hp).1⟩
  · exact (hordinary.mem_iff _ _).mpr ⟨hnested, hsupported _ (by decide), by decide, by decide⟩
  · exact (hordinary.mem_iff _ _).mpr ⟨hdotted, hsupported _ (by decide), by decide, by decide⟩
  · exact (hlast.mem_iff _ _).mpr ⟨hinternal, hsupported _ (by decide), by decide, by decide⟩
  · intro p hmem
    obtain ⟨-, hsupported, -⟩ := (hordinary.mem_iff _ p).mp hmem
    rw [(s.supportedAlong_iff _).mpr hsupported] at hunknown
    cases hunknown
  · refine ⟨number, (hlisted.mem_iff _ number).mpr ⟨⟨below, hnumber⟩, ?_⟩⟩
    rw [htype]
    decide

end Schema

end SearchComposer
