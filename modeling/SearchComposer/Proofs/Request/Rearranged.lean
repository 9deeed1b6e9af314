import SearchComposer.Proofs.Request.Reading
import SearchComposer.Proofs.Tree.Offered

/-!
# Rearranging a composition

A conjunction or a disjunction of one block says what that block says, and a conjunction within a
conjunction says what its operands say there; the same holds of a disjunction that is not empty.
So there are edits that only rearrange a tree: its requests find what they found before. A negation
around a block turns the query in that place around, and no other query but those of the operators
on the way to it.
-/

namespace SearchComposer

namespace Path

/-- Apart from the operators on the way, what is found in a path is found beside it or in the block
at its end. -/
theorem find?_plug_congr {path : Path} {b c : Block} {z : BlockId} (hz : ∀ f ∈ path, f.id ≠ z)
    (h : Block.find? z b = Block.find? z c) :
    Block.find? z (plug path b) = Block.find? z (plug path c) := by
  induction path with
  | nil => exact h
  | cons f fs ih =>
    obtain ⟨hf, hfs⟩ := List.forall_mem_cons.mp hz
    rw [plug, plug, Block.find?, Block.find?, if_neg hf, if_neg hf, Block.findIn?_append,
      Block.findIn?_append, Block.findIn?, Block.findIn?, ih hfs]

/-- Without duplicates, the block at the end of a path is below each operator on the way. -/
theorem ids_subset_of_frame {path : Path} {b c : Block} {f : Frame}
    (hn : (plug path c).ids.Nodup) (hf : f ∈ path)
    (h : Block.find? f.id (plug path c) = some b) : c.ids ⊆ b.ids ∧ f.id ∉ c.ids := by
  obtain ⟨before, after, rfl⟩ := List.append_of_mem hf
  rw [plug_append] at hn h
  have hid : f.id ∈ (plug (f :: after) c).ids := List.mem_cons_self
  have hfound : Block.find? f.id (plug before (plug (f :: after) c)) =
      some (plug (f :: after) c) :=
    find?_plug (b := plug (f :: after) c) (not_mem_of_nodup hn hid).1
  obtain rfl : plug (f :: after) c = b := Option.some.inj (hfound.symm.trans h)
  refine ⟨fun y hy => ?_, fun hmem => ?_⟩
  · rw [ids_plug]
    exact List.mem_append_left _ (List.mem_append_right _ hy)
  · rw [ids_plug] at hn
    have hn' : (plug (f :: after) c).ids.Nodup :=
      (List.nodup_append.mp (List.nodup_append.mp hn).1).2.1
    exact (not_mem_of_nodup hn' hmem).1 List.mem_cons_self

end Path

namespace Tree

variable {α : Type} {t t' : Tree} {loose : List Block} {s : Settings} {p x y : BlockId}
  {q o : Operator} {c : Block} {slot : Slot} {kind : Connective}

/-- Whatever tests a document passes, and however the results are presented, requests of two trees
both find the document or both do not. -/
def FindsAlike (s : Settings) (t t' : Tree) : Prop :=
  ∀ (passed : Test → Bool) (visible? : Option Shape) (ranking : Ranking) (page : Page),
    (Request.of s t'.root visible? ranking page).isMatch passed =
      (Request.of s t.root visible? ranking page).isMatch passed

/-- An edit is made of a tree, and the requests of the tree find the same afterwards. -/
def KeepsMatches (t : Tree) (s : Settings) (e : Edit α) : Prop :=
  ∃ a t', e t = .ok a t' ∧ t.FindsAlike s t'

/-- The query of the block with an id: the root or one below it. -/
def clauseAt? (s : Settings) (t : Tree) (z : BlockId) : Option Clause :=
  (Block.find? z t.root.toBlock).bind (Block.clause? s)

/-- The tree `t'` is the tree `t` but for a negation `y` around the block `x`. -/
structure Negated (s : Settings) (t t' : Tree) (p x y : BlockId) : Prop where
  /-- The negation stands where the block stood. -/
  place : ∃ before c after, c.id = x ∧ t.Spliced t' p before [c] [.operator y .not [c]] after [y]
  /-- The query in that place says the contrary. -/
  contrary : ∃ old new, t.clauseAt? s x = some old ∧ t'.clauseAt? s y = some new ∧
    ∀ passed, new.isMatch passed = !old.isMatch passed
  /-- The block and all blocks that it is not a part of have the queries that they had. -/
  others : ∀ z b, Block.find? z t.root.toBlock = some b → (x ∈ b.ids → z = x) →
    t'.clauseAt? s z = t.clauseAt? s z

/-! ## Readings at a place -/

/-- Below the root of a sound tree, every block has a reading if all conditions are complete. -/
theorem Sound.exists_reading? (h : t.Sound loose)
    (hcomplete : ∀ d ∈ t.conditions, d.isComplete = true) (hheld : t.Holds p x q c)
    (passed : Test → Bool) : ∃ v, c.reading? s passed = some v := by
  have hfind : t.find? x = some c := (find?_eq_some_iff h.nodup).mpr ⟨p, q, hheld⟩
  obtain ⟨b, hb, hc⟩ := Block.findIn?_eq_some hfind
  obtain ⟨-, path, rfl⟩ := Block.find?_eq_some hc
  refine Block.exists_reading? ?_ fun d hd => hcomplete d ?_
  · have hrootless := h.rootless
    rw [Block.anyHasRoot_eq_any, List.any_eq_false] at hrootless
    exact Path.hasRoot_of_plug (Bool.eq_false_iff.mpr (hrootless _ hb))
  · rw [h.conditions_eq]
    refine Block.mem_conditionsAll.mpr ⟨_, hb, ?_⟩
    rw [Path.conditions_plug]
    exact List.mem_append_left _ (List.mem_append_right _ hd)

/-- The block that a tree holds somewhere is in a slot, and has a reading there. -/
theorem Sound.exists_slot_reading (s : Settings) (h : t.Sound loose)
    (hcomplete : ∀ d ∈ t.conditions, d.isComplete = true) (hheld : t.Holds p x q c) :
    ∃ q slot, t.operatorAt? p = some q ∧ q.slot? x = some slot ∧
      ∀ passed, ∃ v, slot.block.reading? s passed = some v := by
  have hreading := h.exists_reading? (s := s) hcomplete hheld
  exact (exists_slot_iff h.nodup
    (P := fun _ c => ∀ passed, ∃ v, c.reading? s passed = some v)).mpr ⟨q, c, hheld, hreading⟩

/-- Filling a slot changes no matches if the operator puts its operands together to the same. -/
theorem findsAlike_fill {new : List Block} (hn : t.root.toBlock.ids.Nodup)
    (hq : t.operatorAt? p = some q) (hslot : q.slot? x = some slot)
    (hroot : t'.root = t.root.setOperands p (slot.fill new))
    (hjoin : ∀ passed, q.kind.join? ((slot.fill new).map (Block.reading? s passed)) =
      q.kind.join? ((slot.fill [slot.block]).map (Block.reading? s passed))) :
    t.FindsAlike s t' := by
  intro passed visible? ranking page
  have hr := Operator.regrafted_setOperands hn hq (slot.fill new)
  rw [← hroot] at hr
  have hfill := (Slot.find?_eq_some hslot).2
  have hjoin' := hjoin passed
  rw [hfill] at hjoin'
  have hreading := hr.reading?_eq hjoin'
  rw [Request.isMatch_of, Request.isMatch_of, hreading]

/-- In particular, the block in the slot can be exchanged for one with the same reading. -/
theorem findsAlike_fill_single {b : Block} (hn : t.root.toBlock.ids.Nodup)
    (hq : t.operatorAt? p = some q) (hslot : q.slot? x = some slot)
    (hroot : t'.root = t.root.setOperands p (slot.fill [b]))
    (hb : ∀ passed, b.reading? s passed = slot.block.reading? s passed) : t.FindsAlike s t' := by
  refine findsAlike_fill hn hq hslot hroot fun passed => ?_
  simp only [Slot.fill, List.map_append, List.map_cons, List.map_nil, hb passed]

/-- A conjunction or a disjunction of one block reads as that block. -/
theorem reading?_single {b : Block} {passed : Test → Bool} (id : BlockId)
    (hkind : kind = .and ∨ kind = .or) (hb : ∃ v, b.reading? s passed = some v) :
    (Block.operator id kind [b]).reading? s passed = b.reading? s passed := by
  obtain ⟨v, hv⟩ := hb
  rw [Block.reading?_operator, List.map_singleton, hv, Connective.join?_single hkind]

/-! ## Edits that only rearrange -/

namespace Sound

theorem exists_reading?_operand {b : Block} (h : t.Sound loose)
    (hcomplete : ∀ d ∈ t.conditions, d.isComplete = true) (hheld : t.Holds p x q o.toBlock)
    (hb : b ∈ o.operands) (passed : Test → Bool) : ∃ v, b.reading? s passed = some v := by
  have hfound : t.operatorAt? x = some o := operatorAt?_of_holds h.nodup hheld
  obtain ⟨hhas, hid⟩ := (operatorAt?_eq_some_iff h.nodup).mp hfound
  have hoperand : t.Holds x b.id o b := ⟨hhas, hid, hb, rfl⟩
  exact h.exists_reading? hcomplete hoperand passed

theorem surround_keepsMatches (h : t.Sound loose)
    (hcomplete : ∀ d ∈ t.conditions, d.isComplete = true) (hheld : t.Holds p x q c)
    (hkind : kind = .and ∨ kind = .or) :
    t.KeepsMatches s (Tree.surround x p kind) := by
  obtain ⟨q, slot, hq, hslot, hreading⟩ := h.exists_slot_reading s hcomplete hheld
  have hroot : kind ≠ .root := by rcases hkind with rfl | rfl <;> decide
  refine ⟨_, _, surround_eq_ok.mpr ⟨hroot, q, slot, hq, hslot, rfl, rfl⟩, ?_⟩
  refine findsAlike_fill_single h.nodup hq hslot rfl fun passed => ?_
  exact reading?_single _ hkind (hreading passed)

theorem change_keepsMatches {b : Block} (h : t.Sound loose)
    (hcomplete : ∀ d ∈ t.conditions, d.isComplete = true) (hheld : t.Holds p x q o.toBlock)
    (hops : o.operands = [b]) (hold : o.kind = .and ∨ o.kind = .or)
    (hkind : kind = .and ∨ kind = .or) : t.KeepsMatches s (Tree.change x p kind) := by
  have hreading : ∀ passed, ∃ v, b.reading? s passed = some v :=
    h.exists_reading?_operand hcomplete hheld (hops ▸ List.mem_singleton_self b)
  obtain ⟨q, slot, o, hq, hslot, ho, hops, hold⟩ := (exists_operator_slot_iff h.nodup
    (P := fun _ o => o.operands = [b] ∧ (o.kind = .and ∨ o.kind = .or))).mpr
      ⟨q, o, hheld, hops, hold⟩
  have hroot : kind ≠ .root := by rcases hkind with rfl | rfl <;> decide
  have hfits : kind.fits o.operands.length = true := by rcases hkind with rfl | rfl <;> rfl
  refine ⟨_, _, change_eq_ok.mpr ⟨hroot, q, slot, o, hq, hslot, ho, hfits, rfl, rfl⟩, ?_⟩
  refine findsAlike_fill_single h.nodup hq hslot rfl fun passed => ?_
  rw [ho, Operator.toBlock, hops, reading?_single _ hkind (hreading passed),
    reading?_single _ hold (hreading passed)]

/-- Flattening changes no matches if the holder puts the operands together to what it did with the
operator in their place. -/
theorem flatten_keepsMatches (h : t.Sound loose) (hheld : t.Holds p x q o.toBlock)
    (hroom : o.operands = [] ∨ q.kind.fits (q.operands.length - 1 + o.operands.length) = true)
    (hjoin : ∀ (before after : List (Option Bool)) (passed : Test → Bool),
      q.kind.join? (before ++ o.operands.map (Block.reading? s passed) ++ after) =
        q.kind.join? (before ++ [o.toBlock.reading? s passed] ++ after)) :
    t.KeepsMatches s (Tree.flatten x p) := by
  obtain ⟨q, slot, o, hq, hslot, ho, hroom, hjoin⟩ := (exists_operator_slot_iff h.nodup
    (P := fun q o => canSplice q o = true ∧ ∀ before after passed,
      q.kind.join? (before ++ o.operands.map (Block.reading? s passed) ++ after) =
        q.kind.join? (before ++ [o.toBlock.reading? s passed] ++ after))).mpr
      ⟨q, o, hheld, canSplice_eq_true.mpr hroom, hjoin⟩
  refine ⟨(), _, flatten_eq_ok.mpr ⟨q, slot, o, hq, hslot, ho, hroom, rfl⟩, ?_⟩
  refine findsAlike_fill h.nodup hq hslot rfl fun passed => ?_
  simp only [Slot.fill, List.map_append, List.map_cons, List.map_nil, ho]
  exact hjoin _ _ passed

theorem flatten_single_keepsMatches {b : Block} (h : t.Sound loose)
    (hcomplete : ∀ d ∈ t.conditions, d.isComplete = true) (hheld : t.Holds p x q o.toBlock)
    (hops : o.operands = [b]) (hkind : o.kind = .and ∨ o.kind = .or) :
    t.KeepsMatches s (Tree.flatten x p) := by
  refine h.flatten_keepsMatches hheld (.inr ?_) fun before after passed => ?_
  · -- one operand takes the place of the operator, so the holder has as many as before
    obtain ⟨hhas, hid, hmem, -⟩ := hheld
    have hq : t.operatorAt? p = some q := (operatorAt?_eq_some_iff h.nodup).mpr ⟨hhas, hid⟩
    have hpos : 0 < q.operands.length := List.length_pos_of_mem hmem
    have hlength : q.operands.length - 1 + o.operands.length = q.operands.length := by
      rw [hops, List.length_singleton]
      omega
    rw [hlength]
    exact ((Operator.regrafted_setOperands h.nodup hq []).old_keepLimits h.keepsLimits).1
  · have hreading : ∃ v, b.reading? s passed = some v :=
      h.exists_reading?_operand hcomplete hheld (hops ▸ List.mem_singleton_self b) passed
    rw [Operator.toBlock, hops, reading?_single _ hkind hreading, List.map_singleton]

theorem flatten_conjunction_keepsMatches (h : t.Sound loose) (hheld : t.Holds p x q o.toBlock)
    (ho : o.kind = .and) (hq : q.kind = .and) : t.KeepsMatches s (Tree.flatten x p) := by
  refine h.flatten_keepsMatches hheld (.inr (by rw [hq]; rfl)) fun before after passed => ?_
  rw [Operator.toBlock, Block.reading?_operator, ho, hq, Connective.join?_and_flatten]

theorem flatten_disjunction_keepsMatches (h : t.Sound loose)
    (hcomplete : ∀ d ∈ t.conditions, d.isComplete = true) (hheld : t.Holds p x q o.toBlock)
    (hops : o.operands ≠ []) (ho : o.kind = .or) (hq : q.kind = .or) :
    t.KeepsMatches s (Tree.flatten x p) := by
  refine h.flatten_keepsMatches hheld (.inr (by rw [hq]; rfl)) fun before after passed => ?_
  obtain ⟨b, hb⟩ := List.exists_mem_of_ne_nil _ hops
  obtain ⟨v, hv⟩ := h.exists_reading?_operand (s := s) hcomplete hheld hb passed
  have hsays : (o.operands.map (Block.reading? s passed)).reduceOption ≠ [] := by
    refine List.ne_nil_of_mem (a := v) (List.reduceOption_mem_iff.mpr ?_)
    exact List.mem_map.mpr ⟨b, hb, hv⟩
  rw [Operator.toBlock, Block.reading?_operator, ho, hq, Connective.join?_or_flatten hsays]

end Sound

/-! ## Negations -/

theorem clauseAt?_of_plug {path : Path} {b : Block} (hn : t.root.toBlock.ids.Nodup)
    (hpath : t.root.toBlock = Path.plug path b) : t.clauseAt? s b.id = b.clause? s := by
  have hbefore := (Path.not_mem_of_nodup (hpath ▸ hn) (Block.id_mem_ids b)).1
  rw [clauseAt?, hpath, Path.find?_plug hbefore, Option.bind_some]

/-- If a new operator holds the block at the end of a path, the blocks that do not have that block
below them are found as before. -/
theorem find?_plug_operator {path : Path} {z : BlockId} {b : Block}
    (hn : (Path.plug path c).ids.Nodup) (hy : y ∉ (Path.plug path c).ids)
    (hz : Block.find? z (Path.plug path c) = some b) (hbelow : c.id ∈ b.ids → z = c.id) :
    Block.find? z (Path.plug path (.operator y kind [c])) = some b := by
  obtain ⟨hid, init, hinit⟩ := Block.find?_eq_some hz
  have hmem : z ∈ (Path.plug path c).ids := by
    rw [hinit, Path.ids_plug, ← hid]
    simp [Block.id_mem_ids]
  have hne : y ≠ z := fun he => hy (he ▸ hmem)
  have hway : ∀ f ∈ path, f.id ≠ z := by
    rintro f hf rfl
    obtain ⟨hbelow', hnot⟩ := Path.ids_subset_of_frame hn hf hz
    have hc := hbelow (hbelow' (Block.id_mem_ids c))
    exact hnot (hc ▸ Block.id_mem_ids c)
  rw [← hz]
  refine Path.find?_plug_congr hway ?_
  simp [Block.find?, Block.findIn?, hne]

/-- A negation around a block says the contrary, and only the operators on the way to it change
their queries. -/
theorem Sound.surround_negates (h : t.Sound loose)
    (hcomplete : ∀ d ∈ t.conditions, d.isComplete = true) (hheld : t.Holds p x q c) :
    ∃ y t', Tree.surround x p .not t = .ok y t' ∧ t.Negated s t' p x y := by
  obtain ⟨q, slot, hq, hslot, hreading⟩ := h.exists_slot_reading s hcomplete hheld
  obtain ⟨-, hx⟩ := block_mem_of_slot? hslot
  have hroot : Connective.not ≠ .root := by decide
  have hok := surround_eq_ok.mpr ⟨hroot, q, slot, hq, hslot, rfl, rfl⟩
  obtain ⟨hfresh, -, hplace⟩ := (h.surroundSplices x p .not).2 _ _ hok
  have hn' := (h.surround hok).nodup
  obtain ⟨path, hpath, hpath'⟩ := exists_path_fill h.nodup hq hslot
    (.operator ⟨t.supply.next⟩ .not [slot.block])
  refine ⟨_, _, hok, hplace, ?_, fun z b hz hbelow => ?_⟩
  · obtain ⟨v, hv⟩ := hreading fun _ => true
    obtain ⟨old, hold, -⟩ := Option.map_eq_some_iff.mp hv
    refine ⟨old, .mustNot [old], ?_, ?_, fun passed => ?_⟩
    · rw [← hx, clauseAt?_of_plug h.nodup hpath, hold]
    · refine (clauseAt?_of_plug hn' hpath').trans ?_
      rw [Block.clause?, Block.clauses, hold, Block.clauses]
    · simp [Clause.isMatch, Clause.anyMatch]
  · have hy : (⟨t.supply.next⟩ : BlockId) ∉ t.root.toBlock.ids :=
      fun hmem => hfresh (List.mem_append_left _ hmem)
    have hfound : Block.find? z (Path.plug path (.operator ⟨t.supply.next⟩ .not [slot.block])) =
        some b :=
      find?_plug_operator (hpath ▸ h.nodup) (hpath ▸ hy) (hpath ▸ hz) (hx ▸ hbelow)
    rw [clauseAt?, clauseAt?, hpath', hfound, hz]

/-! ## All edits -/

/-- Let all conditions of a sound tree be complete. A conjunction or a disjunction put around a
block changes no matches. Nor does it to make the one of the other, or to flatten one of them, if it
holds one block. An operator can be flattened into one of its kind, both conjunctions or both
disjunctions, if there is a block in it, and an empty conjunction into a conjunction. A negation put
around a block turns its query around and leaves those beside the way to it as they were. -/
theorem rearranging_keeps_matches (h : t.Sound loose)
    (hcomplete : ∀ d ∈ t.conditions, d.isComplete = true) (s : Settings) :
    (∀ p x q c kind, t.Holds p x q c → kind = .and ∨ kind = .or →
      t.KeepsMatches s (surround x p kind)) ∧
    (∀ p x q, ∀ o : Operator, ∀ b kind, t.Holds p x q o.toBlock → o.operands = [b] →
      o.kind = .and ∨ o.kind = .or → kind = .and ∨ kind = .or →
      t.KeepsMatches s (change x p kind)) ∧
    (∀ p x q, ∀ o : Operator, ∀ b, t.Holds p x q o.toBlock → o.operands = [b] →
      o.kind = .and ∨ o.kind = .or → t.KeepsMatches s (flatten x p)) ∧
    (∀ p x q, ∀ o : Operator, t.Holds p x q o.toBlock → o.operands ≠ [] →
      o.kind = .and ∧ q.kind = .and ∨ o.kind = .or ∧ q.kind = .or →
      t.KeepsMatches s (flatten x p)) ∧
    (∀ p x q, ∀ o : Operator, t.Holds p x q o.toBlock → o.operands = [] → o.kind = .and →
      q.kind = .and → t.KeepsMatches s (flatten x p)) ∧
    ∀ p x q c, t.Holds p x q c →
      ∃ y t', surround x p .not t = .ok y t' ∧ t.Negated s t' p x y := by
  refine ⟨?_, ?_, ?_, ?_, ?_, ?_⟩
  · intro p x q c kind hheld hkind
    exact h.surround_keepsMatches hcomplete hheld hkind
  · intro p x q o b kind hheld hops hold hkind
    exact h.change_keepsMatches hcomplete hheld hops hold hkind
  · intro p x q o b hheld hops hkind
    exact h.flatten_single_keepsMatches hcomplete hheld hops hkind
  · rintro p x q o hheld hops (⟨ho, hq⟩ | ⟨ho, hq⟩)
    · exact h.flatten_conjunction_keepsMatches hheld ho hq
    · exact h.flatten_disjunction_keepsMatches hcomplete hheld hops ho hq
  · rintro p x q o hheld - ho hq
    exact h.flatten_conjunction_keepsMatches hheld ho hq
  · intro p x q c hheld
    exact h.surround_negates hcomplete hheld

/-- A disjunction of one condition in a conjunction can be flattened and made a conjunction, and a
negation around that condition turns its query around. -/
theorem rearranging_keeps_matches_of_joined_conditions :
    ∃ w : Session.Desk, w.Reachable ∧
      w.session.tree.root.toBlock.ids = [⟨5⟩, ⟨4⟩, ⟨3⟩, ⟨1⟩, ⟨2⟩] ∧
      w.session.tree.KeepsMatches .default (surround ⟨2⟩ ⟨4⟩ .or) ∧
      w.session.tree.KeepsMatches .default (change ⟨3⟩ ⟨4⟩ .and) ∧
      w.session.tree.KeepsMatches .default (flatten ⟨3⟩ ⟨4⟩) ∧
      ∃ y t', surround ⟨1⟩ ⟨3⟩ .not w.session.tree = .ok y t' ∧
        w.session.tree.Negated .default t' ⟨3⟩ ⟨1⟩ y := by
  let first : Block := .condition ⟨⟨1⟩, some (.mapped none "open" .boolean false), some .booleanIs,
    some (.text "true")⟩
  let second : Block := .condition ⟨⟨2⟩, some .space, some .spaceIs, some (.space ⟨"s1", "Space"⟩)⟩
  let disjunction : Operator := ⟨⟨3⟩, .or, [first]⟩
  let conjunction : Operator := ⟨⟨4⟩, .and, [disjunction.toBlock, second]⟩
  let w : Session.Desk := (Session.Desk.start .default [] ⟨1⟩
    [.condition (some (.mapped none "open" .boolean false)) (some .booleanIs) (some (.text "true")),
      .condition (some .space) (some .spaceIs) (some (.space ⟨"s1", "Space"⟩)),
      .join .or [⟨1⟩], .join .and [⟨3⟩, ⟨2⟩]]).run [.add ⟨5⟩ ⟨4⟩]
  have hw : w.Reachable := ⟨_, _, _, _, _, rfl⟩
  have hsound := hw.sound
  have hinner : w.session.tree.Holds ⟨4⟩ ⟨3⟩ conjunction disjunction.toBlock :=
    ⟨⟨[⟨⟨5⟩, .root, [], []⟩], rfl⟩, rfl, List.mem_cons_self, rfl⟩
  have hlast : w.session.tree.Holds ⟨4⟩ ⟨2⟩ conjunction second :=
    ⟨⟨[⟨⟨5⟩, .root, [], []⟩], rfl⟩, rfl, List.mem_cons_of_mem _ List.mem_cons_self, rfl⟩
  have hfirst : w.session.tree.Holds ⟨3⟩ ⟨1⟩ disjunction first :=
    ⟨⟨[⟨⟨5⟩, .root, [], []⟩, ⟨⟨4⟩, .and, [], [second]⟩], rfl⟩, rfl, List.mem_cons_self, rfl⟩
  obtain ⟨hsurround, hchange, hflatten, -, -, hnot⟩ :=
    rearranging_keeps_matches hsound.tree hsound.complete .default
  exact ⟨_, hw, rfl, hsurround _ _ _ _ _ hlast (.inr rfl),
    hchange _ _ _ _ _ _ hinner rfl (.inr rfl) (.inl rfl),
    hflatten _ _ _ _ _ hinner rfl (.inr rfl), hnot _ _ _ _ hfirst⟩

end Tree

end SearchComposer
