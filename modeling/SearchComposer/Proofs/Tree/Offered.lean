import SearchComposer.Proofs.Block.Place
import SearchComposer.Proofs.Tree.Local

/-!
# What is offered can be done

Before an edit is offered, the tree is asked whether it can be made: whether an operator has room,
whether an operator can be dissolved, which kinds it can be changed to. These questions look up other
things than the edits do, the holder of a block in particular, and the answers are those that the
edits would give.
-/

namespace SearchComposer.Tree

open Block (idsAll)

variable {t t' : Tree} {p p' x : BlockId} {c : Block} {q o : Operator}

/-! ## Holders of blocks -/

/-- A block that an operator holds is at the end of a path on which that operator is the last. -/
theorem exists_holds_iff : (∃ q, t.Holds p x q c) ↔
    c.id = x ∧ ∃ path f, Frame.id f = p ∧ t.root.toBlock = Path.plug (path ++ [f]) c :=
  Operator.exists_holder_iff

/-- Without duplicates, the block that is found is the one that some operator holds. -/
theorem find?_eq_some_iff (hn : t.root.toBlock.ids.Nodup) :
    t.find? x = some c ↔ ∃ p q, t.Holds p x q c := by
  rw [find?, Operator.find?_eq_some_iff hn, Operator.hasBelow_iff]
  constructor
  · rintro ⟨⟨q, hq, hmem⟩, hx⟩
    exact ⟨q.id, q, hq, rfl, hmem, hx⟩
  · rintro ⟨-, q, hq, -, hmem, hx⟩
    exact ⟨⟨q, hq, hmem⟩, hx⟩

/-- The block in a slot is found under its id. -/
theorem find?_of_slot {s : Slot} (hn : t.root.toBlock.ids.Nodup) (hq : t.operatorAt? p = some q)
    (hs : q.slot? x = some s) : t.find? x = some s.block := by
  obtain ⟨q', c, hheld, rfl⟩ := (exists_slot_iff hn (P := fun _ c => c = s.block)).mp
    ⟨q, s, hq, hs, rfl⟩
  exact (find?_eq_some_iff hn).mpr ⟨p, q', hheld⟩

/-- The block that comes out when it is replaced is the one with the id. -/
theorem find?_of_replace {b out : Block} (hn : t.root.toBlock.ids.Nodup)
    (hok : replace p x b t = .ok out t') : t.find? x = some out := by
  obtain ⟨-, q, s, hq, hs, rfl, -⟩ := replace_eq_ok.mp hok
  exact find?_of_slot hn hq hs

theorem find?_of_remove {out : Block} (hn : t.root.toBlock.ids.Nodup)
    (hok : remove p x t = .ok out t') : t.find? x = some out := by
  obtain ⟨q, s, hq, hs, rfl, -⟩ := remove_eq_ok.mp hok
  exact find?_of_slot hn hq hs

/-- Without duplicates, the holder that is found is the operator that holds the block. -/
theorem holder?_eq_some_iff (hn : t.root.toBlock.ids.Nodup) :
    t.holder? x = some p ↔ ∃ q c, t.Holds p x q c :=
  Operator.holder?_eq_some_iff hn

/-- Every block below the root is held by some operator. -/
theorem exists_holds (hx : x ∈ idsAll t.root.operands) : ∃ p q c, t.Holds p x q c := by
  obtain ⟨c, hbelow, hid⟩ := Operator.mem_idsAll_operands.mp hx
  obtain ⟨q, hq, hmem⟩ := Operator.hasBelow_iff.mp hbelow
  exact ⟨q.id, q, c, hq, rfl, hmem, hid⟩

/-- An operator that is found is one that some operator holds, or it is the root. -/
theorem operatorAt?_of_holds (hn : t.root.toBlock.ids.Nodup) (h : t.Holds p x q o.toBlock) :
    t.operatorAt? x = some o := by
  obtain ⟨rfl, path, f, -, hroot⟩ := exists_holds_iff.mp ⟨q, h⟩
  exact Operator.operatorAt?_of_plug hn hroot

/-! ## Answers -/

theorem canAdd_iff {b : Block} (hb : b.hasRoot = false) :
    t.canAdd p = true ↔ ∃ y t', add p b t = .ok y t' := by
  simp only [add_eq_ok, hb, true_and]
  unfold canAdd
  cases hq : t.operatorAt? p with
  | none => simp
  | some q =>
    simp only [Option.map_some, Option.getD_some, Option.some.injEq]
    constructor
    · exact fun hroom => ⟨_, _, q, rfl, hroom, rfl, rfl⟩
    · rintro ⟨_, _, _, rfl, hroom, -⟩
      exact hroom

theorem canFlatten_iff_of_holder :
    t.canFlatten x = true ↔ ∃ p, t.holder? x = some p ∧ ∃ t', flatten x p t = .ok () t' := by
  unfold canFlatten
  cases hp : t.holder? x with
  | none => simp
  | some p =>
    simp only [Option.map_some, Option.some.injEq, exists_eq_left', flatten_eq_ok]
    cases hslot : t.operatorSlotAt p x with
    | error e =>
      simp only [Bool.false_eq_true, false_iff]
      rintro ⟨t', q, s, o, hq, hs, ho, -, -⟩
      rw [operatorSlotAt_eq_ok.mpr ⟨hq, hs, ho⟩] at hslot
      cases hslot
    | ok found =>
      obtain ⟨q, s, o⟩ := found
      obtain ⟨hq, hs, ho⟩ := operatorSlotAt_eq_ok.mp hslot
      constructor
      · exact fun hsplice => ⟨_, q, s, o, hq, hs, ho, hsplice, rfl⟩
      · rintro ⟨t', q', s', o', hq', hs', ho', hsplice, -⟩
        have hslot' := operatorSlotAt_eq_ok.mpr ⟨hq', hs', ho'⟩
        rw [hslot] at hslot'
        cases hslot'
        exact hsplice

theorem mem_allowedChanges {kind : Connective} : kind ∈ t.allowedChanges x ↔
    ∃ o : Operator, t.find? x = some o.toBlock ∧ (kind = .and ∨ kind = .or ∨ kind = .not) ∧
      kind ≠ o.kind ∧ kind.fits o.operands.length = true := by
  unfold allowedChanges
  cases hb : t.find? x with
  | none => simp
  | some b =>
    cases ho : b.operator? with
    | none =>
      simp only [Option.bind_some, ho, List.not_mem_nil, Option.some.injEq, false_iff]
      rintro ⟨o, rfl, -⟩
      cases ho
    | some o =>
      have hblock := Operator.toBlock_eq_of_operator? ho
      simp only [Option.bind_some, ho, List.mem_filter, Connective.selectable, List.mem_cons,
        List.not_mem_nil, or_false, Bool.and_eq_true, bne_iff_ne, ne_eq, Option.some.injEq]
      constructor
      · rintro ⟨hkind, hne, hfits⟩
        exact ⟨o, hblock, hkind, hne, hfits⟩
      · rintro ⟨o', hblock', hkind, hne, hfits⟩
        obtain rfl : o = o' := by
          rw [hblock', Block.operator?_toBlock] at ho
          exact (Option.some.inj ho).symm
        exact ⟨hkind, hne, hfits⟩

namespace Sound

variable {loose : List Block}

theorem holder?_of_flatten (h : t.Sound loose) (hok : Tree.flatten x p t = .ok () t') :
    t.holder? x = some p := by
  obtain ⟨q, o, hheld, -⟩ := (h.flattenSplices x p).1.mp ⟨(), t', hok⟩
  exact (holder?_eq_some_iff h.nodup).mpr ⟨q, o.toBlock, hheld⟩

theorem canFlatten_iff (h : t.Sound loose) :
    t.canFlatten x = true ↔ ∃ p t', Tree.flatten x p t = .ok () t' := by
  rw [canFlatten_iff_of_holder]
  constructor
  · rintro ⟨p, -, t', hok⟩
    exact ⟨p, t', hok⟩
  · rintro ⟨p, t', hok⟩
    exact ⟨p, h.holder?_of_flatten hok, t', hok⟩

theorem mem_allowedChanges_iff (h : t.Sound loose) {kind : Connective} :
    kind ∈ t.allowedChanges x ↔ (kind = .and ∨ kind = .or ∨ kind = .not) ∧
      (t.operatorAt? x).map (·.kind) ≠ some kind ∧
      ∃ p y t', t.holder? x = some p ∧ Tree.change x p kind t = .ok y t' := by
  rw [mem_allowedChanges]
  constructor
  · rintro ⟨o, hfind, hkind, hne, hfits⟩
    obtain ⟨p, q, hheld⟩ := (find?_eq_some_iff h.nodup).mp hfind
    have hroot : kind ≠ .root := by rintro rfl; simp at hkind
    obtain ⟨y, t', hok⟩ := (h.changeSplices x p kind).1.mpr ⟨hroot, q, o, hheld, hfits⟩
    refine ⟨hkind, ?_, p, y, t', (holder?_eq_some_iff h.nodup).mpr ⟨q, _, hheld⟩, hok⟩
    rw [operatorAt?_of_holds h.nodup hheld, Option.map_some]
    exact fun heq => hne (Option.some.inj heq).symm
  · rintro ⟨hkind, hne, p, y, t', -, hok⟩
    obtain ⟨-, q, o, hheld, hfits⟩ := (h.changeSplices x p kind).1.mp ⟨y, t', hok⟩
    rw [operatorAt?_of_holds h.nodup hheld, Option.map_some] at hne
    exact ⟨o, (find?_eq_some_iff h.nodup).mpr ⟨p, q, hheld⟩, hkind,
      fun heq => hne (congrArg some heq.symm), hfits⟩

theorem exists_surround (h : t.Sound loose) (hx : x ∈ idsAll t.root.operands) {kind : Connective}
    (hkind : kind ≠ .root) :
    ∃ p y t', t.holder? x = some p ∧ Tree.surround x p kind t = .ok y t' := by
  obtain ⟨p, q, c, hheld⟩ := exists_holds hx
  obtain ⟨y, t', hok⟩ := (h.surroundSplices x p kind).1.mpr ⟨hkind, q, c, hheld⟩
  exact ⟨p, y, t', (holder?_eq_some_iff h.nodup).mpr ⟨q, c, hheld⟩, hok⟩

end Sound

namespace Bench

/-- After any moves, a block without a root can be added to an operator exactly if the tree says
that it has room. An operator can be flattened exactly if the tree says so, and then into its holder
only. The kinds that an operator can be changed to are those that the tree lists, and the one it has.
Every block but the root can be surrounded with any kind but that of the root. -/
theorem offers_agree_with_edits {w : Bench} (hw : w.Reachable) :
    (∀ p b, b.hasRoot = false →
      (w.tree.canAdd p = true ↔ ∃ y t', Tree.add p b w.tree = .ok y t')) ∧
    (∀ x, w.tree.canFlatten x = true ↔ ∃ p t', Tree.flatten x p w.tree = .ok () t') ∧
    (∀ x p t', Tree.flatten x p w.tree = .ok () t' → w.tree.holder? x = some p) ∧
    (∀ x kind, kind ∈ w.tree.allowedChanges x ↔ (kind = .and ∨ kind = .or ∨ kind = .not) ∧
      (w.tree.operatorAt? x).map (·.kind) ≠ some kind ∧
      ∃ p y t', w.tree.holder? x = some p ∧ Tree.change x p kind w.tree = .ok y t') ∧
    ∀ x ∈ idsAll w.tree.root.operands, ∀ kind, kind ≠ .root →
      ∃ p y t', w.tree.holder? x = some p ∧ Tree.surround x p kind w.tree = .ok y t' := by
  have h : w.tree.Sound w.loose := hw.sound
  refine ⟨fun p b hb => canAdd_iff hb, fun x => h.canFlatten_iff, ?_, ?_, ?_⟩
  · intro x p t' hok
    exact h.holder?_of_flatten hok
  · intro x kind
    exact h.mem_allowedChanges_iff
  · intro x hx kind hkind
    exact h.exists_surround hx hkind

/-- A conjunction of two conditions below a negation takes a further condition and can become a
disjunction, but it cannot be dissolved, because the negation has room for one operand only. -/
theorem offers_agree_with_edits_below_negation :
    ∃ w : Bench, w.Reachable ∧ w.tree.root.toBlock.ids = [⟨5⟩, ⟨4⟩, ⟨3⟩, ⟨1⟩, ⟨2⟩] ∧
      (∃ y t', Tree.add ⟨3⟩ (.condition ⟨⟨9⟩, none, none, none⟩) w.tree = .ok y t') ∧
      (¬∃ p t', Tree.flatten ⟨3⟩ p w.tree = .ok () t') ∧
      (∃ p t', Tree.flatten ⟨4⟩ p w.tree = .ok () t') ∧
      (∃ p y t', w.tree.holder? ⟨3⟩ = some p ∧ Tree.change ⟨3⟩ p .or w.tree = .ok y t') ∧
      ∃ p y t', w.tree.holder? ⟨2⟩ = some p ∧ Tree.surround ⟨2⟩ p .not w.tree = .ok y t' := by
  let blank (n : Nat) : Block := .condition ⟨⟨n⟩, none, none, none⟩
  let conjunction : Block := .operator ⟨3⟩ .and [blank 1, blank 2]
  let tree : Tree := ⟨⟨⟨5⟩, .root, [.operator ⟨4⟩ .not [conjunction]]⟩, ⟨6⟩⟩
  have hw : Reachable ⟨tree, []⟩ :=
    ⟨⟨1⟩, [.condition none none none, .condition none none none, .join .and [⟨1⟩, ⟨2⟩],
      .join .not [⟨3⟩]], [.add ⟨5⟩ ⟨4⟩], rfl⟩
  obtain ⟨hadd, hflatten, -, hchange, hsurround⟩ := offers_agree_with_edits hw
  refine ⟨_, hw, rfl, (hadd ⟨3⟩ _ rfl).mp rfl, fun hok => ?_, (hflatten ⟨4⟩).mp rfl, ?_, ?_⟩
  · have hfalse : tree.canFlatten ⟨3⟩ = true := (hflatten ⟨3⟩).mpr hok
    cases hfalse
  · have hor : Connective.or ∈ tree.allowedChanges ⟨3⟩ := List.mem_cons_self
    exact ((hchange ⟨3⟩ .or).mp hor).2.2
  · have hmem : (⟨2⟩ : BlockId) ∈ idsAll tree.root.operands := by decide
    exact hsurround ⟨2⟩ hmem .not (by decide)

end Bench

end SearchComposer.Tree
