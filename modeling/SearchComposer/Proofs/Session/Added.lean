import SearchComposer.Proofs.Session.Desk
import SearchComposer.Proofs.Tree.Local

/-!
# Adding a block to a session

A block is added in one of two ways. An operator with room takes it as its last operand. The root
holds one block only; if it holds one already, then an operator can still be added to it, which
takes that block in and comes into its place. The two ways exclude each other, and they are all.
-/

namespace SearchComposer

namespace Tree

variable {t t' : Tree} {loose : List Block} {p x : BlockId} {b main : Block} {o : Operator}

/-- An operator of the tree, the root or one below it, has an id and has room. -/
def HasRoomAt (t : Tree) (p : BlockId) : Prop := ∃ q, t.Has q ∧ q.id = p ∧ q.hasRoom = true

/-- An id is that of the root, which holds a block already, and a block is an operator that has room
for that one. -/
def CanTakeIn (t : Tree) (p : BlockId) (b : Block) : Prop :=
  p = t.root.id ∧ t.root.operands ≠ [] ∧ ∃ o : Operator, b = o.toBlock ∧ o.hasRoom = true

/-- One operator has a block as a further operand, its last one, and the tree is otherwise the same. -/
def Appends (t t' : Tree) (p : BlockId) (b : Block) : Prop :=
  ∃ kind operands, t.root.Regrafted t'.root p kind operands (operands ++ [b])

/-- The root holds an operator instead of the block that it held, and that operator has that block,
as it was, as a further operand, its last one. -/
def TakesIn (t t' : Tree) (b : Block) : Prop :=
  ∃ (main : Block) (o : Operator), t.root.operands = [main] ∧ b = o.toBlock ∧
    t'.root = { t.root with operands := [.operator o.id o.kind (o.operands ++ [main])] }

theorem Spliced.appends {operands : List Block} {moved : List BlockId}
    (h : t.Spliced t' p operands [] [b] [] moved) : t.Appends t' p b := by
  obtain ⟨kind, hgraft⟩ := h.regrafted
  simp only [List.append_nil] at hgraft
  exact ⟨kind, operands, hgraft⟩

namespace Sound

theorem main?_eq_some_iff (h : t.Sound loose) :
    t.main? = some main ↔ t.root.operands = [main] := by
  unfold main?
  rcases h.operands_eq with hops | ⟨c, hops⟩ <;> simp [hops]

/-- A root that holds a block has no room for another. -/
theorem not_hasRoomAt_root (h : t.Sound loose) (hmain : t.root.operands ≠ []) :
    ¬t.HasRoomAt t.root.id := by
  rintro ⟨q, hhas, hid, hroom⟩
  have hfound := (operatorAt?_eq_some_iff h.nodup).mpr ⟨hhas, hid⟩
  have hroot : t.operatorAt? t.root.id = some t.root := if_pos rfl
  rw [hroot] at hfound
  obtain rfl := Option.some.inj hfound
  rcases h.operands_eq with hops | ⟨c, hops⟩
  · exact hmain hops
  · rw [Operator.hasRoom, h.kind_eq, hops] at hroom
    cases hroom

/-- The main block makes place for an operator and becomes an operand of it. -/
theorem take_in (h : t.Sound (o.toBlock :: loose)) (hmain : t.root.operands = [main])
    (hrootless : o.toBlock.hasRoot = false) (hroom : o.hasRoom = true) :
    let first : Tree := { t with root := { t.root with operands := [o.toBlock] } }
    Tree.replace t.root.id main.id o.toBlock t = .ok main first ∧
      Tree.add o.id main first = .ok main.id { t with root :=
        { t.root with operands := [.operator o.id o.kind (o.operands ++ [main])] } } := by
  intro first
  have hreplace : Tree.replace t.root.id main.id o.toBlock t = .ok main first := by
    have hslot : t.root.slot? main.id = some ⟨[], main, []⟩ := by
      simp [Operator.slot?, hmain, Slot.find?]
    refine replace_eq_ok.mpr ⟨hrootless, t.root, _, if_pos rfl, hslot, rfl, ?_⟩
    simp [first, Operator.setOperands, Slot.fill]
  have hne : t.root.id ≠ o.id := by
    intro heq
    have hnodup : (t.root.id :: Block.idsAll [o.toBlock]).Nodup := (h.replace hreplace).nodup
    have hmem : t.root.id ∈ Block.idsAll [o.toBlock] := by
      rw [heq]
      simp [Block.idsAll, Operator.toBlock, Block.ids]
    exact (List.nodup_cons.mp hnodup).1 hmem
  refine ⟨hreplace, (h.add_of_replace hreplace hroom).trans ?_⟩
  simp [first, Operator.setOperands, hne, Block.setOperandsIn, Block.setOperands, Operator.toBlock]

end Sound

end Tree

namespace Session

variable {s s' : Session} {loose : List Block} {p x : BlockId} {b main : Block} {o : Operator}

/-! ## The two ways -/

/-- A block whose conditions are complete is added to the tree, unless it is to be added to a root
that holds a block. -/
theorem add_of_not_full (hb : ∀ c ∈ b.conditions, c.isComplete = true)
    (hp : p = s.tree.root.id → s.tree.root.operands = []) :
    Session.add p b s = onTree (Tree.add p b) s := by
  rw [add_of_complete hb]
  split
  · next main hmain =>
    split
    · next hroot =>
      unfold Tree.main? at hmain
      rw [hp hroot] at hmain
      cases hmain
    · rfl
  · rfl

/-- A block whose conditions are complete has to take in the block that the root holds. -/
theorem Sound.add_of_full (h : s.Sound loose) (hb : ∀ c ∈ b.conditions, c.isComplete = true)
    (hmain : s.tree.root.operands = [main]) :
    Session.add s.tree.root.id b s = wrap s.tree.root.id main b s := by
  rw [add_of_complete hb, h.tree.main?_eq_some_iff.mpr hmain]
  exact if_pos rfl

theorem Sound.wrap_toBlock_eq_ok_iff (h : s.Sound (o.toBlock :: loose))
    (hmain : s.tree.root.operands = [main]) :
    wrap s.tree.root.id main o.toBlock s = .ok x s' ↔
      o.toBlock.hasRoot = false ∧ o.hasRoom = true ∧ x = o.id ∧
        s' = { s with tree := { s.tree with root :=
          { s.tree.root with operands := [.operator o.id o.kind (o.operands ++ [main])] } } } := by
  rw [wrap_eq_ok]
  constructor
  · rintro ⟨hrootless, hroom, hid, out, t, y, t', hreplace, hadd, hs⟩
    obtain ⟨hfirst, hsecond⟩ := h.tree.take_in hmain hrootless hroom
    rw [hreplace] at hfirst
    obtain ⟨rfl, rfl⟩ := EStateM.Result.ok.inj hfirst
    rw [hadd] at hsecond
    obtain ⟨-, rfl⟩ := EStateM.Result.ok.inj hsecond
    exact ⟨hrootless, hroom, hid, hs⟩
  · rintro ⟨hrootless, hroom, hid, hs⟩
    obtain ⟨hfirst, hsecond⟩ := h.tree.take_in hmain hrootless hroom
    exact ⟨hrootless, hroom, hid, main, _, main.id, _, hfirst, hsecond, hs⟩

/-- The block that the root holds is taken in by an operator with room and without a root in it. -/
theorem Sound.wrap_eq_ok_iff (h : s.Sound (b :: loose)) (hmain : s.tree.root.operands = [main]) :
    wrap s.tree.root.id main b s = .ok x s' ↔
      ∃ o : Operator, b = o.toBlock ∧ b.hasRoot = false ∧ o.hasRoom = true ∧ x = b.id ∧
        s' = { s with tree := { s.tree with root :=
          { s.tree.root with operands := [.operator o.id o.kind (o.operands ++ [main])] } } } := by
  cases hb : b.operator? with
  | none =>
    cases b with
    | condition c =>
      rw [wrap_condition]
      constructor
      · intro hok
        cases hok
      · rintro ⟨o, ho, -⟩
        cases ho
    | operator id kind operands => cases hb
  | some o =>
    obtain rfl := Operator.toBlock_eq_of_operator? hb
    rw [h.wrap_toBlock_eq_ok_iff hmain]
    constructor
    · intro hok
      exact ⟨o, rfl, hok⟩
    · rintro ⟨o', ho, hok⟩
      obtain rfl : o = o' := by
        rw [ho] at hb
        exact (Option.some.inj hb).symm
      exact hok

/-! ## All blocks -/

/-- A block is added exactly if its conditions are complete, it has no root in it and one of the two
ways is open. -/
theorem Sound.add_succeeds_iff (h : s.Sound (b :: loose)) (p : BlockId) :
    (∃ y s', Session.add p b s = .ok y s') ↔ (∀ c ∈ b.conditions, c.isComplete = true) ∧
      b.hasRoot = false ∧ (s.tree.HasRoomAt p ∨ s.tree.CanTakeIn p b) := by
  by_cases hb : ∀ c ∈ b.conditions, c.isComplete = true
  · by_cases hplace : p = s.tree.root.id → s.tree.root.operands = []
    · have hplain := (h.tree.addSplices p).1
      rw [add_of_not_full hb hplace]
      simp only [onTree_eq_ok]
      constructor
      · rintro ⟨y, s', t', hok, -⟩
        obtain ⟨hrootless, hroomAt⟩ := hplain.mp ⟨y, t', hok⟩
        exact ⟨hb, hrootless, .inl hroomAt⟩
      · rintro ⟨-, hrootless, hroomAt | ⟨hp, hne, -⟩⟩
        · obtain ⟨y, t', hok⟩ := hplain.mpr ⟨hrootless, hroomAt⟩
          exact ⟨y, _, t', hok, rfl⟩
        · exact absurd (hplace hp) hne
    · obtain ⟨rfl, hne⟩ := Classical.not_imp.mp hplace
      obtain ⟨main, hmain⟩ := h.tree.operands_eq.resolve_left hne
      rw [h.add_of_full hb hmain]
      simp only [h.wrap_eq_ok_iff hmain]
      constructor
      · rintro ⟨y, s', o, ho, hrootless, hroom, -⟩
        exact ⟨hb, hrootless, .inr ⟨rfl, hne, o, ho, hroom⟩⟩
      · rintro ⟨-, hrootless, hroomAt | ⟨-, -, o, ho, hroom⟩⟩
        · exact absurd hroomAt (h.tree.not_hasRoomAt_root hne)
        · exact ⟨_, _, o, ho, hrootless, hroom, rfl, rfl⟩
  · constructor
    · rintro ⟨y, s', hok⟩
      obtain ⟨c, -, -, hrefused⟩ := add_of_incomplete hb p s
      rw [hrefused] at hok
      cases hok
    · rintro ⟨hall, -⟩
      exact absurd hall hb

/-- What becomes of the tree when a block is added. -/
theorem Sound.add_effect (h : s.Sound (b :: loose)) (hok : Session.add p b s = .ok x s') :
    x = b.id ∧ ∃ t', s' = { s with tree := t' } ∧ t'.supply = s.tree.supply ∧
      (s.tree.HasRoomAt p → s.tree.Appends t' p b) ∧
      (s.tree.CanTakeIn p b → s.tree.TakesIn t' b) := by
  obtain ⟨hb, -, -⟩ := (h.add_succeeds_iff p).mp ⟨x, s', hok⟩
  by_cases hplace : p = s.tree.root.id → s.tree.root.operands = []
  · rw [add_of_not_full hb hplace] at hok
    obtain ⟨t', hadd, rfl⟩ := onTree_eq_ok.mp hok
    obtain ⟨hid, hsupply, operands, hspliced⟩ := (h.tree.addSplices p).2 x t' hadd
    refine ⟨hid, t', rfl, hsupply, ?_, ?_⟩
    · intro _
      exact hspliced.appends
    · rintro ⟨hp, hne, -⟩
      exact absurd (hplace hp) hne
  · obtain ⟨rfl, hne⟩ := Classical.not_imp.mp hplace
    obtain ⟨main, hmain⟩ := h.tree.operands_eq.resolve_left hne
    rw [h.add_of_full hb hmain] at hok
    obtain ⟨o, ho, -, -, hid, rfl⟩ := (h.wrap_eq_ok_iff hmain).mp hok
    refine ⟨hid, _, rfl, rfl, ?_, ?_⟩
    · intro hroomAt
      exact absurd hroomAt (h.tree.not_hasRoomAt_root hne)
    · intro _
      exact ⟨main, o, hmain, ho, rfl⟩

namespace Desk

/-- After any moves, a loose block is added exactly if all its conditions are complete, it has no
root in it, and either the operator it is added to has room, or that operator is the root, which
holds a block already, and the loose block is an operator with room. The id of the block is
returned. In the first case the block becomes the last operand of the operator and the tree is
otherwise the same; in the second it becomes the only operand of the root and the block that was
there its last operand. A condition that is not complete is reported before anything else. -/
theorem add_appends_or_takes_in {w : Desk} (hw : w.Reachable) {b : Block} (hb : b ∈ w.loose)
    (p : BlockId) :
    ((∃ y s, Session.add p b w.session = .ok y s) ↔
      (∀ c ∈ b.conditions, c.isComplete = true) ∧ b.hasRoot = false ∧
        (w.session.tree.HasRoomAt p ∨ w.session.tree.CanTakeIn p b)) ∧
    (∀ y s, Session.add p b w.session = .ok y s → y = b.id ∧
      ∃ t, s = { w.session with tree := t } ∧ t.supply = w.session.tree.supply ∧
        (w.session.tree.HasRoomAt p → w.session.tree.Appends t p b) ∧
        (w.session.tree.CanTakeIn p b → w.session.tree.TakesIn t b)) ∧
    ((∃ c ∈ b.conditions, c.isComplete = false) → ∃ c ∈ b.conditions, c.isComplete = false ∧
      Session.add p b w.session = .error (.incomplete c.id) w.session) := by
  obtain ⟨others, h⟩ := Session.Sound.exists_cons hw.sound hb
  refine ⟨h.add_succeeds_iff p, fun y s hok => h.add_effect hok, ?_⟩
  rintro ⟨c, hc, hfalse⟩
  have hnot : ¬∀ c ∈ b.conditions, c.isComplete = true := by
    intro hall
    rw [hall c hc] at hfalse
    cases hfalse
  exact add_of_incomplete hnot p w.session

/-- A root that holds a condition: a loose negation takes the condition in, and a condition without
a comparator is reported although there is no room for it either. -/
theorem add_appends_or_takes_in_under_negation :
    ∃ (w : Desk) (b c : Block) (p : BlockId), w.Reachable ∧ b ∈ w.loose ∧ c ∈ w.loose ∧
      (∃ s, Session.add p b w.session = .ok b.id s ∧
        s.tree.root.toBlock.ids = [⟨4⟩, ⟨2⟩, ⟨1⟩]) ∧
      ¬w.session.tree.HasRoomAt p ∧
      Session.add p c w.session = .error (.incomplete ⟨3⟩) w.session := by
  let crafts : List Craft :=
    [.condition (some (.mapped none "open" .boolean false)) (some .booleanIs) (some (.text "true")),
      .operator .not, .condition none none none]
  let w : Desk := (start .default [] ⟨1⟩ crafts).run [.add ⟨4⟩ ⟨1⟩]
  have hw : w.Reachable := ⟨.default, [], ⟨1⟩, crafts, _, rfl⟩
  have hb : Block.operator ⟨2⟩ .not [] ∈ w.loose := List.mem_cons_of_mem _ List.mem_cons_self
  have hc : Block.condition ⟨⟨3⟩, none, none, none⟩ ∈ w.loose := List.mem_cons_self
  obtain ⟨hiff, heffect, -⟩ := add_appends_or_takes_in hw hb ⟨4⟩
  obtain ⟨-, -, hincomplete⟩ := add_appends_or_takes_in hw hc ⟨4⟩
  have htakes : w.session.tree.CanTakeIn ⟨4⟩ (.operator ⟨2⟩ .not []) :=
    ⟨rfl, List.cons_ne_nil _ _, ⟨⟨2⟩, .not, []⟩, rfl, rfl⟩
  have hcomplete : ∀ c ∈ (Block.operator ⟨2⟩ .not []).conditions, c.isComplete = true := by
    intro c hmem
    cases hmem
  obtain ⟨y, s, hok⟩ := hiff.mpr ⟨hcomplete, rfl, .inr htakes⟩
  obtain ⟨rfl, t, rfl, -, -, heffect⟩ := heffect y s hok
  obtain ⟨main, o, hmain, ho, hroot⟩ := heffect htakes
  obtain ⟨c, hmem, -, hrefused⟩ := hincomplete ⟨_, List.mem_singleton_self _, rfl⟩
  obtain rfl := List.mem_singleton.mp hmem
  have hfull := (show w.Sound from hw.sound).tree.not_hasRoomAt_root (List.cons_ne_nil _ _)
  refine ⟨w, _, _, ⟨4⟩, hw, hb, hc, ⟨_, hok, ?_⟩, hfull, hrefused⟩
  obtain rfl : o = ⟨⟨2⟩, .not, []⟩ := (Option.some.inj (congrArg Block.operator? ho)).symm
  obtain ⟨rfl, -⟩ := List.cons.inj hmain
  rw [hroot]
  rfl

end Desk

end Session

end SearchComposer
