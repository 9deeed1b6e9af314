import SearchComposer.Proofs.Tree.Bench
import SearchComposer.Proofs.Tree.Spliced

/-!
# Edits of a tree are local

For each edit of a tree: the exact condition under which it is made, and what it does then. What it
does is always to splice the tree, that is, to put some blocks in the place of others among the
operands of one operator; nothing else changes. Edits find that operator and the operand by their
ids, so both statements need that no id is used twice.
-/

namespace SearchComposer.Tree

open Block (idsAll findIn? face)

/-- An edit is made of a tree exactly under a condition, and then it has an effect. -/
def Does {α : Type} (e : Edit α) (t : Tree) (condition : Prop) (effect : α → Tree → Prop) : Prop :=
  ((∃ a t', e t = .ok a t') ↔ condition) ∧ ∀ a t', e t = .ok a t' → effect a t'

/-- The operator `q` of a tree has the id `p`, and the block `c` with the id `x` is an operand of
it. -/
def Holds (t : Tree) (p x : BlockId) (q : Operator) (c : Block) : Prop :=
  t.Has q ∧ q.id = p ∧ c ∈ q.operands ∧ c.id = x

/-- Adding appends a block. It needs a block without a root and an operator with room. -/
def AddSplices (t : Tree) (p : BlockId) (b : Block) : Prop :=
  Does (add p b) t (b.hasRoot = false ∧ ∃ q, t.Has q ∧ q.id = p ∧ q.hasRoom = true)
    fun y t' => y = b.id ∧ t'.supply = t.supply ∧
      ∃ operands, t.Spliced t' p operands [] [b] [] b.ids

/-- Replacing puts a block in the place of an operand, which comes out. It needs a block without a
root. -/
def ReplaceSplices (t : Tree) (p old : BlockId) (b : Block) : Prop :=
  Does (replace p old b) t (b.hasRoot = false ∧ ∃ q c, t.Holds p old q c)
    fun out t' => out.id = old ∧ t'.supply = t.supply ∧
      ∃ before after, t.Spliced t' p before [out] [b] after (out.ids ++ b.ids)

/-- Removing takes an operand out. -/
def RemoveSplices (t : Tree) (p x : BlockId) : Prop :=
  Does (remove p x) t (∃ q c, t.Holds p x q c)
    fun out t' => out.id = x ∧ t'.supply = t.supply ∧
      ∃ before after, t.Spliced t' p before [out] [] after out.ids

/-- Surrounding puts a new operator, which holds an operand and no other block, in the place of that
operand. Its id is not one of those in use. -/
def SurroundSplices (t : Tree) (used : List BlockId) (x p : BlockId) (kind : Connective) : Prop :=
  Does (surround x p kind) t (kind ≠ .root ∧ ∃ q c, t.Holds p x q c)
    fun y t' => y ∉ used ∧ t'.supply = ⟨t.supply.next + 1⟩ ∧
      ∃ before c after, c.id = x ∧ t.Spliced t' p before [c] [.operator y kind [c]] after [y]

/-- Changing an operator puts one of another kind, with the same operands, in its place. The new id
is not one of those in use. It needs a kind that can hold that many operands. -/
def ChangeSplices (t : Tree) (used : List BlockId) (x p : BlockId) (kind : Connective) : Prop :=
  Does (change x p kind) t
    (kind ≠ .root ∧ ∃ q, ∃ o : Operator, t.Holds p x q o.toBlock ∧
      kind.fits o.operands.length = true)
    fun y t' => y ∉ used ∧ t'.supply = ⟨t.supply.next + 1⟩ ∧
      ∃ before, ∃ o : Operator, ∃ after, o.id = x ∧
        t.Spliced t' p before [o.toBlock] [.operator y kind o.operands] after [x, y]

/-- Flattening puts the operands of an operator in its place. It needs an operator without operands,
or room for all of them. -/
def FlattenSplices (t : Tree) (x p : BlockId) : Prop :=
  Does (flatten x p) t
    (∃ q, ∃ o : Operator, t.Holds p x q o.toBlock ∧ (o.operands = [] ∨
      q.kind.fits (q.operands.length - 1 + o.operands.length) = true))
    fun _ t' => t'.supply = t.supply ∧
      ∃ before, ∃ o : Operator, ∃ after, o.id = x ∧
        t.Spliced t' p before [o.toBlock] o.operands after [x]

variable {t t' : Tree} {loose : List Block} {p x : BlockId} {b : Block} {q : Operator} {s : Slot}

/-! ## Places -/

theorem block_mem_of_slot? (hs : q.slot? x = some s) : s.block ∈ q.operands ∧ s.block.id = x := by
  obtain ⟨hid, hfill⟩ := Slot.find?_eq_some hs
  refine ⟨?_, hid⟩
  rw [← hfill]
  simp [Slot.fill]

theorem operator_id_of_slot? {o : Operator} (hs : q.slot? x = some s) (ho : s.block = o.toBlock) :
    o.id = x := by
  have hx := (block_mem_of_slot? hs).2
  rwa [ho] at hx

/-- An operator and a slot in it are found exactly if the tree holds a block there. -/
theorem exists_slot_iff (hn : t.root.toBlock.ids.Nodup) {P : Operator → Block → Prop} :
    (∃ q s, t.operatorAt? p = some q ∧ q.slot? x = some s ∧ P q s.block) ↔
      ∃ q c, t.Holds p x q c ∧ P q c := by
  constructor
  · rintro ⟨q, s, hq, hs, hP⟩
    obtain ⟨hhas, hp⟩ := (operatorAt?_eq_some_iff hn).mp hq
    obtain ⟨hmem, hx⟩ := block_mem_of_slot? hs
    exact ⟨q, s.block, ⟨hhas, hp, hmem, hx⟩, hP⟩
  · rintro ⟨q, c, ⟨hhas, hp, hmem, hx⟩, hP⟩
    have hq := (operatorAt?_eq_some_iff hn).mpr ⟨hhas, hp⟩
    cases hs : q.slot? x with
    | none => exact absurd hx (Slot.find?_eq_none.mp hs c hmem)
    | some s =>
      -- the slot that is found is the one of `c`, since no other operand has that id
      obtain ⟨hmem', hx'⟩ := block_mem_of_slot? hs
      have hblock : s.block = c :=
        Block.eq_of_id_eq (nodup_operands hn hq) hmem' hmem (hx'.trans hx.symm)
      exact ⟨q, s, hq, hs, hblock ▸ hP⟩

theorem exists_block_slot_iff (hn : t.root.toBlock.ids.Nodup) :
    (∃ q s, t.operatorAt? p = some q ∧ q.slot? x = some s) ↔ ∃ q c, t.Holds p x q c := by
  have h := exists_slot_iff (p := p) (x := x) hn (P := fun _ _ => True)
  simpa only [and_true] using h

theorem exists_operator_slot_iff (hn : t.root.toBlock.ids.Nodup) {P : Operator → Operator → Prop} :
    (∃ q s, ∃ o : Operator, t.operatorAt? p = some q ∧ q.slot? x = some s ∧ s.block = o.toBlock ∧
      P q o) ↔ ∃ q, ∃ o : Operator, t.Holds p x q o.toBlock ∧ P q o := by
  have h := exists_slot_iff (p := p) (x := x) hn (P := fun q c => ∃ o, c = o.toBlock ∧ P q o)
  constructor
  · rintro ⟨q, s, o, hq, hs, ho, hP⟩
    obtain ⟨q, _, hheld, o, rfl, hP⟩ := h.mp ⟨q, s, hq, hs, o, ho, hP⟩
    exact ⟨q, o, hheld, hP⟩
  · rintro ⟨q, o, hheld, hP⟩
    obtain ⟨q, s, hq, hs, o, ho, hP⟩ := h.mpr ⟨q, _, hheld, o, rfl, hP⟩
    exact ⟨q, s, o, hq, hs, ho, hP⟩

/-- Filling a slot splices a tree. -/
theorem spliced_fill {new : List Block} {moved : List BlockId} (hn : t.root.toBlock.ids.Nodup)
    (hn' : t'.root.toBlock.ids.Nodup) (hq : t.operatorAt? p = some q) (hs : q.slot? x = some s)
    (hroot : t'.root = t.root.setOperands p (s.fill new))
    (hmoved : ∀ y, y ∉ moved → (findIn? y new).map face = (Block.find? y s.block).map face) :
    t.Spliced t' p s.before [s.block] new s.after moved := by
  have hfill := (Slot.find?_eq_some hs).2
  refine spliced_setOperands hn hn' hq hfill.symm hroot fun y hy => ?_
  rw [hmoved y hy, Block.map_face_findIn?_cons, findIn?, Option.map_none, Option.or_none]

/-- The next id of the supply is not in use, neither in the tree nor beside it. -/
theorem Sound.next_not_mem (h : t.Sound loose) :
    (⟨t.supply.next⟩ : BlockId) ∉ t.root.toBlock.ids ++ idsAll loose := by
  intro hmem
  exact absurd (h.accounted.covers.2 _ hmem) (Nat.lt_irrefl _)

/-! ## Edits -/

theorem Sound.addSplices (h : t.Sound (b :: loose)) (p : BlockId) : t.AddSplices p b := by
  refine ⟨⟨?_, ?_⟩, fun y t' hok => ?_⟩
  · rintro ⟨y, t', hok⟩
    obtain ⟨hb, q, hq, hroom, -, -⟩ := add_eq_ok.mp hok
    obtain ⟨hhas, hp⟩ := (operatorAt?_eq_some_iff h.nodup).mp hq
    exact ⟨hb, q, hhas, hp, hroom⟩
  · rintro ⟨hb, q, hhas, hp, hroom⟩
    have hq := (operatorAt?_eq_some_iff h.nodup).mpr ⟨hhas, hp⟩
    exact ⟨_, _, add_eq_ok.mpr ⟨hb, q, hq, hroom, rfl, rfl⟩⟩
  · have hn' := (h.add hok).nodup
    obtain ⟨-, q, hq, -, rfl, rfl⟩ := add_eq_ok.mp hok
    refine ⟨rfl, rfl, q.operands, spliced_setOperands h.nodup hn' hq (by simp) (by simp) ?_⟩
    intro y hy
    simp [findIn?, Block.find?_eq_none hy]

theorem Sound.replaceSplices (h : t.Sound (b :: loose)) (p old : BlockId) :
    t.ReplaceSplices p old b := by
  refine ⟨⟨?_, ?_⟩, fun out t' hok => ?_⟩
  · rintro ⟨out, t', hok⟩
    obtain ⟨hb, q, s, hq, hs, -, -⟩ := replace_eq_ok.mp hok
    exact ⟨hb, (exists_block_slot_iff h.nodup).mp ⟨q, s, hq, hs⟩⟩
  · rintro ⟨hb, hheld⟩
    obtain ⟨q, s, hq, hs⟩ := (exists_block_slot_iff h.nodup).mpr hheld
    exact ⟨_, _, replace_eq_ok.mpr ⟨hb, q, s, hq, hs, rfl, rfl⟩⟩
  · have hn' := (h.replace hok).nodup
    obtain ⟨-, q, s, hq, hs, rfl, rfl⟩ := replace_eq_ok.mp hok
    refine ⟨(block_mem_of_slot? hs).2, rfl, s.before, s.after, ?_⟩
    refine spliced_fill h.nodup hn' hq hs rfl fun y hy => ?_
    obtain ⟨hout, hin⟩ := not_or.mp (mt List.mem_append.mpr hy)
    simp [findIn?, Block.find?_eq_none hout, Block.find?_eq_none hin]

theorem Sound.removeSplices (h : t.Sound loose) (p x : BlockId) : t.RemoveSplices p x := by
  refine ⟨⟨?_, ?_⟩, fun out t' hok => ?_⟩
  · rintro ⟨out, t', hok⟩
    obtain ⟨q, s, hq, hs, -, -⟩ := remove_eq_ok.mp hok
    exact (exists_block_slot_iff h.nodup).mp ⟨q, s, hq, hs⟩
  · intro hheld
    obtain ⟨q, s, hq, hs⟩ := (exists_block_slot_iff h.nodup).mpr hheld
    exact ⟨_, _, remove_eq_ok.mpr ⟨q, s, hq, hs, rfl, rfl⟩⟩
  · have hn' := (h.remove hok).nodup
    obtain ⟨q, s, hq, hs, rfl, rfl⟩ := remove_eq_ok.mp hok
    refine ⟨(block_mem_of_slot? hs).2, rfl, s.before, s.after, ?_⟩
    refine spliced_fill h.nodup hn' hq hs rfl fun y hy => ?_
    simp [findIn?, Block.find?_eq_none hy]

theorem Sound.surroundSplices (h : t.Sound loose) (x p : BlockId) (kind : Connective) :
    t.SurroundSplices (t.root.toBlock.ids ++ idsAll loose) x p kind := by
  refine ⟨⟨?_, ?_⟩, fun y t' hok => ?_⟩
  · rintro ⟨y, t', hok⟩
    obtain ⟨hkind, q, s, hq, hs, -, -⟩ := surround_eq_ok.mp hok
    exact ⟨hkind, (exists_block_slot_iff h.nodup).mp ⟨q, s, hq, hs⟩⟩
  · rintro ⟨hkind, hheld⟩
    obtain ⟨q, s, hq, hs⟩ := (exists_block_slot_iff h.nodup).mpr hheld
    exact ⟨_, _, surround_eq_ok.mpr ⟨hkind, q, s, hq, hs, rfl, rfl⟩⟩
  · have hn' := (h.surround hok).nodup
    obtain ⟨-, q, s, hq, hs, rfl, rfl⟩ := surround_eq_ok.mp hok
    refine ⟨h.next_not_mem, rfl, s.before, s.block, s.after, (block_mem_of_slot? hs).2, ?_⟩
    refine spliced_fill h.nodup hn' hq hs rfl fun z hz => ?_
    have hne : (⟨t.supply.next⟩ : BlockId) ≠ z := fun he => hz (List.mem_singleton.mpr he.symm)
    simp [findIn?, Block.find?, hne]

theorem Sound.changeSplices (h : t.Sound loose) (x p : BlockId) (kind : Connective) :
    t.ChangeSplices (t.root.toBlock.ids ++ idsAll loose) x p kind := by
  refine ⟨⟨?_, ?_⟩, fun y t' hok => ?_⟩
  · rintro ⟨y, t', hok⟩
    obtain ⟨hkind, q, s, o, hq, hs, ho, hfits, -, -⟩ := change_eq_ok.mp hok
    exact ⟨hkind, (exists_operator_slot_iff h.nodup).mp ⟨q, s, o, hq, hs, ho, hfits⟩⟩
  · rintro ⟨hkind, hheld⟩
    obtain ⟨q, s, o, hq, hs, ho, hfits⟩ := (exists_operator_slot_iff h.nodup).mpr hheld
    exact ⟨_, _, change_eq_ok.mpr ⟨hkind, q, s, o, hq, hs, ho, hfits, rfl, rfl⟩⟩
  · have hn' := (h.change hok).nodup
    obtain ⟨-, q, s, o, hq, hs, ho, -, rfl, rfl⟩ := change_eq_ok.mp hok
    have hid := operator_id_of_slot? hs ho
    refine ⟨h.next_not_mem, rfl, s.before, o, s.after, hid, ?_⟩
    rw [← ho]
    refine spliced_fill h.nodup hn' hq hs rfl fun z hz => ?_
    obtain ⟨hzx, hzy⟩ : z ≠ x ∧ z ≠ (⟨t.supply.next⟩ : BlockId) := by simpa using hz
    simp [findIn?, Block.find?, ho, Operator.toBlock, hid, hzx.symm, hzy.symm]

theorem Sound.flattenSplices (h : t.Sound loose) (x p : BlockId) : t.FlattenSplices x p := by
  refine ⟨⟨?_, ?_⟩, fun u t' hok => ?_⟩
  · rintro ⟨u, t', hok⟩
    obtain ⟨q, s, o, hq, hs, ho, hsplice, -⟩ := flatten_eq_ok.mp hok
    have hroom := canSplice_eq_true.mp hsplice
    exact (exists_operator_slot_iff h.nodup).mp ⟨q, s, o, hq, hs, ho, hroom⟩
  · intro hheld
    obtain ⟨q, s, o, hq, hs, ho, hroom⟩ := (exists_operator_slot_iff h.nodup).mpr hheld
    have hsplice := canSplice_eq_true.mpr hroom
    exact ⟨(), _, flatten_eq_ok.mpr ⟨q, s, o, hq, hs, ho, hsplice, rfl⟩⟩
  · have hn' := (h.flatten hok).nodup
    obtain ⟨q, s, o, hq, hs, ho, -, rfl⟩ := flatten_eq_ok.mp hok
    have hid := operator_id_of_slot? hs ho
    refine ⟨rfl, s.before, o, s.after, hid, ?_⟩
    rw [← ho]
    refine spliced_fill h.nodup hn' hq hs rfl fun z hz => ?_
    have hne : x ≠ z := fun he => hz (List.mem_singleton.mpr he.symm)
    simp [Block.find?, ho, Operator.toBlock, hid, hne]

/-! ## After any moves -/

namespace Bench

/-- After any moves, each edit is made exactly if its target is there and its result is allowed, and
then it changes the operands of one operator in one place and no other block. -/
theorem edits_are_local {w : Bench} (hw : w.Reachable) :
    (∀ p, ∀ b ∈ w.loose, w.tree.AddSplices p b) ∧
      (∀ p old, ∀ b ∈ w.loose, w.tree.ReplaceSplices p old b) ∧
      (∀ p x, w.tree.RemoveSplices p x) ∧
      (∀ x p kind, w.tree.SurroundSplices (w.tree.root.toBlock.ids ++ idsAll w.loose) x p kind) ∧
      (∀ x p kind, w.tree.ChangeSplices (w.tree.root.toBlock.ids ++ idsAll w.loose) x p kind) ∧
      ∀ x p, w.tree.FlattenSplices x p := by
  have h : w.tree.Sound w.loose := hw.sound
  refine ⟨fun p b hb => ?_, fun p old b hb => ?_, h.removeSplices, h.surroundSplices,
    h.changeSplices, h.flattenSplices⟩
  · obtain ⟨others, hothers⟩ := h.exists_cons hb
    exact hothers.addSplices p
  · obtain ⟨others, hothers⟩ := h.exists_cons hb
    exact hothers.replaceSplices p old

/-- A disjunction of two conditions is flattened into the conjunction that holds it after another
condition. -/
theorem edits_are_local_flattened_disjunction :
    ∃ (w : Bench) (t' : Tree) (before : List Block) (o : Operator) (after : List Block),
      w.Reachable ∧ Tree.flatten ⟨4⟩ ⟨5⟩ w.tree = .ok () t' ∧ o.id = ⟨4⟩ ∧
      w.tree.Spliced t' ⟨5⟩ before [o.toBlock] o.operands after [⟨4⟩] ∧
      w.tree.root.toBlock.ids = [⟨6⟩, ⟨5⟩, ⟨3⟩, ⟨4⟩, ⟨1⟩, ⟨2⟩] ∧
      t'.root.toBlock.ids = [⟨6⟩, ⟨5⟩, ⟨3⟩, ⟨1⟩, ⟨2⟩] := by
  let blank (n : Nat) : Block := .condition ⟨⟨n⟩, none, none, none⟩
  let disjunction : Block := .operator ⟨4⟩ .or [blank 1, blank 2]
  let tree : Tree := ⟨⟨⟨6⟩, .root, [.operator ⟨5⟩ .and [blank 3, disjunction]]⟩, ⟨7⟩⟩
  have hw : Reachable ⟨tree, []⟩ :=
    ⟨⟨1⟩, [.condition none none none, .condition none none none, .condition none none none,
      .join .or [⟨1⟩, ⟨2⟩], .join .and [⟨3⟩, ⟨4⟩]], [.add ⟨6⟩ ⟨5⟩], rfl⟩
  obtain ⟨-, -, -, -, -, hflatten⟩ := edits_are_local hw
  obtain ⟨-, before, o, after, hid, hspliced⟩ := (hflatten ⟨4⟩ ⟨5⟩).2 () _ rfl
  exact ⟨_, _, before, o, after, hw, rfl, hid, hspliced, rfl, rfl⟩

end Bench

end SearchComposer.Tree
