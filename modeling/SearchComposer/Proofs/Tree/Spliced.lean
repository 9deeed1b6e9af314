import SearchComposer.Proofs.Tree.Sound

/-!
# Trees that differ in one place

The face of a block is what it shows without the blocks below its operands. Two trees differ in one
place only if one operator holds some operands of its own instead of others, between the same
operands as before. Then every other block that did not come or go has the face that it had: this is
seen along the path to that operator, on which every operator keeps the ids of its operands.
-/

namespace SearchComposer

/-- What a block shows of itself. -/
inductive Face where
  /-- A condition shows all of its parts. -/
  | condition (c : Condition)
  /-- An operator shows its kind and which blocks it holds, in order. -/
  | operator (id : BlockId) (kind : Connective) (operands : List BlockId)
  deriving DecidableEq, Repr

namespace Block

/-- The face of a block. -/
def face : Block → Face
  | condition c => .condition c
  | operator id kind operands => .operator id kind (operands.map Block.id)

theorem map_face_findIn?_append (y : BlockId) (bs cs : List Block) :
    (findIn? y (bs ++ cs)).map face =
      ((findIn? y bs).map face).or ((findIn? y cs).map face) := by
  rw [findIn?_append, Option.map_or]

theorem map_face_findIn?_cons (y : BlockId) (b : Block) (bs : List Block) :
    (findIn? y (b :: bs)).map face = ((find? y b).map face).or ((findIn? y bs).map face) := by
  rw [findIn?, Option.map_or]

/-- Of blocks without duplicates among their ids, two with one id are the same. -/
theorem eq_of_id_eq {bs : List Block} (hn : (idsAll bs).Nodup) {b c : Block} (hb : b ∈ bs)
    (hc : c ∈ bs) (h : b.id = c.id) : b = c := by
  induction bs with
  | nil => cases hb
  | cons d ds ih =>
    obtain ⟨-, hds, hdisjoint⟩ := List.nodup_append.mp hn
    have hapart : ∀ e ∈ ds, d.id ≠ e.id := by
      intro e he heq
      have hmem := mem_idsAll.mpr ⟨e, he, id_mem_ids e⟩
      exact hdisjoint d.id (id_mem_ids d) e.id hmem heq
    rcases List.mem_cons.mp hb with rfl | hb'
    · rcases List.mem_cons.mp hc with rfl | hc'
      · rfl
      · exact absurd h (hapart c hc')
    · rcases List.mem_cons.mp hc with rfl | hc'
      · exact absurd h.symm (hapart b hb')
      · exact ih hds hb' hc'

end Block

namespace Path

theorem id_plug (path : Path) {b c : Block} (h : b.id = c.id) :
    (plug path b).id = (plug path c).id := by
  cases path with
  | nil => exact h
  | cons f fs => rfl

/-- A block that has one face in two blocks with one id has one face in the path with either of
them: the operators on the way show ids only. -/
theorem map_face_find?_plug {path : Path} {b c : Block} {y : BlockId} (hid : b.id = c.id)
    (h : (Block.find? y b).map Block.face = (Block.find? y c).map Block.face) :
    (Block.find? y (plug path b)).map Block.face =
      (Block.find? y (plug path c)).map Block.face := by
  induction path with
  | nil => exact h
  | cons f fs ih =>
    rw [plug, plug, Block.find?, Block.find?]
    by_cases hy : f.id = y
    · -- an operator on the path shows the id of the block below it, and that is the same in both
      rw [if_pos hy, if_pos hy]
      simp [Block.face, id_plug fs hid]
    · rw [if_neg hy, if_neg hy]
      simp only [Block.map_face_findIn?_append, Block.map_face_findIn?_cons, ih]

end Path

namespace Tree

/-- An operator of a tree: the root or one below it. -/
def Has (t : Tree) (q : Operator) : Prop := ∃ path, t.root.toBlock = Path.plug path q.toBlock

/-- The face of the block with an id: the root or one below it. -/
def face? (t : Tree) (y : BlockId) : Option Face :=
  (Block.find? y t.root.toBlock).map Block.face

/-- Without duplicates among the ids, the operators that are found are those of the tree. -/
theorem operatorAt?_eq_some_iff {t : Tree} (hn : t.root.toBlock.ids.Nodup) {p : BlockId}
    {q : Operator} : t.operatorAt? p = some q ↔ t.Has q ∧ q.id = p :=
  Operator.operatorAt?_eq_some_iff hn

theorem nodup_operands {t : Tree} (hn : t.root.toBlock.ids.Nodup) {p : BlockId} {q : Operator}
    (hq : t.operatorAt? p = some q) : (Block.idsAll q.operands).Nodup :=
  Operator.nodup_operands hn hq

/-- The tree `t'` is the tree `t` but for one place: the operator `p` holds the blocks `new` where
it held the blocks `out`. The blocks with the ids `moved` came or went. -/
structure Spliced (t t' : Tree) (p : BlockId) (before out new after : List Block)
    (moved : List BlockId) : Prop where
  /-- There is one path to the operator in both trees, and it leads to what the operator held and to
  what it holds. -/
  regrafted : ∃ kind, t.root.Regrafted t'.root p kind (before ++ out ++ after)
    (before ++ new ++ after)
  /-- The operator keeps its id and its kind, and its operands change in one place. -/
  operands : ∃ kind, t.operatorAt? p = some ⟨p, kind, before ++ out ++ after⟩ ∧
    t'.operatorAt? p = some ⟨p, kind, before ++ new ++ after⟩
  /-- Every other block keeps its face, and no other block comes in. -/
  frame : ∀ y, y ≠ p → y ∉ moved → t'.face? y = t.face? y

/-- Giving an operator other operands splices a tree, if the blocks that neither came nor went have
the same face in what went out as in what came in. -/
theorem spliced_setOperands {t t' : Tree} {p : BlockId} {q : Operator}
    {before out new after : List Block} {moved : List BlockId} (hn : t.root.toBlock.ids.Nodup)
    (hn' : t'.root.toBlock.ids.Nodup) (hq : t.operatorAt? p = some q)
    (hold : q.operands = before ++ out ++ after)
    (hroot : t'.root = t.root.setOperands p (before ++ new ++ after))
    (hmoved : ∀ y, y ∉ moved →
      (Block.findIn? y new).map Block.face = (Block.findIn? y out).map Block.face) :
    t.Spliced t' p before out new after moved := by
  obtain ⟨path, hpath, hpath'⟩ :=
    Operator.regrafted_setOperands hn hq (before ++ new ++ after)
  rw [← hroot] at hpath'
  rw [hold] at hpath
  have hp : q.id = p := (Operator.operatorAt?_eq_some hq).1
  refine ⟨⟨q.kind, path, hpath, hpath'⟩, ⟨q.kind, ?_, ?_⟩, fun y hy hmem => ?_⟩
  · rw [hq, ← hold, ← hp]
  · exact Operator.operatorAt?_of_plug (q := ⟨p, q.kind, before ++ new ++ after⟩) hn' hpath'
  · rw [face?, face?, hpath, hpath']
    refine Path.map_face_find?_plug rfl ?_
    rw [Block.find?, Block.find?, if_neg (Ne.symm hy), if_neg (Ne.symm hy)]
    simp only [Block.map_face_findIn?_append, hmoved y hmem]

end Tree

end SearchComposer
