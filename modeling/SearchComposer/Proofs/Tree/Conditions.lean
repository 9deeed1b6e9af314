import SearchComposer.Proofs.Tree.Sound

/-!
# The conditions of an edited tree

Read from left to right, the conditions of a tree change in one place when it is edited: those of a
block that comes in stand together, and so do those of a block that goes out. The edits that only
rearrange operators leave the conditions as they are. Of a sound tree the conditions are those of
its root, so all this says which conditions there are after an edit.
-/

namespace SearchComposer.Tree

variable {t t' : Tree} {loose : List Block} {p x : BlockId} {b out : Block} {q : Operator} {s : Slot}
  {c : Condition}

/-- From one tree to another the conditions change in one place: a path leads to the block `c`, whose
conditions give way to the conditions `new`. Those to the left and to the right of the path stay. -/
structure Trades (t t' : Tree) (path : Path) (c : Block) (new : List Condition) : Prop where
  /-- The path leads to the block. -/
  leads : t.root.toBlock = Path.plug path c
  /-- The conditions of the block stand between those beside the path. -/
  old_eq : t.conditions = Path.conditionsBefore path ++ c.conditions ++ Path.conditionsAfter path
  /-- The others stand there instead. -/
  new_eq : t'.conditions = Path.conditionsBefore path ++ new ++ Path.conditionsAfter path

/-- Filling a slot changes the conditions where the block in the slot was. -/
theorem conditions_fill (hn : t.root.toBlock.ids.Nodup) (hq : t.operatorAt? p = some q)
    (hs : q.slot? x = some s) (new : List Block) :
    ∃ path, t.root.toBlock = Path.plug path s.block ∧
      (t.root.setOperands p (s.fill new)).toBlock.conditions =
        Path.conditionsBefore path ++ Block.conditionsAll new ++ Path.conditionsAfter path := by
  have hfill := (Slot.find?_eq_some hs).2
  obtain ⟨path, hpath, hpath'⟩ := Operator.regrafted_setOperands hn hq (s.fill new)
  refine ⟨path ++ [⟨p, q.kind, s.before, s.after⟩], ?_, ?_⟩
  · rw [Path.plug_concat, hpath, ← hfill]
    simp [Slot.fill]
  · rw [Path.conditionsBefore_concat, Path.conditionsAfter_concat, hpath', Path.conditions_plug]
    simp [Block.conditions, Slot.fill]

/-! ## Conditions of a sound tree -/

namespace Sound

variable {loose' : List Block} {path : Path} {new : List Condition}

theorem trades (h : t.Sound loose) (h' : t'.Sound loose') (hpath : t.root.toBlock = Path.plug path b)
    (hnew : t'.root.toBlock.conditions =
      Path.conditionsBefore path ++ new ++ Path.conditionsAfter path) :
    t.Trades t' path b new := by
  refine ⟨hpath, ?_, h'.conditions_eq.trans hnew⟩
  rw [h.conditions_eq, hpath, Path.conditions_plug]

/-- The conditions of a block that is added come right after those of the operator. -/
theorem trades_add (h : t.Sound (b :: loose)) (hok : Tree.add p b t = .ok x t') :
    ∃ q path, t.operatorAt? p = some q ∧
      t.Trades t' path q.toBlock (q.toBlock.conditions ++ b.conditions) := by
  have h' := h.add hok
  obtain ⟨-, q, hq, -, -, rfl⟩ := add_eq_ok.mp hok
  obtain ⟨path, hpath, hpath'⟩ :=
    Operator.regrafted_setOperands h.nodup hq (q.operands ++ [b])
  have hp : q.id = p := (Operator.operatorAt?_eq_some hq).1
  refine ⟨q, path, hq, h.trades h' (by rw [hpath, ← hp]; rfl) ?_⟩
  rw [hpath', Path.conditions_plug]
  simp [Block.conditions, Block.conditionsAll, Operator.toBlock]

theorem trades_replace {old : BlockId} (h : t.Sound (b :: loose))
    (hok : Tree.replace p old b t = .ok out t') : ∃ path, t.Trades t' path out b.conditions := by
  have h' := h.replace hok
  obtain ⟨-, q, s, hq, hs, rfl, rfl⟩ := replace_eq_ok.mp hok
  obtain ⟨path, hpath, hnew⟩ := conditions_fill h.nodup hq hs [b]
  exact ⟨path, h.trades h' hpath (by simpa [Block.conditionsAll] using hnew)⟩

theorem trades_remove (h : t.Sound loose) (hok : Tree.remove p x t = .ok out t') :
    ∃ path, t.Trades t' path out [] := by
  have h' := h.remove hok
  obtain ⟨q, s, hq, hs, rfl, rfl⟩ := remove_eq_ok.mp hok
  obtain ⟨path, hpath, hnew⟩ := conditions_fill h.nodup hq hs []
  exact ⟨path, h.trades h' hpath (by simpa [Block.conditionsAll] using hnew)⟩

/-- No condition of the tree has the id of a loose one. -/
theorem id_ne_of_loose {d : Condition} (h : t.Sound (b :: loose)) (hc : c ∈ t.conditions)
    (hd : d ∈ b.conditions) : c.id ≠ d.id := by
  rw [h.conditions_eq] at hc
  have hd' := Block.id_mem_ids_of_mem_conditions hd
  obtain ⟨-, -, hdisjoint⟩ := List.nodup_append.mp h.accounted.covers.1
  exact hdisjoint c.id (Block.id_mem_ids_of_mem_conditions hc) d.id (List.mem_append_left _ hd')

theorem mem_conditions_add (h : t.Sound (b :: loose)) (hok : Tree.add p b t = .ok x t') :
    c ∈ t'.conditions ↔ c ∈ t.conditions ∨ c ∈ b.conditions := by
  obtain ⟨q, path, -, htrades⟩ := h.trades_add hok
  rw [htrades.old_eq, htrades.new_eq]
  simp only [List.mem_append, or_assoc, or_comm, or_left_comm]

theorem mem_conditions_replace {old : BlockId} (h : t.Sound (b :: loose))
    (hok : Tree.replace p old b t = .ok out t') :
    c ∈ t'.conditions ∨ c ∈ out.conditions ↔ c ∈ t.conditions ∨ c ∈ b.conditions := by
  obtain ⟨path, htrades⟩ := h.trades_replace hok
  rw [htrades.old_eq, htrades.new_eq]
  simp only [List.mem_append, or_comm, or_left_comm]

theorem mem_conditions_remove (h : t.Sound loose) (hok : Tree.remove p x t = .ok out t') :
    c ∈ t'.conditions ∨ c ∈ out.conditions ↔ c ∈ t.conditions := by
  obtain ⟨path, htrades⟩ := h.trades_remove hok
  rw [htrades.old_eq, htrades.new_eq, List.append_nil]
  simp only [List.mem_append, or_comm, or_left_comm]

/-- If a block that was replaced goes into the one that came for it, only conditions came in. -/
theorem mem_conditions_add_of_replace {old y z : BlockId} {t'' : Tree} (h : t.Sound (b :: loose))
    (hreplace : Tree.replace p old b t = .ok out t') (hadd : Tree.add y out t' = .ok z t'') :
    c ∈ t''.conditions ↔ c ∈ t.conditions ∨ c ∈ b.conditions := by
  rw [(h.replace hreplace).mem_conditions_add hadd, h.mem_conditions_replace hreplace]

/-- Filling a slot with blocks that have the conditions of the block in it changes no conditions. -/
theorem conditions_eq_of_fill (h : t.Sound loose) (h' : t'.Sound loose)
    (hq : t.operatorAt? p = some q) (hs : q.slot? x = some s) {blocks : List Block}
    (hroot : t'.root = t.root.setOperands p (s.fill blocks))
    (hsame : Block.conditionsAll blocks = s.block.conditions) : t'.conditions = t.conditions := by
  obtain ⟨path, hpath, hnew⟩ := conditions_fill h.nodup hq hs blocks
  rw [h'.conditions_eq, h.conditions_eq, hroot, hnew, hsame, hpath, Path.conditions_plug]

theorem conditions_surround {y : BlockId} {kind : Connective} (h : t.Sound loose)
    (hok : Tree.surround x p kind t = .ok y t') : t'.conditions = t.conditions := by
  have h' := h.surround hok
  obtain ⟨-, q, s, hq, hs, -, rfl⟩ := surround_eq_ok.mp hok
  exact h.conditions_eq_of_fill h' hq hs rfl (by simp [Block.conditionsAll, Block.conditions])

theorem conditions_change {y : BlockId} {kind : Connective} (h : t.Sound loose)
    (hok : Tree.change x p kind t = .ok y t') : t'.conditions = t.conditions := by
  have h' := h.change hok
  obtain ⟨-, q, s, o, hq, hs, ho, -, -, rfl⟩ := change_eq_ok.mp hok
  refine h.conditions_eq_of_fill h' hq hs rfl ?_
  simp [ho, Block.conditionsAll, Block.conditions, Operator.toBlock]

theorem conditions_flatten {u : Unit} (h : t.Sound loose)
    (hok : Tree.flatten x p t = .ok u t') : t'.conditions = t.conditions := by
  have h' := h.flatten hok
  obtain ⟨q, s, o, hq, hs, ho, -, rfl⟩ := flatten_eq_ok.mp hok
  exact h.conditions_eq_of_fill h' hq hs rfl (by simp [ho, Block.conditions, Operator.toBlock])

end Sound

end SearchComposer.Tree
