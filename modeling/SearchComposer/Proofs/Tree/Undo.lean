import SearchComposer.Proofs.Tree.Offered

/-!
# Edits can be undone

An edit puts some blocks in the place of others among the operands of one operator. The edit that
takes it back finds that operator again, and the blocks that came in are where those were that went
out. So splicing the old blocks back restores the tree. What has to be shown for each edit is that
the second one is allowed: there was room for the blocks before, so there is room for them now.
-/

namespace SearchComposer

open Block (idsAll allKeepLimits anyHasRoot)

theorem Operator.toBlock_inj {o o' : Operator} : o.toBlock = o'.toBlock ↔ o = o' := by
  constructor
  · intro h
    obtain ⟨hid, hkind, hoperands⟩ := Block.operator.inj h
    cases o
    cases o'
    simp_all
  · rintro rfl
    rfl

/-- The slot of a block is where it stands, if no block before it has its id. -/
theorem Slot.find?_append_cons {before after : List Block} {b : Block}
    (h : ∀ c ∈ before, c.id ≠ b.id) :
    Slot.find? b.id (before ++ b :: after) = some ⟨before, b, after⟩ := by
  induction before with
  | nil => simp [find?]
  | cons c cs ih =>
    obtain ⟨hc, hcs⟩ := List.forall_mem_cons.mp h
    rw [List.cons_append, find?, if_neg hc, ih hcs, Option.map_some]

namespace Tree

/-- What takes the edits of a tree back, beside some loose blocks. -/
structure Undoes (t : Tree) (loose : List Block) : Prop where
  /-- A new operator around an operand is flattened, whatever its kind. -/
  surround : ∀ x p kind q c, kind ≠ .root → t.Holds p x q c →
    ∃ y t', Tree.surround x p kind t = .ok y t' ∧
      Tree.flatten y p t' = .ok () ⟨t.root, t'.supply⟩
  /-- The block that came out is put in the place of the one that came in. -/
  replace : ∀ p old, ∀ b ∈ loose, ∀ out t', Tree.replace p old b t = .ok out t' →
    Tree.replace p b.id out t' = .ok b t
  /-- A block that was added is removed. -/
  add : ∀ p, ∀ b ∈ loose, ∀ y t', Tree.add p b t = .ok y t' → Tree.remove p b.id t' = .ok b t
  /-- A block that was removed as the last operand is added. -/
  remove : ∀ p x q out t', t.operatorAt? p = some q → q.operands.getLast?.map Block.id = some x →
    Tree.remove p x t = .ok out t' → Tree.add p out t' = .ok x t
  /-- An operator that was changed is changed to the kind that it had. It gets a new id. -/
  change : ∀ x p kind y t', Tree.change x p kind t = .ok y t' →
    ∃ (o : Operator) (path : Path) (z : BlockId) (t'' : Tree), t.find? x = some o.toBlock ∧
      Tree.change y p o.kind t' = .ok z t'' ∧ z ∉ t.root.toBlock.ids ++ idsAll loose ∧
      t.root.toBlock = Path.plug path o.toBlock ∧
      t''.root.toBlock = Path.plug path (.operator z o.kind o.operands)

variable {t t' : Tree} {loose before out new after : List Block} {moved : List BlockId}
  {p x y : BlockId} {b c : Block} {kind : Connective}

/-! ## Back to the place of an edit -/

/-- Without duplicates, the slot of an operand is where it stands. -/
theorem slot?_of_operatorAt? (hn : t.root.toBlock.ids.Nodup)
    (hq : t.operatorAt? p = some ⟨p, kind, before ++ [b] ++ after⟩) :
    (⟨p, kind, before ++ [b] ++ after⟩ : Operator).slot? b.id = some ⟨before, b, after⟩ := by
  have hoperands : (idsAll (before ++ [b] ++ after)).Nodup := nodup_operands hn hq
  rw [List.append_assoc, Block.idsAll_append] at hoperands
  obtain ⟨-, -, hdisjoint⟩ := List.nodup_append.mp hoperands
  have hb : b.id ∈ idsAll ([b] ++ after) :=
    Block.mem_idsAll.mpr ⟨b, List.mem_cons_self, Block.id_mem_ids b⟩
  have hbefore : ∀ c ∈ before, c.id ≠ b.id := by
    intro c hc
    have hcids : c.id ∈ idsAll before := Block.mem_idsAll.mpr ⟨c, hc, Block.id_mem_ids c⟩
    exact hdisjoint c.id hcids b.id hb
  rw [Operator.slot?, List.append_assoc]
  exact Slot.find?_append_cons hbefore

/-- Without duplicates, nothing stands after the operand that has the id of the last one. -/
theorem eq_nil_of_getLast? (hn : (idsAll (before ++ [c] ++ after)).Nodup)
    (hlast : (before ++ [c] ++ after).getLast?.map Block.id = some c.id) : after = [] := by
  rcases List.eq_nil_or_concat' after with hnil | ⟨init, d, rfl⟩
  · exact hnil
  · rw [← List.append_assoc, List.getLast?_concat, Option.map_some] at hlast
    have hid : d.id = c.id := Option.some.inj hlast
    rw [Block.idsAll_append] at hn
    obtain ⟨-, -, hdisjoint⟩ := List.nodup_append.mp hn
    have hc : c.id ∈ idsAll (before ++ [c]) :=
      Block.mem_idsAll.mpr ⟨c, by simp, Block.id_mem_ids c⟩
    have hd : d.id ∈ idsAll (init ++ [d]) :=
      Block.mem_idsAll.mpr ⟨d, by simp, Block.id_mem_ids d⟩
    exact absurd hid.symm (hdisjoint c.id hc d.id hd)

namespace Spliced

/-- The path to the place of an edit leads, after the edit, to whatever is put there next. -/
theorem exists_path (h : t.Spliced t' p before out new after moved)
    (hn' : t'.root.toBlock.ids.Nodup) : ∃ kind path,
      t.root.toBlock = Path.plug path (.operator p kind (before ++ out ++ after)) ∧
        ∀ operands, (t'.root.setOperands p operands).toBlock =
          Path.plug path (.operator p kind operands) := by
  obtain ⟨kind, path, hpath, hpath'⟩ := h.regrafted
  rw [hpath'] at hn'
  obtain ⟨hbefore, hafter⟩ :=
    Path.not_mem_of_nodup hn' (Block.id_mem_ids (.operator p kind (before ++ new ++ after)))
  refine ⟨kind, path, hpath, fun operands => ?_⟩
  rw [Operator.toBlock_setOperands, hpath']
  exact Path.setOperands_plug hbefore hafter

/-- Splicing the blocks back that went out restores the root. -/
theorem setOperands_back (h : t.Spliced t' p before out new after moved)
    (hn' : t'.root.toBlock.ids.Nodup) :
    t'.root.setOperands p (before ++ out ++ after) = t.root := by
  obtain ⟨kind, path, hpath, hpath'⟩ := h.exists_path hn'
  rw [← Operator.toBlock_inj, hpath', hpath]

/-- The blocks that went out have no root and keep the limits, as all of the tree did. -/
theorem out_sound (h : t.Spliced t' p before out new after moved) (ht : t.Sound loose) :
    anyHasRoot out = false ∧ allKeepLimits out = true := by
  obtain ⟨kind, hgraft⟩ := h.regrafted
  have hroot := hgraft.old_rootless ht.rootless
  have hlimits := (hgraft.old_keepLimits ht.keepsLimits).2
  simp only [Block.anyHasRoot_append, Block.allKeepLimits_append, Bool.or_eq_false_iff,
    Bool.and_eq_true] at hroot hlimits
  exact ⟨hroot.1.2, hlimits.1.2⟩

end Spliced

/-! ## Edits taken back -/

namespace Sound

/-- The new operator takes up one place and holds one block, so that block fits in its place. -/
theorem flatten_surround (h : t.Sound loose) (hok : Tree.surround x p kind t = .ok y t') :
    Tree.flatten y p t' = .ok () ⟨t.root, t'.supply⟩ := by
  have h' := h.surround hok
  obtain ⟨-, -, before, c, after, -, hspliced⟩ := (h.surroundSplices x p kind).2 y t' hok
  obtain ⟨outer, -, hq⟩ := hspliced.operands
  have hs := slot?_of_operatorAt? h'.nodup hq
  have hfits := h'.fits_slot hq hs
  have hsplice : canSplice ⟨p, outer, before ++ [.operator y kind [c]] ++ after⟩ ⟨y, kind, [c]⟩ =
      true := by
    refine canSplice_eq_true.mpr (.inr (Block.fits_of_le hfits ?_))
    simp only [List.length_append, List.length_cons, List.length_nil]
    omega
  refine flatten_eq_ok.mpr ⟨_, _, ⟨y, kind, [c]⟩, hq, hs, rfl, hsplice, ?_⟩
  have hback := hspliced.setOperands_back h'.nodup
  exact congrArg (Tree.mk · t'.supply) hback.symm

theorem replace_replace {old : BlockId} {out : Block} (h : t.Sound (b :: loose))
    (hok : Tree.replace p old b t = .ok out t') : Tree.replace p b.id out t' = .ok b t := by
  have h' := h.replace hok
  obtain ⟨-, hsupply, before, after, hspliced⟩ := (h.replaceSplices p old).2 out t' hok
  obtain ⟨outer, -, hq⟩ := hspliced.operands
  have hs := slot?_of_operatorAt? h'.nodup hq
  obtain ⟨hroot, -⟩ := hspliced.out_sound h
  have hout : out.hasRoot = false := (Bool.or_eq_false_iff.mp hroot).1
  refine replace_eq_ok.mpr ⟨hout, _, _, hq, hs, rfl, ?_⟩
  have hback := hspliced.setOperands_back h'.nodup
  exact congrArg₂ Tree.mk hback.symm hsupply.symm

theorem remove_add (h : t.Sound (b :: loose)) (hok : Tree.add p b t = .ok y t') :
    Tree.remove p b.id t' = .ok b t := by
  have h' := h.add hok
  obtain ⟨-, hsupply, operands, hspliced⟩ := (h.addSplices p).2 y t' hok
  obtain ⟨outer, -, hq⟩ := hspliced.operands
  have hs := slot?_of_operatorAt? h'.nodup hq
  refine remove_eq_ok.mpr ⟨_, _, hq, hs, rfl, ?_⟩
  have hback := hspliced.setOperands_back h'.nodup
  exact congrArg₂ Tree.mk hback.symm hsupply.symm

/-- The operator held the block before, so it has room for it. -/
theorem add_remove {q : Operator} {out : Block} (h : t.Sound loose)
    (hq : t.operatorAt? p = some q) (hlast : q.operands.getLast?.map Block.id = some x)
    (hok : Tree.remove p x t = .ok out t') : Tree.add p out t' = .ok x t := by
  have h' := h.remove hok
  obtain ⟨rfl, hsupply, before, after, hspliced⟩ := (h.removeSplices p x).2 out t' hok
  obtain ⟨outer, hheld, hq'⟩ := hspliced.operands
  obtain rfl : ⟨p, outer, before ++ [out] ++ after⟩ = q := Option.some.inj (hheld.symm.trans hq)
  obtain rfl : after = [] := eq_nil_of_getLast? (nodup_operands h.nodup hheld) hlast
  have hfits := h.fits_slot hheld (slot?_of_operatorAt? h.nodup hheld)
  obtain ⟨hroot, -⟩ := hspliced.out_sound h
  have hout : out.hasRoot = false := (Bool.or_eq_false_iff.mp hroot).1
  have hroom : (⟨p, outer, before ++ [] ++ []⟩ : Operator).hasRoom = true := by
    simpa [Operator.hasRoom] using hfits
  refine add_eq_ok.mpr ⟨hout, _, hq', hroom, rfl, ?_⟩
  have hback := hspliced.setOperands_back h'.nodup
  simp only [List.append_nil] at hback ⊢
  exact congrArg₂ Tree.mk hback.symm hsupply.symm

/-- The operator was of that kind before, so it can be again. -/
theorem change_change (h : t.Sound loose) (hok : Tree.change x p kind t = .ok y t') :
    ∃ (o : Operator) (path : Path) (z : BlockId) (t'' : Tree), t.find? x = some o.toBlock ∧
      Tree.change y p o.kind t' = .ok z t'' ∧ z ∉ t.root.toBlock.ids ++ idsAll loose ∧
      t.root.toBlock = Path.plug path o.toBlock ∧
      t''.root.toBlock = Path.plug path (.operator z o.kind o.operands) := by
  have h' := h.change hok
  obtain ⟨-, hsupply, before, o, after, rfl, hspliced⟩ := (h.changeSplices x p kind).2 y t' hok
  obtain ⟨outer, hheld, hq⟩ := hspliced.operands
  have hfind := find?_of_slot h.nodup hheld (slot?_of_operatorAt? h.nodup hheld)
  have hs := slot?_of_operatorAt? h'.nodup hq
  obtain ⟨hroot, hlimits⟩ := hspliced.out_sound h
  have hkind : o.kind ≠ .root := by
    rintro hkind
    simp [anyHasRoot, Operator.toBlock, Block.hasRoot, hkind] at hroot
  have hfits : o.kind.fits o.operands.length = true := by
    simp only [allKeepLimits, Operator.toBlock, Block.keepsLimits, Bool.and_eq_true] at hlimits
    exact hlimits.1.1
  have hback := change_eq_ok.mpr
    ⟨hkind, _, _, ⟨y, kind, o.operands⟩, hq, hs, rfl, hfits, rfl, rfl⟩
  have hfresh : (⟨t'.supply.next⟩ : BlockId) ∉ t.root.toBlock.ids ++ idsAll loose := by
    intro hmem
    have hlt := h.accounted.covers.2 _ hmem
    rw [hsupply] at hlt
    exact absurd hlt (Nat.not_lt.mpr (Nat.le_succ t.supply.next))
  obtain ⟨outer', path, hpath, hpath'⟩ := hspliced.exists_path h'.nodup
  refine ⟨o, path ++ [⟨p, outer', before, after⟩], _, _, hfind, hback, hfresh, ?_, ?_⟩
  · rw [hpath, Path.plug_concat, List.append_assoc]
    rfl
  · rw [Path.plug_concat]
    refine (hpath' _).trans ?_
    simp [Slot.fill]

end Sound

namespace Bench

/-- After any moves, every edit of the tree can be taken back. A new operator around an operand is
flattened, a block that was replaced is put back, one that was added is removed, one that was
removed as the last operand is added: each gives the same tree again. An operator that was changed
is changed back, and then the tree differs in the id of that operator only. -/
theorem edits_can_be_undone {w : Bench} (hw : w.Reachable) : w.tree.Undoes w.loose where
  surround := by
    intro x p kind q c hkind hheld
    have h : w.tree.Sound w.loose := hw.sound
    obtain ⟨y, t', hok⟩ := (h.surroundSplices x p kind).1.mpr ⟨hkind, q, c, hheld⟩
    exact ⟨y, t', hok, h.flatten_surround hok⟩
  replace := by
    intro p old b hb out t' hok
    obtain ⟨others, hothers⟩ := hw.sound.exists_cons hb
    exact hothers.replace_replace hok
  add := by
    intro p b hb y t' hok
    obtain ⟨others, hothers⟩ := hw.sound.exists_cons hb
    exact hothers.remove_add hok
  remove _ _ _ _ _ hq hlast hok := Tree.Sound.add_remove hw.sound hq hlast hok
  change _ _ _ _ _ hok := Tree.Sound.change_change hw.sound hok

/-- A conjunction holds a condition and a negation, which is full. Below the negation a disjunction
is put in and dissolved; in the conjunction a loose condition is put in the place of the other and
added to it, and the negation is removed. -/
theorem edits_can_be_undone_beside_full_negation :
    ∃ (w : Bench) (b c d : Block) (t₁ t₂ t₃ t₄ : Tree), w.Reachable ∧ b ∈ w.loose ∧
      (Tree.surround ⟨1⟩ ⟨4⟩ .or w.tree = .ok ⟨7⟩ t₁ ∧
        Tree.flatten ⟨7⟩ ⟨4⟩ t₁ = .ok () ⟨w.tree.root, ⟨8⟩⟩) ∧
      (Tree.replace ⟨5⟩ ⟨3⟩ b w.tree = .ok c t₂ ∧ Tree.replace ⟨5⟩ b.id c t₂ = .ok b w.tree) ∧
      (Tree.add ⟨5⟩ b w.tree = .ok b.id t₃ ∧ Tree.remove ⟨5⟩ b.id t₃ = .ok b w.tree) ∧
      Tree.remove ⟨5⟩ ⟨4⟩ w.tree = .ok d t₄ ∧ Tree.add ⟨5⟩ d t₄ = .ok ⟨4⟩ w.tree := by
  let blank (n : Nat) : Block := .condition ⟨⟨n⟩, none, none, none⟩
  let negation : Block := .operator ⟨4⟩ .not [blank 1]
  let tree : Tree := ⟨⟨⟨6⟩, .root, [.operator ⟨5⟩ .and [blank 3, negation]]⟩, ⟨7⟩⟩
  have hw : Reachable ⟨tree, [blank 2]⟩ :=
    ⟨⟨1⟩, [.condition none none none, .condition none none none, .condition none none none,
      .join .not [⟨1⟩], .join .and [⟨3⟩, ⟨4⟩]], [.add ⟨6⟩ ⟨5⟩], rfl⟩
  have hloose : blank 2 ∈ [blank 2] := List.mem_cons_self
  have hheld : tree.Holds ⟨4⟩ ⟨1⟩ ⟨⟨4⟩, .not, [blank 1]⟩ (blank 1) :=
    ⟨⟨[⟨⟨6⟩, .root, [], []⟩, ⟨⟨5⟩, .and, [blank 3], []⟩], rfl⟩, rfl, List.mem_cons_self, rfl⟩
  have h := edits_can_be_undone hw
  obtain ⟨y, t₁, hsurround, hflatten⟩ := h.surround ⟨1⟩ ⟨4⟩ .or _ _ (by decide) hheld
  obtain ⟨rfl, rfl⟩ := EStateM.Result.ok.inj hsurround
  exact ⟨_, blank 2, blank 3, negation, _, _, _, _, hw, hloose, ⟨hsurround, hflatten⟩,
    ⟨rfl, h.replace ⟨5⟩ ⟨3⟩ _ hloose _ _ rfl⟩, ⟨rfl, h.add ⟨5⟩ _ hloose _ _ rfl⟩,
    rfl, h.remove ⟨5⟩ ⟨4⟩ ⟨⟨5⟩, .and, [blank 3, negation]⟩ _ _ rfl rfl rfl⟩

end Bench

end Tree

end SearchComposer
