import SearchComposer.Proofs.Block.Craft
import SearchComposer.Proofs.Tree.Edit

/-!
# Sound trees

A tree is sound, together with the loose blocks beside it, if its root is the only operator of that
kind, no operator holds too many operands, and no id is used twice, in the tree or out of it. Every
edit keeps this: it changes the operands of one operator, and each block it puts there was taken
from the same place or from the loose blocks, or has a new id.
-/

namespace SearchComposer.Tree

open Block (idsAll allKeepLimits anyHasRoot)

/-- What holds of a tree and of the loose blocks beside it after any edits. -/
structure Sound (t : Tree) (loose : List Block) : Prop where
  /-- The root is of its own kind. -/
  kind_eq : t.root.kind = .root
  /-- No other operator is of that kind. -/
  rootless : anyHasRoot t.root.operands = false
  /-- No operator holds too many operands. -/
  keepsLimits : t.root.toBlock.keepsLimits = true
  /-- No id is used twice, and no loose operator holds too many operands. -/
  accounted : Accounted t.supply t.root.toBlock.ids loose

variable {t t' : Tree} {loose loose' : List Block} {q : Operator} {s : Slot} {p x : BlockId}
  {b out : Block}

/-- One path leads to the block in a slot, and to the block that is put there. -/
theorem exists_path_fill (hn : t.root.toBlock.ids.Nodup) (hq : t.operatorAt? p = some q)
    (hs : q.slot? x = some s) (b : Block) :
    ∃ path, t.root.toBlock = Path.plug path s.block ∧
      (t.root.setOperands p (s.fill [b])).toBlock = Path.plug path b := by
  obtain ⟨path, hpath, hpath'⟩ := Operator.regrafted_setOperands hn hq (s.fill [b])
  refine ⟨path ++ [⟨p, q.kind, s.before, s.after⟩], ?_, ?_⟩
  · rw [Path.plug_concat, hpath, ← (Slot.find?_eq_some hs).2]
    simp [Slot.fill]
  · rw [Path.plug_concat, hpath']
    simp [Slot.fill]

namespace Sound

theorem nodup (h : t.Sound loose) : t.root.toBlock.ids.Nodup := h.accounted.covers.left.1

theorem of_perm (h : t.Sound loose) (hp : loose.Perm loose') : t.Sound loose' :=
  ⟨h.kind_eq, h.rootless, h.keepsLimits, h.accounted.of_perm hp⟩

/-- A loose block can be dropped. -/
theorem tail (h : t.Sound (b :: loose)) : t.Sound loose :=
  ⟨h.kind_eq, h.rootless, h.keepsLimits, h.accounted.tail⟩

/-- Each loose block can be put first. -/
theorem exists_cons (h : t.Sound loose) (hb : b ∈ loose) : ∃ others, t.Sound (b :: others) := by
  obtain ⟨before, after, rfl⟩ := List.append_of_mem hb
  exact ⟨before ++ after, h.of_perm List.perm_middle⟩

/-- The root holds one block if it holds any. -/
theorem operands_eq (h : t.Sound loose) :
    t.root.operands = [] ∨ ∃ b, t.root.operands = [b] := by
  have hlim := h.keepsLimits
  rw [Operator.toBlock, Block.keepsLimits, h.kind_eq, Bool.and_eq_true] at hlim
  exact Block.eq_nil_or_singleton_of_fits_root hlim.1

/-- The conditions of the tree are those of the root, which holds one block if it holds any. -/
theorem conditions_eq (h : t.Sound loose) : t.conditions = t.root.toBlock.conditions := by
  unfold conditions main? Operator.toBlock
  rcases h.operands_eq with hops | ⟨b, hops⟩
  · rw [hops]; rfl
  · simp [hops, Block.conditions, Block.conditionsAll]

/-- The conditions that are found are those of the tree. -/
theorem find?_eq_condition (h : t.Sound loose) {c : Condition} :
    t.find? x = some (.condition c) ↔ c ∈ t.conditions ∧ c.id = x := by
  rw [h.conditions_eq]
  exact Operator.find?_eq_condition h.nodup

theorem condition?_eq_some (h : t.Sound loose) {c : Condition} :
    t.condition? x = some c ↔ c ∈ t.conditions ∧ c.id = x := by
  rw [← h.find?_eq_condition, condition?, Option.bind_eq_some_iff]
  constructor
  · rintro ⟨b, hb, hc⟩
    cases b with
    | condition d => rwa [← Option.some.inj hc]
    | operator id kind operands => cases hc
  · exact fun hc => ⟨_, hc, rfl⟩

/-- Two conditions of the tree with one id are the same. -/
theorem condition_eq_of_id_eq (h : t.Sound loose) {c d : Condition} (hc : c ∈ t.conditions)
    (hd : d ∈ t.conditions) (hid : c.id = d.id) : c = d := by
  rw [h.conditions_eq] at hc hd
  exact Operator.condition_eq_of_id_eq h.nodup hc hd hid

/-- An operator of the tree can get other operands, whose ids were used by its operands or by loose
blocks or are among the next `n` ids. -/
theorem regraft (h : t.Sound loose) {root : Operator} {kind : Connective} {old new : List Block}
    (hr : t.root.Regrafted root p kind old new) (hfits : kind.fits new.length = true)
    (hroot : anyHasRoot new = false) (hnew : allKeepLimits new = true) (n : Nat)
    (hcount : ∀ y, (idsAll new).count y + (idsAll loose').count y ≤
      (t.supply.batch n).count y + (idsAll old).count y + (idsAll loose).count y)
    (hloose : allKeepLimits loose' = true) : Sound ⟨root, ⟨t.supply.next + n⟩⟩ loose' where
  kind_eq := hr.kind_eq.trans h.kind_eq
  rootless := hr.rootless h.rootless hroot
  keepsLimits := hr.keepsLimits h.keepsLimits hfits hnew
  accounted := by
    refine ⟨(h.accounted.covers.batch n).of_count_le fun y => ?_, hloose⟩
    obtain ⟨before, after, hids, hids'⟩ := hr.ids_eq
    have hy := hcount y
    simp only [hids, hids', List.count_append]
    omega

/-! ## Slots -/

theorem length_operands (hs : q.slot? x = some s) :
    q.operands.length = s.before.length + 1 + s.after.length := by
  obtain ⟨-, hfill⟩ := Slot.find?_eq_some hs
  simp [← hfill, Slot.fill]
  omega

/-- The operands around a slot and the block in it are not too many. -/
theorem fits_slot (h : t.Sound loose) (hq : t.operatorAt? p = some q) (hs : q.slot? x = some s) :
    q.kind.fits (s.before.length + 1 + s.after.length) = true := by
  rw [← length_operands hs]
  exact ((Operator.regrafted_setOperands h.nodup hq []).old_keepLimits h.keepsLimits).1

/-- Neither around a slot nor in it there is a root. -/
theorem rootless_slot (h : t.Sound loose) (hq : t.operatorAt? p = some q)
    (hs : q.slot? x = some s) :
    anyHasRoot s.before = false ∧ s.block.hasRoot = false ∧ anyHasRoot s.after = false := by
  obtain ⟨-, hfill⟩ := Slot.find?_eq_some hs
  have hroot := (Operator.regrafted_setOperands h.nodup hq []).old_rootless h.rootless
  rw [← hfill] at hroot
  simpa [Slot.fill, anyHasRoot, and_assoc] using hroot

/-- Around a slot and in it the limits are kept. -/
theorem keepsLimits_slot (h : t.Sound loose) (hq : t.operatorAt? p = some q)
    (hs : q.slot? x = some s) :
    allKeepLimits s.before = true ∧ s.block.keepsLimits = true ∧ allKeepLimits s.after = true := by
  obtain ⟨-, hfill⟩ := Slot.find?_eq_some hs
  have hlim := ((Operator.regrafted_setOperands h.nodup hq []).old_keepLimits h.keepsLimits).2
  rw [← hfill] at hlim
  simpa [Slot.fill, allKeepLimits, and_assoc] using hlim

/-- Other blocks can go into a slot, whose ids were used by the block there or by loose blocks or
are among the next `n` ids. -/
theorem refill (h : t.Sound loose) (hq : t.operatorAt? p = some q) (hs : q.slot? x = some s)
    (new : List Block) (hfits : q.kind.fits (s.before.length + new.length + s.after.length) = true)
    (hroot : anyHasRoot new = false) (hnew : allKeepLimits new = true) (n : Nat)
    (hcount : ∀ y, (idsAll new).count y + (idsAll loose').count y ≤
      (t.supply.batch n).count y + s.block.ids.count y + (idsAll loose).count y)
    (hloose : allKeepLimits loose' = true) :
    Sound ⟨t.root.setOperands p (s.fill new), ⟨t.supply.next + n⟩⟩ loose' := by
  obtain ⟨hroot₁, -, hroot₂⟩ := h.rootless_slot hq hs
  obtain ⟨hlim₁, -, hlim₂⟩ := h.keepsLimits_slot hq hs
  refine h.regraft (Operator.regrafted_setOperands h.nodup hq (s.fill new)) ?_ ?_ ?_ n
    (fun y => ?_) hloose
  · simpa [Slot.fill, Nat.add_assoc] using hfits
  · simp [Slot.fill, hroot₁, hroot, hroot₂]
  · simp [Slot.fill, hlim₁, hnew, hlim₂]
  · obtain ⟨-, hfill⟩ := Slot.find?_eq_some hs
    have hy := hcount y
    simp only [← hfill, Slot.fill, Block.idsAll_append, idsAll, List.append_nil, List.count_append]
    omega

/-! ## Edits -/

theorem add (h : t.Sound (b :: loose)) (hok : Tree.add p b t = .ok x t') : t'.Sound loose := by
  obtain ⟨hb, q, hq, hroom, rfl, rfl⟩ := add_eq_ok.mp hok
  have hr := Operator.regrafted_setOperands h.nodup hq (q.operands ++ [b])
  obtain ⟨-, hlim⟩ := hr.old_keepLimits h.keepsLimits
  obtain ⟨hlimb, hloose⟩ := Bool.and_eq_true_iff.mp h.accounted.keepLimits
  refine h.regraft hr ?_ ?_ ?_ 0 (fun y => ?_) hloose
  · simpa [Operator.hasRoom] using hroom
  · simp [hr.old_rootless h.rootless, anyHasRoot, hb]
  · simp [allKeepLimits, hlim, hlimb]
  · simp only [Block.idsAll_append, idsAll, List.append_nil, List.count_append]
    omega

theorem replace {old : BlockId} (h : t.Sound (b :: loose))
    (hok : Tree.replace p old b t = .ok out t') : t'.Sound (out :: loose) := by
  obtain ⟨hb, q, s, hq, hs, rfl, rfl⟩ := replace_eq_ok.mp hok
  obtain ⟨-, hlim, -⟩ := h.keepsLimits_slot hq hs
  obtain ⟨hlimb, hloose⟩ := Bool.and_eq_true_iff.mp h.accounted.keepLimits
  refine h.refill hq hs [b] (h.fits_slot hq hs) ?_ ?_ 0 (fun y => ?_) ?_
  · simp [anyHasRoot, hb]
  · simp [allKeepLimits, hlimb]
  · simp only [idsAll, List.append_nil, List.count_append]
    omega
  · simp [allKeepLimits, hlim, hloose]

theorem remove (h : t.Sound loose) (hok : Tree.remove p x t = .ok out t') :
    t'.Sound (out :: loose) := by
  obtain ⟨q, s, hq, hs, rfl, rfl⟩ := remove_eq_ok.mp hok
  obtain ⟨-, hlim, -⟩ := h.keepsLimits_slot hq hs
  refine h.refill hq hs [] ?_ rfl rfl 0 (fun y => ?_) ?_
  · refine Block.fits_of_le (h.fits_slot hq hs) ?_
    rw [List.length_nil]
    omega
  · simp only [idsAll, List.count_append, List.count_nil]
    omega
  · simp [allKeepLimits, hlim, h.accounted.keepLimits]

theorem surround {y : BlockId} {kind : Connective} (h : t.Sound loose)
    (hok : Tree.surround x p kind t = .ok y t') : t'.Sound loose := by
  obtain ⟨hkind, q, s, hq, hs, rfl, rfl⟩ := surround_eq_ok.mp hok
  obtain ⟨-, hroot, -⟩ := h.rootless_slot hq hs
  obtain ⟨-, hlim, -⟩ := h.keepsLimits_slot hq hs
  refine h.refill hq hs [_] (h.fits_slot hq hs) ?_ ?_ 1 (fun y => ?_) h.accounted.keepLimits
  · simp [anyHasRoot, Block.hasRoot, hkind, hroot]
  · simp [allKeepLimits, Block.keepsLimits, hlim]
  · simp only [idsAll, Block.ids, Supply.batch_succ, List.append_nil, List.count_cons]
    omega

theorem change {y : BlockId} {kind : Connective} (h : t.Sound loose)
    (hok : Tree.change x p kind t = .ok y t') : t'.Sound loose := by
  obtain ⟨hkind, q, s, o, hq, hs, ho, hfits, rfl, rfl⟩ := change_eq_ok.mp hok
  obtain ⟨-, hroot, -⟩ := h.rootless_slot hq hs
  obtain ⟨-, hlim, -⟩ := h.keepsLimits_slot hq hs
  simp only [ho, Operator.toBlock, Block.hasRoot, Block.keepsLimits, Bool.or_eq_false_iff,
    Bool.and_eq_true] at hroot hlim
  refine h.refill hq hs [_] (h.fits_slot hq hs) ?_ ?_ 1 (fun y => ?_) h.accounted.keepLimits
  · simp [anyHasRoot, Block.hasRoot, hkind, hroot]
  · simp [allKeepLimits, Block.keepsLimits, hfits, hlim]
  · simp only [ho, Operator.toBlock, idsAll, Block.ids, Supply.batch_succ, List.append_nil,
      List.count_cons]
    omega

theorem flatten {u : Unit} (h : t.Sound loose) (hok : Tree.flatten x p t = .ok u t') :
    t'.Sound loose := by
  obtain ⟨q, s, o, hq, hs, ho, hsplice, rfl⟩ := flatten_eq_ok.mp hok
  obtain ⟨-, hroot, -⟩ := h.rootless_slot hq hs
  obtain ⟨-, hlim, -⟩ := h.keepsLimits_slot hq hs
  simp only [ho, Operator.toBlock, Block.hasRoot, Block.keepsLimits, Bool.or_eq_false_iff,
    Bool.and_eq_true] at hroot hlim
  refine h.refill hq hs _ ?_ hroot.2 hlim.2 0 (fun y => ?_) h.accounted.keepLimits
  · -- an operator without operands fits anywhere, because it leaves a place behind
    rcases canSplice_eq_true.mp hsplice with hempty | hfits
    · refine Block.fits_of_le (h.fits_slot hq hs) ?_
      rw [hempty, List.length_nil]
      omega
    · rw [length_operands hs] at hfits
      refine Block.fits_of_le hfits ?_
      omega
  · simp only [ho, Operator.toBlock, Block.ids, List.count_cons]
    omega

/-- Loose blocks can be made and dropped beside a tree, and copied from it. -/
theorem craft (h : t.Sound loose) (c : Craft) :
    Sound ⟨t.root, ((c.apply t.root.operands loose).run t.supply).2⟩
      ((c.apply t.root.operands loose).run t.supply).1 := by
  have hlim := h.keepsLimits
  rw [Operator.toBlock, Block.keepsLimits, Bool.and_eq_true] at hlim
  have hcraft := Craft.accounted_apply h.accounted hlim.2 c
  exact ⟨h.kind_eq, h.rootless, h.keepsLimits, hcraft⟩

/-- A block that was taken out for an operator with room can be added to that operator. -/
theorem add_of_replace {old : BlockId} {o : Operator} (h : t.Sound (o.toBlock :: loose))
    (hok : Tree.replace p old o.toBlock t = .ok out t') (hroom : o.hasRoom = true) :
    Tree.add o.id out t' =
      .ok out.id { t' with root := t'.root.setOperands o.id (o.operands ++ [out]) } := by
  have hn := (h.replace hok).nodup
  obtain ⟨-, q, s, hq, hs, rfl, rfl⟩ := replace_eq_ok.mp hok
  obtain ⟨-, hroot, -⟩ := h.rootless_slot hq hs
  -- the operator is found because its id occurs nowhere else, so it comes first on no path
  obtain ⟨path, -, hpath⟩ := exists_path_fill h.nodup hq hs o.toBlock
  have hfound := Operator.operatorAt?_of_plug hn hpath
  exact add_eq_ok.mpr ⟨hroot, o, hfound, hroom, rfl, rfl⟩

/-- A new value for a condition keeps a tree sound. -/
theorem setValue (h : t.Sound loose) (x : BlockId) (value? : Option Value) :
    (t.setValue x value?).Sound loose where
  kind_eq := h.kind_eq
  rootless := (Block.anyHasRoot_setValueIn x value? t.root.operands).trans h.rootless
  keepsLimits := (Block.keepsLimits_setValue x value? t.root.toBlock).trans h.keepsLimits
  accounted := by
    have hids := Block.ids_setValue x value? t.root.toBlock
    exact ⟨hids ▸ h.accounted.covers, h.accounted.keepLimits⟩

theorem conditions_setValue (h : t.Sound loose) (x : BlockId) (value? : Option Value) :
    (t.setValue x value?).conditions =
      t.conditions.map fun c => if c.id = x then { c with value? := value? } else c := by
  rw [(h.setValue x value?).conditions_eq, h.conditions_eq]
  exact Block.conditions_setValue x value? t.root.toBlock

end Sound

/-- A tree without blocks is sound beside loose blocks whose ids were given out before. -/
theorem sound_new {s : Supply} (h : Accounted s [] loose) : (Tree.new s).Sound loose where
  kind_eq := rfl
  rootless := rfl
  keepsLimits := Block.keepsLimits_empty _ _
  accounted := ⟨h.covers.take, h.keepLimits⟩

end SearchComposer.Tree
