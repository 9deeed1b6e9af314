import Mathlib.Data.List.Induction
import Mathlib.Data.List.Nodup
import Mathlib.Logic.Relation
import SearchComposer.Block.Walk
import SearchComposer.Proofs.Block.Place

/-!
# Walks find what is there

A walk looks at the blocks on its stack and at all blocks below them in an order that can be said
without a stack: an operator first, then what is in its operands, from right to left. The stack
stands for the blocks that are still to come in that order, so what a walk gives is the first answer
among them.

With distinct ids at most one block answers to an id. So walks find the blocks, the operators and
the holders that are there, and the same ones as a search by recursion, which goes from left to
right.
-/

namespace SearchComposer

namespace Block

mutual

/-- A block and all blocks below it, in the order of a walk: an operator before its operands, and
these from right to left. -/
def met : Block → List Block
  | condition c => [condition c]
  | operator id kind operands => operator id kind operands :: metAll operands

/-- Blocks and all blocks below them, from right to left. -/
def metAll : List Block → List Block
  | [] => []
  | b :: bs => metAll bs ++ met b

end

variable {b c : Block}

theorem metAll_eq_flatMap (bs : List Block) : metAll bs = bs.reverse.flatMap met := by
  induction bs with
  | nil => rfl
  | cons b bs ih => simp [metAll, ih]

theorem mem_metAll {bs : List Block} : c ∈ metAll bs ↔ ∃ b ∈ bs, c ∈ b.met := by
  simp [metAll_eq_flatMap]

/-- The blocks that are met are those that a path leads to. -/
theorem mem_met : c ∈ b.met ↔ ∃ path, b = Path.plug path c := by
  constructor
  · intro h
    induction b using Block.induction with
    | condition d =>
      obtain rfl : c = condition d := List.mem_singleton.mp h
      exact ⟨[], rfl⟩
    | operator id kind operands ih =>
      rcases List.mem_cons.mp h with rfl | h
      · exact ⟨[], rfl⟩
      · obtain ⟨d, hd, hc⟩ := mem_metAll.mp h
        obtain ⟨path, rfl⟩ := ih d hd hc
        obtain ⟨before, after, rfl⟩ := List.append_of_mem hd
        exact ⟨⟨id, kind, before, after⟩ :: path, rfl⟩
  · rintro ⟨path, rfl⟩
    induction path with
    | nil => cases c <;> simp [Path.plug, met]
    | cons f fs ih => exact List.mem_cons_of_mem _ (mem_metAll.mpr ⟨_, by simp, ih⟩)

theorem nodup_map_id {bs : List Block} (hn : (idsAll bs).Nodup) : (bs.map id).Nodup := by
  refine hn.sublist ?_
  induction bs with
  | nil => exact List.Sublist.refl _
  | cons b bs ih =>
    have hhead : [b.id].Sublist b.ids := List.singleton_sublist.mpr (id_mem_ids b)
    exact hhead.append (ih (List.nodup_append.mp hn).2.1)

theorem exists_of_anyHasRoot {bs : List Block} (h : anyHasRoot bs = true) :
    ∃ b ∈ bs, b.hasRoot = true := by
  induction bs with
  | nil => cases h
  | cons b bs ih =>
    rcases Bool.or_eq_true_iff.mp h with hb | hbs
    · exact ⟨b, List.mem_cons_self, hb⟩
    · obtain ⟨c, hc, hroot⟩ := ih hbs
      exact ⟨c, List.mem_cons_of_mem b hc, hroot⟩

/-- The ids of the conditions come in the order of all ids. -/
theorem sublist_ids (b : Block) : (b.conditions.map (·.id)).Sublist b.ids := by
  induction b using Block.induction with
  | condition c => exact List.Sublist.refl _
  | operator id kind operands ih =>
    have hoperands : ∀ bs : List Block, (∀ b ∈ bs, (b.conditions.map (·.id)).Sublist b.ids) →
        ((conditionsAll bs).map (·.id)).Sublist (idsAll bs) := by
      intro bs hbs
      induction bs with
      | nil => exact List.Sublist.refl _
      | cons b bs ih =>
        obtain ⟨hb, hrest⟩ := List.forall_mem_cons.mp hbs
        rw [conditionsAll, List.map_append]
        exact hb.append (ih hrest)
    exact (hoperands operands ih).cons id

theorem filterMap_met (b : Block) : b.met.filterMap condition? = b.conditions.reverse := by
  induction b using Block.induction with
  | condition c => rfl
  | operator id kind operands ih =>
    have hhead : (operator id kind operands).condition? = none := rfl
    have hoperands : ∀ bs : List Block,
        (∀ b ∈ bs, b.met.filterMap condition? = b.conditions.reverse) →
          (metAll bs).filterMap condition? = (conditionsAll bs).reverse := by
      intro bs hbs
      induction bs with
      | nil => rfl
      | cons b bs ih =>
        obtain ⟨hb, hrest⟩ := List.forall_mem_cons.mp hbs
        rw [metAll, conditionsAll, List.filterMap_append, List.reverse_append, ih hrest, hb]
    rw [met, List.filterMap_cons_none hhead, conditions, hoperands operands ih]

/-! ## What the stack stands for -/

/-- The block on top of the stack is the next one, and what is below it comes before the rest. -/
theorem flatMap_met_cons (b : Block) (stack : List Block) :
    (b :: stack).flatMap met = b :: (b.stackOperands stack).flatMap met := by
  cases b with
  | condition c => rfl
  | operator id kind operands => simp [stackOperands, met, metAll_eq_flatMap]

theorem walk?_eq_findSome? {α : Type} (ask : Block → Option α) (stack : List Block) :
    walk? ask stack = (stack.flatMap met).findSome? ask := by
  fun_induction walk? ask stack with
  | case1 => rfl
  | case2 b stack a ha => rw [flatMap_met_cons, List.findSome?_cons, ha]
  | case3 b stack ha ih => rw [flatMap_met_cons, List.findSome?_cons, ha, ih]

theorem walkConditions_eq_filterMap (stack : List Block) :
    walkConditions stack = (stack.flatMap met).filterMap condition? := by
  fun_induction walkConditions stack with
  | case1 => rfl
  | case2 b stack ih =>
    rw [flatMap_met_cons, List.filterMap_cons, ih]
    cases b.condition? <;> rfl

theorem listConditions_eq_reverse (b : Block) : b.listConditions = b.conditions.reverse := by
  rw [listConditions, walkConditions_eq_filterMap, List.flatMap_singleton, filterMap_met]

theorem mem_listConditions {c : Condition} :
    c ∈ b.listConditions ↔ ∃ path, b = Path.plug path (condition c) := by
  rw [listConditions_eq_reverse, List.mem_reverse]
  refine ⟨exists_path_of_mem_conditions, ?_⟩
  rintro ⟨path, rfl⟩
  rw [Path.conditions_plug]
  simp [conditions]

theorem nodup_listConditions (hn : b.ids.Nodup) : (b.listConditions.map (·.id)).Nodup := by
  rw [listConditions_eq_reverse, List.map_reverse]
  exact List.nodup_reverse.mpr (hn.sublist b.sublist_ids)

theorem meetsRoot_iff : b.meetsRoot = true ↔
    ∃ path, ∃ o : Operator, b = Path.plug path o.toBlock ∧ o.kind = .root := by
  rw [meetsRoot, walk?_eq_findSome?, List.flatMap_singleton, List.findSome?_isSome_iff]
  constructor
  · rintro ⟨c, hc, hask⟩
    obtain ⟨path, rfl⟩ := mem_met.mp hc
    cases c with
    | condition d => cases hask
    | operator id kind operands =>
      have hkind : kind = .root := by simpa [operator?] using hask
      exact ⟨path, ⟨id, kind, operands⟩, rfl, hkind⟩
  · rintro ⟨path, o, rfl, hkind⟩
    exact ⟨o.toBlock, mem_met.mpr ⟨path, rfl⟩, by simp [hkind]⟩

theorem exists_path_of_hasRoot (h : b.hasRoot = true) :
    ∃ path, ∃ o : Operator, b = Path.plug path o.toBlock ∧ o.kind = .root := by
  induction b using Block.induction with
  | condition c => cases h
  | operator id kind operands ih =>
    rw [hasRoot, Bool.or_eq_true, beq_iff_eq] at h
    rcases h with hkind | hany
    · exact ⟨[], ⟨id, kind, operands⟩, rfl, hkind⟩
    · obtain ⟨b, hb, hroot⟩ := exists_of_anyHasRoot hany
      obtain ⟨path, o, rfl, hkind⟩ := ih b hb hroot
      obtain ⟨before, after, rfl⟩ := List.append_of_mem hb
      exact ⟨⟨id, kind, before, after⟩ :: path, o, rfl, hkind⟩

/-- A root is met exactly if there is one in the block. -/
theorem meetsRoot_eq_hasRoot (b : Block) : b.meetsRoot = b.hasRoot := by
  refine Bool.eq_iff_iff.mpr ⟨fun h => ?_, fun h => meetsRoot_iff.mpr (exists_path_of_hasRoot h)⟩
  obtain ⟨path, o, rfl, hkind⟩ := meetsRoot_iff.mp h
  refine (Bool.eq_false_or_eq_true _).resolve_right fun hnone => ?_
  have hroot := Path.hasRoot_of_plug hnone
  simp [Operator.toBlock, hasRoot, hkind] at hroot

end Block

namespace Operator

open Block (met metAll operator? idsAll)

variable {o q : Operator} {x p : BlockId} {b c : Block}

/-- The operators of a block, itself included, in the order of a walk. -/
theorem filterMap_met_operators (bs : List Block) :
    bs.flatMap (fun b => b.met.filterMap operator?) =
      (bs.filterMap operator?).flatMap fun o => o.toBlock.met.filterMap operator? := by
  induction bs with
  | nil => rfl
  | cons b bs ih =>
    cases b with
    | condition c =>
      have hhead : (Block.condition c).operator? = none := rfl
      rw [List.flatMap_cons, List.filterMap_cons_none hhead, ih]
      rfl
    | operator id kind operands =>
      have hhead : (Block.operator id kind operands).operator? = some ⟨id, kind, operands⟩ := rfl
      rw [List.flatMap_cons, List.filterMap_cons_some hhead, List.flatMap_cons, ih]
      rfl

/-- The operator on top of the stack is the next one, and those below it come before the rest. -/
theorem flatMap_operators_cons (o : Operator) (stack : List Operator) :
    ((o :: stack).flatMap fun q => q.toBlock.met.filterMap operator?) =
      o :: ((o.nested.reverse ++ stack).flatMap fun q => q.toBlock.met.filterMap operator?) := by
  have hbelow : (metAll o.operands).filterMap operator? =
      o.nested.reverse.flatMap fun q => q.toBlock.met.filterMap operator? := by
    rw [Block.metAll_eq_flatMap, List.filterMap_flatMap, filterMap_met_operators, nested,
      List.filterMap_reverse]
  rw [List.flatMap_cons, List.flatMap_append, ← hbelow]
  rfl

theorem walkHolder?_eq_findSome? (x : BlockId) (stack : List Operator) :
    walkHolder? x stack = (stack.flatMap fun q => q.toBlock.met.filterMap operator?).findSome?
      fun q => if q.operands.any (·.id == x) then some q.id else none := by
  fun_induction walkHolder? x stack with
  | case1 => rfl
  | case2 o stack h => rw [flatMap_operators_cons, List.findSome?_cons, if_pos h]
  | case3 o stack h ih => rw [flatMap_operators_cons, List.findSome?_cons, if_neg h, ih]

/-! ## What walks find -/

theorem mem_metAll_operands : c ∈ metAll o.operands ↔ o.HasBelow c := by
  rw [Block.mem_metAll]
  constructor
  · rintro ⟨d, hd, hc⟩
    obtain ⟨path, hpath⟩ := Block.mem_met.mp hc
    exact hasBelow_of_mem_operands hd hpath
  · intro h
    obtain ⟨d, hd, hpath⟩ := exists_operand_of_hasBelow h
    exact ⟨d, hd, Block.mem_met.mpr hpath⟩

theorem seek?_eq_findSome? (o : Operator) (x : BlockId) :
    o.seek? x = (metAll o.operands).findSome? fun b => if b.id = x then some b else none := by
  rw [seek?, Block.walk?_eq_findSome?, ← Block.metAll_eq_flatMap]

theorem seek?_eq_some (h : o.seek? x = some c) : o.HasBelow c ∧ c.id = x := by
  rw [seek?_eq_findSome?] at h
  obtain ⟨b, hb, hask⟩ := List.exists_of_findSome?_eq_some h
  obtain ⟨hid, hbc⟩ := Option.ite_none_right_eq_some.mp hask
  obtain rfl := Option.some.inj hbc
  exact ⟨mem_metAll_operands.mp hb, hid⟩

theorem isSome_seek? (h : o.HasBelow c) : (o.seek? c.id).isSome = true := by
  rw [seek?_eq_findSome?]
  exact List.findSome?_isSome_iff.mpr ⟨c, mem_metAll_operands.mpr h, by simp⟩

theorem seek?_eq_some_iff (hn : o.toBlock.ids.Nodup) :
    o.seek? x = some c ↔ o.HasBelow c ∧ c.id = x := by
  constructor
  · exact seek?_eq_some
  · rintro ⟨hbelow, rfl⟩
    obtain ⟨b, hb⟩ := Option.isSome_iff_exists.mp (isSome_seek? hbelow)
    obtain ⟨⟨path, -, hpath⟩, hid⟩ := seek?_eq_some hb
    obtain ⟨path', -, hpath'⟩ := hbelow
    rw [hb, eq_of_plug_of_id_eq hn hpath hpath' hid]

/-- With distinct ids it does not matter in which order blocks are looked at. -/
theorem seek?_eq_find? (hn : o.toBlock.ids.Nodup) (x : BlockId) : o.seek? x = o.find? x :=
  Option.ext fun c => by rw [seek?_eq_some_iff hn, find?_eq_some_iff hn]

theorem seekOperator?_eq_operatorAt? (hn : o.toBlock.ids.Nodup) (x : BlockId) :
    o.seekOperator? x = o.operatorAt? x := by
  rw [seekOperator?, seek?_eq_find? hn, operatorAt?]

theorem seekHolder?_eq_findSome? (o : Operator) (x : BlockId) :
    o.seekHolder? x = (o.toBlock.met.filterMap operator?).findSome?
      fun q => if q.operands.any (·.id == x) then some q.id else none := by
  rw [seekHolder?, walkHolder?_eq_findSome?, List.flatMap_singleton]

theorem mem_operators_met : q ∈ o.toBlock.met.filterMap operator? ↔ o.Includes q := by
  rw [List.mem_filterMap]
  constructor
  · rintro ⟨b, hb, hq⟩
    obtain rfl := toBlock_eq_of_operator? hq
    exact Block.mem_met.mp hb
  · intro h
    exact ⟨q.toBlock, Block.mem_met.mpr h, rfl⟩

theorem any_id_iff {bs : List Block} : bs.any (·.id == x) = true ↔ ∃ b ∈ bs, b.id = x := by
  simp

theorem seekHolder?_eq_some (h : o.seekHolder? x = some p) :
    ∃ q c, o.Includes q ∧ q.id = p ∧ c ∈ q.operands ∧ c.id = x := by
  rw [seekHolder?_eq_findSome?] at h
  obtain ⟨q, hq, hask⟩ := List.exists_of_findSome?_eq_some h
  obtain ⟨hany, hqp⟩ := Option.ite_none_right_eq_some.mp hask
  obtain ⟨c, hc, hid⟩ := any_id_iff.mp hany
  exact ⟨q, c, mem_operators_met.mp hq, Option.some.inj hqp, hc, hid⟩

theorem isSome_seekHolder? (hq : o.Includes q) (hc : c ∈ q.operands) :
    (o.seekHolder? c.id).isSome = true := by
  rw [seekHolder?_eq_findSome?]
  have hany : q.operands.any (·.id == c.id) = true := any_id_iff.mpr ⟨c, hc, rfl⟩
  exact List.findSome?_isSome_iff.mpr ⟨q, mem_operators_met.mpr hq, by rw [if_pos hany]; rfl⟩

/-- With distinct ids a block has one holder, so the first on a walk is the one that there is. -/
theorem seekHolder?_eq_holder? (hn : o.toBlock.ids.Nodup) (x : BlockId) :
    o.seekHolder? x = o.holder? x := by
  refine Option.ext fun p => ⟨fun h => (holder?_eq_some_iff hn).mpr (seekHolder?_eq_some h), ?_⟩
  intro h
  obtain ⟨q, c, hq, -, hc, rfl⟩ := (holder?_eq_some_iff hn).mp h
  obtain ⟨p', hp'⟩ := Option.isSome_iff_exists.mp (isSome_seekHolder? hq hc)
  rw [(holder?_eq_some_iff hn).mpr (seekHolder?_eq_some hp')] at h
  rw [hp', h]

/-- With distinct ids the position of an operand is the one at which it stands. -/
theorem position?_eq_some_iff {i : Nat} (hn : (idsAll q.operands).Nodup) :
    q.position? x = some i ↔ ∃ c, q.operands[i]? = some c ∧ c.id = x := by
  rw [position?, List.findIdx?_eq_some_iff_getElem]
  constructor
  · rintro ⟨hi, hid, -⟩
    exact ⟨q.operands[i], List.getElem?_eq_getElem hi, by simpa using hid⟩
  · rintro ⟨c, hc, rfl⟩
    obtain ⟨hi, rfl⟩ := List.getElem?_eq_some_iff.mp hc
    refine ⟨hi, by simp, fun j hj hid => ?_⟩
    -- an earlier operand with the id would be the same one
    have hj' : j < q.operands.length := by omega
    have hmap : (q.operands.map Block.id)[j]? = (q.operands.map Block.id)[i]? := by
      simpa [List.getElem?_eq_getElem hi, List.getElem?_eq_getElem hj'] using hid
    have hji : j = i := (List.getElem?_inj (by simpa using hj') (Block.nodup_map_id hn)).mp hmap
    omega

/-- Going from a block to its holder and on from there ends at the outermost operator. -/
theorem climb (hn : o.toBlock.ids.Nodup) {path : Path} (h : o.toBlock = Path.plug path c) :
    Relation.ReflTransGen (fun y p => o.seekHolder? y = some p) c.id o.id := by
  induction path using List.reverseRecOn generalizing c with
  | nil =>
    obtain rfl : o.toBlock = c := h
    exact .refl
  | append_singleton path f ih =>
    obtain ⟨q, hq, hid, hmem, -⟩ := exists_holder_iff.mpr ⟨rfl, path, f, rfl, h⟩
    have hstep : o.seekHolder? c.id = some f.id := by
      rw [seekHolder?_eq_holder? hn]
      exact (holder?_eq_some_iff hn).mpr ⟨q, c, hq, hid, hmem, rfl⟩
    rw [Path.plug_concat] at h
    exact .head hstep (ih h)

/-! ## The searches agree -/

/-- What the walks from an operator find, compared with each other, with the searches by recursion
and with the blocks that are there. -/
structure WalksAgree (o : Operator) : Prop where
  /-- Blocks are found as by recursion. -/
  block_eq (x : BlockId) : o.seek? x = o.find? x
  /-- Operators are found as by recursion. -/
  operator_eq (x : BlockId) : o.seekOperator? x = o.operatorAt? x
  /-- Holders are found as by recursion. -/
  holder_eq (x : BlockId) : o.seekHolder? x = o.holder? x
  /-- A block is found for the ids that occur below the operator. -/
  block_isSome (x : BlockId) : (o.seek? x).isSome = true ↔ x ∈ idsAll o.operands
  /-- A holder is found for the same ids. -/
  holder_isSome (x : BlockId) : (o.seekHolder? x).isSome = true ↔ x ∈ idsAll o.operands
  /-- The block that is found is the only one with the id below the operator. -/
  block (x : BlockId) (c : Block) : o.seek? x = some c → ∀ d, o.HasBelow d ∧ d.id = x ↔ d = c
  /-- The operators that are found are the operator and those below it. -/
  operator (x : BlockId) (q : Operator) : o.seekOperator? x = some q ↔ o.Includes q ∧ q.id = x
  /-- The holder is the operator that has the block among its operands. -/
  holder (x p : BlockId) : o.seekHolder? x = some p ↔
    ∃ q, o.seekOperator? p = some q ∧ ∃ b ∈ q.operands, b.id = x
  /-- There is exactly one holder of a block below the operator. -/
  one_holder (x : BlockId) : x ∈ idsAll o.operands →
    ∃! p, ∃ q, o.seekOperator? p = some q ∧ ∃ b ∈ q.operands, b.id = x
  /-- The position of a block is its index among the operands of an operator. -/
  position (p : BlockId) (q : Operator) (x : BlockId) (i : Nat) : o.seekOperator? p = some q →
    (q.position? x = some i ↔ ∃ b, q.operands[i]? = some b ∧ b.id = x)
  /-- Neither a block nor a holder is found for the id of the operator itself. -/
  top : o.seek? o.id = none ∧ o.seekHolder? o.id = none
  /-- Going from holder to holder ends at the operator. -/
  climbs (x : BlockId) : x ∈ o.toBlock.ids →
    Relation.ReflTransGen (fun y p => o.seekHolder? y = some p) x o.id

theorem block_isSome_iff (hn : o.toBlock.ids.Nodup) :
    (o.seek? x).isSome = true ↔ x ∈ idsAll o.operands := by
  rw [mem_idsAll_operands, Option.isSome_iff_exists]
  exact exists_congr fun c => seek?_eq_some_iff hn

theorem holder_eq_some_iff (hn : o.toBlock.ids.Nodup) :
    o.seekHolder? x = some p ↔ ∃ q, o.seekOperator? p = some q ∧ ∃ b ∈ q.operands, b.id = x := by
  rw [seekHolder?_eq_holder? hn, holder?_eq_some_iff hn]
  simp only [seekOperator?_eq_operatorAt? hn, operatorAt?_eq_some_iff hn, and_assoc, exists_and_left]

theorem holder_isSome_iff (hn : o.toBlock.ids.Nodup) :
    (o.seekHolder? x).isSome = true ↔ x ∈ idsAll o.operands := by
  rw [mem_idsAll_operands, Option.isSome_iff_exists, seekHolder?_eq_holder? hn]
  constructor
  · rintro ⟨p, hp⟩
    obtain ⟨q, c, hq, -, hc, hid⟩ := (holder?_eq_some_iff hn).mp hp
    exact ⟨c, hasBelow_iff.mpr ⟨q, hq, hc⟩, hid⟩
  · rintro ⟨c, hbelow, hid⟩
    obtain ⟨q, hq, hc⟩ := hasBelow_iff.mp hbelow
    exact ⟨q.id, (holder?_eq_some_iff hn).mpr ⟨q, c, hq, rfl, hc, hid⟩⟩

/-- All ids are different, so the walks agree. The conditions of any block are listed from right to
left, each of them once, and a root is met exactly if there is one. -/
theorem walks_agree (hn : o.toBlock.ids.Nodup) :
    o.WalksAgree ∧ ∀ b : Block,
      (∀ c, c ∈ b.listConditions ↔ ∃ path, b = Path.plug path (.condition c)) ∧
      (b.ids.Nodup → (b.listConditions.map (·.id)).Nodup) ∧
      b.listConditions = b.conditions.reverse ∧ b.meetsRoot = b.hasRoot ∧
      (b.meetsRoot = true ↔
        ∃ path, ∃ q : Operator, b = Path.plug path q.toBlock ∧ q.kind = .root) := by
  have htop : o.id ∉ idsAll o.operands := (List.nodup_cons.mp hn).1
  refine ⟨?_, fun b => ⟨fun c => Block.mem_listConditions, Block.nodup_listConditions,
    b.listConditions_eq_reverse, b.meetsRoot_eq_hasRoot, Block.meetsRoot_iff⟩⟩
  exact {
    block_eq := seek?_eq_find? hn
    operator_eq := seekOperator?_eq_operatorAt? hn
    holder_eq := seekHolder?_eq_holder? hn
    block_isSome := fun _ => block_isSome_iff hn
    holder_isSome := fun _ => holder_isSome_iff hn
    block := fun x c hc d => by
      rw [← seek?_eq_some_iff hn, hc, Option.some.injEq, eq_comm]
    operator := fun x q => by
      rw [seekOperator?_eq_operatorAt? hn, operatorAt?_eq_some_iff hn]
    holder := fun _ _ => holder_eq_some_iff hn
    one_holder := fun x hx => by
      obtain ⟨p, hp⟩ := Option.isSome_iff_exists.mp ((holder_isSome_iff hn).mpr hx)
      refine ⟨p, (holder_eq_some_iff hn).mp hp, fun p' hp' => ?_⟩
      rw [(holder_eq_some_iff hn).mpr hp'] at hp
      exact Option.some.inj hp
    position := fun p q x i hq => by
      rw [seekOperator?_eq_operatorAt? hn] at hq
      exact position?_eq_some_iff (nodup_operands hn hq)
    top := by
      rw [← Option.not_isSome_iff_eq_none, ← Option.not_isSome_iff_eq_none, block_isSome_iff hn,
        holder_isSome_iff hn]
      exact ⟨htop, htop⟩
    climbs := fun x hx => by
      obtain ⟨path, c, hpath, rfl⟩ := Block.exists_path_of_mem_ids hx
      exact climb hn hpath }

/-- Conditions in a negation and beside it. The negation comes last among the operands, so a walk
meets its condition first. -/
theorem walks_agree_around_negation :
    let c (n : Nat) : Condition := ⟨⟨n⟩, none, none, none⟩
    let o : Operator := ⟨⟨1⟩, .and, [.condition (c 2), .operator ⟨3⟩ .not [.condition (c 4)]]⟩
    o.toBlock.ids.Nodup ∧ o.WalksAgree ∧ o.seek? ⟨4⟩ = some (.condition (c 4)) ∧
      o.seekHolder? ⟨4⟩ = some ⟨3⟩ ∧ o.seekHolder? ⟨3⟩ = some ⟨1⟩ ∧ o.seekHolder? ⟨1⟩ = none ∧
      o.toBlock.listConditions = [c 4, c 2] ∧ o.toBlock.meetsRoot = false := by
  intro c o
  have hn : o.toBlock.ids.Nodup := by decide
  obtain ⟨hagree, hblocks⟩ := walks_agree hn
  obtain ⟨-, -, hlist, hroot, -⟩ := hblocks o.toBlock
  exact ⟨hn, hagree, (hagree.block_eq ⟨4⟩).trans rfl, (hagree.holder_eq ⟨4⟩).trans rfl,
    (hagree.holder_eq ⟨3⟩).trans rfl, hagree.top.2, hlist.trans rfl, hroot.trans rfl⟩

end Operator

end SearchComposer
