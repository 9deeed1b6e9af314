import SearchComposer.Proofs.Block.Change
import SearchComposer.Proofs.Block.Supply
import SearchComposer.Proofs.Steps
import SearchComposer.Tree.Edit

/-!
# What edits of a tree do

For each edit: when it is made, what it returns and which tree it leaves. All of them look first and
change the tree last, so an edit that is refused changes nothing.
-/

namespace SearchComposer.Tree

variable {α : Type} {t t' : Tree}

/-! ## Steps -/

theorem look_apply (lookUp : Tree → Except Refusal α) (t : Tree) :
    look lookUp t = match lookUp t with
      | .ok a => .ok a t
      | .error e => .error e t := by
  show (match lookUp t with
    | .ok a => (pure a : Edit α)
    | .error e => throw e) t = _
  cases lookUp t <;> rfl

@[simp] theorem look_eq_ok {lookUp : Tree → Except Refusal α} {a : α} :
    look lookUp t = .ok a t' ↔ lookUp t = .ok a ∧ t = t' := by
  rw [look_apply]
  cases lookUp t <;> simp

theorem looks_look (lookUp : Tree → Except Refusal α) : Looks (look lookUp) := by
  intro t
  rw [look_apply]
  cases lookUp t with
  | ok a => exact .inl ⟨a, rfl⟩
  | error e => exact .inr ⟨e, rfl⟩

@[simp] theorem requireNestable_eq_ok {b : Block} {u : Unit} :
    requireNestable b t = .ok u t' ↔ b.hasRoot = false ∧ t = t' := by
  cases h : b.hasRoot <;> simp [requireNestable, h]

theorem looks_requireNestable (b : Block) : Looks (requireNestable b) := by
  unfold requireNestable
  split
  · exact looks_throw _
  · exact looks_pure _

@[simp] theorem requireSelectable_eq_ok {kind : Connective} {u : Unit} :
    requireSelectable kind t = .ok u t' ↔ kind ≠ .root ∧ t = t' := by
  by_cases h : kind = .root <;> simp [requireSelectable, h]

theorem looks_requireSelectable (kind : Connective) : Looks (requireSelectable kind) := by
  unfold requireSelectable
  split
  · exact looks_throw _
  · exact looks_pure _

@[simp] theorem setOperands_eq_ok {p : BlockId} {operands : List Block} {u : Unit} :
    setOperands p operands t = .ok u t' ↔
      { t with root := t.root.setOperands p operands } = t' :=
  modify_eq_ok

@[simp] theorem takeId_eq_ok {x : BlockId} :
    takeId t = .ok x t' ↔ ⟨t.supply.next⟩ = x ∧ { t with supply := ⟨t.supply.next + 1⟩ } = t' := by
  show EStateM.Result.ok (⟨t.supply.next⟩ : BlockId) (⟨t.root, ⟨t.supply.next + 1⟩⟩ : Tree) =
    .ok x t' ↔ _
  rw [EStateM.Result.ok.injEq]

/-! ## Places -/

@[simp] theorem operatorAt_eq_ok {p : BlockId} {o : Operator} :
    t.operatorAt p = .ok o ↔ t.operatorAt? p = some o := by
  unfold operatorAt
  cases t.operatorAt? p <;> simp

theorem slotAt_eq_ok {p x : BlockId} {o : Operator} {s : Slot} :
    t.slotAt p x = .ok (o, s) ↔ t.operatorAt? p = some o ∧ o.slot? x = some s := by
  unfold slotAt operatorAt
  cases t.operatorAt? p with
  | none => simp [bind, Except.bind]
  | some q =>
    simp only [bind, Except.bind, Option.some.injEq]
    cases hs : q.slot? x <;> grind

theorem operatorSlotAt_eq_ok {p x : BlockId} {o inner : Operator} {s : Slot} :
    t.operatorSlotAt p x = .ok (o, s, inner) ↔
      t.operatorAt? p = some o ∧ o.slot? x = some s ∧ s.block = inner.toBlock := by
  rw [← and_assoc, ← slotAt_eq_ok]
  unfold operatorSlotAt
  cases t.slotAt p x with
  | error e => simp [bind, Except.bind]
  | ok os =>
    obtain ⟨o', s'⟩ := os
    simp only [bind, Except.bind, Except.ok.injEq, Prod.mk.injEq]
    cases hb : s'.block.operator? with
    | none =>
      simp only [reduceCtorEq, false_iff]
      rintro ⟨⟨-, rfl⟩, h⟩
      simp [h] at hb
    | some o =>
      have hs := Operator.toBlock_eq_of_operator? hb
      simp only [Except.ok.injEq, Prod.mk.injEq, ← and_assoc]
      refine and_congr_right fun ⟨_, hs'⟩ => ?_
      subst hs'
      exact ⟨fun h => h ▸ hs, fun h => by simpa [h] using hb.symm⟩

theorem canSplice_eq_true {outer inner : Operator} : canSplice outer inner = true ↔
    inner.operands = [] ∨
      outer.kind.fits (outer.operands.length - 1 + inner.operands.length) = true := by
  rw [canSplice, Bool.or_eq_true, List.isEmpty_iff]

/-! ## Edits that are made -/

theorem add_eq_ok {p x : BlockId} {b : Block} :
    add p b t = .ok x t' ↔
      b.hasRoot = false ∧ ∃ q, t.operatorAt? p = some q ∧ q.hasRoom = true ∧ x = b.id ∧
        t' = { t with root := t.root.setOperands p (q.operands ++ [b]) } := by
  simp only [add, bind_eq_ok, requireNestable_eq_ok, look_eq_ok, operatorAt_eq_ok]
  constructor
  · rintro ⟨_, _, ⟨hb, rfl⟩, q, _, ⟨hq, rfl⟩, h⟩
    cases hp : q.push b with
    | error e => simp [hp] at h
    | ok q' =>
      obtain ⟨-, hroom, rfl⟩ := Operator.push_eq_ok.mp hp
      simp only [hp, bind_eq_ok, setOperands_eq_ok, pure_eq_ok] at h
      obtain ⟨_, _, rfl, rfl, rfl⟩ := h
      exact ⟨hb, q, hq, hroom, rfl, rfl⟩
  · rintro ⟨hb, q, hq, hroom, rfl, rfl⟩
    have hp := Operator.push_eq_ok.mpr ⟨hb, hroom, rfl⟩
    refine ⟨(), t, ⟨hb, rfl⟩, q, t, ⟨hq, rfl⟩, ?_⟩
    simp only [hp, bind_eq_ok, setOperands_eq_ok, pure_eq_ok]
    exact ⟨(), _, rfl, trivial, rfl⟩

theorem replace_eq_ok {p old : BlockId} {b out : Block} :
    replace p old b t = .ok out t' ↔
      b.hasRoot = false ∧ ∃ q s, t.operatorAt? p = some q ∧ q.slot? old = some s ∧
        out = s.block ∧ t' = { t with root := t.root.setOperands p (s.fill [b]) } := by
  simp only [replace, bind_eq_ok, requireNestable_eq_ok, look_eq_ok, Prod.exists, slotAt_eq_ok,
    setOperands_eq_ok, pure_eq_ok]
  grind

theorem remove_eq_ok {p x : BlockId} {out : Block} :
    remove p x t = .ok out t' ↔
      ∃ q s, t.operatorAt? p = some q ∧ q.slot? x = some s ∧
        out = s.block ∧ t' = { t with root := t.root.setOperands p (s.fill []) } := by
  simp only [remove, bind_eq_ok, look_eq_ok, Prod.exists, slotAt_eq_ok, setOperands_eq_ok,
    pure_eq_ok]
  grind

theorem surround_eq_ok {x p y : BlockId} {kind : Connective} :
    surround x p kind t = .ok y t' ↔
      kind ≠ .root ∧ ∃ q s, t.operatorAt? p = some q ∧ q.slot? x = some s ∧
        y = ⟨t.supply.next⟩ ∧
        t' = ⟨t.root.setOperands p (s.fill [.operator y kind [s.block]]), ⟨t.supply.next + 1⟩⟩ := by
  simp only [surround, bind_eq_ok, requireSelectable_eq_ok, look_eq_ok, Prod.exists, slotAt_eq_ok,
    takeId_eq_ok, setOperands_eq_ok, pure_eq_ok]
  grind

theorem change_eq_ok {x p y : BlockId} {kind : Connective} :
    change x p kind t = .ok y t' ↔
      kind ≠ .root ∧ ∃ q s, ∃ o : Operator, t.operatorAt? p = some q ∧ q.slot? x = some s ∧
        s.block = o.toBlock ∧ kind.fits o.operands.length = true ∧ y = ⟨t.supply.next⟩ ∧
        t' = ⟨t.root.setOperands p (s.fill [.operator y kind o.operands]),
          ⟨t.supply.next + 1⟩⟩ := by
  simp only [change, bind_eq_ok, requireSelectable_eq_ok, look_eq_ok, Prod.exists,
    operatorSlotAt_eq_ok]
  constructor
  · rintro ⟨_, _, ⟨hkind, rfl⟩, q, s, o, _, ⟨⟨hq, hs, ho⟩, rfl⟩, h⟩
    by_cases hfits : kind.fits o.operands.length = true
    · simp only [hfits, if_true, bind_eq_ok, takeId_eq_ok, setOperands_eq_ok, pure_eq_ok] at h
      obtain ⟨_, _, ⟨rfl, rfl⟩, _, _, rfl, rfl, rfl⟩ := h
      exact ⟨hkind, q, s, o, hq, hs, ho, hfits, rfl, rfl⟩
    · simp [hfits] at h
  · rintro ⟨hkind, q, s, o, hq, hs, ho, hfits, rfl, rfl⟩
    refine ⟨(), t, ⟨hkind, rfl⟩, q, s, o, t, ⟨⟨hq, hs, ho⟩, rfl⟩, ?_⟩
    simp only [hfits, if_true, bind_eq_ok, takeId_eq_ok, setOperands_eq_ok, pure_eq_ok]
    exact ⟨_, _, ⟨rfl, rfl⟩, (), _, rfl, rfl, rfl⟩

theorem flatten_eq_ok {x p : BlockId} {u : Unit} :
    flatten x p t = .ok u t' ↔
      ∃ q s o, t.operatorAt? p = some q ∧ q.slot? x = some s ∧ s.block = o.toBlock ∧
        canSplice q o = true ∧
        t' = { t with root := t.root.setOperands p (s.fill o.operands) } := by
  simp only [flatten, bind_eq_ok, look_eq_ok, Prod.exists, operatorSlotAt_eq_ok]
  constructor
  · rintro ⟨q, s, o, _, ⟨⟨hq, hs, ho⟩, rfl⟩, h⟩
    by_cases hsplice : canSplice q o = true
    · simp only [hsplice, if_true, setOperands_eq_ok] at h
      exact ⟨q, s, o, hq, hs, ho, hsplice, h.symm⟩
    · simp [hsplice] at h
  · rintro ⟨q, s, o, hq, hs, ho, hsplice, rfl⟩
    refine ⟨q, s, o, t, ⟨⟨hq, hs, ho⟩, rfl⟩, ?_⟩
    simp [hsplice]

/-! ## Edits that are refused -/

theorem succeeds_setOperands (p : BlockId) (operands : List Block) :
    Succeeds (setOperands p operands) := succeeds_modify _

theorem succeeds_takeId : Succeeds takeId := fun _ => ⟨_, _, rfl⟩

theorem atomic_add (p : BlockId) (b : Block) : Atomic (add p b) := by
  refine (looks_requireNestable b).bind fun _ => (looks_look _).bind fun o => ?_
  split
  · exact ((succeeds_setOperands _ _).bind fun _ => succeeds_pure _).atomic
  · exact (looks_throw _).atomic

theorem atomic_replace (p old : BlockId) (b : Block) : Atomic (replace p old b) :=
  (looks_requireNestable b).bind fun _ => (looks_look _).bind fun _ =>
    ((succeeds_setOperands _ _).bind fun _ => succeeds_pure _).atomic

theorem atomic_remove (p x : BlockId) : Atomic (remove p x) :=
  (looks_look _).bind fun _ => ((succeeds_setOperands _ _).bind fun _ => succeeds_pure _).atomic

theorem atomic_surround (x p : BlockId) (kind : Connective) : Atomic (surround x p kind) :=
  (looks_requireSelectable kind).bind fun _ => (looks_look _).bind fun _ =>
    (succeeds_takeId.bind fun _ =>
      (succeeds_setOperands _ _).bind fun _ => succeeds_pure _).atomic

theorem atomic_change (x p : BlockId) (kind : Connective) : Atomic (change x p kind) := by
  refine (looks_requireSelectable kind).bind fun _ => (looks_look _).bind ?_
  rintro ⟨-, slot, o⟩
  dsimp only
  split
  · exact (succeeds_takeId.bind fun _ =>
      (succeeds_setOperands _ _).bind fun _ => succeeds_pure _).atomic
  · exact (looks_throw _).atomic

theorem atomic_flatten (x p : BlockId) : Atomic (flatten x p) := by
  refine (looks_look _).bind ?_
  rintro ⟨outer, slot, inner⟩
  dsimp only
  split
  · exact (succeeds_setOperands _ _).atomic
  · exact (looks_throw _).atomic

end SearchComposer.Tree
