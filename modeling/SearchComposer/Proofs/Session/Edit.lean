import SearchComposer.Proofs.Condition
import SearchComposer.Proofs.Tree.Edit
import SearchComposer.Session

/-!
# What edits of a session do

For each edit: when it is made and which session it leaves. An edit of the tree is made exactly when
the tree allows it; the edits of conditions look up the condition and its draft first.
-/

namespace SearchComposer

namespace Session

variable {α : Type} {s s' : Session} {p x : BlockId} {b : Block}

/-! ## Steps -/

theorem onTree_apply (edit : Tree.Edit α) (s : Session) :
    onTree edit s = match edit s.tree with
      | .ok a t => .ok a { s with tree := t }
      | .error e t => .error e { s with tree := t } := rfl

theorem onTree_eq_ok {edit : Tree.Edit α} {a : α} :
    onTree edit s = .ok a s' ↔ ∃ t, edit s.tree = .ok a t ∧ s' = { s with tree := t } := by
  rw [onTree_apply]
  cases edit s.tree with
  | ok a' t => simp [eq_comm]
  | error e t => simp

theorem atomic_onTree {edit : Tree.Edit α} (h : Atomic edit) : Atomic (onTree edit) := by
  intro s e s' he
  rw [onTree_apply] at he
  cases ht : edit s.tree with
  | ok a t => simp [ht] at he
  | error e' t =>
    rw [ht] at he
    obtain ⟨-, rfl⟩ := EStateM.Result.error.inj he
    rw [h _ _ _ ht]

theorem requireComplete_eq_ok {u : Unit} :
    requireComplete b s = .ok u s' ↔ (∀ c ∈ b.conditions, c.isComplete = true) ∧ s = s' := by
  unfold requireComplete incomplete?
  cases hc : b.conditions.reverse.find? (!·.isComplete) with
  | none =>
    have hall : ∀ c ∈ b.conditions, c.isComplete = true := by simpa using hc
    simpa using fun _ => hall
  | some c =>
    have hmem := List.mem_reverse.mp (List.mem_of_find?_eq_some hc)
    have hfalse : c.isComplete = false := by simpa using List.find?_some hc
    simp only [throw_ne_ok, false_iff, not_and]
    intro hall
    simp [hall c hmem] at hfalse

theorem looks_requireComplete (b : Block) : Looks (requireComplete b) := by
  unfold requireComplete
  split
  · exact looks_throw _
  · exact looks_pure _

theorem condition_apply (x : BlockId) (s : Session) :
    condition x s = match s.tree.find? x with
      | some (.condition c) => .ok c s
      | some (.operator ..) => .error (.notACondition x) s
      | none => .error (.blockNotFound x) s := by
  show (match s.tree.find? x with
    | some (.condition c) => (pure c : Edit Condition)
    | some (.operator ..) => throw (Refusal.notACondition x)
    | none => throw (Refusal.blockNotFound x)) s = _
  cases s.tree.find? x with
  | none => rfl
  | some b => cases b <;> rfl

theorem condition_eq_ok {c : Condition} :
    condition x s = .ok c s' ↔ s.tree.find? x = some (.condition c) ∧ s = s' := by
  rw [condition_apply]
  split <;> simp_all

theorem looks_condition (x : BlockId) : Looks (condition x) := by
  intro s
  rw [condition_apply]
  split
  · exact .inl ⟨_, rfl⟩
  · exact .inr ⟨_, rfl⟩
  · exact .inr ⟨_, rfl⟩

theorem draft_apply (x : BlockId) (s : Session) :
    draft x s = match s.drafts.get? x with
      | some d => .ok d s
      | none => .error (.notEdited x) s := by
  show (match s.drafts.get? x with
    | some d => (pure d : Edit Draft)
    | none => throw (Refusal.notEdited x)) s = _
  cases s.drafts.get? x <;> rfl

theorem draft_eq_ok {d : Draft} :
    draft x s = .ok d s' ↔ s.drafts.get? x = some d ∧ s = s' := by
  rw [draft_apply]
  split <;> simp_all

theorem looks_draft (x : BlockId) : Looks (draft x) := by
  intro s
  rw [draft_apply]
  split
  · exact .inl ⟨_, rfl⟩
  · exact .inr ⟨_, rfl⟩

@[simp] theorem modifyDrafts_eq_ok {f : Drafts → Drafts} {u : Unit} :
    modifyDrafts f s = .ok u s' ↔ { s with drafts := f s.drafts } = s' := by
  simp [modifyDrafts]

@[simp] theorem forget_eq_ok {u : Unit} :
    forget b s = .ok u s' ↔ { s with drafts := s.drafts.forget b } = s' := by
  simp [forget]

/-! ## Edits of the tree -/

theorem wrap_condition (p : BlockId) (main : Block) (c : Condition) (s : Session) :
    wrap p main (.condition c) s = .error (.operandLimit .root 1) s := rfl

theorem wrap_toBlock (p : BlockId) (main : Block) (o : Operator) (s : Session) :
    wrap p main o.toBlock s =
      if o.toBlock.hasRoot = true then .error .rootNotNestable s
      else if o.hasRoom = true then
        (do
          let previous ← onTree (Tree.replace p main.id o.toBlock)
          discard (onTree (Tree.add o.id previous))
          return o.id : Edit BlockId) s
      else .error (.operandLimit o.kind (o.kind.limit?.getD o.operands.length)) s := by
  unfold wrap
  simp only [Block.operator?_toBlock]
  cases o.toBlock.hasRoot with
  | true => rfl
  | false => cases o.hasRoom <;> rfl

/-- The main block is taken in by an operator that has room for it. -/
theorem wrap_eq_ok {main : Block} {o : Operator} :
    wrap p main o.toBlock s = .ok x s' ↔ o.toBlock.hasRoot = false ∧ o.hasRoom = true ∧ x = o.id ∧
      ∃ out t y t', Tree.replace p main.id o.toBlock s.tree = .ok out t ∧
        Tree.add o.id out t = .ok y t' ∧ s' = { s with tree := t' } := by
  rw [wrap_toBlock]
  cases o.toBlock.hasRoot with
  | true => simp
  | false =>
    cases o.hasRoom with
    | false => simp
    | true =>
      simp only [Bool.false_eq_true, if_false, if_true, bind_eq_ok, discard_eq_ok, onTree_eq_ok,
        pure_eq_ok]
      constructor
      · rintro ⟨out, _, ⟨t, hreplace, rfl⟩, _, _, ⟨y, t', hadd, rfl⟩, rfl, rfl⟩
        exact ⟨trivial, trivial, rfl, out, t, y, t', hreplace, hadd, rfl⟩
      · rintro ⟨-, -, rfl, out, t, y, t', hreplace, hadd, rfl⟩
        exact ⟨out, _, ⟨t, hreplace, rfl⟩, (), _, ⟨y, t', hadd, rfl⟩, rfl, rfl⟩

/-- If the main block is not taken in, then nothing was changed or the operator that was put in its
place refused it. -/
theorem wrap_eq_error {main : Block} {o : Operator} {e : Refusal}
    (h : wrap p main o.toBlock s = .error e s') :
    s' = s ∨ o.hasRoom = true ∧ ∃ out t e' t', Tree.replace p main.id o.toBlock s.tree = .ok out t ∧
      Tree.add o.id out t = .error e' t' := by
  rw [wrap_toBlock] at h
  split at h
  · exact .inl (EStateM.Result.error.inj h).2.symm
  · split at h
    · next hroom =>
      rcases bind_eq_error.mp h with hrefused | ⟨out, s₁, hmade, h⟩
      · exact .inl (atomic_onTree (Tree.atomic_replace p main.id o.toBlock) _ _ _ hrefused)
      · obtain ⟨t, hreplace, rfl⟩ := onTree_eq_ok.mp hmade
        rcases bind_eq_error.mp h with hadd | ⟨_, _, -, h⟩
        · rw [discard_eq_error, onTree_apply] at hadd
          cases ht : Tree.add o.id out t with
          | ok y t' => simp [ht] at hadd
          | error e' t' => exact .inr ⟨hroom, out, t, e', t', hreplace, ht⟩
        · exact absurd h pure_ne_error
    · exact .inl (EStateM.Result.error.inj h).2.symm

/-- A block with a condition that is not complete is refused because of such a condition, whatever
else is wrong. -/
theorem add_of_incomplete (hb : ¬∀ c ∈ b.conditions, c.isComplete = true) (p : BlockId)
    (s : Session) :
    ∃ c ∈ b.conditions, c.isComplete = false ∧ add p b s = .error (.incomplete c.id) s := by
  cases hc : incomplete? b with
  | none =>
    have hall : ∀ c ∈ b.conditions, c.isComplete = true := by simpa [incomplete?] using hc
    exact absurd hall hb
  | some c =>
    have hmem := List.mem_reverse.mp (List.mem_of_find?_eq_some hc)
    have hfalse : c.isComplete = false := by simpa using List.find?_some hc
    have hrefused : requireComplete b s = .error (.incomplete c.id) s := by
      unfold requireComplete
      rw [hc]
      rfl
    exact ⟨c, hmem, hfalse, bind_of_error hrefused _⟩

/-- If the root holds a block already, a block with complete conditions has to take that one in. -/
theorem add_of_complete (hb : ∀ c ∈ b.conditions, c.isComplete = true) (p : BlockId)
    (s : Session) :
    add p b s = match s.tree.main? with
      | some main => if p = s.tree.root.id then wrap p main b s else onTree (Tree.add p b) s
      | none => onTree (Tree.add p b) s := by
  unfold add
  rw [bind_of_ok (requireComplete_eq_ok (u := ()).mpr ⟨hb, rfl⟩), get_bind]
  cases s.tree.main? with
  | none => rfl
  | some main => by_cases hp : p = s.tree.root.id <;> simp [hp]

/-- A block is refused at once, or its conditions are complete and it is added to the tree as it is
or takes in the main block. -/
theorem add_cases (p : BlockId) (b : Block) (s : Session) :
    (∃ e, add p b s = .error e s) ∨ (∀ c ∈ b.conditions, c.isComplete = true) ∧
      (add p b s = onTree (Tree.add p b) s ∨
        ∃ (main : Block) (o : Operator), b = o.toBlock ∧ add p b s = wrap p main o.toBlock s) := by
  by_cases hb : ∀ c ∈ b.conditions, c.isComplete = true
  · have hadd := add_of_complete hb p s
    split at hadd
    · next main hmain =>
      split at hadd
      · cases b with
        | condition c => exact .inl ⟨_, hadd.trans (wrap_condition p main c s)⟩
        | operator id kind operands =>
          exact .inr ⟨hb, .inr ⟨main, ⟨id, kind, operands⟩, rfl, hadd⟩⟩
      · exact .inr ⟨hb, .inl hadd⟩
    · exact .inr ⟨hb, .inl hadd⟩
  · obtain ⟨c, -, -, hrefused⟩ := add_of_incomplete hb p s
    exact .inl ⟨_, hrefused⟩

theorem replace_eq_ok {old : BlockId} {u : Unit} :
    replace p old b s = .ok u s' ↔ (∀ c ∈ b.conditions, c.isComplete = true) ∧
      ∃ out t, Tree.replace p old b s.tree = .ok out t ∧
        s' = { s with tree := t, drafts := s.drafts.forget out } := by
  simp only [replace, bind_eq_ok, requireComplete_eq_ok, onTree_eq_ok, forget_eq_ok]
  grind

theorem remove_eq_ok {u : Unit} :
    remove p x s = .ok u s' ↔ ∃ out t, Tree.remove p x s.tree = .ok out t ∧
      s' = { s with tree := t, drafts := s.drafts.forget out } := by
  simp only [remove, bind_eq_ok, onTree_eq_ok, forget_eq_ok]
  grind

/-! ## Edits of conditions -/

theorem startEdit_eq_ok {u : Unit} :
    startEdit x s = .ok u s' ↔ ∃ c, s.tree.find? x = some (.condition c) ∧
      s' = { s with drafts := s.drafts.start x c.value? } := by
  simp only [startEdit, bind_eq_ok, condition_eq_ok, modifyDrafts_eq_ok]
  grind

theorem updateEdit_eq_ok {input : Input} {isValid : Bool} :
    updateEdit x input s = .ok isValid s' ↔
      ∃ c d, s.tree.find? x = some (.condition c) ∧ s.drafts.get? x = some d ∧
        isValid = c.accepts (input.apply d.value?) ∧
        s' = { s with drafts := s.drafts.update x (input.apply d.value?) isValid } := by
  simp only [updateEdit, bind_eq_ok, condition_eq_ok, draft_eq_ok, modifyDrafts_eq_ok, pure_eq_ok]
  grind [Condition.accepts]

theorem finishEdit_apply (x : BlockId) (s : Session) :
    finishEdit x s = match s.drafts.get? x with
      | none => .error (.notEdited x) s
      | some d =>
        if d.isValid = true then
          match s.tree.condition? x with
          | none => .error (.blockNotFound x) s
          | some _ =>
            .ok () { s with tree := s.tree.setValue x d.value?, drafts := s.drafts.finish x }
        else .error (.invalidValue x) s := by
  unfold finishEdit
  cases hd : s.drafts.get? x with
  | none => exact bind_of_error (by rw [draft_apply, hd]) _
  | some d =>
    rw [bind_of_ok (by rw [draft_apply, hd])]
    cases hv : d.isValid with
    | false =>
      simp only [hv, Bool.not_false, if_true, Bool.false_eq_true, if_false]
      exact bind_of_error (throw_eq_error.mpr ⟨rfl, rfl⟩) _
    | true =>
      simp only [hv, Bool.not_true, Bool.false_eq_true, if_false, if_true, get_bind]
      cases s.tree.condition? x <;> rfl

theorem finishEdit_eq_ok {u : Unit} :
    finishEdit x s = .ok u s' ↔
      ∃ d c, s.drafts.get? x = some d ∧ d.isValid = true ∧ s.tree.condition? x = some c ∧
        s' = { s with tree := s.tree.setValue x d.value?, drafts := s.drafts.finish x } := by
  rw [finishEdit_apply]
  cases s.drafts.get? x with
  | none => simp
  | some d =>
    cases hv : d.isValid with
    | false => simp [hv]
    | true => cases s.tree.condition? x <;> simp [hv, eq_comm (b := s')]

theorem cancelEdit_apply (x : BlockId) (s : Session) :
    cancelEdit x s = match s.drafts.get? x with
      | none => .error (.notEdited x) s
      | some _ => .ok () { s with drafts := s.drafts.finish x } := by
  unfold cancelEdit
  cases hd : s.drafts.get? x with
  | none => exact bind_of_error (discard_eq_error.mpr (by rw [draft_apply, hd])) _
  | some d => exact bind_of_ok (discard_eq_ok (u := ()).mpr ⟨d, by rw [draft_apply, hd]⟩) _

theorem cancelEdit_eq_ok {u : Unit} :
    cancelEdit x s = .ok u s' ↔
      (∃ d, s.drafts.get? x = some d) ∧ s' = { s with drafts := s.drafts.finish x } := by
  rw [cancelEdit_apply]
  cases s.drafts.get? x <;> simp [eq_comm]

/-! ## Edits that are refused -/

theorem succeeds_forget (b : Block) : Succeeds (forget b) := succeeds_modify _

theorem succeeds_modifyDrafts (f : Drafts → Drafts) : Succeeds (modifyDrafts f) := succeeds_modify _

theorem atomic_replace (p old : BlockId) (b : Block) : Atomic (replace p old b) :=
  (looks_requireComplete b).bind fun _ =>
    (atomic_onTree (Tree.atomic_replace p old b)).bind succeeds_forget

theorem atomic_remove (p x : BlockId) : Atomic (remove p x) :=
  (atomic_onTree (Tree.atomic_remove p x)).bind succeeds_forget

theorem atomic_surround (x p : BlockId) (kind : Connective) : Atomic (surround x p kind) :=
  atomic_onTree (Tree.atomic_surround x p kind)

theorem atomic_change (x p : BlockId) (kind : Connective) : Atomic (change x p kind) :=
  atomic_onTree (Tree.atomic_change x p kind)

theorem atomic_flatten (x p : BlockId) : Atomic (flatten x p) :=
  atomic_onTree (Tree.atomic_flatten x p)

theorem atomic_startEdit (x : BlockId) : Atomic (startEdit x) :=
  (looks_condition x).bind fun _ => (succeeds_modifyDrafts _).atomic

theorem atomic_updateEdit (x : BlockId) (input : Input) : Atomic (updateEdit x input) :=
  (looks_condition x).bind fun _ => (looks_draft x).bind fun _ =>
    ((succeeds_modifyDrafts _).bind fun _ => succeeds_pure _).atomic

theorem atomic_finishEdit (x : BlockId) : Atomic (finishEdit x) := by
  intro s e s' h
  rw [finishEdit_apply] at h
  grind

theorem atomic_cancelEdit (x : BlockId) : Atomic (cancelEdit x) := by
  intro s e s' h
  rw [cancelEdit_apply] at h
  grind

end Session

end SearchComposer
