import SearchComposer.Proofs.Session.Sound

/-!
# A session and the blocks beside it

On a desk there is one session, and the loose blocks that are made for its tree, by a viewer or by
copying. They may have conditions that are not complete; then the session refuses them. The main
result says what holds after any sequence of moves, refused ones included: the session is
consistent. All conditions of the tree are complete, the drafts belong to conditions of the tree and
are judged rightly, a request can be made exactly if all drafts are acceptable, and exactly the
acceptable drafts can be put into their conditions.
-/

namespace SearchComposer.Session

/-- What can be relied on in a session. -/
structure Consistent (s : Session) : Prop where
  /-- Every condition of the tree has a property, and a comparator that accepts its value. -/
  complete : ∀ c ∈ s.tree.conditions, ∃ p k v, c.property? = some p ∧ c.comparator? = some k ∧
    c.value? = some v ∧ k.accepts (some v) = true
  /-- Every draft is that of a condition in the tree, and it is marked as valid exactly if the
  comparator of that condition accepts the value. -/
  edited : ∀ x d, s.drafts.get? x = some d → ∃ c k, c ∈ s.tree.conditions ∧ c.id = x ∧
    s.tree.condition? x = some c ∧ c.comparator? = some k ∧ d.isValid = k.accepts d.value?
  /-- A request can be made exactly if the value of every draft is accepted. -/
  submit : s.canSubmit = true ↔ ∀ x d c k, s.drafts.get? x = some d →
    s.tree.condition? x = some c → c.comparator? = some k → k.accepts d.value? = true
  /-- A draft is put into its condition exactly if its value is accepted. Otherwise the value is
  what is wrong, and the draft stays. -/
  finish : ∀ x d c k, s.drafts.get? x = some d → s.tree.condition? x = some c →
    c.comparator? = some k → finishEdit x s =
      if k.accepts d.value? = true then
        .ok () { s with tree := s.tree.setValue x d.value?, drafts := s.drafts.finish x }
      else .error (.invalidValue x) s

/-- A sound session is consistent. -/
theorem Sound.consistent {s : Session} {loose : List Block} (h : s.Sound loose) : s.Consistent where
  complete := fun c hc => Condition.exists_value_of_isComplete (h.complete c hc)
  edited := by
    intro x d hd
    obtain ⟨c, hc, hid, hvalid⟩ := h.edited x d hd
    obtain ⟨-, k, -, hk, -⟩ := Condition.isComplete_iff.mp (h.complete c hc)
    rw [Condition.accepts_eq hk] at hvalid
    exact ⟨c, k, hc, hid, h.tree.condition?_eq_some.mpr ⟨hc, hid⟩, hk, hvalid⟩
  submit := by
    rw [h.canSubmit_iff]
    constructor
    · intro hvalid x d c k hd hc hk
      obtain ⟨hmem, rfl⟩ := h.tree.condition?_eq_some.mp hc
      have haccepts := (h.isValid_eq hmem hd).symm.trans (hvalid c.id d hd)
      rwa [Condition.accepts_eq hk] at haccepts
    · intro haccepts x d hd
      obtain ⟨c, hc, rfl, hvalid⟩ := h.edited x d hd
      obtain ⟨-, k, -, hk, -⟩ := Condition.isComplete_iff.mp (h.complete c hc)
      rw [hvalid, Condition.accepts_eq hk]
      exact haccepts c.id d c k hd (h.tree.condition?_eq_some.mpr ⟨hc, rfl⟩) hk
  finish := by
    intro x d c k hd hc hk
    obtain ⟨hmem, rfl⟩ := h.tree.condition?_eq_some.mp hc
    have hvalid := h.isValid_eq hmem hd
    rw [Condition.accepts_eq hk] at hvalid
    rw [finishEdit_apply, hd, hc]
    simp [hvalid]

/-- A session and the loose blocks beside its tree. -/
structure Desk where
  /-- The session. -/
  session : Session
  /-- The blocks that are not in the tree. -/
  loose : List Block

/-- What can be done on a desk. Blocks that go into the tree are loose ones and are named by their
ids, as are the blocks of the tree. -/
inductive Move where
  /-- Loose blocks are made or dropped. -/
  | craft (c : Craft)
  /-- Other spaces can be chosen. -/
  | setSpaces (spaces : List Space)
  /-- The tree is emptied. -/
  | reset
  /-- A loose block is added to an operator, or takes in the main block. -/
  | add (p b : BlockId)
  /-- A loose block is put in the place of an operand. -/
  | replace (p old b : BlockId)
  /-- An operand is taken out. -/
  | remove (p x : BlockId)
  /-- A new operator is put around an operand. -/
  | surround (x p : BlockId) (kind : Connective)
  /-- An operator gets another kind. -/
  | change (x p : BlockId) (kind : Connective)
  /-- The operands of an operator are put in its place. -/
  | flatten (x p : BlockId)
  /-- A draft of a condition is started. -/
  | startEdit (x : BlockId)
  /-- A draft is changed. -/
  | updateEdit (x : BlockId) (input : Input)
  /-- A draft is put into its condition. -/
  | finishEdit (x : BlockId)
  /-- A draft is dropped. -/
  | cancelEdit (x : BlockId)

namespace Desk

/-- A session without blocks, beside loose blocks that were made before it. -/
def start (settings : Settings) (spaces : List Space) (supply : Supply) (crafts : List Craft) :
    Desk :=
  let (loose, supply) := (Craft.applyAll crafts []).run supply
  ⟨.new settings spaces supply, loose⟩

/-- Makes an edit. What a refused edit did to the session until then remains. -/
def edit {α : Type} (w : Desk) (e : Edit α) : Desk :=
  match e w.session with
  | .ok _ s => ⟨s, w.loose⟩
  | .error _ s => ⟨s, w.loose⟩

/-- Makes an edit with a loose block, which is used up even if the edit is refused. -/
def editWith {α : Type} (w : Desk) (x : BlockId) (e : Block → Edit α) : Desk :=
  match pick? x w.loose with
  | some (b, others) => edit ⟨w.session, others⟩ (e b)
  | none => w

/-- Makes a craft. The blocks of the tree can be copied too. -/
def craft (w : Desk) (c : Craft) : Desk :=
  let t := w.session.tree
  let (loose, supply) := (c.apply t.root.operands w.loose).run t.supply
  ⟨{ w.session with tree := { t with supply := supply } }, loose⟩

/-- The desk after a move. A move with a block that is not loose does nothing. -/
def step (w : Desk) : Move → Desk
  | .craft c => w.craft c
  | .setSpaces spaces => { w with session := w.session.setSpaces spaces }
  | .reset => { w with session := w.session.reset }
  | .add p x => w.editWith x (Session.add p)
  | .replace p old x => w.editWith x (Session.replace p old)
  | .remove p x => w.edit (Session.remove p x)
  | .surround x p kind => w.edit (Session.surround x p kind)
  | .change x p kind => w.edit (Session.change x p kind)
  | .flatten x p => w.edit (Session.flatten x p)
  | .startEdit x => w.edit (Session.startEdit x)
  | .updateEdit x input => w.edit (Session.updateEdit x input)
  | .finishEdit x => w.edit (Session.finishEdit x)
  | .cancelEdit x => w.edit (Session.cancelEdit x)

/-- The desk after some moves. -/
def run (w : Desk) (moves : List Move) : Desk := moves.foldl step w

/-- What holds of the session and the loose blocks after any moves. -/
def Sound (w : Desk) : Prop := w.session.Sound w.loose

theorem sound_start (settings : Settings) (spaces : List Space) (supply : Supply)
    (crafts : List Craft) : (start settings spaces supply crafts).Sound :=
  sound_empty (Craft.accounted_applyAll ⟨supply.covers_nil, rfl⟩ crafts) settings _

/-! ## One move -/

variable {w : Desk} {α : Type}

/-- An edit that is refused changes nothing. -/
theorem edit_cases {e : Edit α} (he : Atomic e) :
    w.edit e = w ∨ ∃ a s, e w.session = .ok a s ∧ w.edit e = ⟨s, w.loose⟩ := by
  unfold Desk.edit
  cases hr : e w.session with
  | ok a s => exact .inr ⟨a, s, rfl, rfl⟩
  | error r s => rw [he _ _ _ hr]; exact .inl rfl

/-- An edit with a loose block that is refused changes nothing but the loose blocks. -/
theorem Sound.editWith_cases (h : w.Sound) {x : BlockId} {e : Block → Edit α}
    (herr : ∀ b others r s, w.session.Sound (b :: others) → e b w.session = .error r s →
      s = w.session) :
    (w.editWith x e).session = w.session ∧ (w.editWith x e).Sound ∨
      ∃ b others a s, w.session.Sound (b :: others) ∧ e b w.session = .ok a s ∧
        w.editWith x e = ⟨s, others⟩ := by
  unfold Desk.editWith
  split
  · next b others hp =>
    have hb := h.of_perm (perm_of_pick? hp).2
    unfold Desk.edit
    cases hr : e b w.session with
    | ok a s => exact .inr ⟨b, others, a, s, hb, hr, rfl⟩
    | error r s => rw [herr b others r s hb hr]; exact .inl ⟨rfl, hb.tail⟩
  · exact .inl ⟨rfl, h⟩

/-- An edit that is refused changes nothing, so an edit has to keep the session sound only if it is
made. -/
theorem Sound.edit (h : w.Sound) {e : Edit α} (he : Atomic e)
    (hok : ∀ a s, e w.session = .ok a s → s.Sound w.loose) : (w.edit e).Sound := by
  rcases edit_cases he with hsame | ⟨a, s, hmade, hedit⟩
  · rwa [hsame]
  · rw [hedit]
    exact hok a s hmade

theorem Sound.editWith (h : w.Sound) {x : BlockId} {e : Block → Edit α}
    (herr : ∀ b others r s, w.session.Sound (b :: others) → e b w.session = .error r s →
      s = w.session)
    (hok : ∀ b others a s, w.session.Sound (b :: others) → e b w.session = .ok a s →
      s.Sound others) : (w.editWith x e).Sound := by
  rcases h.editWith_cases herr with ⟨-, hsound⟩ | ⟨b, others, a, s, hb, hmade, hedit⟩
  · exact hsound
  · rw [hedit]
    exact hok b others a s hb hmade

theorem Sound.craft (h : w.Sound) (c : Craft) : (w.craft c).Sound :=
  ⟨h.tree.craft c, h.complete, h.distinct, h.edited⟩

/-- A move keeps a desk sound. -/
theorem Sound.step (h : w.Sound) (m : Move) : (w.step m).Sound := by
  cases m with
  | craft c => exact h.craft c
  | setSpaces spaces => exact Session.Sound.setSpaces h spaces
  | reset => exact Session.Sound.reset h
  | add p x =>
    exact h.editWith (fun _ _ _ _ hb => hb.add_refused) fun _ _ _ _ hb => hb.add
  | replace p old x =>
    exact h.editWith (fun b _ _ _ _ => atomic_replace p old b _ _ _)
      fun _ _ _ _ hb => hb.replace
  | remove p x => exact h.edit (atomic_remove p x) fun _ _ => Session.Sound.remove h
  | surround x p kind => exact h.edit (atomic_surround x p kind) fun _ _ => Session.Sound.surround h
  | change x p kind => exact h.edit (atomic_change x p kind) fun _ _ => Session.Sound.change h
  | flatten x p => exact h.edit (atomic_flatten x p) fun _ _ => Session.Sound.flatten h
  | startEdit x => exact h.edit (atomic_startEdit x) fun _ _ => Session.Sound.startEdit h
  | updateEdit x input =>
    exact h.edit (atomic_updateEdit x input) fun _ _ => Session.Sound.updateEdit h
  | finishEdit x => exact h.edit (atomic_finishEdit x) fun _ _ => Session.Sound.finishEdit h
  | cancelEdit x => exact h.edit (atomic_cancelEdit x) fun _ _ => Session.Sound.cancelEdit h

/-! ## Any moves -/

theorem Sound.run (h : w.Sound) (moves : List Move) : (w.run moves).Sound := by
  induction moves generalizing w with
  | nil => exact h
  | cons m moves ih => exact ih (h.step m)

/-- Whether some moves lead to a desk. -/
def Reachable (w : Desk) : Prop :=
  ∃ settings spaces supply crafts moves, w = (start settings spaces supply crafts).run moves

theorem Reachable.sound (h : w.Reachable) : w.Sound := by
  obtain ⟨settings, spaces, supply, crafts, moves, rfl⟩ := h
  exact (sound_start settings spaces supply crafts).run moves

/-- After any moves, the session is consistent. -/
theorem run_consistent (settings : Settings) (spaces : List Space) (supply : Supply)
    (crafts : List Craft) (moves : List Move) :
    ((start settings spaces supply crafts).run moves).session.Consistent :=
  ((sound_start settings spaces supply crafts).run moves).consistent

end Desk

end SearchComposer.Session
