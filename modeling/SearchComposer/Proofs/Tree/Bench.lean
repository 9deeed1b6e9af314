import SearchComposer.Proofs.Tree.Sound

/-!
# A tree and the blocks beside it

On a bench there is one tree, and the loose blocks beside it. Loose blocks are made, go into the
tree, and come out of it again; a block is never in two places. The main result says what holds
after any sequence of moves, refused ones included: the root stays what it is and is the only one,
no operator holds too many operands, and no two blocks share an id.
-/

namespace SearchComposer.Tree

open Block (idsAll allKeepLimits anyHasRoot)

/-- A tree and the loose blocks beside it. -/
structure Bench where
  /-- The tree. -/
  tree : Tree
  /-- The blocks that are not in the tree. -/
  loose : List Block

/-- What can be done on a bench. Blocks that go into the tree are loose ones and are named by their
ids, as are the blocks of the tree. -/
inductive Move where
  /-- Loose blocks are made or dropped. -/
  | craft (c : Craft)
  /-- A loose block becomes the last operand of an operator. -/
  | add (p b : BlockId)
  /-- A loose block is put in the place of an operand, which becomes loose. -/
  | replace (p old b : BlockId)
  /-- An operand becomes loose. -/
  | remove (p x : BlockId)
  /-- A new operator is put around an operand. -/
  | surround (x p : BlockId) (kind : Connective)
  /-- An operator gets another kind. -/
  | change (x p : BlockId) (kind : Connective)
  /-- The operands of an operator are put in its place. -/
  | flatten (x p : BlockId)

namespace Bench

/-- An empty tree beside loose blocks that were made before it. -/
def start (s : Supply) (crafts : List Craft) : Bench :=
  let (loose, s) := (Craft.applyAll crafts []).run s
  ⟨.new s, loose⟩

/-- Makes an edit. The blocks that come out in it become loose; what a refused edit did to the tree
until then remains. -/
def edit {α : Type} (w : Bench) (out : α → List Block) (e : Edit α) : Bench :=
  match e w.tree with
  | .ok a t => ⟨t, out a ++ w.loose⟩
  | .error _ t => ⟨t, w.loose⟩

/-- Makes an edit with a loose block, which is used up even if the edit is refused. -/
def editWith {α : Type} (w : Bench) (x : BlockId) (out : α → List Block) (e : Block → Edit α) :
    Bench :=
  match pick? x w.loose with
  | some (b, others) => edit ⟨w.tree, others⟩ out (e b)
  | none => w

/-- Makes a craft. The blocks of the tree can be copied too. -/
def craft (w : Bench) (c : Craft) : Bench :=
  let (loose, supply) := (c.apply w.tree.root.operands w.loose).run w.tree.supply
  ⟨{ w.tree with supply := supply }, loose⟩

/-- The bench after a move. A move with a block that is not loose does nothing. -/
def step (w : Bench) : Move → Bench
  | .craft c => w.craft c
  | .add p x => w.editWith x (fun _ => []) (Tree.add p)
  | .replace p old x => w.editWith x ([·]) (Tree.replace p old)
  | .remove p x => w.edit ([·]) (Tree.remove p x)
  | .surround x p kind => w.edit (fun _ => []) (Tree.surround x p kind)
  | .change x p kind => w.edit (fun _ => []) (Tree.change x p kind)
  | .flatten x p => w.edit (fun _ => []) (Tree.flatten x p)

/-- The bench after some moves. -/
def run (w : Bench) (moves : List Move) : Bench := moves.foldl step w

/-- What holds of the tree and the loose blocks after any moves. -/
def Sound (w : Bench) : Prop := w.tree.Sound w.loose

theorem sound_start (s : Supply) (crafts : List Craft) : (start s crafts).Sound :=
  sound_new (Craft.accounted_applyAll ⟨s.covers_nil, rfl⟩ crafts)

/-! ## One move -/

variable {w : Bench} {α : Type}

/-- An edit that is refused changes nothing, so an edit has to keep the bench sound only if it is
made. -/
theorem Sound.edit (h : w.Sound) {out : α → List Block} {e : Edit α} (he : Atomic e)
    (hok : ∀ a t', e w.tree = .ok a t' → t'.Sound (out a ++ w.loose) ∧
      t'.root.id = w.tree.root.id) :
    (w.edit out e).Sound ∧ (w.edit out e).tree.root.id = w.tree.root.id := by
  unfold Bench.edit
  cases hr : e w.tree with
  | ok a t => exact hok a t hr
  | error r t => rw [he _ _ _ hr]; exact ⟨h, rfl⟩

theorem Sound.editWith (h : w.Sound) {x : BlockId} {out : α → List Block} {e : Block → Edit α}
    (he : ∀ b, Atomic (e b))
    (hok : ∀ b others a t', w.tree.Sound (b :: others) → e b w.tree = .ok a t' →
      t'.Sound (out a ++ others) ∧ t'.root.id = w.tree.root.id) :
    (w.editWith x out e).Sound ∧ (w.editWith x out e).tree.root.id = w.tree.root.id := by
  unfold Bench.editWith
  split
  · next b others hp =>
    have hb := h.of_perm (perm_of_pick? hp).2
    exact Sound.edit (w := ⟨w.tree, others⟩) hb.tail (he b) fun a t' => hok b others a t' hb
  · exact ⟨h, rfl⟩

/-- A move keeps a bench sound, and it keeps the id of the root. -/
theorem Sound.step (h : w.Sound) (m : Move) :
    (w.step m).Sound ∧ (w.step m).tree.root.id = w.tree.root.id := by
  cases m with
  | craft c => exact ⟨Tree.Sound.craft h c, rfl⟩
  | add p x =>
    refine h.editWith (atomic_add p) ?_
    intro b others y t' hb hok
    obtain ⟨-, q, -, -, -, ht⟩ := add_eq_ok.mp hok
    exact ⟨hb.add hok, ht ▸ rfl⟩
  | replace p old x =>
    refine h.editWith (atomic_replace p old) ?_
    intro b others c t' hb hok
    obtain ⟨-, q, s, -, -, -, ht⟩ := replace_eq_ok.mp hok
    exact ⟨hb.replace hok, ht ▸ rfl⟩
  | remove p x =>
    refine h.edit (atomic_remove p x) ?_
    intro c t' hok
    obtain ⟨q, s, -, -, -, ht⟩ := remove_eq_ok.mp hok
    exact ⟨Tree.Sound.remove h hok, ht ▸ rfl⟩
  | surround x p kind =>
    refine h.edit (atomic_surround x p kind) ?_
    intro y t' hok
    obtain ⟨-, q, s, -, -, -, ht⟩ := surround_eq_ok.mp hok
    exact ⟨Tree.Sound.surround h hok, ht ▸ rfl⟩
  | change x p kind =>
    refine h.edit (atomic_change x p kind) ?_
    intro y t' hok
    obtain ⟨-, q, s, o, -, -, -, -, -, ht⟩ := change_eq_ok.mp hok
    exact ⟨Tree.Sound.change h hok, ht ▸ rfl⟩
  | flatten x p =>
    refine h.edit (atomic_flatten x p) ?_
    intro u t' hok
    obtain ⟨q, s, o, -, -, -, -, ht⟩ := flatten_eq_ok.mp hok
    exact ⟨Tree.Sound.flatten h hok, ht ▸ rfl⟩

/-! ## Any moves -/

theorem Sound.run (h : w.Sound) (moves : List Move) :
    (w.run moves).Sound ∧ (w.run moves).tree.root.id = w.tree.root.id := by
  induction moves generalizing w with
  | nil => exact ⟨h, rfl⟩
  | cons m moves ih =>
    obtain ⟨hstep, hid⟩ := h.step m
    obtain ⟨hrun, hid'⟩ := ih hstep
    exact ⟨hrun, hid'.trans hid⟩

/-- Whether some moves lead to a bench. -/
def Reachable (w : Bench) : Prop :=
  ∃ supply crafts moves, w = (start supply crafts).run moves

theorem Reachable.sound (h : w.Reachable) : w.Sound := by
  obtain ⟨supply, crafts, moves, rfl⟩ := h
  exact ((sound_start supply crafts).run moves).1

/-- After any moves, the root has its own kind and the id that it started with, no other operator of
the tree is of that kind, no operator of the tree holds more operands than its kind can, and the ids
of all blocks are distinct, in the tree and beside it. -/
theorem run_keeps_tree_sound (s : Supply) (crafts : List Craft) (moves : List Move) :
    ((start s crafts).run moves).tree.root.kind = .root ∧
      ((start s crafts).run moves).tree.root.id = (start s crafts).tree.root.id ∧
      anyHasRoot ((start s crafts).run moves).tree.root.operands = false ∧
      ((start s crafts).run moves).tree.root.toBlock.keepsLimits = true ∧
      (((start s crafts).run moves).tree.root.toBlock.ids ++
        idsAll ((start s crafts).run moves).loose).Nodup := by
  obtain ⟨h, hid⟩ := (sound_start s crafts).run moves
  exact ⟨h.kind_eq, hid, h.rootless, h.keepsLimits, h.accounted.covers.1⟩

end Bench

end SearchComposer.Tree
