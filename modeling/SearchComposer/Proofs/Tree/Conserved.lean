import SearchComposer.Proofs.Tree.Bench
import SearchComposer.Proofs.Tree.Conditions
import SearchComposer.Proofs.Tree.Offered

/-!
# Conditions are conserved

Conditions go into a tree with a block that is put there, come out of it with a block that is taken
from there, and are not touched by any other edit. So an account can be kept over any moves on a
bench: what went into the tree so far, each time counted on its own, is what is in the tree and what
came out of it. Which conditions there are matters for the account, not their order, so lists are
compared by how often each condition occurs in them. Their order in the tree is the matter of what
the single edits do.
-/

namespace SearchComposer.Tree

open Block (conditionsAll)

/-- What each edit does to the conditions of a tree, read from left to right. -/
structure MovesConditions (t : Tree) (loose : List Block) : Prop where
  /-- A new operator around a block has no conditions of its own. -/
  surround : ∀ x p kind y t', Tree.surround x p kind t = .ok y t' → t'.conditions = t.conditions
  /-- An operator of another kind has the same conditions. -/
  change : ∀ x p kind y t', Tree.change x p kind t = .ok y t' → t'.conditions = t.conditions
  /-- The operands of an operator have its conditions. -/
  flatten : ∀ x p t', Tree.flatten x p t = .ok () t' → t'.conditions = t.conditions
  /-- The block that was there comes out, and its conditions give way to those of the new block. -/
  replace : ∀ p old, ∀ b ∈ loose, ∀ out t', Tree.replace p old b t = .ok out t' →
    t.find? old = some out ∧ ∃ path, t.Trades t' path out b.conditions
  /-- The block that was there comes out, and its conditions with it. -/
  remove : ∀ p x out t', Tree.remove p x t = .ok out t' →
    t.find? x = some out ∧ ∃ path, t.Trades t' path out []
  /-- The conditions of the new block come right after those of the operator. -/
  add : ∀ p, ∀ b ∈ loose, ∀ y t', Tree.add p b t = .ok y t' →
    ∃ q path, t.operatorAt? p = some q ∧
      t.Trades t' path q.toBlock (q.toBlock.conditions ++ b.conditions)

variable {t t' : Tree} {loose : List Block} {p x : BlockId} {b out : Block}

theorem Sound.movesConditions (h : t.Sound loose) : t.MovesConditions loose where
  surround _ _ _ _ _ := h.conditions_surround
  change _ _ _ _ _ := h.conditions_change
  flatten _ _ _ := h.conditions_flatten
  replace := by
    intro p old b hb out t' hok
    obtain ⟨others, hothers⟩ := h.exists_cons hb
    exact ⟨find?_of_replace h.nodup hok, hothers.trades_replace hok⟩
  remove := by
    intro p x out t' hok
    exact ⟨find?_of_remove h.nodup hok, h.trades_remove hok⟩
  add := by
    intro p b hb y t' hok
    obtain ⟨others, hothers⟩ := h.exists_cons hb
    exact hothers.trades_add hok

namespace Bench

/-! ## The account of one move -/

/-- The blocks that go into the tree and those that come out of it in an edit: none if it is
refused. -/
def traffic {α : Type} (w : Bench) (into : List Block) (out : α → List Block) (e : Edit α) :
    List Block × List Block :=
  match e w.tree with
  | .ok a _ => (into, out a)
  | .error _ _ => ([], [])

/-- The same of an edit with a loose block, which is what goes in. -/
def trafficWith {α : Type} (w : Bench) (x : BlockId) (out : α → List Block) (e : Block → Edit α) :
    List Block × List Block :=
  match pick? x w.loose with
  | some (b, _) => w.traffic [b] out (e b)
  | none => ([], [])

/-- The blocks that go into the tree and those that come out of it in a move. -/
def passing (w : Bench) : Move → List Block × List Block
  | .craft _ => ([], [])
  | .add p x => w.trafficWith x (fun _ => []) (Tree.add p)
  | .replace p old x => w.trafficWith x ([·]) (Tree.replace p old)
  | .remove p x => w.traffic [] ([·]) (Tree.remove p x)
  | .surround x p kind => w.traffic [] (fun _ => []) (Tree.surround x p kind)
  | .change x p kind => w.traffic [] (fun _ => []) (Tree.change x p kind)
  | .flatten x p => w.traffic [] (fun _ => []) (Tree.flatten x p)

/-- The blocks that went into the tree in some moves, again each time that they did. -/
def inserted (w : Bench) : List Move → List Block
  | [] => []
  | m :: moves => (w.passing m).1 ++ (w.step m).inserted moves

/-- The blocks that came out of the tree in some moves, again each time that they did. -/
def returned (w : Bench) : List Move → List Block
  | [] => []
  | m :: moves => (w.passing m).2 ++ (w.step m).returned moves

/-- From one tree to another, what went in and what was there is what is there and what came out. -/
def Balances (t t' : Tree) (passed : List Block × List Block) : Prop :=
  (t.conditions ++ conditionsAll passed.1).Perm (t'.conditions ++ conditionsAll passed.2)

variable {w : Bench} {α : Type}

theorem balances_of_trades {path : Path} {c : Block} {new : List Condition}
    {passed : List Block × List Block} (h : t.Trades t' path c new)
    (hpassed : (c.conditions ++ conditionsAll passed.1).Perm (new ++ conditionsAll passed.2)) :
    Balances t t' passed := by
  rw [Balances, h.old_eq, h.new_eq]
  rw [List.perm_iff_count] at hpassed ⊢
  intro d
  have hd := hpassed d
  simp only [List.count_append] at hd ⊢
  omega

theorem balances_of_eq (h : t'.conditions = t.conditions) : Balances t t' ([], []) := by
  rw [Balances, h]

/-- An edit that is refused moves nothing, so the account of an edit has to be right only if it is
made. -/
theorem balances_edit {into : List Block} {out : α → List Block} {e : Edit α} (he : Atomic e)
    (hok : ∀ a t', e w.tree = .ok a t' → Balances w.tree t' (into, out a)) :
    Balances w.tree (w.edit out e).tree (w.traffic into out e) := by
  unfold Bench.edit traffic
  cases hr : e w.tree with
  | ok a t' => exact hok a t' hr
  | error r t' =>
    rw [he _ _ _ hr]
    exact balances_of_eq rfl

theorem Sound.balances_editWith (h : w.Sound) {x : BlockId} {out : α → List Block}
    {e : Block → Edit α} (he : ∀ b, Atomic (e b))
    (hok : ∀ b others a t', w.tree.Sound (b :: others) → e b w.tree = .ok a t' →
      Balances w.tree t' ([b], out a)) :
    Balances w.tree (w.editWith x out e).tree (w.trafficWith x out e) := by
  unfold Bench.editWith trafficWith
  cases hp : pick? x w.loose with
  | none => exact balances_of_eq rfl
  | some picked =>
    obtain ⟨b, others⟩ := picked
    have hb := h.of_perm (perm_of_pick? hp).2
    exact balances_edit (w := ⟨w.tree, others⟩) (he b) fun a t' => hok b others a t' hb

/-- The account of a move is right. -/
theorem Sound.balances_step (h : w.Sound) (m : Move) :
    Balances w.tree (w.step m).tree (w.passing m) := by
  cases m with
  | craft c => exact balances_of_eq rfl
  | add p x =>
    refine h.balances_editWith (atomic_add p) ?_
    intro b others y t' hb hok
    obtain ⟨q, path, -, htrades⟩ := hb.trades_add hok
    exact balances_of_trades htrades (by simp [Block.conditionsAll])
  | replace p old x =>
    refine h.balances_editWith (atomic_replace p old) ?_
    intro b others out t' hb hok
    obtain ⟨path, htrades⟩ := hb.trades_replace hok
    refine balances_of_trades htrades ?_
    simpa [Block.conditionsAll] using List.perm_append_comm
  | remove p x =>
    refine balances_edit (atomic_remove p x) ?_
    intro out t' hok
    obtain ⟨path, htrades⟩ := Tree.Sound.trades_remove h hok
    exact balances_of_trades htrades (by simp [Block.conditionsAll])
  | surround x p kind =>
    refine balances_edit (atomic_surround x p kind) ?_
    intro y t' hok
    exact balances_of_eq (Tree.Sound.conditions_surround h hok)
  | change x p kind =>
    refine balances_edit (atomic_change x p kind) ?_
    intro y t' hok
    exact balances_of_eq (Tree.Sound.conditions_change h hok)
  | flatten x p =>
    refine balances_edit (atomic_flatten x p) ?_
    intro u t' hok
    exact balances_of_eq (Tree.Sound.conditions_flatten h hok)

/-! ## The account of any moves -/

theorem Sound.balances_run (h : w.Sound) (moves : List Move) :
    Balances w.tree (w.run moves).tree (w.inserted moves, w.returned moves) := by
  induction moves generalizing w with
  | nil => exact balances_of_eq rfl
  | cons m moves ih =>
    have hstep := h.balances_step m
    have hrun := ih (h.step m).1
    -- what is in the tree between the first move and the others cancels out
    simp only [Balances, inserted, returned, Block.conditionsAll_append] at hstep hrun ⊢
    rw [List.perm_iff_count] at hstep hrun ⊢
    intro c
    have hc := hstep c
    have hc' := hrun c
    simp only [List.count_append] at hc hc' ⊢
    show _ = List.count c ((w.step m).run moves).tree.conditions + _
    omega

/-- After any moves, an edit leaves the conditions of the tree and their order as they are, but for
one segment: those of the block that comes out give way to those of the block that goes in. So after
any moves, the conditions that went into an empty tree are those in the tree and those that came
out, each as often as it did. -/
theorem run_conserves_conditions (s : Supply) (crafts : List Craft) (moves : List Move) :
    ((start s crafts).run moves).tree.MovesConditions ((start s crafts).run moves).loose ∧
      (conditionsAll ((start s crafts).inserted moves)).Perm
        (((start s crafts).run moves).tree.conditions ++
          conditionsAll ((start s crafts).returned moves)) := by
  have h := sound_start s crafts
  have hrun : (((start s crafts).run moves).tree).Sound ((start s crafts).run moves).loose :=
    (h.run moves).1
  exact ⟨hrun.movesConditions, h.balances_run moves⟩

end Bench

end SearchComposer.Tree
