import SearchComposer.Proofs.Session.Desk
import SearchComposer.Proofs.Tree.Bench

/-!
# Refused edits

An edit that is refused leaves everything as it was: the tree, the ids that are still to be given
out, the drafts and what is known about the viewer. For most edits this holds in every state, since
they only look until nothing can be refused any more. Adding to a root that holds a block is the
exception. It takes that block out before it puts it into the new operator, so the second step has
to be possible whenever the first one is made, and this rests on what all earlier edits have kept.
-/

namespace SearchComposer

namespace Tree.Bench

/-- The edits of the tree that can be asked for on a bench. A block that comes in is a loose one. -/
inductive Offers (w : Bench) : {α : Type} → Edit α → Prop where
  | add (p : BlockId) {b : Block} (hb : b ∈ w.loose) : w.Offers (Tree.add p b)
  | replace (p old : BlockId) {b : Block} (hb : b ∈ w.loose) : w.Offers (Tree.replace p old b)
  | remove (p x : BlockId) : w.Offers (Tree.remove p x)
  | surround (x p : BlockId) (kind : Connective) : w.Offers (Tree.surround x p kind)
  | change (x p : BlockId) (kind : Connective) : w.Offers (Tree.change x p kind)
  | flatten (x p : BlockId) : w.Offers (Tree.flatten x p)

theorem Offers.atomic {w : Bench} {α : Type} {e : Edit α} (h : w.Offers e) : Atomic e := by
  cases h with
  | add p hb => exact atomic_add p _
  | replace p old hb => exact atomic_replace p old _
  | remove p x => exact atomic_remove p x
  | surround x p kind => exact atomic_surround x p kind
  | change x p kind => exact atomic_change x p kind
  | flatten x p => exact atomic_flatten x p

end Tree.Bench

namespace Session

namespace Desk

/-- The edits of the session that can be asked for on a desk. A block that comes in is a loose
one. -/
inductive Offers (w : Desk) : {α : Type} → Edit α → Prop where
  | add (p : BlockId) {b : Block} (hb : b ∈ w.loose) : w.Offers (Session.add p b)
  | replace (p old : BlockId) {b : Block} (hb : b ∈ w.loose) : w.Offers (Session.replace p old b)
  | remove (p x : BlockId) : w.Offers (Session.remove p x)
  | surround (x p : BlockId) (kind : Connective) : w.Offers (Session.surround x p kind)
  | change (x p : BlockId) (kind : Connective) : w.Offers (Session.change x p kind)
  | flatten (x p : BlockId) : w.Offers (Session.flatten x p)
  | startEdit (x : BlockId) : w.Offers (Session.startEdit x)
  | updateEdit (x : BlockId) (input : Input) : w.Offers (Session.updateEdit x input)
  | finishEdit (x : BlockId) : w.Offers (Session.finishEdit x)
  | cancelEdit (x : BlockId) : w.Offers (Session.cancelEdit x)

variable {w : Desk} {α : Type} {e : Edit α} {r : Refusal} {s : Session}

/-- On a sound desk, an edit that is refused changes nothing. -/
theorem Sound.refused (h : w.Sound) (he : w.Offers e) (hr : e w.session = .error r s) :
    s = w.session := by
  cases he with
  | add p hb =>
    obtain ⟨others, hs⟩ := Session.Sound.exists_cons h hb
    exact hs.add_refused hr
  | replace p old hb => exact atomic_replace p old _ _ _ _ hr
  | remove p x => exact atomic_remove p x _ _ _ hr
  | surround x p kind => exact atomic_surround x p kind _ _ _ hr
  | change x p kind => exact atomic_change x p kind _ _ _ hr
  | flatten x p => exact atomic_flatten x p _ _ _ hr
  | startEdit x => exact atomic_startEdit x _ _ _ hr
  | updateEdit x input => exact atomic_updateEdit x input _ _ _ hr
  | finishEdit x => exact atomic_finishEdit x _ _ _ hr
  | cancelEdit x => exact atomic_cancelEdit x _ _ _ hr

/-- A loose operator with room that was put in the place of the main block takes that block in. If
its conditions are complete, this is how it is added to the root. -/
theorem Sound.wraps (h : w.Sound) {main out : Block} {o : Operator} {t : Tree}
    (hmain : w.session.tree.main? = some main) (ho : o.toBlock ∈ w.loose)
    (hroom : o.hasRoom = true)
    (hfirst : Tree.replace w.session.tree.root.id main.id o.toBlock w.session.tree = .ok out t) :
    ∃ t', Tree.add o.id out t = .ok out.id t' ∧
      ((∀ c ∈ o.toBlock.conditions, c.isComplete = true) →
        Session.add w.session.tree.root.id o.toBlock w.session =
          .ok o.id { w.session with tree := t' }) := by
  obtain ⟨others, hs⟩ := Session.Sound.exists_cons h ho
  have hsecond := hs.tree.add_of_replace hfirst hroom
  refine ⟨_, hsecond, fun hcomplete => ?_⟩
  have hroot := (Tree.replace_eq_ok.mp hfirst).1
  have hadd := add_of_complete hcomplete w.session.tree.root.id w.session
  rw [hmain] at hadd
  simp only [if_true] at hadd
  rw [hadd]
  exact wrap_eq_ok.mpr ⟨hroot, hroom, rfl, out, t, out.id, _, hfirst, hsecond, rfl⟩

/-- After any moves, an edit of the session that is refused leaves the session as it was, with its
tree, the ids still to be given out, its drafts and its viewer. After any moves, an edit of a tree
that is refused leaves the tree and the ids as they were. And in a session, an operator with room
that was put in the place of the main block is never refused that block. -/
theorem refused_changes_nothing :
    (∀ w : Desk, w.Reachable → ∀ {α : Type} (e : Edit α), w.Offers e →
      ∀ r s, e w.session = .error r s → s = w.session) ∧
    (∀ w : Tree.Bench, w.Reachable → ∀ {α : Type} (e : Tree.Edit α), w.Offers e →
      ∀ r t, e w.tree = .error r t → t = w.tree) ∧
    ∀ w : Desk, w.Reachable → ∀ (main : Block) (o : Operator),
      w.session.tree.main? = some main → o.toBlock ∈ w.loose → o.hasRoom = true →
      ∀ out t, Tree.replace w.session.tree.root.id main.id o.toBlock w.session.tree = .ok out t →
        ∃ t', Tree.add o.id out t = .ok out.id t' ∧
          ((∀ c ∈ o.toBlock.conditions, c.isComplete = true) →
            Session.add w.session.tree.root.id o.toBlock w.session =
              .ok o.id { w.session with tree := t' }) := by
  refine ⟨fun w hw α e he r s hr => hw.sound.refused he hr, ?_, ?_⟩
  · intro w hw α e he r t hr
    exact he.atomic _ _ _ hr
  · intro w hw main o hmain ho hroom out t hfirst
    exact hw.sound.wraps hmain ho hroom hfirst

/-- A draft that is not valid cannot be finished, and a condition cannot be flattened; the negation
beside the tree takes in the condition that is there. -/
theorem refused_changes_nothing_beside_negation :
    ∃ (w : Desk) (s : Session) (v : Tree.Bench) (u : Tree) (main out : Block) (o : Operator)
      (t t' : Tree),
      w.Reachable ∧ finishEdit ⟨1⟩ w.session = .error (.invalidValue ⟨1⟩) s ∧ s = w.session ∧
      v.Reachable ∧ Tree.flatten ⟨1⟩ ⟨4⟩ v.tree = .error (.notAnOperator ⟨1⟩) u ∧ u = v.tree ∧
      w.session.tree.main? = some main ∧ o.toBlock ∈ w.loose ∧ o.hasRoom = true ∧
      Tree.replace w.session.tree.root.id main.id o.toBlock w.session.tree = .ok out t ∧
      Tree.add o.id out t = .ok out.id t' ∧ t'.root.toBlock.ids = [⟨4⟩, ⟨2⟩, ⟨1⟩] := by
  let crafts : List Craft :=
    [.condition (some (.mapped none "open" .boolean false)) (some .booleanIs) (some (.text "true")),
      .operator .not, .condition none none none]
  let main : Block := .condition
    ⟨⟨1⟩, some (.mapped none "open" .boolean false), some .booleanIs, some (.text "true")⟩
  let tree : Tree := ⟨⟨⟨4⟩, .root, [main]⟩, ⟨5⟩⟩
  let loose : List Block := [.condition ⟨⟨3⟩, none, none, none⟩, .operator ⟨2⟩ .not []]
  have hw : Reachable ⟨⟨.default, ⟨[], Settings.default.zone⟩, tree,
      ⟨[(⟨1⟩, ⟨false, some (.text "maybe")⟩)]⟩⟩, loose⟩ :=
    ⟨.default, [], ⟨1⟩, crafts,
      [.add ⟨4⟩ ⟨1⟩, .startEdit ⟨1⟩, .updateEdit ⟨1⟩ (.text "maybe")], rfl⟩
  have hv : Tree.Bench.Reachable ⟨tree, loose⟩ := ⟨⟨1⟩, crafts, [.add ⟨4⟩ ⟨1⟩], rfl⟩
  have ho : (Operator.mk ⟨2⟩ .not []).toBlock ∈ loose := List.mem_cons_of_mem _ List.mem_cons_self
  obtain ⟨hsession, htree, hwrap⟩ := refused_changes_nothing
  obtain ⟨t', hadd, -⟩ := hwrap _ hw main _ rfl ho rfl main _ rfl
  obtain rfl := (EStateM.Result.ok.inj hadd).2
  exact ⟨_, _, _, _, _, _, _, _, _, hw, rfl, hsession _ hw _ (.finishEdit ⟨1⟩) _ _ rfl, hv, rfl,
    htree _ hv _ (.flatten ⟨1⟩ ⟨4⟩) _ _ rfl, rfl, ho, rfl, rfl, hadd, rfl⟩

end Desk

end Session

end SearchComposer
