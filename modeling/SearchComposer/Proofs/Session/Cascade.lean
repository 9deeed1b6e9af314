import SearchComposer.Proofs.Session.Desk
import SearchComposer.Proofs.Tree.Offered

/-!
# Drafts follow their conditions

When blocks are moved about, in or out of the tree, the drafts that are left are those of the
conditions that are left, as they were. A block that goes out takes along the drafts of all its
conditions, at any depth, and no others: its conditions share no id with those that stay. An edit
that takes no block out leaves all drafts alone, because it leaves all conditions in the tree.
-/

namespace SearchComposer

namespace Drafts

variable {ds : Drafts} {keep keep' : BlockId → Bool}

theorem has_of_mem_entries {e : BlockId × Draft} (he : e ∈ ds.entries) : ds.has e.1 = true := by
  rw [has, get?, Option.isSome_map]
  exact List.find?_isSome.mpr ⟨e, he, by simp⟩

theorem restrict_congr (h : ∀ x, ds.has x = true → keep x = keep' x) :
    ds.restrict keep = ds.restrict keep' := by
  refine congrArg Drafts.mk (List.filter_congr fun e he => ?_)
  exact h e.1 (has_of_mem_entries he)

theorem restrict_eq_self (h : ∀ x, ds.has x = true → keep x = true) : ds.restrict keep = ds := by
  refine congrArg Drafts.mk (List.filter_eq_self.mpr fun e he => ?_)
  exact h e.1 (has_of_mem_entries he)

end Drafts

namespace Tree

variable {t t' : Tree} {loose : List Block} {p x : BlockId} {b out : Block}

/-- Whether a condition of the tree has an id. -/
def hasCondition (t : Tree) (x : BlockId) : Bool := t.conditions.any (·.id == x)

/-- The conditions of the block with an id; none if there is no such block. -/
def conditionsAt (t : Tree) (x : BlockId) : List Condition :=
  ((t.find? x).map Block.conditions).getD []

theorem hasCondition_iff : t.hasCondition x = true ↔ ∃ c ∈ t.conditions, c.id = x := by
  simp [hasCondition]

namespace Sound

theorem conditionsAt_of_replace (h : t.Sound loose) (hok : Tree.replace p x b t = .ok out t') :
    t.conditionsAt x = out.conditions := by
  rw [conditionsAt, find?_of_replace h.nodup hok]
  rfl

theorem conditionsAt_of_remove (h : t.Sound loose) (hok : Tree.remove p x t = .ok out t') :
    t.conditionsAt x = out.conditions := by
  rw [conditionsAt, find?_of_remove h.nodup hok]
  rfl

/-- A condition that is in the tree or in a loose block is in one of them only. -/
theorem hasCondition_eq_not_any (h : t.Sound (out :: loose)) {c : Condition}
    (hc : c ∈ t.conditions ∨ c ∈ out.conditions) :
    t.hasCondition c.id = !out.conditions.any (·.id == c.id) := by
  rcases hc with hin | hout
  · have hapart : out.conditions.any (·.id == c.id) = false := by
      rw [List.any_eq_false]
      intro d hd hid
      have hne := h.id_ne_of_loose hin hd
      exact hne (by simpa using hid : d.id = c.id).symm
    rw [hapart, hasCondition_iff.mpr ⟨c, hin, rfl⟩]
    rfl
  · have hgone : t.hasCondition c.id = false := by
      rw [Bool.eq_false_iff]
      intro hhas
      obtain ⟨d, hd, hid⟩ := hasCondition_iff.mp hhas
      exact h.id_ne_of_loose hd hout hid
    rw [hgone, List.any_eq_true.mpr ⟨c, hout, by simp⟩]
    rfl

end Sound

end Tree

namespace Session

variable {s s' : Session} {loose loose' : List Block} {p x : BlockId} {b : Block}

/-- From one session to another, the drafts that are left are those of the conditions that are left,
and those that are gone are those of the conditions `gone`. -/
structure Sheds (s s' : Session) (gone : List Condition) : Prop where
  /-- Exactly the drafts of conditions of the tree are left. -/
  left : s'.drafts = s.drafts.restrict s'.tree.hasCondition
  /-- Exactly the drafts of conditions that are gone have ended. -/
  ended : s'.drafts = s.drafts.restrict fun x => !gone.any (·.id == x)

namespace Sound

theorem exists_condition_of_has (h : s.Sound loose) (hx : s.drafts.has x = true) :
    ∃ c ∈ s.tree.conditions, c.id = x := by
  obtain ⟨d, hd⟩ := Option.isSome_iff_exists.mp hx
  obtain ⟨c, hc, hid, -⟩ := h.edited x d hd
  exact ⟨c, hc, hid⟩

/-- The drafts can stay as they are if all conditions stay. -/
theorem sheds_nothing (h : s.Sound loose) {t : Tree}
    (hstay : ∀ c ∈ s.tree.conditions, c ∈ t.conditions) : s.Sheds { s with tree := t } [] where
  left := by
    refine (Drafts.restrict_eq_self fun x hx => ?_).symm
    obtain ⟨c, hc, hid⟩ := h.exists_condition_of_has hx
    exact Tree.hasCondition_iff.mpr ⟨c, hstay c hc, hid⟩
  ended := (Drafts.restrict_eq_self fun _ _ => rfl).symm

/-- A block that goes out takes the drafts of its conditions along. -/
theorem sheds_out (h : s.Sound loose) {t : Tree} {out : Block} (ht : t.Sound (out :: loose'))
    (hmem : ∀ c ∈ s.tree.conditions, c ∈ t.conditions ∨ c ∈ out.conditions) :
    s.Sheds { s with tree := t, drafts := s.drafts.forget out } out.conditions where
  left := by
    have hsame : s.drafts.forget out = s.drafts.restrict t.hasCondition := by
      refine Drafts.restrict_congr fun x hx => ?_
      obtain ⟨c, hc, rfl⟩ := h.exists_condition_of_has hx
      exact (ht.hasCondition_eq_not_any (hmem c hc)).symm
    exact hsame
  ended := rfl

theorem sheds_add {y : BlockId} (h : s.Sound (b :: loose)) (hok : Session.add p b s = .ok y s') :
    s.Sheds s' [] := by
  obtain ⟨-, t, -, rfl, hmem⟩ := h.exists_tree_of_add hok
  exact h.sheds_nothing fun c hc => (hmem c).mpr (.inl hc)

theorem sheds_replace {old : BlockId} {u : Unit} (h : s.Sound (b :: loose))
    (hok : Session.replace p old b s = .ok u s') : s.Sheds s' (s.tree.conditionsAt old) := by
  obtain ⟨-, out, t, hreplace, rfl⟩ := replace_eq_ok.mp hok
  rw [h.tree.conditionsAt_of_replace hreplace]
  refine h.sheds_out (h.tree.replace hreplace) fun c hc => ?_
  exact (h.tree.mem_conditions_replace hreplace).mpr (.inl hc)

theorem sheds_remove {u : Unit} (h : s.Sound loose) (hok : Session.remove p x s = .ok u s') :
    s.Sheds s' (s.tree.conditionsAt x) := by
  obtain ⟨out, t, hremove, rfl⟩ := remove_eq_ok.mp hok
  rw [h.tree.conditionsAt_of_remove hremove]
  refine h.sheds_out (h.tree.remove hremove) fun c hc => ?_
  exact (h.tree.mem_conditions_remove hremove).mpr hc

theorem sheds_surround {y : BlockId} {kind : Connective} (h : s.Sound loose)
    (hok : Session.surround x p kind s = .ok y s') : s.Sheds s' [] := by
  obtain ⟨t, hsurround, rfl⟩ := onTree_eq_ok.mp hok
  exact h.sheds_nothing fun c hc => (h.tree.conditions_surround hsurround).symm ▸ hc

theorem sheds_change {y : BlockId} {kind : Connective} (h : s.Sound loose)
    (hok : Session.change x p kind s = .ok y s') : s.Sheds s' [] := by
  obtain ⟨t, hchange, rfl⟩ := onTree_eq_ok.mp hok
  exact h.sheds_nothing fun c hc => (h.tree.conditions_change hchange).symm ▸ hc

theorem sheds_flatten {u : Unit} (h : s.Sound loose) (hok : Session.flatten x p s = .ok u s') :
    s.Sheds s' [] := by
  obtain ⟨t, hflatten, rfl⟩ := onTree_eq_ok.mp hok
  exact h.sheds_nothing fun c hc => (h.tree.conditions_flatten hflatten).symm ▸ hc

end Sound

namespace Desk

/-- The edits of the tree that can be asked for on a desk, each with the conditions that it takes
out of the tree. -/
inductive Restructures (w : Desk) : {α : Type} → Edit α → List Condition → Prop where
  | add (p : BlockId) {b : Block} (hb : b ∈ w.loose) : w.Restructures (Session.add p b) []
  | replace (p old : BlockId) {b : Block} (hb : b ∈ w.loose) :
    w.Restructures (Session.replace p old b) (w.session.tree.conditionsAt old)
  | remove (p x : BlockId) : w.Restructures (Session.remove p x) (w.session.tree.conditionsAt x)
  | surround (x p : BlockId) (kind : Connective) : w.Restructures (Session.surround x p kind) []
  | change (x p : BlockId) (kind : Connective) : w.Restructures (Session.change x p kind) []
  | flatten (x p : BlockId) : w.Restructures (Session.flatten x p) []

variable {w : Desk} {α : Type} {e : Edit α} {gone : List Condition} {a : α}

theorem Sound.sheds (h : w.Sound) (he : w.Restructures e gone) (hok : e w.session = .ok a s) :
    w.session.Sheds s gone := by
  cases he with
  | add p hb =>
    obtain ⟨others, hs⟩ := Session.Sound.exists_cons h hb
    exact hs.sheds_add hok
  | replace p old hb =>
    obtain ⟨others, hs⟩ := Session.Sound.exists_cons h hb
    exact hs.sheds_replace hok
  | remove p x => exact Session.Sound.sheds_remove h hok
  | surround x p kind => exact Session.Sound.sheds_surround h hok
  | change x p kind => exact Session.Sound.sheds_change h hok
  | flatten x p => exact Session.Sound.sheds_flatten h hok

/-- After any moves, an edit of the tree that is made leaves exactly the drafts of the conditions
that are still in the tree, each as it was. It ends exactly the drafts of the conditions that it
takes out with a block, at any depth, and if it takes no block out it leaves all drafts. -/
theorem drafts_follow_conditions (hw : w.Reachable) (he : w.Restructures e gone)
    (hok : e w.session = .ok a s) :
    s.drafts = w.session.drafts.restrict s.tree.hasCondition ∧
      s.drafts = w.session.drafts.restrict (fun x => !gone.any (·.id == x)) ∧
      (gone = [] → s.drafts = w.session.drafts) := by
  obtain ⟨hleft, hended⟩ := hw.sound.sheds he hok
  refine ⟨hleft, hended, ?_⟩
  rintro rfl
  rw [hended]
  exact Drafts.restrict_eq_self fun _ _ => rfl

/-- Two conditions are edited, one of them below a negation and with a flag that is no truth value.
When the negation is taken out, that draft goes with it, and a request can be made again. -/
theorem drafts_follow_conditions_of_negation :
    ∃ (w : Desk) (s : Session), w.Reachable ∧ Session.remove ⟨4⟩ ⟨3⟩ w.session = .ok () s ∧
      w.session.tree.root.toBlock.ids = [⟨5⟩, ⟨4⟩, ⟨3⟩, ⟨1⟩, ⟨2⟩] ∧
      w.session.drafts.entries.map (·.1) = [⟨2⟩, ⟨1⟩] ∧ w.session.canSubmit = false ∧
      s.drafts = w.session.drafts.restrict s.tree.hasCondition ∧
      s.drafts.entries.map (·.1) = [⟨2⟩] ∧ s.canSubmit = true := by
  let condition (n : Nat) : Block := .condition
    ⟨⟨n⟩, some (.mapped none "open" .boolean false), some .booleanIs, some (.text "true")⟩
  let main : Block := .operator ⟨4⟩ .and [.operator ⟨3⟩ .not [condition 1], condition 2]
  let drafts : Drafts := ⟨[(⟨2⟩, ⟨true, some (.text "true")⟩), (⟨1⟩, ⟨false, some (.text "maybe")⟩)]⟩
  let tree : Tree := ⟨⟨⟨5⟩, .root, [main]⟩, ⟨6⟩⟩
  have hw : Reachable ⟨⟨.default, ⟨[], Settings.default.zone⟩, tree, drafts⟩, []⟩ :=
    ⟨.default, [], ⟨1⟩,
      [.condition (some (.mapped none "open" .boolean false)) (some .booleanIs)
          (some (.text "true")),
        .copy ⟨1⟩, .join .not [⟨1⟩], .join .and [⟨3⟩, ⟨2⟩]],
      [.add ⟨5⟩ ⟨4⟩, .startEdit ⟨1⟩, .updateEdit ⟨1⟩ (.text "maybe"), .startEdit ⟨2⟩], rfl⟩
  obtain ⟨hleft, -⟩ := drafts_follow_conditions hw (.remove ⟨4⟩ ⟨3⟩) rfl
  exact ⟨_, _, hw, rfl, rfl, rfl, rfl, hleft, rfl, rfl⟩

end Desk

end Session

end SearchComposer
