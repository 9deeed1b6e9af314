import SearchComposer.Proofs.Drafts
import SearchComposer.Proofs.Session.Edit
import SearchComposer.Proofs.Tree.Conditions

/-!
# Sound sessions

A session is sound if its tree is, all conditions of the tree are complete, and every draft belongs
to a condition of the tree and says rightly whether the comparator of that condition accepts its
value. Every edit keeps this. Edits of the tree let complete conditions in only and end the drafts
of the conditions that leave; edits of conditions put valid drafts into the tree only.
-/

namespace SearchComposer.Session

/-- What holds of a session and of the loose blocks beside its tree after any edits. -/
structure Sound (s : Session) (loose : List Block) : Prop where
  /-- The tree is sound. -/
  tree : s.tree.Sound loose
  /-- All conditions of the tree are complete. -/
  complete : ∀ c ∈ s.tree.conditions, c.isComplete = true
  /-- No condition has two drafts. -/
  distinct : s.drafts.Distinct
  /-- Every draft belongs to a condition and says whether its value is acceptable there. -/
  edited : ∀ x d, s.drafts.get? x = some d →
    ∃ c ∈ s.tree.conditions, c.id = x ∧ d.isValid = c.accepts d.value?

variable {s s' : Session} {loose loose' : List Block} {p x : BlockId} {b : Block}

namespace Sound

/-- Loose blocks may change in any way that keeps the tree sound. -/
theorem of_tree (h : s.Sound loose) (ht : s.tree.Sound loose') : s.Sound loose' :=
  ⟨ht, h.complete, h.distinct, h.edited⟩

theorem of_perm (h : s.Sound loose) (hp : loose.Perm loose') : s.Sound loose' :=
  h.of_tree (h.tree.of_perm hp)

theorem tail (h : s.Sound (b :: loose)) : s.Sound loose := h.of_tree h.tree.tail

theorem exists_cons (h : s.Sound loose) (hb : b ∈ loose) : ∃ others, s.Sound (b :: others) := by
  obtain ⟨others, ht⟩ := h.tree.exists_cons hb
  exact ⟨others, h.of_tree ht⟩

/-- The tree and the drafts can change together if new conditions are complete and the drafts that
are left belong to conditions that are left. -/
theorem exchange (h : s.Sound loose) {t : Tree} {ds : Drafts} (ht : t.Sound loose')
    (hds : ds.Distinct) (hnew : ∀ c ∈ t.conditions, c ∈ s.tree.conditions ∨ c.isComplete = true)
    (hleft : ∀ y d, ds.get? y = some d → s.drafts.get? y = some d ∧
      ∀ c ∈ s.tree.conditions, c.id = y → c ∈ t.conditions) :
    Sound { s with tree := t, drafts := ds } loose' where
  tree := ht
  complete := fun c hc => (hnew c hc).elim (h.complete c) id
  distinct := hds
  edited := by
    intro y d hd
    obtain ⟨hold, hstays⟩ := hleft y d hd
    obtain ⟨c, hc, hid, hvalid⟩ := h.edited y d hold
    exact ⟨c, hstays c hc hid, hid, hvalid⟩

/-- The drafts can stay if all conditions stay. -/
theorem extend (h : s.Sound loose) {t : Tree} (ht : t.Sound loose')
    (hnew : ∀ c ∈ t.conditions, c ∈ s.tree.conditions ∨ c.isComplete = true)
    (hstay : ∀ c ∈ s.tree.conditions, c ∈ t.conditions) :
    Sound { s with tree := t } loose' :=
  h.exchange ht h.distinct hnew fun _ _ hd => ⟨hd, fun c hc _ => hstay c hc⟩

/-- A change of the drafts alone. -/
theorem redraft (h : s.Sound loose) {ds : Drafts} (hds : ds.Distinct)
    (hedited : ∀ y d, ds.get? y = some d → s.drafts.get? y = some d ∨
      ∃ c ∈ s.tree.conditions, c.id = y ∧ d.isValid = c.accepts d.value?) :
    Sound { s with drafts := ds } loose where
  tree := h.tree
  complete := h.complete
  distinct := hds
  edited := fun y d hd => (hedited y d hd).elim (h.edited y d) id

/-- A draft is valid exactly if the condition it belongs to accepts its value. -/
theorem isValid_eq (h : s.Sound loose) {c : Condition} {d : Draft} (hc : c ∈ s.tree.conditions)
    (hd : s.drafts.get? c.id = some d) : d.isValid = c.accepts d.value? := by
  obtain ⟨e, he, hid, hvalid⟩ := h.edited c.id d hd
  exact h.tree.condition_eq_of_id_eq he hc hid ▸ hvalid

/-- A request can be made exactly if all drafts are valid: the conditions are complete anyway. -/
theorem canSubmit_iff (h : s.Sound loose) :
    s.canSubmit = true ↔ ∀ y d, s.drafts.get? y = some d → d.isValid = true := by
  have hcomplete : s.tree.conditions.all (·.isComplete) = true :=
    List.all_eq_true.mpr h.complete
  rw [canSubmit, hcomplete, Bool.and_true, Bool.not_eq_true', h.distinct.anyInvalid_eq_false_iff]

/-! ## Edits of the tree -/

/-- Blocks that go out of the tree take their drafts with them. -/
theorem swap (h : s.Sound loose) {t : Tree} (ht : t.Sound loose') {out : Block}
    {new : List Condition} (hcomplete : ∀ c ∈ new, c.isComplete = true)
    (hmem : ∀ c, c ∈ t.conditions ∨ c ∈ out.conditions ↔ c ∈ s.tree.conditions ∨ c ∈ new) :
    Sound { s with tree := t, drafts := s.drafts.forget out } loose' := by
  refine h.exchange ht (h.distinct.restrict _) (fun c hc => ?_) fun y d hd => ?_
  · exact ((hmem c).mp (.inl hc)).imp_right (hcomplete c)
  · rw [Drafts.get?_forget] at hd
    split at hd
    · cases hd
    · next hkept =>
      refine ⟨hd, fun c hc hid => ?_⟩
      rcases (hmem c).mpr (.inl hc) with hstays | hout
      · exact hstays
      · exact absurd (List.any_eq_true.mpr ⟨c, hout, by simpa using hid⟩) hkept

/-- Operators can be rearranged. -/
theorem rearrange (h : s.Sound loose) {t : Tree} (ht : t.Sound loose')
    (heq : t.conditions = s.tree.conditions) : Sound { s with tree := t } loose' :=
  h.extend ht (fun _ hc => .inl (heq ▸ hc)) fun _ hc => heq ▸ hc

/-- A block that comes in is added or takes in the main block. Either way it brings its conditions,
and no condition goes out. -/
theorem exists_tree_of_add (h : s.Sound (b :: loose)) (hok : Session.add p b s = .ok x s') :
    (∀ c ∈ b.conditions, c.isComplete = true) ∧ ∃ t, t.Sound loose ∧ s' = { s with tree := t } ∧
      ∀ c, c ∈ t.conditions ↔ c ∈ s.tree.conditions ∨ c ∈ b.conditions := by
  rcases add_cases p b s with ⟨e, he⟩ | ⟨hb, hadd | ⟨main, o, rfl, hwrap⟩⟩
  · rw [he] at hok
    cases hok
  · rw [hadd] at hok
    obtain ⟨t, hadd, rfl⟩ := onTree_eq_ok.mp hok
    exact ⟨hb, t, h.tree.add hadd, rfl, fun c => h.tree.mem_conditions_add hadd⟩
  · rw [hwrap] at hok
    obtain ⟨-, -, -, out, t, y, t', hreplace, hadd, rfl⟩ := wrap_eq_ok.mp hok
    have ht' := (h.tree.replace hreplace).add hadd
    exact ⟨hb, t', ht', rfl, fun c => h.tree.mem_conditions_add_of_replace hreplace hadd⟩

theorem add (h : s.Sound (b :: loose)) (hok : Session.add p b s = .ok x s') : s'.Sound loose := by
  obtain ⟨hb, t, ht, rfl, hmem⟩ := h.exists_tree_of_add hok
  refine h.extend ht (fun c hc => ?_) fun c hc => (hmem c).mpr (.inl hc)
  exact ((hmem c).mp hc).imp_right (hb c)

/-- A block that is refused changes nothing: an operator that was put in the place of the main block
takes that in. -/
theorem add_refused {e : Refusal} (h : s.Sound (b :: loose))
    (herr : Session.add p b s = .error e s') : s' = s := by
  rcases add_cases p b s with ⟨e', he⟩ | ⟨-, hadd | ⟨main, o, rfl, hwrap⟩⟩
  · rw [he] at herr
    exact (EStateM.Result.error.inj herr).2.symm
  · rw [hadd] at herr
    exact atomic_onTree (Tree.atomic_add p b) _ _ _ herr
  · rw [hwrap] at herr
    rcases wrap_eq_error herr with hs | ⟨hroom, out, t, e', t', hreplace, hadd⟩
    · exact hs
    · -- the operator was asked for room before, so it cannot refuse the main block now
      rw [h.tree.add_of_replace hreplace hroom] at hadd
      cases hadd

theorem replace {old : BlockId} {u : Unit} (h : s.Sound (b :: loose))
    (hok : Session.replace p old b s = .ok u s') : s'.Sound loose := by
  obtain ⟨hb, out, t, hreplace, rfl⟩ := replace_eq_ok.mp hok
  exact (h.swap (h.tree.replace hreplace) hb fun c => h.tree.mem_conditions_replace hreplace).tail

theorem remove {u : Unit} (h : s.Sound loose) (hok : Session.remove p x s = .ok u s') :
    s'.Sound loose := by
  obtain ⟨out, t, hremove, rfl⟩ := remove_eq_ok.mp hok
  have hmem (c : Condition) :
      c ∈ t.conditions ∨ c ∈ out.conditions ↔ c ∈ s.tree.conditions ∨ c ∈ [] := by
    rw [h.tree.mem_conditions_remove hremove, List.mem_nil_iff, or_false]
  exact (h.swap (h.tree.remove hremove) (by simp) hmem).tail

theorem surround {kind : Connective} {y : BlockId} (h : s.Sound loose)
    (hok : Session.surround x p kind s = .ok y s') : s'.Sound loose := by
  obtain ⟨t, hsurround, rfl⟩ := onTree_eq_ok.mp hok
  exact h.rearrange (h.tree.surround hsurround) (h.tree.conditions_surround hsurround)

theorem change {kind : Connective} {y : BlockId} (h : s.Sound loose)
    (hok : Session.change x p kind s = .ok y s') : s'.Sound loose := by
  obtain ⟨t, hchange, rfl⟩ := onTree_eq_ok.mp hok
  exact h.rearrange (h.tree.change hchange) (h.tree.conditions_change hchange)

theorem flatten {u : Unit} (h : s.Sound loose) (hok : Session.flatten x p s = .ok u s') :
    s'.Sound loose := by
  obtain ⟨t, hflatten, rfl⟩ := onTree_eq_ok.mp hok
  exact h.rearrange (h.tree.flatten hflatten) (h.tree.conditions_flatten hflatten)

/-! ## Edits of conditions -/

/-- A draft starts with the value of its condition, which is complete. -/
theorem startEdit {u : Unit} (h : s.Sound loose) (hok : Session.startEdit x s = .ok u s') :
    s'.Sound loose := by
  obtain ⟨c, hfind, rfl⟩ := startEdit_eq_ok.mp hok
  obtain ⟨hc, rfl⟩ := h.tree.find?_eq_condition.mp hfind
  refine h.redraft (h.distinct.start _ _) fun y d hd => ?_
  rw [Drafts.get?_start] at hd
  split at hd
  · next hy =>
    obtain rfl := Option.some.inj hd
    exact .inr ⟨c, hc, hy.symm, (Condition.accepts_of_isComplete (h.complete c hc)).symm⟩
  · exact .inl hd

theorem updateEdit {input : Input} {isValid : Bool} (h : s.Sound loose)
    (hok : Session.updateEdit x input s = .ok isValid s') : s'.Sound loose := by
  obtain ⟨c, d, hfind, hget, rfl, rfl⟩ := updateEdit_eq_ok.mp hok
  obtain ⟨hc, rfl⟩ := h.tree.find?_eq_condition.mp hfind
  refine h.redraft (h.distinct.modify _ _) fun y d' hd => ?_
  rw [Drafts.get?_update] at hd
  split at hd
  · next hy =>
    obtain ⟨_, -, rfl⟩ := Option.map_eq_some_iff.mp hd
    exact .inr ⟨c, hc, hy.symm, rfl⟩
  · exact .inl hd

/-- A draft that goes into its condition leaves that complete, because it is valid. -/
theorem finishEdit {u : Unit} (h : s.Sound loose) (hok : Session.finishEdit x s = .ok u s') :
    s'.Sound loose := by
  obtain ⟨d, c, hget, hvalid, hfind, rfl⟩ := finishEdit_eq_ok.mp hok
  obtain ⟨hc, rfl⟩ := h.tree.condition?_eq_some.mp hfind
  have hconditions := h.tree.conditions_setValue c.id d.value?
  refine h.exchange (h.tree.setValue c.id d.value?) (h.distinct.restrict _) (fun e he => ?_)
    fun y d' hd => ?_
  · obtain ⟨e', he', rfl⟩ := List.mem_map.mp (hconditions ▸ he)
    split
    · -- only the condition of the draft has its id, so only that one gets the value
      next hid =>
      obtain rfl := h.tree.condition_eq_of_id_eq he' hc hid
      obtain ⟨q, k, hq, hk, -⟩ := Condition.isComplete_iff.mp (h.complete e' hc)
      have haccepts := (h.isValid_eq hc hget).symm.trans hvalid
      rw [Condition.accepts_eq hk] at haccepts
      exact .inr (Condition.isComplete_iff.mpr ⟨q, k, hq, hk, haccepts⟩)
    · exact .inl he'
  · rw [Drafts.get?_finish] at hd
    split at hd
    · cases hd
    · next hy =>
      refine ⟨hd, fun e he hid => ?_⟩
      rw [hconditions]
      exact List.mem_map.mpr ⟨e, he, if_neg (by rwa [hid])⟩

theorem cancelEdit {u : Unit} (h : s.Sound loose) (hok : Session.cancelEdit x s = .ok u s') :
    s'.Sound loose := by
  obtain ⟨-, rfl⟩ := cancelEdit_eq_ok.mp hok
  refine h.redraft (h.distinct.restrict _) fun y d hd => .inl ?_
  rw [Drafts.get?_finish] at hd
  split at hd
  · cases hd
  · exact hd

/-! ## Other changes -/

theorem setSpaces (h : s.Sound loose) (spaces : List Space) : (s.setSpaces spaces).Sound loose :=
  ⟨h.tree, h.complete, h.distinct, h.edited⟩

end Sound

/-- A session without blocks and drafts is sound beside loose blocks whose ids were given out
before. -/
theorem sound_empty {supply : Supply} (h : Accounted supply [] loose) (settings : Settings)
    (viewer : Viewer) : Sound ⟨settings, viewer, .new supply, .empty⟩ loose where
  tree := Tree.sound_new h
  complete := by
    rw [(Tree.sound_new h).conditions_eq]
    exact fun c hc => absurd hc List.not_mem_nil
  distinct := Drafts.distinct_empty
  edited := fun _ _ hd => absurd hd (by simp [Drafts.empty, Drafts.get?])

theorem Sound.reset (h : s.Sound loose) : s.reset.Sound loose :=
  sound_empty ⟨h.tree.accounted.covers.right, h.tree.accounted.keepLimits⟩ s.settings s.viewer

end SearchComposer.Session
