import SearchComposer.Proofs.Session.Desk

/-!
# Editing one condition

Between the start of an edit of a condition and its end, other things happen on a desk: blocks come
in and go out, operators are rearranged around the condition, other conditions are edited, and edits
are refused. The edit sees none of this. Each move but an input to the edit keeps the condition and
its draft; an input keeps the condition, and applies to the draft. So the draft is always the value
at the start after all input to it, in order, and the condition is as it was until it gets the draft.
-/

namespace SearchComposer.Session

/-- The condition with an id and its draft are in one session what they are in another. -/
structure Keeps (x : BlockId) (s s' : Session) : Prop where
  /-- The condition is still in the tree. -/
  condition : ∀ c ∈ s.tree.conditions, c.id = x → c ∈ s'.tree.conditions
  /-- Its draft is the same. -/
  draft : s'.drafts.get? x = s.drafts.get? x

variable {s s' : Session} {loose : List Block} {x y p : BlockId} {b : Block}

theorem Keeps.refl (x : BlockId) (s : Session) : s.Keeps x s := ⟨fun _ hc _ => hc, rfl⟩

/-- A tree with the same conditions. -/
theorem Keeps.of_conditions_eq {t : Tree} (h : t.conditions = s.tree.conditions) :
    s.Keeps x { s with tree := t } :=
  ⟨fun _ hc _ => h ▸ hc, rfl⟩

/-! ## Edits that keep a condition -/

/-- A block that goes out takes a draft along only if it takes the condition along. -/
theorem keeps_forget {t : Tree} {out : Block} (ht : t.Sound (out :: loose))
    (hmem : ∀ c ∈ s.tree.conditions, c ∈ t.conditions ∨ c ∈ out.conditions)
    (hstays : (t.condition? x).isSome = true) :
    s.Keeps x { s with tree := t, drafts := s.drafts.forget out } := by
  obtain ⟨d, hfound⟩ := Option.isSome_iff_exists.mp hstays
  obtain ⟨hd, rfl⟩ := ht.condition?_eq_some.mp hfound
  -- the condition that is still there shows that nothing with its id went out
  refine ⟨fun c hc hid => ?_, ?_⟩
  · rcases hmem c hc with hin | hout
    · exact hin
    · exact absurd hid.symm (ht.id_ne_of_loose hd hout)
  · rw [Drafts.get?_forget, if_neg]
    intro hany
    obtain ⟨e, he, hid⟩ := List.any_eq_true.mp hany
    have hid : e.id = d.id := by simpa using hid
    exact absurd hid.symm (ht.id_ne_of_loose hd he)

namespace Sound

theorem keeps_add (h : s.Sound (b :: loose)) (hok : Session.add p b s = .ok y s') :
    s.Keeps x s' := by
  obtain ⟨-, t, -, rfl, hmem⟩ := h.exists_tree_of_add hok
  exact ⟨fun c hc _ => (hmem c).mpr (.inl hc), rfl⟩

theorem keeps_replace {old : BlockId} {u : Unit} (h : s.Sound (b :: loose))
    (hok : Session.replace p old b s = .ok u s') (hstays : (s'.tree.condition? x).isSome = true) :
    s.Keeps x s' := by
  obtain ⟨-, out, t, hreplace, rfl⟩ := replace_eq_ok.mp hok
  have hmem (c : Condition) := h.tree.mem_conditions_replace (c := c) hreplace
  exact keeps_forget (h.tree.replace hreplace) (fun c hc => (hmem c).mpr (.inl hc)) hstays

theorem keeps_remove {u : Unit} (h : s.Sound loose) (hok : Session.remove p y s = .ok u s')
    (hstays : (s'.tree.condition? x).isSome = true) : s.Keeps x s' := by
  obtain ⟨out, t, hremove, rfl⟩ := remove_eq_ok.mp hok
  have hmem (c : Condition) := h.tree.mem_conditions_remove (c := c) hremove
  exact keeps_forget (h.tree.remove hremove) (fun c hc => (hmem c).mpr hc) hstays

theorem keeps_surround {kind : Connective} {z : BlockId} (h : s.Sound loose)
    (hok : Session.surround y p kind s = .ok z s') : s.Keeps x s' := by
  obtain ⟨t, hsurround, rfl⟩ := onTree_eq_ok.mp hok
  exact .of_conditions_eq (h.tree.conditions_surround hsurround)

theorem keeps_change {kind : Connective} {z : BlockId} (h : s.Sound loose)
    (hok : Session.change y p kind s = .ok z s') : s.Keeps x s' := by
  obtain ⟨t, hchange, rfl⟩ := onTree_eq_ok.mp hok
  exact .of_conditions_eq (h.tree.conditions_change hchange)

theorem keeps_flatten {u : Unit} (h : s.Sound loose) (hok : Session.flatten y p s = .ok u s') :
    s.Keeps x s' := by
  obtain ⟨t, hflatten, rfl⟩ := onTree_eq_ok.mp hok
  exact .of_conditions_eq (h.tree.conditions_flatten hflatten)

theorem keeps_finishEdit {u : Unit} (h : s.Sound loose) (hok : Session.finishEdit y s = .ok u s')
    (hy : y ≠ x) : s.Keeps x s' := by
  obtain ⟨d, -, -, -, -, rfl⟩ := finishEdit_eq_ok.mp hok
  refine ⟨fun c hc hid => ?_, ?_⟩
  · have hne : c.id ≠ y := fun he => hy (he.symm.trans hid)
    rw [h.tree.conditions_setValue]
    exact List.mem_map.mpr ⟨c, hc, if_neg hne⟩
  · rw [Drafts.get?_finish, if_neg hy.symm]

end Sound

theorem keeps_startEdit {u : Unit} (hok : startEdit y s = .ok u s') (hy : y ≠ x) :
    s.Keeps x s' := by
  obtain ⟨c, -, rfl⟩ := startEdit_eq_ok.mp hok
  refine ⟨fun c hc _ => hc, ?_⟩
  rw [Drafts.get?_start, if_neg hy.symm]

theorem keeps_updateEdit {input : Input} {isValid : Bool}
    (hok : updateEdit y input s = .ok isValid s') (hy : y ≠ x) : s.Keeps x s' := by
  obtain ⟨c, d, -, -, -, rfl⟩ := updateEdit_eq_ok.mp hok
  refine ⟨fun c hc _ => hc, ?_⟩
  rw [Drafts.get?_update, if_neg hy.symm]

theorem keeps_cancelEdit {u : Unit} (hok : cancelEdit y s = .ok u s') (hy : y ≠ x) :
    s.Keeps x s' := by
  obtain ⟨-, rfl⟩ := cancelEdit_eq_ok.mp hok
  refine ⟨fun c hc _ => hc, ?_⟩
  rw [Drafts.get?_finish, if_neg hy.symm]

/-! ## Moves during an edit -/

namespace Desk

/-- A move does not end or restart the edit of the condition `x`, and leaves that condition in the
tree. A refused attempt to finish the edit does not end it. -/
def Spares (x : BlockId) (w : Desk) : Move → Prop
  | .reset => False
  | .startEdit y | .cancelEdit y => y ≠ x
  | .finishEdit y => y = x → ∃ r s, Session.finishEdit x w.session = .error r s
  | .replace p old b =>
    ((w.step (.replace p old b)).session.tree.condition? x).isSome = true
  | .remove p y => ((w.step (.remove p y)).session.tree.condition? x).isSome = true
  | _ => True

/-- None of some moves ends or restarts the edit of a condition. -/
def SparesAll (x : BlockId) : Desk → List Move → Prop
  | _, [] => True
  | w, m :: moves => w.Spares x m ∧ SparesAll x (w.step m) moves

/-- The input to the draft of a condition in a move. -/
def input? (x : BlockId) : Move → Option Input
  | .updateEdit y input => if y = x then some input else none
  | _ => none

/-- The input to the draft of a condition in some moves, in order. -/
def inputs (x : BlockId) (moves : List Move) : List Input := moves.filterMap (input? x)

/-- The condition `c` is in the tree and is being edited: its draft has the value `value?`. -/
structure Editing (w : Desk) (c : Condition) (value? : Option Value) : Prop where
  /-- The condition is in the tree. -/
  mem : c ∈ w.session.tree.conditions
  /-- It has a draft with that value. -/
  draft : ∃ d, w.session.drafts.get? c.id = some d ∧ d.value? = value?

variable {w : Desk} {c : Condition} {value? : Option Value}

theorem SparesAll.left {before after : List Move} (h : SparesAll x w (before ++ after)) :
    SparesAll x w before := by
  induction before generalizing w with
  | nil => exact trivial
  | cons m before ih =>
    obtain ⟨hm, hrest⟩ := h
    exact ⟨hm, ih hrest⟩

theorem keeps_edit {α : Type} {e : Edit α} (he : Atomic e)
    (hok : ∀ a s, e w.session = .ok a s → w.session.Keeps x s) :
    w.session.Keeps x (w.edit e).session := by
  rcases edit_cases he with hkept | ⟨a, s, hmade, hedit⟩
  · rw [hkept]
    exact Keeps.refl x w.session
  · rw [hedit]
    exact hok a s hmade

/-- A move without input keeps a condition that it spares. -/
theorem Sound.keeps_step (h : w.Sound) {m : Move} (hm : w.Spares x m) (hinput : input? x m = none) :
    w.session.Keeps x (w.step m).session := by
  have hsame {w' : Desk} (hw' : w'.session = w.session) : w.session.Keeps x w'.session :=
    hw' ▸ Keeps.refl x w.session
  cases m with
  | craft c => exact ⟨fun _ hc _ => hc, rfl⟩
  | setSpaces spaces => exact ⟨fun _ hc _ => hc, rfl⟩
  | reset => exact absurd hm id
  | add p y =>
    have hrefused (b : Block) (others : List Block) (r : Refusal) (s : Session)
        (hb : w.session.Sound (b :: others)) (hr : Session.add p b w.session = .error r s) :
        s = w.session := hb.add_refused hr
    rcases h.editWith_cases hrefused with ⟨hkept, -⟩ | ⟨b, others, z, s, hb, hmade, hstep⟩
    · exact hsame hkept
    · rw [Desk.step, hstep]
      exact hb.keeps_add hmade
  | replace p old y =>
    rcases h.editWith_cases fun b _ _ _ _ => atomic_replace p old b _ _ _ with
      ⟨hkept, -⟩ | ⟨b, others, u, s, hb, hmade, hstep⟩
    · exact hsame hkept
    · rw [Spares, Desk.step, hstep] at hm
      rw [Desk.step, hstep]
      exact hb.keeps_replace hmade hm
  | remove p y =>
    rcases edit_cases (atomic_remove p y) with hkept | ⟨u, s, hmade, hstep⟩
    · exact hsame (congrArg session hkept)
    · rw [Spares, Desk.step, hstep] at hm
      rw [Desk.step, hstep]
      exact Session.Sound.keeps_remove h hmade hm
  | surround y p kind =>
    exact keeps_edit (atomic_surround y p kind) fun _ _ => Session.Sound.keeps_surround h
  | change y p kind =>
    exact keeps_edit (atomic_change y p kind) fun _ _ => Session.Sound.keeps_change h
  | flatten y p =>
    exact keeps_edit (atomic_flatten y p) fun _ _ => Session.Sound.keeps_flatten h
  | startEdit y =>
    exact keeps_edit (atomic_startEdit y) fun _ _ hmade => keeps_startEdit hmade hm
  | updateEdit y input =>
    have hy : y ≠ x := by
      rintro rfl
      simp [input?] at hinput
    exact keeps_edit (atomic_updateEdit y input) fun _ _ hmade => keeps_updateEdit hmade hy
  | finishEdit y =>
    refine keeps_edit (atomic_finishEdit y) fun u s hmade => ?_
    have hy : y ≠ x := by
      rintro rfl
      obtain ⟨r, s', hrefused⟩ := hm rfl
      rw [hrefused] at hmade
      cases hmade
    exact Session.Sound.keeps_finishEdit h hmade hy
  | cancelEdit y =>
    exact keeps_edit (atomic_cancelEdit y) fun _ _ hmade => keeps_cancelEdit hmade hm

/-! ## The draft so far -/

/-- Input to a draft is never refused. -/
theorem Editing.exists_updateEdit (he : w.Editing c value?) (h : w.Sound) (input : Input) :
    ∃ isValid, updateEdit c.id input w.session = .ok isValid
      { w.session with drafts := w.session.drafts.update c.id (input.apply value?) isValid } := by
  obtain ⟨d, hd, rfl⟩ := he.draft
  have hfind := h.tree.find?_eq_condition.mpr ⟨he.mem, rfl⟩
  exact ⟨_, updateEdit_eq_ok.mpr ⟨c, d, hfind, hd, rfl, rfl⟩⟩

theorem Editing.of_keeps {w' : Desk} (he : w.Editing c value?)
    (hkeeps : w.session.Keeps c.id w'.session) : w'.Editing c value? where
  mem := hkeeps.condition c he.mem rfl
  draft := hkeeps.draft ▸ he.draft

/-- A move keeps a condition that it spares, and applies its input to the draft. -/
theorem Editing.step (he : w.Editing c value?) (h : w.Sound) {m : Move} (hm : w.Spares c.id m) :
    (w.step m).Editing c (Input.applyAll value? (input? c.id m).toList) := by
  cases hinput : input? c.id m with
  | none => exact he.of_keeps (h.keeps_step hm hinput)
  | some input =>
    cases m with
    | updateEdit y input' =>
      obtain ⟨rfl, rfl⟩ : y = c.id ∧ input' = input := by simpa [input?] using hinput
      obtain ⟨isValid, hmade⟩ := he.exists_updateEdit h input'
      obtain ⟨d, hd, -⟩ := he.draft
      rw [Desk.step, edit, hmade]
      refine ⟨he.mem, ⟨isValid, _⟩, ?_, rfl⟩
      rw [Drafts.get?_update, if_pos rfl, hd]
      rfl
    | _ => simp [input?] at hinput

/-! ## A whole edit -/

theorem inputs_cons (x : BlockId) (m : Move) (moves : List Move) :
    inputs x (m :: moves) = (input? x m).toList ++ inputs x moves := by
  rw [inputs, List.filterMap_cons]
  cases input? x m <;> rfl

/-- Moves keep a condition that they spare, and apply their input to the draft in order. -/
theorem Editing.run {moves : List Move} (he : w.Editing c value?) (h : w.Sound)
    (hmoves : SparesAll c.id w moves) :
    (w.run moves).Editing c (Input.applyAll value? (inputs c.id moves)) := by
  induction moves generalizing w value? with
  | nil => exact he
  | cons m moves ih =>
    obtain ⟨hm, hrest⟩ := hmoves
    -- the value so far is general in the induction, because the first move may change it
    have hrun := ih (he.step h hm) (h.step m) hrest
    rw [inputs_cons, Input.applyAll, List.foldl_append]
    exact hrun

/-- A draft that is finished goes into its condition. -/
theorem Editing.finish {u : Unit} (he : w.Editing c value?) (h : w.Sound)
    (hok : finishEdit c.id w.session = .ok u s') :
    s'.tree.condition? c.id = some { c with value? := value? } := by
  obtain ⟨d, hd, rfl⟩ := he.draft
  obtain ⟨d', -, hd', -, -, rfl⟩ := finishEdit_eq_ok.mp hok
  obtain rfl : d = d' := Option.some.inj (hd.symm.trans hd')
  refine (h.tree.setValue c.id d.value?).condition?_eq_some.mpr ⟨?_, rfl⟩
  rw [h.tree.conditions_setValue]
  exact List.mem_map.mpr ⟨c, he.mem, if_pos rfl⟩

/-- A draft can be finished exactly if the condition accepts its value. -/
theorem Editing.exists_finishEdit (he : w.Editing c value?) (h : w.Sound) :
    (∃ s', finishEdit c.id w.session = .ok () s') ↔ c.accepts value? = true := by
  obtain ⟨d, hd, rfl⟩ := he.draft
  rw [← Session.Sound.isValid_eq h he.mem hd]
  constructor
  · rintro ⟨s', hok⟩
    obtain ⟨d', -, hd', hvalid, -, -⟩ := finishEdit_eq_ok.mp hok
    obtain rfl : d = d' := Option.some.inj (hd.symm.trans hd')
    exact hvalid
  · intro hvalid
    have hc := h.tree.condition?_eq_some.mpr ⟨he.mem, rfl⟩
    exact ⟨_, finishEdit_eq_ok.mpr ⟨d, c, hd, hvalid, hc, rfl⟩⟩

/-- An edit starts with the value of its condition. -/
theorem Sound.exists_editing (h : w.Sound) {u : Unit}
    (hok : startEdit x w.session = .ok u s) :
    ∃ c, c.id = x ∧ w.session.tree.condition? x = some c ∧ Editing ⟨s, w.loose⟩ c c.value? := by
  obtain ⟨c, hfind, rfl⟩ := startEdit_eq_ok.mp hok
  obtain ⟨hc, rfl⟩ := h.tree.find?_eq_condition.mp hfind
  exact ⟨c, rfl, h.tree.condition?_eq_some.mpr ⟨hc, rfl⟩, hc, _, Drafts.get?_start_self _ _ _, rfl⟩

/-- Once an edit of a condition has been started after any moves, the condition stays as it is and
no input to the edit is refused, whatever else is done, as long as the condition stays in the tree
and the edit is not ended or started again. The edit can then be finished exactly if the condition
accepts the value that it had at the start after all input in order, and gets that value; if it is
cancelled instead, the condition keeps its own. -/
theorem edit_commits_input {w : Desk} (hw : w.Reachable) {x : BlockId} {s : Session}
    (hstart : startEdit x w.session = .ok () s) {moves : List Move}
    (hmoves : SparesAll x ⟨s, w.loose⟩ moves) :
    ∃ c, w.session.tree.condition? x = some c ∧
      (∀ before, before <+: moves →
        ((Desk.mk s w.loose).run before).session.tree.condition? x = some c) ∧
      (∀ before input, before ++ [.updateEdit x input] <+: moves → ∃ isValid s',
        updateEdit x input ((Desk.mk s w.loose).run before).session = .ok isValid s') ∧
      ((∃ s', finishEdit x ((Desk.mk s w.loose).run moves).session = .ok () s') ↔
        c.accepts (Input.applyAll c.value? (inputs x moves)) = true) ∧
      (∀ s', finishEdit x ((Desk.mk s w.loose).run moves).session = .ok () s' →
        s'.tree.condition? x =
          some { c with value? := Input.applyAll c.value? (inputs x moves) }) ∧
      ∃ s', cancelEdit x ((Desk.mk s w.loose).run moves).session = .ok () s' ∧
        s'.tree.condition? x = some c := by
  have hs : Sound ⟨s, w.loose⟩ := Session.Sound.startEdit hw.sound hstart
  obtain ⟨c, rfl, hc, hstarted⟩ := hw.sound.exists_editing hstart
  have hediting (before : List Move) (hbefore : before <+: moves) :
      ((Desk.mk s w.loose).run before).Editing c
        (Input.applyAll c.value? (inputs c.id before)) := by
    obtain ⟨after, rfl⟩ := hbefore
    exact hstarted.run hs hmoves.left
  have hlast := hediting moves (List.prefix_refl moves)
  refine ⟨c, hc, ?_, ?_, hlast.exists_finishEdit (hs.run moves), ?_, ?_⟩
  · intro before hbefore
    exact (hs.run before).tree.condition?_eq_some.mpr ⟨(hediting before hbefore).mem, rfl⟩
  · intro before input hbefore
    have hpre := (List.prefix_append before _).trans hbefore
    obtain ⟨isValid, hmade⟩ := (hediting before hpre).exists_updateEdit (hs.run before) input
    exact ⟨isValid, _, hmade⟩
  · intro s' hok
    exact hlast.finish (hs.run moves) hok
  · obtain ⟨d, hd, -⟩ := hlast.draft
    refine ⟨_, cancelEdit_eq_ok.mpr ⟨⟨d, hd⟩, rfl⟩, ?_⟩
    exact (hs.run moves).tree.condition?_eq_some.mpr ⟨hlast.mem, rfl⟩

/-- While its flag is edited, a condition is surrounded, and a negation takes in the conjunction that
holds it; the other condition there is edited as well. A flag that is no truth value cannot be put
into the condition; the next one is. -/
theorem edit_commits_input_while_rearranged :
    ∃ (w : Desk) (s s' : Session) (moves : List Move) (c : Condition),
      w.Reachable ∧ startEdit ⟨1⟩ w.session = .ok () s ∧ SparesAll ⟨1⟩ ⟨s, w.loose⟩ moves ∧
      inputs ⟨1⟩ moves = [.text "maybe", .text "false"] ∧
      finishEdit ⟨1⟩ ((Desk.mk s w.loose).run moves).session = .ok () s' ∧
      w.session.tree.root.toBlock.ids = [⟨5⟩, ⟨3⟩, ⟨1⟩, ⟨2⟩] ∧
      s'.tree.root.toBlock.ids = [⟨5⟩, ⟨4⟩, ⟨3⟩, ⟨6⟩, ⟨1⟩, ⟨2⟩] ∧
      w.session.tree.condition? ⟨1⟩ = some c ∧ c.value? = some (.text "true") ∧
      s'.tree.condition? ⟨1⟩ = some { c with value? := some (.text "false") } := by
  let condition (n : Nat) (text : String) : Block :=
    .condition ⟨⟨n⟩, some (.mapped none "open" .boolean false), some .booleanIs, some (.text text)⟩
  let draft (n : Nat) (isValid : Bool) (text : String) : BlockId × Draft :=
    (⟨n⟩, ⟨isValid, some (.text text)⟩)
  let desk (main : Block) (next : Nat) (drafts : List (BlockId × Draft)) (loose : List Block) :
      Desk :=
    ⟨⟨.default, ⟨[], Settings.default.zone⟩, ⟨⟨⟨5⟩, .root, [main]⟩, ⟨next⟩⟩, ⟨drafts⟩⟩, loose⟩
  let flat : Block := .operator ⟨3⟩ .and [condition 1 "true", condition 2 "true"]
  let deep (text : String) : Block :=
    .operator ⟨3⟩ .and [.operator ⟨6⟩ .or [condition 1 text], condition 2 "true"]
  let negation (operands : List Block) : Block := .operator ⟨4⟩ .not operands
  let before := desk flat 6 [] [negation []]
  let started := desk flat 6 [draft 1 true "true"] [negation []]
  let surrounded := desk (deep "true") 7 [draft 1 true "true"] [negation []]
  let undecided := desk (deep "true") 7 [draft 1 false "maybe"] [negation []]
  let both := desk (deep "true") 7 [draft 2 true "true", draft 1 false "maybe"] [negation []]
  let negated :=
    desk (negation [deep "true"]) 7 [draft 2 true "true", draft 1 false "maybe"] []
  let decided := desk (negation [deep "true"]) 7 [draft 2 true "true", draft 1 true "false"] []
  let finished := desk (negation [deep "false"]) 7 [draft 2 true "true"] []
  let moves : List Move :=
    [.surround ⟨1⟩ ⟨3⟩ .or, .updateEdit ⟨1⟩ (.text "maybe"), .startEdit ⟨2⟩, .finishEdit ⟨1⟩,
      .add ⟨5⟩ ⟨4⟩, .updateEdit ⟨1⟩ (.text "false")]
  have hw : before.Reachable :=
    ⟨.default, [], ⟨1⟩,
      [.condition (some (.mapped none "open" .boolean false)) (some .booleanIs)
          (some (.text "true")),
        .copy ⟨1⟩, .join .and [⟨1⟩, ⟨2⟩], .operator .not], [.add ⟨5⟩ ⟨3⟩], rfl⟩
  have hstart : startEdit ⟨1⟩ before.session = .ok () started.session := rfl
  have hsurround : started.step (.surround ⟨1⟩ ⟨3⟩ .or) = surrounded := rfl
  have hmaybe : surrounded.step (.updateEdit ⟨1⟩ (.text "maybe")) = undecided := rfl
  have hother : undecided.step (.startEdit ⟨2⟩) = both := rfl
  have hrefused : finishEdit ⟨1⟩ both.session = .error (.invalidValue ⟨1⟩) both.session := rfl
  have hstays : both.step (.finishEdit ⟨1⟩) = both := rfl
  have hadd : both.step (.add ⟨5⟩ ⟨4⟩) = negated := rfl
  have hfalse : negated.step (.updateEdit ⟨1⟩ (.text "false")) = decided := rfl
  have hmoves : SparesAll ⟨1⟩ started moves := by
    simp only [moves, SparesAll, Spares, hsurround, hmaybe, hother, true_and, and_true]
    exact ⟨by decide, fun _ => ⟨_, _, hrefused⟩⟩
  have hrun : started.run moves = decided := by
    simp only [moves, run, List.foldl, hsurround, hmaybe, hother, hstays, hadd, hfalse]
  have hlast : finishEdit ⟨1⟩ (started.run moves).session = .ok () finished.session := by
    rw [hrun]
    rfl
  obtain ⟨c, hc, -, -, -, hfinish, -⟩ := edit_commits_input hw hstart hmoves
  obtain rfl := Option.some.inj hc
  exact ⟨before, started.session, finished.session, moves, _, hw, hstart, hmoves, rfl, hlast, rfl,
    rfl, rfl, rfl, hfinish _ hlast⟩

end Desk

end SearchComposer.Session
