import SearchComposer.Proofs.Block.Alike
import SearchComposer.Proofs.Request.Meaning
import SearchComposer.Proofs.Session.Edit

/-!
# A search does not depend on ids

Ids say which block an edit is about and nothing else. The query of a block is the query of the
anonymous one, and so is the answer whether a session lets it in. So two blocks that are equal but
for their ids can be exchanged, and blocks that differ in anything else are told apart.
-/

namespace SearchComposer

namespace Block

/-- What is the same for two blocks that can stand for one another. -/
structure Interchangeable (a b : Block) : Prop where
  /-- They are the same query, whatever the settings. -/
  clause : ∀ settings, a.clause? settings = b.clause? settings
  /-- They are equally high. -/
  level : a.level = b.level
  /-- Both have a root in them or none has. -/
  hasRoot : a.hasRoot = b.hasRoot
  /-- They have equally many conditions. -/
  conditions : a.conditions.length = b.conditions.length
  /-- Every session lets both in or none. -/
  complete : ∀ s s' : Session,
    Session.requireComplete a s = .ok () s' ↔ Session.requireComplete b s = .ok () s'

variable (settings : Settings)

mutual

theorem clause?_anonymous : ∀ b : Block, b.anonymous.clause? settings = b.clause? settings
  | condition _ => rfl
  | operator _ kind operands => by
    have hclauses := clauses_anonymousAll operands
    cases kind with
    | and => rw [anonymous, clause?, clause?, hclauses]
    | or => rw [anonymous, clause?, clause?, hclauses]
    | not => rw [anonymous, clause?, clause?, hclauses]
    | root =>
      rw [anonymous, clause?, clause?]
      cases operands with
      | nil => rfl
      | cons b bs => exact clause?_anonymous b

theorem clauses_anonymousAll :
    ∀ bs : List Block, clauses settings (anonymousAll bs) = clauses settings bs
  | [] => rfl
  | b :: bs => by
    rw [anonymousAll, clauses, clauses, clause?_anonymous b, clauses_anonymousAll bs]

end

/-- A condition is complete or not whatever its id is. -/
theorem complete_anonymous (b : Block) :
    (∀ c ∈ b.anonymous.conditions, c.isComplete = true) ↔
      ∀ c ∈ b.conditions, c.isComplete = true := by
  rw [conditions_anonymous]
  exact List.forall_mem_map

/-- A block can stand for the anonymous one. -/
theorem interchangeable_anonymous (b : Block) : Interchangeable b.anonymous b where
  clause settings := clause?_anonymous settings b
  level := level_anonymous b
  hasRoot := hasRoot_anonymous b
  conditions := by rw [conditions_anonymous, List.length_map]
  complete s s' := by
    rw [Session.requireComplete_eq_ok, Session.requireComplete_eq_ok, complete_anonymous]

namespace Interchangeable

variable {a b c : Block}

theorem symm (h : Interchangeable a b) : Interchangeable b a where
  clause settings := (h.clause settings).symm
  level := h.level.symm
  hasRoot := h.hasRoot.symm
  conditions := h.conditions.symm
  complete s s' := (h.complete s s').symm

theorem trans (h : Interchangeable a b) (h' : Interchangeable b c) : Interchangeable a c where
  clause settings := (h.clause settings).trans (h'.clause settings)
  level := h.level.trans h'.level
  hasRoot := h.hasRoot.trans h'.hasRoot
  conditions := h.conditions.trans h'.conditions
  complete s s' := (h.complete s s').trans (h'.complete s s')

end Interchangeable

/-- To be alike is an equivalence. Blocks that are alike are the same query under all settings, have
the same height and the same number of conditions, both have a root or none, and are let in by the
same sessions. Blocks that are not alike show something else at some address: a condition with
another part, or an operator of another kind or with another number of operands. -/
theorem alike_blocks_are_interchangeable :
    (Equivalence fun a b : Block => a.alike b = true) ∧
      (∀ a b : Block, a.alike b = true → Interchangeable a b) ∧
      ∀ a b : Block, a.alike b = false ↔
        ∃ address, (a.at? address).map guise ≠ (b.at? address).map guise := by
  refine ⟨equivalence_alike, fun a b h => ?_, fun a b => ?_⟩
  · have ha : Interchangeable a.anonymous a := interchangeable_anonymous a
    have hb : Interchangeable b.anonymous b := interchangeable_anonymous b
    rw [alike_iff.mp h] at ha
    exact ha.symm.trans hb
  · rw [← Bool.not_eq_true, alike_iff_guise, not_forall]

/-- A condition and its negation are alike under two sets of ids, but not in two orders. -/
theorem alike_blocks_are_interchangeable_in_order :
    ∃ a b c : Block, a.ids = [⟨1⟩, ⟨2⟩, ⟨3⟩, ⟨4⟩] ∧ b.ids = [⟨5⟩, ⟨6⟩, ⟨7⟩, ⟨8⟩] ∧
      a.alike b = true ∧ Interchangeable a b ∧ a.alike c = false ∧
      ∃ address, (a.at? address).map guise ≠ (c.at? address).map guise := by
  let phrase (n : Nat) : Block :=
    .condition ⟨⟨n⟩, some .anyProperty, some .anyHasPhrase, some (.text "phrase")⟩
  let a : Block := .operator ⟨1⟩ .or [phrase 2, .operator ⟨3⟩ .not [phrase 4]]
  let b : Block := .operator ⟨5⟩ .or [phrase 6, .operator ⟨7⟩ .not [phrase 8]]
  let c : Block := .operator ⟨1⟩ .or [.operator ⟨3⟩ .not [phrase 4], phrase 2]
  have hab : a.alike b = true := by decide
  have hac : a.alike c = false := by decide
  obtain ⟨-, hinterchangeable, htold⟩ := alike_blocks_are_interchangeable
  exact ⟨a, b, c, rfl, rfl, hab, hinterchangeable a b hab, hac, (htold a c).mp hac⟩

end Block

end SearchComposer
