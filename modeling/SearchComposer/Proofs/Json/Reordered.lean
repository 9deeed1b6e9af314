import Mathlib.Logic.Relation
import SearchComposer.Proofs.Json.Entries

/-!
# Values up to the order of keys

A change of a value at one place may be a change of the value as a whole or of a part of it, however
deep it is nested. Two values are equal up to the order of keys if some changes lead from the one to
the other, each of which puts the entries of one object into another order. Where keys are distinct,
two objects are equal in this sense exactly if what they have under each key is.
-/

/-! ## Related options -/

namespace Option.Rel

variable {α β : Type} {r : α → α → Prop} {a? b? c? : Option α}

theorem refl (h : ∀ a, r a a) (a? : Option α) : Option.Rel r a? a? := by
  cases a? with
  | none => exact .none
  | some a => exact .some (h a)

theorem symm (h : ∀ a b, r a b → r b a) (hab : Option.Rel r a? b?) : Option.Rel r b? a? := by
  cases hab with
  | none => exact .none
  | some hab => exact .some (h _ _ hab)

theorem trans (h : ∀ a b c, r a b → r b c → r a c) (hab : Option.Rel r a? b?)
    (hbc : Option.Rel r b? c?) : Option.Rel r a? c? := by
  cases hab with
  | none => exact hbc
  | some hab =>
    cases hbc with
    | some hbc => exact .some (h _ _ _ hab hbc)

theorem isSome_eq (hab : Option.Rel r a? b?) : a?.isSome = b?.isSome := by
  cases hab <;> rfl

theorem imp {r' : α → α → Prop} (hab : Option.Rel r a? b?)
    (h : ∀ a ∈ a?, ∀ b ∈ b?, r a b → r' a b) : Option.Rel r' a? b? := by
  cases hab with
  | none => exact .none
  | some hab => exact .some (h _ rfl _ rfl hab)

theorem bind {r' : β → β → Prop} {f g : α → Option β} (hab : Option.Rel r a? b?)
    (h : ∀ a ∈ a?, ∀ b ∈ b?, r a b → Option.Rel r' (f a) (g b)) :
    Option.Rel r' (a?.bind f) (b?.bind g) := by
  cases hab with
  | none => exact .none
  | some hab => exact h _ rfl _ rfl hab

end Option.Rel

namespace SearchComposer

namespace Json

/-! ## Changes of parts -/

/-- A change of a value at one place. -/
inductive Within (change : Json → Json → Prop) : Json → Json → Prop where
  /-- The value is changed as a whole. -/
  | here {j j' : Json} (h : change j j') : Within change j j'
  /-- An item of a list is changed. -/
  | item (front back : List Json) {j j' : Json} (h : Within change j j') :
      Within change (.arr (front ++ j :: back)) (.arr (front ++ j' :: back))
  /-- The value under a key of an object is changed. -/
  | entry (front back : Entries) (key : String) {j j' : Json} (h : Within change j j') :
      Within change (.obj (front ++ (key, j) :: back)) (.obj (front ++ (key, j') :: back))

/-- What changes of the value under a key lead to, they lead to in the object. -/
theorem Within.eqvGen_entry {change : Json → Json → Prop} {j j' : Json} (front back : Entries)
    (key : String) (h : Relation.EqvGen (Within change) j j') :
    Relation.EqvGen (Within change) (.obj (front ++ (key, j) :: back))
      (.obj (front ++ (key, j') :: back)) := by
  induction h with
  | rel j j' h => exact .rel _ _ (.entry front back key h)
  | refl j => exact .refl _
  | symm j j' _ ih => exact .symm _ _ ih
  | trans j j' j'' _ _ ih ih' => exact .trans _ _ _ ih ih'

/-- The entries of an object are put into another order. -/
inductive PermutesKeys : Json → Json → Prop where
  /-- The keys stay with their values. -/
  | intro {entries entries' : Entries} (h : entries.Perm entries') :
      PermutesKeys (.obj entries) (.obj entries')

/-- Equal up to the order of the keys of objects, at any depth. -/
def Reordered : Json → Json → Prop := Relation.EqvGen (Within PermutesKeys)

namespace Entries

variable {key : String} {entries : Entries}

/-- In the place of an entry there may be another one with the same key. -/
theorem get?_append_cons (front back : Entries) (k : String) (j : Json) (key : String) :
    get? key (front ++ (k, j) :: back) =
      ((get? key front).or (if k = key then some j else get? key back)) := by
  induction front with
  | nil => rfl
  | cons e front ih =>
    rw [List.cons_append, get?, get?, ih]
    split <;> rfl

end Entries

namespace Reordered

variable {j j' j'' : Json} {entries entries' : Entries}

theorem refl (j : Json) : Reordered j j := Relation.EqvGen.refl j

theorem symm (h : Reordered j j') : Reordered j' j := Relation.EqvGen.symm _ _ h

theorem trans (h : Reordered j j') (h' : Reordered j' j'') : Reordered j j'' :=
  Relation.EqvGen.trans _ _ _ h h'

theorem of_perm (h : entries.Perm entries') : Reordered (.obj entries) (.obj entries') :=
  Relation.EqvGen.rel _ _ (.here (.intro h))

theorem entry (front back : Entries) (key : String) (h : Reordered j j') :
    Reordered (.obj (front ++ (key, j) :: back)) (.obj (front ++ (key, j') :: back)) :=
  Within.eqvGen_entry front back key h

/-- Nothing but lists and objects is changed, and these remain lists and objects. -/
theorem cases (h : Reordered j j') : j = j' ∨
    (∃ items items', j = .arr items ∧ j' = .arr items') ∨
      ∃ entries entries', j = .obj entries ∧ j' = .obj entries' := by
  induction h with
  | rel j j' h =>
    cases h with
    | here h =>
      obtain ⟨-⟩ := h
      exact .inr (.inr ⟨_, _, rfl, rfl⟩)
    | item front back h => exact .inr (.inl ⟨_, _, rfl, rfl⟩)
    | entry front back key h => exact .inr (.inr ⟨_, _, rfl, rfl⟩)
  | refl j => exact .inl rfl
  | symm j j' _ ih =>
    rcases ih with rfl | ⟨items, items', hj, hj'⟩ | ⟨entries, entries', hj, hj'⟩
    · exact .inl rfl
    · exact .inr (.inl ⟨items', items, hj', hj⟩)
    · exact .inr (.inr ⟨entries', entries, hj', hj⟩)
  | trans j j' j'' _ _ ih ih' =>
    rcases ih with rfl | ⟨items, items', rfl, rfl⟩ | ⟨entries, entries', rfl, rfl⟩
    · exact ih'
    · rcases ih' with rfl | ⟨_, items'', -, rfl⟩ | ⟨_, _, heq, -⟩
      · exact .inr (.inl ⟨_, _, rfl, rfl⟩)
      · exact .inr (.inl ⟨_, _, rfl, rfl⟩)
      · cases heq
    · rcases ih' with rfl | ⟨_, _, heq, -⟩ | ⟨_, entries'', -, rfl⟩
      · exact .inr (.inr ⟨_, _, rfl, rfl⟩)
      · cases heq
      · exact .inr (.inr ⟨_, _, rfl, rfl⟩)

theorem distinctKeys_iff (h : Reordered j j') :
    j.distinctKeys = true ↔ j'.distinctKeys = true := by
  induction h with
  | refl j => exact Iff.rfl
  | symm j j' _ ih => exact ih.symm
  | trans j j' j'' _ _ ih ih' => exact ih.trans ih'
  | rel j j' h =>
    induction h with
    | here h =>
      obtain ⟨hperm⟩ := h
      have hkeys : _ ↔ _ := (hperm.map Prod.fst).nodup_iff
      simp only [distinctKeys_obj, Entries.keys, hkeys, hperm.mem_iff]
    | item front back _ ih =>
      simp only [distinctKeys, distinctKeysIn_iff, List.forall_mem_append, List.forall_mem_cons, ih]
    | entry front back key _ ih =>
      simp only [distinctKeys_obj, Entries.keys, List.map_append, List.map_cons,
        List.forall_mem_append, List.forall_mem_cons, ih]

/-- Under each key stands the same value up to the order of keys. -/
theorem rel_field? (h : Reordered j j') (hd : j.distinctKeys = true) (key : String) :
    Option.Rel Reordered (j.field? key) (j'.field? key) := by
  induction h with
  | refl j => exact Option.Rel.refl refl _
  | symm j j' hj ih => exact Option.Rel.symm (fun _ _ => symm) (ih ((distinctKeys_iff hj).mpr hd))
  | trans j j' j'' hj _ ih ih' =>
    exact Option.Rel.trans (fun _ _ _ => trans) (ih hd) (ih' ((distinctKeys_iff hj).mp hd))
  | rel j j' h =>
    cases h with
    | here h =>
      obtain ⟨hperm⟩ := h
      obtain ⟨hkeys, -⟩ := distinctKeys_obj.mp hd
      simp only [field?, Entries.get?_eq_of_perm hkeys hperm]
      exact Option.Rel.refl refl _
    | item front back h => exact .none
    | entry front back k h =>
      simp only [field?, Entries.get?_append_cons]
      cases Entries.get? key front with
      | some value => exact .some (refl value)
      | none =>
        by_cases hk : k = key
        · rw [if_pos hk, if_pos hk]
          exact .some (Relation.EqvGen.rel _ _ h)
        · rw [if_neg hk, if_neg hk]
          exact Option.Rel.refl refl _

/-- Objects with distinct keys are the same up to the order of keys if that holds of what they have
under each key. -/
theorem of_rel_get? (hn : entries.keys.Nodup) (hn' : entries'.keys.Nodup)
    (h : ∀ key, Option.Rel Reordered (entries.get? key) (entries'.get? key)) :
    Reordered (.obj entries) (.obj entries') := by
  -- one entry after the other is exchanged, behind those that have been
  suffices hfront : ∀ front : Entries,
      Reordered (.obj (front ++ entries)) (.obj (front ++ entries')) from hfront []
  induction entries generalizing entries' with
  | nil =>
    obtain rfl : entries' = [] := by
      refine List.eq_nil_iff_forall_not_mem.mpr fun e he => ?_
      have hrel := h e.1
      rw [(Entries.get?_eq_some hn').mpr he] at hrel
      cases hrel
    exact fun front => refl _
  | cons e rest ih =>
    obtain ⟨key, j⟩ := e
    obtain ⟨hkey, hrest⟩ := List.nodup_cons.mp hn
    obtain ⟨j', hget, hj⟩ : ∃ j', entries'.get? key = some j' ∧ Reordered j j' := by
      have hrel := h key
      rw [Entries.get?, if_pos rfl] at hrel
      generalize entries'.get? key = found at hrel ⊢
      cases hrel with
      | some hj => exact ⟨_, rfl, hj⟩
    have hothers : ∀ k, Option.Rel Reordered (Entries.get? k rest)
        (Entries.get? k (entries'.filter (·.1 != key))) := by
      intro k
      rw [Entries.get?_filter]
      by_cases hk : k = key
      · rw [if_pos hk, hk, Entries.get?_eq_none.mpr hkey]
        exact .none
      · have hrel := h k
        rw [Entries.get?, if_neg (Ne.symm hk)] at hrel
        rwa [if_neg hk]
    intro front
    have hfirst :
        Reordered (.obj (front ++ (key, j) :: rest)) (.obj (front ++ (key, j') :: rest)) :=
      hj.entry front rest key
    have hnext := ih hrest (Entries.nodup_keys_filter hn' key) hothers (front ++ [(key, j')])
    rw [List.append_assoc, List.append_assoc] at hnext
    have hperm := (Entries.perm_cons_filter hn' hget).symm
    exact hfirst.trans (hnext.trans (of_perm (hperm.append_left front)))

end Reordered

end Json

end SearchComposer
