import SearchComposer.Proofs.Condition
import SearchComposer.Request.Basic

/-!
# Tests of accepted values

A comparator accepts a value by one set of rules, and a request makes a test of it by another. The
two agree: a value that is accepted can be tested, and what is tested are the fields that the
condition is about. For numbers the rules are the same on all texts.
-/

namespace SearchComposer

variable {s : Settings} {c : Condition} {t : Test}

/-- The fields of a document that a test looks at. -/
def Test.fields : Test → List String
  | term field _ => [field]
  | range field _ => [field]
  | words field _ => [field]
  | phrase fields _ => fields

/-- The fields of a document that a condition is about: the field with the space, the fields for
phrases, or the property. -/
def Condition.targets (s : Settings) (c : Condition) : List String :=
  match c.comparator? with
  | some .spaceIs => [s.spaceField]
  | some .anyHasPhrase => s.anyPropertyFields
  | _ => (c.property?.map (·.path)).toList

/-- A text denotes a number to search for exactly if it denotes a finite one. -/
theorem isSome_searchedNumber? (text : String) :
    (searchedNumber? text).isSome = (Comparator.finite? text).isSome := by
  unfold searchedNumber? Comparator.finite?
  cases Number.Binary64.ofText? (Text.trim text) with
  | none => rfl
  | some x =>
    simp only [Option.bind_eq_bind, Option.bind_some, Option.filter_some]
    cases x with
    | finite negative significand exponent =>
      simp only [Number.Binary64.isFinite, if_true, Option.isSome_some]
      split
      · split <;> rfl
      · rfl
    | infinite negative => rfl
    | nan => rfl

/-- A comparator of numbers accepts exactly the texts that denote a number to search for. -/
theorem Comparator.accepts_number (b : Bound) (text : String) :
    (Comparator.number b).accepts (some (.text text)) = (searchedNumber? text).isSome :=
  (isSome_searchedNumber? text).symm

/-- A value that is accepted can be tested. -/
theorem Test.isSome_of?_of_accepts (s : Settings) (p : Property) {k : Comparator} {v : Value}
    (h : k.accepts (some v) = true) : (Test.of? s p k v).isSome = true := by
  cases k with
  | number b =>
    cases v with
    | text text =>
      rw [Comparator.accepts_number] at h
      simpa [Test.of?] using h
    | date d => cases h
    | space space => cases h
  | _ => cases v <;> first | rfl | cases h

/-- A complete condition has a test. -/
theorem Condition.isSome_test?_of_isComplete (s : Settings) (h : c.isComplete = true) :
    (c.test? s).isSome = true := by
  obtain ⟨p, k, v, hp, hk, hv, haccepts⟩ := exists_value_of_isComplete h
  rw [test?, hp, hk, hv]
  exact Test.isSome_of?_of_accepts s p haccepts

/-- The test of a condition looks at the fields that the condition is about. -/
theorem Condition.fields_of_test? (h : c.test? s = some t) : t.fields = c.targets s := by
  obtain ⟨id, property?, comparator?, value?⟩ := c
  unfold test? at h
  split at h
  · next p k v hp hk hv =>
    cases k <;> cases v <;> simp_all [Test.of?, targets] <;> grind [Test.fields]
  · cases h

end SearchComposer
