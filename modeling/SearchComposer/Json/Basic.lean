import SearchComposer.Number.Basic

/-!
# JSON values

The entries of an object are kept in the order in which their keys first occurred. Replacing an
entry keeps its place; taking one out moves the last entry into its place.
-/

namespace SearchComposer

/-- A JSON value. -/
inductive Json where
  /-- The value `null`. -/
  | null
  /-- A truth value. -/
  | bool (b : Bool)
  /-- A number. -/
  | num (n : Number)
  /-- A text. -/
  | str (s : String)
  /-- A list of values. -/
  | arr (items : List Json)
  /-- An object, as its entries in order. -/
  | obj (entries : List (String × Json))
  deriving Repr, Inhabited

namespace Json

/-- The entries of an object. -/
abbrev Entries := List (String × Json)

namespace Entries

/-- The value under a key. -/
def get? (key : String) : Entries → Option Json
  | [] => none
  | (k, v) :: rest => if k = key then some v else get? key rest

/-- Puts a value under a key: in the place of the entry that has the key, else at the end. -/
def insert (key : String) (value : Json) : Entries → Entries
  | [] => [(key, value)]
  | (k, v) :: rest => if k = key then (key, value) :: rest else (k, v) :: insert key value rest

/-- Takes out the entry with a key; the last entry moves into its place. -/
def swapErase (key : String) : Entries → Entries
  | [] => []
  | (k, v) :: rest =>
    if k = key then
      match rest.getLast? with
      | none => []
      | some last => last :: rest.dropLast
    else (k, v) :: swapErase key rest

/-- Whether some entry has a key. -/
def has (key : String) (entries : Entries) : Bool :=
  (entries.get? key).isSome

@[simp] theorem get?_insert_self (key : String) (value : Json) (entries : Entries) :
    get? key (insert key value entries) = some value := by
  induction entries with
  | nil => simp [insert, get?]
  | cons e rest ih =>
    by_cases h : e.1 = key
    · simp [insert, get?, h]
    · simp [insert, get?, h, ih]

theorem get?_insert_of_ne {key key' : String} (h : key' ≠ key) (value : Json)
    (entries : Entries) : get? key' (insert key value entries) = get? key' entries := by
  induction entries with
  | nil => simp [insert, get?, Ne.symm h]
  | cons e rest ih =>
    obtain ⟨k, v⟩ := e
    by_cases hk : k = key
    · subst hk; simp [insert, get?, Ne.symm h]
    · by_cases hk' : k = key'
      · subst hk'; simp [insert, get?, hk]
      · simp [insert, get?, hk, hk', ih]

theorem mem_of_get? {key : String} {value : Json} {entries : Entries}
    (h : entries.get? key = some value) : (key, value) ∈ entries := by
  induction entries with
  | nil => cases h
  | cons e rest ih =>
    obtain ⟨k, v⟩ := e
    by_cases hk : k = key
    · obtain rfl : v = value := by simpa [get?, hk] using h
      exact hk ▸ List.mem_cons_self
    · exact List.mem_cons_of_mem _ (ih (by simpa [get?, hk] using h))

end Entries

/-- The value under a key of an object; nothing for any other value. -/
def field? (key : String) : Json → Option Json
  | .obj entries => Entries.get? key entries
  | _ => none

/-- The value of an entry is smaller than the object. -/
theorem sizeOf_lt_of_mem {entries : Entries} {e : String × Json} (h : e ∈ entries) :
    sizeOf e.2 < sizeOf (obj entries) := by
  obtain ⟨key, j⟩ := e
  have hlt := List.sizeOf_lt_of_mem h
  simp only [Prod.mk.sizeOf_spec, obj.sizeOf_spec] at hlt ⊢
  omega

theorem sizeOf_lt_of_field? {key : String} {j value : Json} (h : j.field? key = some value) :
    sizeOf value < sizeOf j := by
  cases j with
  | obj entries => exact sizeOf_lt_of_mem (Entries.mem_of_get? h)
  | _ => cases h

/-- The text that a value is, if it is one. -/
def str? : Json → Option String
  | .str s => some s
  | _ => none

/-- The truth value that a value is, if it is one. -/
def bool? : Json → Option Bool
  | .bool b => some b
  | _ => none

/-- The integer that a value is, if it is written as one. -/
def int? : Json → Option Int
  | .num (.int n) => some n
  | _ => none

/-- The natural below `2 ^ 64` that a value is, if it is written as one. -/
def word? (j : Json) : Option UInt64 := do
  let n ← j.int?
  if 0 ≤ n ∧ n < UInt64.size then some (UInt64.ofNat n.toNat) else none

/-- The items of a list. -/
def items? : Json → Option (List Json)
  | .arr items => some items
  | _ => none

/-- Whether a value is `null`. -/
def isNull : Json → Bool
  | .null => true
  | _ => false

/-- A value that may be missing; `null` counts as missing. -/
def present? : Option Json → Option Json
  | some .null => none
  | j? => j?

/-- An integer as a value. -/
def ofInt (n : Int) : Json := .num (.int n)

/-- A natural as a value. -/
def ofNat (n : Nat) : Json := .num (.int n)

/-- A word as a value. -/
def ofWord (n : UInt64) : Json := ofNat n.toNat

/-- A value that may be missing, `null` if it is. -/
def ofOption {α : Type} (encode : α → Json) : Option α → Json
  | none => .null
  | some a => encode a

/-- Texts as a list. -/
def ofStrings (texts : List String) : Json := .arr (texts.map .str)

/-- The fields of a record that is given as an object, or as a list of exactly all its fields in
their order. A field that an object lacks is `none`; other keys are ignored. -/
def record? (names : List String) : Json → Option (List (Option Json))
  | .obj entries => some (names.map fun name => Entries.get? name entries)
  | .arr items => if items.length = names.length then some (items.map some) else none
  | _ => none

/-- Like `record?`, but a list may also hold only the first fields. -/
def partialRecord? (names : List String) : Json → Option (List (Option Json))
  | .arr items =>
    if items.length ≤ names.length then
      some (items.map some ++ List.replicate (names.length - items.length) none)
    else none
  | j => record? names j

/-- The name of a case without contents: a text, or an object with the name as its only key and
nothing under it. -/
def caseName? : Json → Option String
  | .str s => some s
  | .obj [(s, .null)] => some s
  | _ => none

end Json

end SearchComposer
