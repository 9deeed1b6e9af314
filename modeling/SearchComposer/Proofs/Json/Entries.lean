import Mathlib.Data.List.Nodup
import SearchComposer.Json.Basic

/-!
# Objects with distinct keys

No object that is read has two entries with one key. Of such entries it does not matter in which
order they stand: what is under a key is the same in every order, and taking out an entry leaves
the other ones, wherever they are moved.
-/

namespace SearchComposer.Json

namespace Entries

/-- The keys of entries, in order. -/
def keys (entries : Entries) : List String := entries.map (·.1)

variable {key : String} {value : Json} {entries entries' : Entries}

@[simp] theorem keys_nil : keys [] = [] := rfl

@[simp] theorem keys_cons (e : String × Json) (rest : Entries) :
    keys (e :: rest) = e.1 :: keys rest := rfl

theorem key_mem_keys {e : String × Json} (h : e ∈ entries) : e.1 ∈ entries.keys :=
  List.mem_map_of_mem h

theorem get?_eq_none : entries.get? key = none ↔ key ∉ entries.keys := by
  induction entries with
  | nil => simp [get?]
  | cons e rest ih =>
    obtain ⟨k, v⟩ := e
    by_cases hk : k = key
    · simp [get?, hk]
    · simp [get?, hk, ih, Ne.symm hk]

/-- With distinct keys, an entry is what is found under its key. -/
theorem get?_eq_some (hn : entries.keys.Nodup) :
    entries.get? key = some value ↔ (key, value) ∈ entries := by
  refine ⟨mem_of_get?, fun hmem => ?_⟩
  induction entries with
  | nil => cases hmem
  | cons e rest ih =>
    rw [keys_cons, List.nodup_cons] at hn
    obtain ⟨hkey, hrest⟩ := hn
    rcases List.mem_cons.mp hmem with rfl | hmem
    · simp [get?]
    · have hkey' : key ∈ keys rest := key_mem_keys hmem
      have hne : e.1 ≠ key := fun he => hkey (he ▸ hkey')
      rw [get?, if_neg hne]
      exact ih hrest hmem

theorem get?_eq_of_perm (hn : entries.keys.Nodup) (h : entries.Perm entries') :
    entries.get? key = entries'.get? key := by
  have hn' : entries'.keys.Nodup := (h.map Prod.fst).nodup hn
  refine Option.ext fun value => ?_
  rw [get?_eq_some hn, get?_eq_some hn', h.mem_iff]

/-! ## Changes -/

theorem keys_insert (key : String) (value : Json) (entries : Entries) :
    (entries.insert key value).keys =
      if key ∈ entries.keys then entries.keys else entries.keys ++ [key] := by
  induction entries with
  | nil => simp [insert]
  | cons e rest ih =>
    obtain ⟨k, v⟩ := e
    by_cases hk : k = key
    · simp [insert, hk]
    · by_cases hmem : key ∈ keys rest
      · simp [insert, hk, ih, hmem]
      · simp [insert, hk, ih, hmem, Ne.symm hk]

theorem insert_eq_append (h : key ∉ entries.keys) :
    entries.insert key value = entries ++ [(key, value)] := by
  induction entries with
  | nil => rfl
  | cons e rest ih =>
    obtain ⟨k, v⟩ := e
    rw [keys_cons, List.mem_cons, not_or] at h
    obtain ⟨hk, hrest⟩ := h
    rw [insert, if_neg (Ne.symm hk), ih hrest, List.cons_append]

theorem mem_insert {e : String × Json} (h : e ∈ entries.insert key value) :
    e = (key, value) ∨ e ∈ entries := by
  induction entries with
  | nil => exact .inl (List.mem_singleton.mp h)
  | cons f rest ih =>
    rw [insert] at h
    split at h
    · rcases List.mem_cons.mp h with he | he
      · exact .inl he
      · exact .inr (List.mem_cons_of_mem _ he)
    · rcases List.mem_cons.mp h with rfl | he
      · exact .inr List.mem_cons_self
      · exact (ih he).imp_right (List.mem_cons_of_mem _)

theorem nodup_keys_insert (hn : entries.keys.Nodup) (key : String) (value : Json) :
    (entries.insert key value).keys.Nodup := by
  rw [keys_insert]
  split
  · exact hn
  · next hkey => exact List.nodup_append_comm.mp (List.nodup_cons.mpr ⟨hkey, hn⟩)

theorem filter_eq_self (h : key ∉ entries.keys) : entries.filter (·.1 != key) = entries := by
  refine List.filter_eq_self.mpr fun e he => ?_
  have hne : e.1 ≠ key := fun heq => h (heq ▸ key_mem_keys he)
  simpa using hne

theorem nodup_keys_filter (hn : entries.keys.Nodup) (key : String) :
    (keys (entries.filter (·.1 != key))).Nodup :=
  hn.sublist (List.filter_sublist.map Prod.fst)

/-- With distinct keys, an entry stands beside the entries with other keys. -/
theorem perm_cons_filter (hn : entries.keys.Nodup) (h : entries.get? key = some value) :
    entries.Perm ((key, value) :: entries.filter (·.1 != key)) := by
  induction entries with
  | nil => cases h
  | cons e rest ih =>
    obtain ⟨k, v⟩ := e
    obtain ⟨hkey, hrest⟩ := List.nodup_cons.mp hn
    by_cases hk : k = key
    · subst hk
      obtain rfl : v = value := by simpa [get?] using h
      rw [List.filter_cons_of_neg (by simp), filter_eq_self hkey]
    · rw [get?, if_neg hk] at h
      rw [List.filter_cons_of_pos (by simp [hk])]
      exact ((ih hrest h).cons (k, v)).trans (List.Perm.swap _ _ _)

/-- With distinct keys, taking out an entry leaves the entries with other keys. -/
theorem swapErase_perm (hn : entries.keys.Nodup) (key : String) :
    (entries.swapErase key).Perm (entries.filter (·.1 != key)) := by
  induction entries with
  | nil => exact .nil
  | cons e rest ih =>
    obtain ⟨k, v⟩ := e
    obtain ⟨hkey, hrest⟩ := List.nodup_cons.mp hn
    by_cases hk : k = key
    · -- all entries after the one that is taken out have other keys
      rw [swapErase, if_pos hk, List.filter_cons_of_neg (by simp [hk]), filter_eq_self (hk ▸ hkey)]
      rcases List.eq_nil_or_concat rest with rfl | ⟨init, last, rfl⟩
      · exact .nil
      · simpa using (List.perm_append_singleton last init).symm
    · rw [swapErase, if_neg hk, List.filter_cons_of_pos (by simp [hk])]
      exact (ih hrest).cons _

theorem get?_filter (key k : String) (entries : Entries) :
    get? k (entries.filter (·.1 != key)) = if k = key then none else entries.get? k := by
  induction entries with
  | nil => simp [get?]
  | cons e rest ih =>
    obtain ⟨first, v⟩ := e
    by_cases hfirst : first = key
    · rw [List.filter_cons_of_neg (by simp [hfirst]), ih]
      by_cases hk : k = key
      · rw [if_pos hk, if_pos hk]
      · rw [if_neg hk, if_neg hk, get?, if_neg (fun h => hk (h.symm.trans hfirst))]
    · rw [List.filter_cons_of_pos (by simp [hfirst]), get?, get?, ih]
      by_cases hk : k = key
      · rw [if_pos hk, if_pos hk, if_neg (fun h => hfirst (h.trans hk))]
      · rw [if_neg hk, if_neg hk]

/-- An entry is the only one if no other keys are left without it. -/
theorem keys_eq_singleton_iff (hn : entries.keys.Nodup) : entries.keys = [key] ↔
    entries.has key = true ∧ entries.filter (·.1 != key) = [] := by
  constructor
  · intro hkeys
    obtain ⟨e, rfl, rfl⟩ := List.map_eq_singleton_iff.mp hkeys
    simp [has, get?]
  · rintro ⟨hhas, hothers⟩
    have hall : ∀ k ∈ entries.keys, k = key := by
      intro k hk
      obtain ⟨e, he, rfl⟩ := List.mem_map.mp hk
      simpa using List.filter_eq_nil_iff.mp hothers e he
    have hmem : key ∈ entries.keys := by
      by_contra hnot
      rw [has, get?_eq_none.mpr hnot] at hhas
      cases hhas
    have hreplicate := List.eq_replicate_iff.mpr ⟨rfl, hall⟩
    rw [hreplicate, List.nodup_replicate] at hn
    have hpos : 0 < entries.keys.length := List.length_pos_of_mem hmem
    have hone : entries.keys.length = 1 := by omega
    rw [hreplicate, hone]
    rfl

theorem nodup_keys_swapErase (hn : entries.keys.Nodup) (key : String) :
    (entries.swapErase key).keys.Nodup :=
  ((swapErase_perm hn key).symm.map Prod.fst).nodup (nodup_keys_filter hn key)

theorem get?_swapErase (hn : entries.keys.Nodup) (key k : String) :
    get? k (entries.swapErase key) = if k = key then none else entries.get? k := by
  rw [get?_eq_of_perm (nodup_keys_swapErase hn key) (swapErase_perm hn key), get?_filter]

/-- Another value in the place of the one under a key. -/
theorem get?_map_key (key k : String) (value : Json) (entries : Entries) :
    get? k (entries.map fun e => if e.1 = key then (e.1, value) else e) =
      if k = key then (entries.get? k).map fun _ => value else entries.get? k := by
  induction entries with
  | nil => simp [get?]
  | cons e rest ih =>
    obtain ⟨first, v⟩ := e
    by_cases hfirst : first = k
    · subst hfirst
      by_cases hk : first = key <;> simp [get?, hk]
    · by_cases hkey : first = key
      · simp [get?, hkey, hkey ▸ hfirst, ih]
      · simp [get?, hkey, hfirst, ih]

/-- Another value in the place of the one under a key, or none. -/
theorem get?_filterMap_key (hn : entries.keys.Nodup) (key k : String) (f : Json → Option Json) :
    get? k (entries.filterMap fun e => if e.1 = key then (f e.2).map (e.1, ·) else some e) =
      if k = key then (entries.get? k).bind f else entries.get? k := by
  induction entries with
  | nil => simp [get?]
  | cons e rest ih =>
    obtain ⟨first, v⟩ := e
    rw [keys_cons, List.nodup_cons] at hn
    have hrest := ih hn.2
    by_cases hfirst : first = key
    · subst hfirst
      by_cases hk : k = first
      · subst hk
        have hnone : get? k rest = none := get?_eq_none.mpr hn.1
        cases hf : f v <;> simp [get?, hf, hrest, hnone]
      · have hk' : first ≠ k := Ne.symm hk
        cases hf : f v <;> simp [get?, hf, hrest, hk, hk']
    · by_cases hk : first = k
      · subst hk
        simp [get?, hfirst]
      · simp [get?, hfirst, hk, hrest]

end Entries

/-! ## Every level -/

mutual

/-- Whether the keys of an object are distinct, and those of all objects in a value. -/
def distinctKeys : Json → Bool
  | .arr items => distinctKeysIn items
  | .obj entries => decide (Entries.keys entries).Nodup && distinctKeysUnder entries
  | _ => true

/-- Whether this holds of all items of a list. -/
def distinctKeysIn : List Json → Bool
  | [] => true
  | j :: js => distinctKeys j && distinctKeysIn js

/-- Whether this holds of all values under some keys. -/
def distinctKeysUnder : List (String × Json) → Bool
  | [] => true
  | (_, j) :: rest => distinctKeys j && distinctKeysUnder rest

end

theorem distinctKeysIn_iff {js : List Json} :
    distinctKeysIn js = true ↔ ∀ j ∈ js, j.distinctKeys = true := by
  induction js with
  | nil => simp [distinctKeysIn]
  | cons j js ih => simp [distinctKeysIn, ih]

theorem distinctKeysUnder_iff {entries : Entries} :
    distinctKeysUnder entries = true ↔ ∀ e ∈ entries, e.2.distinctKeys = true := by
  induction entries with
  | nil => simp [distinctKeysUnder]
  | cons e rest ih => simp [distinctKeysUnder, ih]

theorem distinctKeys_obj {entries : Entries} : (obj entries).distinctKeys = true ↔
    entries.keys.Nodup ∧ ∀ e ∈ entries, e.2.distinctKeys = true := by
  rw [distinctKeys, Bool.and_eq_true, decide_eq_true_eq, distinctKeysUnder_iff]

theorem distinctKeys_of_get? {entries : Entries} {value : Json} {key : String}
    (hd : (obj entries).distinctKeys = true) (h : entries.get? key = some value) :
    value.distinctKeys = true :=
  (distinctKeys_obj.mp hd).2 _ (Entries.mem_of_get? h)

theorem distinctKeys_of_field? {j value : Json} {key : String} (hd : j.distinctKeys = true)
    (h : j.field? key = some value) : value.distinctKeys = true := by
  cases j with
  | obj entries => exact distinctKeys_of_get? hd h
  | _ => cases h

theorem distinctKeys_insert {entries : Entries} {value : Json}
    (h : (obj entries).distinctKeys = true) (key : String) (hvalue : value.distinctKeys = true) :
    (obj (entries.insert key value)).distinctKeys = true := by
  obtain ⟨hkeys, hentries⟩ := distinctKeys_obj.mp h
  refine distinctKeys_obj.mpr ⟨Entries.nodup_keys_insert hkeys key value, fun e he => ?_⟩
  rcases Entries.mem_insert he with rfl | he
  · exact hvalue
  · exact hentries e he

theorem distinctKeys_swapErase {entries : Entries} (h : (obj entries).distinctKeys = true)
    (key : String) : (obj (entries.swapErase key)).distinctKeys = true := by
  obtain ⟨hkeys, hentries⟩ := distinctKeys_obj.mp h
  refine distinctKeys_obj.mpr ⟨Entries.nodup_keys_swapErase hkeys key, fun e he => ?_⟩
  exact hentries e (List.mem_of_mem_filter ((Entries.swapErase_perm hkeys key).mem_iff.mp he))

end SearchComposer.Json
