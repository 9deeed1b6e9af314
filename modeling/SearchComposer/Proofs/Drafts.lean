import SearchComposer.Drafts

/-!
# Drafts as a map

Drafts are looked up by the id of their condition, and each change of the drafts is given here by
what is looked up after it. At most one draft is kept under an id, so the entries and what is looked
up are the same.
-/

namespace SearchComposer.Drafts

variable {ds : Drafts} {x : BlockId} {d : Draft}

/-! ## Looking up -/

theorem get?_cons (e : BlockId × Draft) (entries : List (BlockId × Draft)) (x : BlockId) :
    get? ⟨e :: entries⟩ x = if e.1 = x then some e.2 else get? ⟨entries⟩ x := by
  by_cases h : e.1 = x <;> simp [get?, h]

theorem get?_restrict (ds : Drafts) (keep : BlockId → Bool) (x : BlockId) :
    (ds.restrict keep).get? x = if keep x = true then ds.get? x else none := by
  obtain ⟨entries⟩ := ds
  induction entries with
  | nil => simp [restrict, get?]
  | cons e entries ih =>
    rw [restrict] at ih ⊢
    by_cases hk : keep e.1 = true
    · by_cases hx : e.1 = x
      · subst hx; simp [get?_cons, hk]
      · simp [get?_cons, hk, hx, ih]
    · by_cases hx : e.1 = x
      · subst hx; simp [hk, ih]
      · simp [get?_cons, hk, hx, ih]

theorem get?_modify (ds : Drafts) (x : BlockId) (f : Draft → Draft) (y : BlockId) :
    (ds.modify x f).get? y = if y = x then (ds.get? y).map f else ds.get? y := by
  obtain ⟨entries⟩ := ds
  induction entries with
  | nil => simp [modify, get?]
  | cons e entries ih =>
    rw [modify] at ih ⊢
    by_cases hy : e.1 = y
    · subst hy; by_cases hx : e.1 = x <;> simp [get?_cons, hx]
    · simp [get?_cons, hy, ih]

theorem get?_start (ds : Drafts) (x : BlockId) (value? : Option Value) (y : BlockId) :
    (ds.start x value?).get? y = if y = x then some ⟨true, value?⟩ else ds.get? y := by
  rw [start, get?_cons]
  by_cases h : y = x
  · simp [h]
  · rw [if_neg (Ne.symm h), if_neg h]
    exact (get?_restrict ds (· != x) y).trans (if_pos (by simpa using h))

theorem get?_update (ds : Drafts) (x : BlockId) (value? : Option Value) (isValid : Bool)
    (y : BlockId) : (ds.update x value? isValid).get? y =
      if y = x then (ds.get? y).map fun _ => ⟨isValid, value?⟩ else ds.get? y :=
  get?_modify ds x _ y

theorem get?_finish (ds : Drafts) (x y : BlockId) :
    (ds.finish x).get? y = if y = x then none else ds.get? y := by
  rw [finish, get?_restrict]
  by_cases h : y = x <;> simp [h]

theorem get?_forget (ds : Drafts) (b : Block) (x : BlockId) :
    (ds.forget b).get? x = if b.conditions.any (·.id == x) = true then none else ds.get? x := by
  rw [forget, get?_restrict]
  cases b.conditions.any (·.id == x) <;> rfl

/-! ## One draft for a condition -/

/-- No two drafts are kept under one id. -/
def Distinct (ds : Drafts) : Prop := (ds.entries.map (·.1)).Nodup

theorem distinct_empty : empty.Distinct := List.nodup_nil

theorem Distinct.restrict (h : ds.Distinct) (keep : BlockId → Bool) :
    (ds.restrict keep).Distinct :=
  List.Nodup.sublist (List.filter_sublist.map _) h

theorem Distinct.modify (h : ds.Distinct) (x : BlockId) (f : Draft → Draft) :
    (ds.modify x f).Distinct := by
  simpa [Distinct, Drafts.modify, Function.comp_def] using h

theorem Distinct.start (h : ds.Distinct) (x : BlockId) (value? : Option Value) :
    (ds.start x value?).Distinct := by
  refine List.nodup_cons.mpr ⟨?_, h.restrict _⟩
  simp [Drafts.restrict]

/-- Of distinct drafts, the entries are what is looked up. -/
theorem Distinct.mem_entries_iff (h : ds.Distinct) : (x, d) ∈ ds.entries ↔ ds.get? x = some d := by
  obtain ⟨entries⟩ := ds
  induction entries with
  | nil => simp [get?]
  | cons e entries ih =>
    obtain ⟨hmem, hrest⟩ := List.nodup_cons.mp h
    rw [get?_cons, List.mem_cons, ih hrest]
    by_cases hx : e.1 = x
    · subst hx
      have hnone : get? ⟨entries⟩ e.1 ≠ some d := fun hd =>
        hmem (List.mem_map.mpr ⟨(e.1, d), (ih hrest).mpr hd, rfl⟩)
      simp [hnone, Prod.ext_iff, eq_comm]
    · have hne : (x, d) ≠ e := fun he => hx (congrArg Prod.fst he).symm
      simp [hx, hne]

/-- Of distinct drafts, none is invalid exactly if every one that is looked up is valid. -/
theorem Distinct.anyInvalid_eq_false_iff (h : ds.Distinct) :
    ds.anyInvalid = false ↔ ∀ x d, ds.get? x = some d → d.isValid = true := by
  simp only [anyInvalid, List.any_eq_false, Bool.not_eq_true', Bool.not_eq_false, Prod.forall,
    h.mem_entries_iff]

end SearchComposer.Drafts
