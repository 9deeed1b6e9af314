import SearchComposer.Proofs.Block.Change

/-!
# Which block is where

Every id of a block leads to a block, and every id below an operator leads to the operator that
directly holds the block with that id. Both are looked up from the top, where an id that occurs twice
could hide a block, so the ids of the whole are given without duplicates.
-/

namespace SearchComposer

namespace Block

variable {x p : BlockId} {b c : Block} {bs : List Block}

theorem find?_eq_none_of_findIn? (h : findIn? x bs = none) : ∀ b ∈ bs, find? x b = none := by
  induction bs with
  | nil => simp
  | cons b bs ih =>
    obtain ⟨hb, hbs⟩ := Option.or_eq_none_iff.mp h
    exact List.forall_mem_cons.mpr ⟨hb, ih hbs⟩

theorem not_mem_ids_of_find? (h : find? x b = none) : x ∉ b.ids := by
  induction b using Block.induction with
  | condition c =>
    intro hx
    obtain rfl : x = c.id := by simpa [ids] using hx
    simp [find?] at h
  | operator id kind operands ih =>
    intro hx
    by_cases hid : id = x
    · simp [find?, hid] at h
    · rw [find?, if_neg hid] at h
      rcases List.mem_cons.mp hx with rfl | hx
      · exact hid rfl
      · obtain ⟨b, hb, hxb⟩ := mem_idsAll.mp hx
        exact ih b hb (find?_eq_none_of_findIn? h b hb) hxb

/-- A path leads to every id of a block. -/
theorem exists_path_of_mem_ids (h : x ∈ b.ids) : ∃ path c, b = Path.plug path c ∧ c.id = x := by
  cases hfind : find? x b with
  | none => exact absurd h (not_mem_ids_of_find? hfind)
  | some c =>
    obtain ⟨hid, path, hpath⟩ := find?_eq_some hfind
    exact ⟨path, c, hpath, hid⟩

/-! ## Holders -/

theorem holderIn?_append (x : BlockId) (bs cs : List Block) :
    holderIn? x (bs ++ cs) = (holderIn? x bs).or (holderIn? x cs) := by
  induction bs with
  | nil => rfl
  | cons b bs ih => simp [holderIn?, ih, Option.or_assoc]

theorem holderIn?_eq_some (h : holderIn? x bs = some p) : ∃ b ∈ bs, holder? x b = some p := by
  induction bs with
  | nil => simp [holderIn?] at h
  | cons b bs ih =>
    rcases Option.or_eq_some_iff.mp h with h | ⟨-, h⟩
    · exact ⟨b, List.mem_cons_self, h⟩
    · obtain ⟨d, hd, hp⟩ := ih h
      exact ⟨d, List.mem_cons_of_mem _ hd, hp⟩

theorem holderIn?_eq_none_of (h : ∀ b ∈ bs, holder? x b = none) : holderIn? x bs = none := by
  induction bs with
  | nil => rfl
  | cons b bs ih =>
    rw [holderIn?, h b List.mem_cons_self, Option.none_or]
    exact ih fun c hc => h c (List.mem_cons_of_mem _ hc)

theorem any_id_eq_false (h : x ∉ idsAll bs) : bs.any (·.id == x) = false := by
  rw [List.any_eq_false]
  intro b hb hid
  have hx : b.id = x := by simpa using hid
  exact h (mem_idsAll.mpr ⟨b, hb, hx ▸ id_mem_ids b⟩)

theorem holder?_eq_none (h : x ∉ b.ids) : holder? x b = none := by
  induction b using Block.induction with
  | condition c => rfl
  | operator id kind operands ih =>
    have hops : x ∉ idsAll operands := (List.ne_and_not_mem_of_not_mem_cons h).2
    rw [holder?, any_id_eq_false hops, if_neg Bool.false_ne_true]
    exact holderIn?_eq_none_of fun b hb => ih b hb fun hx => hops (mem_idsAll.mpr ⟨b, hb, hx⟩)

/-- The holder that is found is an operator with an operand of that id. -/
theorem holder?_eq_some (h : holder? x b = some p) :
    ∃ path, ∃ q : Operator, b = Path.plug path q.toBlock ∧ q.id = p ∧ ∃ c ∈ q.operands, c.id = x := by
  induction b using Block.induction with
  | condition c => simp [holder?] at h
  | operator id kind operands ih =>
    rw [holder?] at h
    split at h
    · next hany =>
      obtain ⟨c, hc, hid⟩ := List.any_eq_true.mp hany
      exact ⟨[], ⟨id, kind, operands⟩, rfl, Option.some.inj h, c, hc, by simpa using hid⟩
    · obtain ⟨d, hd, hp⟩ := holderIn?_eq_some h
      obtain ⟨path, q, rfl, hq, hc⟩ := ih d hd hp
      obtain ⟨before, after, rfl⟩ := List.append_of_mem hd
      exact ⟨⟨id, kind, before, after⟩ :: path, q, rfl, hq, hc⟩

end Block

namespace Path

theorem id_plug_mem_idsBefore (path : Path) (f : Frame) (b : Block) :
    (plug (path ++ [f]) b).id ∈ idsBefore (path ++ [f]) := by
  cases path <;> simp [plug, idsBefore, Block.id]

/-- The last operator on the way is found as the holder of the block at the end, unless the id of
that block occurs elsewhere. -/
theorem holder?_plug {path : Path} {f : Frame} {c : Block} (hb : c.id ∉ idsBefore (path ++ [f]))
    (ha : c.id ∉ idsAfter (path ++ [f])) :
    Block.holder? c.id (plug (path ++ [f]) c) = some f.id := by
  induction path with
  | nil => simp [plug, Block.holder?]
  | cons g gs ih =>
    rw [List.cons_append] at hb ha ⊢
    obtain ⟨-, hrest⟩ := List.ne_and_not_mem_of_not_mem_cons hb
    obtain ⟨hleft, hgs⟩ := not_or.mp (mt List.mem_append.mpr hrest)
    obtain ⟨hgs', hright⟩ := not_or.mp (mt List.mem_append.mpr ha)
    -- the operator above does not hold the block: what it holds on the way has another id
    have hid : (plug (gs ++ [f]) c).id ≠ c.id := fun he => hgs (he ▸ id_plug_mem_idsBefore gs f c)
    have hany : (g.before ++ plug (gs ++ [f]) c :: g.after).any (·.id == c.id) = false := by
      simp [List.any_append, Block.any_id_eq_false hleft, Block.any_id_eq_false hright, hid]
    have hnone : Block.holderIn? c.id g.before = none :=
      Block.holderIn?_eq_none_of fun b hb =>
        Block.holder?_eq_none fun hx => hleft (Block.mem_idsAll.mpr ⟨b, hb, hx⟩)
    rw [plug, Block.holder?, hany, if_neg Bool.false_ne_true, Block.holderIn?_append, hnone,
      Option.none_or, Block.holderIn?, ih hgs hgs', Option.some_or]

end Path

namespace Operator

open Block (idsAll)

variable {o q : Operator} {x p : BlockId} {b c : Block} {path path' : Path}

/-- A block is below an operator: a path with some operator on it leads to the block. -/
def HasBelow (o : Operator) (c : Block) : Prop :=
  ∃ path, path ≠ [] ∧ o.toBlock = Path.plug path c

/-- Without duplicates among the ids, an id belongs to one block only. -/
theorem eq_of_plug_of_id_eq (hn : o.toBlock.ids.Nodup) (hb : o.toBlock = Path.plug path b)
    (hc : o.toBlock = Path.plug path' c) (h : b.id = c.id) : b = c := by
  have hfirst := (Path.not_mem_of_nodup (hb ▸ hn) (Block.id_mem_ids b)).1
  have hfirst' := (Path.not_mem_of_nodup (hc ▸ hn) (Block.id_mem_ids c)).1
  have hfound : Block.find? b.id o.toBlock = some b := hb ▸ Path.find?_plug hfirst
  have hfound' : Block.find? c.id o.toBlock = some c := hc ▸ Path.find?_plug hfirst'
  rw [h, hfound'] at hfound
  exact (Option.some.inj hfound).symm

/-- Without duplicates, no block below an operator has its id. -/
theorem id_ne_of_hasBelow (hn : o.toBlock.ids.Nodup) (h : o.HasBelow c) : o.id ≠ c.id := by
  obtain ⟨path, hne, hpath⟩ := h
  obtain ⟨f, fs, rfl⟩ := List.exists_cons_of_ne_nil hne
  obtain ⟨hid, -, -⟩ := Block.operator.inj hpath
  have hfirst := (Path.not_mem_of_nodup (hpath ▸ hn) (Block.id_mem_ids c)).1
  exact fun he => hfirst (List.mem_cons.mpr (.inl (he.symm.trans hid)))

theorem hasBelow_of_mem_operands (hb : b ∈ o.operands) (hpath : b = Path.plug path c) :
    o.HasBelow c := by
  obtain ⟨before, after, hops⟩ := List.append_of_mem hb
  refine ⟨⟨o.id, o.kind, before, after⟩ :: path, List.cons_ne_nil _ _, ?_⟩
  rw [Path.plug, ← hpath, ← hops]
  rfl

/-- A block below an operator is below one of its operands or is one. -/
theorem exists_operand_of_hasBelow (h : o.HasBelow c) :
    ∃ b ∈ o.operands, ∃ path, b = Path.plug path c := by
  obtain ⟨path, hne, hpath⟩ := h
  obtain ⟨f, fs, rfl⟩ := List.exists_cons_of_ne_nil hne
  obtain ⟨-, -, hops⟩ := Block.operator.inj hpath
  exact ⟨Path.plug fs c, by simp [hops], fs, rfl⟩

theorem mem_idsAll_operands : x ∈ idsAll o.operands ↔ ∃ c, o.HasBelow c ∧ c.id = x := by
  rw [Block.mem_idsAll]
  constructor
  · rintro ⟨b, hb, hx⟩
    obtain ⟨path, c, hpath, hid⟩ := Block.exists_path_of_mem_ids hx
    exact ⟨c, hasBelow_of_mem_operands hb hpath, hid⟩
  · rintro ⟨c, hbelow, rfl⟩
    obtain ⟨b, hb, path, rfl⟩ := exists_operand_of_hasBelow hbelow
    refine ⟨_, hb, ?_⟩
    rw [Path.ids_plug]
    exact List.mem_append_left _ (List.mem_append_right _ (Block.id_mem_ids c))

/-- Without duplicates, the block that is found is the one below the operator. -/
theorem find?_eq_some_iff (hn : o.toBlock.ids.Nodup) :
    o.find? x = some c ↔ o.HasBelow c ∧ c.id = x := by
  constructor
  · intro h
    obtain ⟨b, hb, hc⟩ := Block.findIn?_eq_some h
    obtain ⟨hid, path, hpath⟩ := Block.find?_eq_some hc
    exact ⟨hasBelow_of_mem_operands hb hpath, hid⟩
  · rintro ⟨hbelow, rfl⟩
    have hne := id_ne_of_hasBelow hn hbelow
    obtain ⟨path, -, hpath⟩ := hbelow
    obtain ⟨hbefore, -⟩ := Path.not_mem_of_nodup (hpath ▸ hn) (Block.id_mem_ids c)
    have hfind : Block.find? c.id o.toBlock = some c := hpath ▸ Path.find?_plug hbefore
    simpa [toBlock, Block.find?, find?, hne] using hfind

/-- A block that an operator holds is at the end of a path on which that operator is the last. -/
theorem exists_holder_iff :
    (∃ q, o.Includes q ∧ q.id = p ∧ c ∈ q.operands ∧ c.id = x) ↔
      c.id = x ∧ ∃ path f, Frame.id f = p ∧ o.toBlock = Path.plug (path ++ [f]) c := by
  constructor
  · rintro ⟨q, ⟨path, hroot⟩, hq, hmem, hx⟩
    obtain ⟨before, after, hops⟩ := List.append_of_mem hmem
    refine ⟨hx, path, ⟨q.id, q.kind, before, after⟩, hq, ?_⟩
    rw [hroot, Path.plug_concat, ← hops]
    rfl
  · rintro ⟨hx, path, f, hf, hroot⟩
    rw [Path.plug_concat] at hroot
    exact ⟨⟨f.id, f.kind, f.before ++ c :: f.after⟩, ⟨path, hroot⟩, hf, by simp, hx⟩

/-- The blocks below an operator are the ones that it or an operator below it holds. -/
theorem hasBelow_iff : o.HasBelow c ↔ ∃ q, o.Includes q ∧ c ∈ q.operands := by
  constructor
  · rintro ⟨path, hne, hpath⟩
    obtain hnil | ⟨init, f, rfl⟩ := List.eq_nil_or_concat path
    · exact absurd hnil hne
    · rw [List.concat_eq_append] at hpath
      obtain ⟨q, hq, -, hmem, -⟩ := exists_holder_iff.mpr ⟨rfl, init, f, rfl, hpath⟩
      exact ⟨q, hq, hmem⟩
  · rintro ⟨q, hq, hmem⟩
    obtain ⟨-, path, f, -, hpath⟩ := exists_holder_iff.mp ⟨q, hq, rfl, hmem, rfl⟩
    exact ⟨path ++ [f], List.append_ne_nil_of_right_ne_nil _ (List.cons_ne_nil _ _), hpath⟩

/-- Without duplicates, the holder that is found is the operator that holds the block. -/
theorem holder?_eq_some_iff (hn : o.toBlock.ids.Nodup) :
    o.holder? x = some p ↔ ∃ q c, o.Includes q ∧ q.id = p ∧ c ∈ q.operands ∧ c.id = x := by
  constructor
  · intro h
    obtain ⟨path, q, hroot, hq, c, hc, hid⟩ := Block.holder?_eq_some h
    exact ⟨q, c, ⟨path, hroot⟩, hq, hc, hid⟩
  · rintro ⟨q, c, hheld⟩
    obtain ⟨rfl, path, f, rfl, hroot⟩ := exists_holder_iff.mp ⟨q, hheld⟩
    obtain ⟨hbefore, hafter⟩ := Path.not_mem_of_nodup (hroot ▸ hn) (Block.id_mem_ids c)
    have hfound := Path.holder?_plug hbefore hafter
    rwa [← hroot] at hfound

end Operator

end SearchComposer
