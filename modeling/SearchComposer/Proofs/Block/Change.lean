import SearchComposer.Proofs.Block.Path

/-!
# Changes of a block

Giving the operator with an id other operands changes the block at the end of one path and nothing
else. This needs that no two blocks share the id: the ids of the whole are given without duplicates.
The main notion is `Operator.Regrafted`, which says of two operators that they are one path with two
operators plugged into it that differ in their operands. Every edit of a tree comes down to it.

Giving the condition with an id another value changes neither ids nor operators, so all that is said
of it here is what becomes of the conditions.
-/

namespace SearchComposer

namespace Block

theorem setOperandsIn_eq_map (p : BlockId) (operands bs : List Block) :
    setOperandsIn p operands bs = bs.map (setOperands p operands) := by
  induction bs with
  | nil => rfl
  | cons b bs ih => simp [setOperandsIn, ih]

theorem setValueIn_eq_map (x : BlockId) (value? : Option Value) (bs : List Block) :
    setValueIn x value? bs = bs.map (setValue x value?) := by
  induction bs with
  | nil => rfl
  | cons b bs ih => simp [setValueIn, ih]

/-! ## Another value -/

/-- A new value changes no ids. -/
@[simp] theorem ids_setValue (x : BlockId) (value? : Option Value) (b : Block) :
    (b.setValue x value?).ids = b.ids := by
  induction b using Block.induction with
  | condition c => by_cases h : c.id = x <;> simp [setValue, ids, h]
  | operator id kind bs ih =>
    rw [setValue, ids, ids, setValueIn_eq_map, idsAll_eq_flatMap, idsAll_eq_flatMap,
      List.flatMap_map]
    exact congrArg (id :: List.flatten ·) (List.map_congr_left ih)

/-- A new value changes no kinds. -/
@[simp] theorem hasRoot_setValue (x : BlockId) (value? : Option Value) (b : Block) :
    (b.setValue x value?).hasRoot = b.hasRoot := by
  induction b using Block.induction with
  | condition c => rfl
  | operator id kind bs ih =>
    have hbs := congrArg (List.any · (· = true)) (List.map_congr_left ih)
    simp only [List.any_map, Function.comp_def, Bool.decide_eq_true] at hbs
    rw [setValue, hasRoot, hasRoot, setValueIn_eq_map, anyHasRoot_eq_any, anyHasRoot_eq_any,
      List.any_map, Function.comp_def, hbs]

theorem anyHasRoot_setValueIn (x : BlockId) (value? : Option Value) (bs : List Block) :
    anyHasRoot (setValueIn x value? bs) = anyHasRoot bs := by
  simp [setValueIn_eq_map, anyHasRoot_eq_any, Function.comp_def]

/-- A new value changes no numbers of operands. -/
@[simp] theorem keepsLimits_setValue (x : BlockId) (value? : Option Value) (b : Block) :
    (b.setValue x value?).keepsLimits = b.keepsLimits := by
  induction b using Block.induction with
  | condition c => rfl
  | operator id kind bs ih =>
    have hbs := congrArg (List.all · (· = true)) (List.map_congr_left ih)
    simp only [List.all_map, Function.comp_def, Bool.decide_eq_true] at hbs
    rw [setValue, keepsLimits, keepsLimits, setValueIn_eq_map, allKeepLimits_eq_all,
      allKeepLimits_eq_all, List.all_map, List.length_map, Function.comp_def, hbs]

/-- A new value changes the conditions with the id. -/
theorem conditions_setValue (x : BlockId) (value? : Option Value) (b : Block) :
    (b.setValue x value?).conditions =
      b.conditions.map fun c => if c.id = x then { c with value? := value? } else c := by
  induction b using Block.induction with
  | condition c => rfl
  | operator id kind bs ih =>
    rw [setValue, conditions, conditions, setValueIn_eq_map, conditionsAll_eq_flatMap,
      conditionsAll_eq_flatMap, List.flatMap_map, List.map_flatMap]
    exact congrArg List.flatten (List.map_congr_left ih)

/-! ## Blocks that stay as they are -/

theorem map_eq_self {f : Block → Block} {bs : List Block} (h : ∀ b ∈ bs, f b = b) :
    bs.map f = bs :=
  (List.map_congr_left h).trans (List.map_id' bs)

/-- A block without the operator stays as it is. -/
theorem setOperands_of_not_mem {p : BlockId} {operands : List Block} {b : Block}
    (h : p ∉ b.ids) : b.setOperands p operands = b := by
  induction b using Block.induction with
  | condition c => rfl
  | operator id kind bs ih =>
    obtain ⟨hid, hbs⟩ := List.ne_and_not_mem_of_not_mem_cons h
    have hmap : bs.map (setOperands p operands) = bs :=
      map_eq_self fun b hb => ih b hb fun hp => hbs (mem_idsAll.mpr ⟨b, hb, hp⟩)
    rw [setOperands, if_neg (Ne.symm hid), setOperandsIn_eq_map, hmap]

theorem map_setOperands_of_not_mem {p : BlockId} {operands bs : List Block}
    (h : p ∉ idsAll bs) : bs.map (setOperands p operands) = bs :=
  map_eq_self fun b hb => setOperands_of_not_mem fun hp => h (mem_idsAll.mpr ⟨b, hb, hp⟩)

end Block

namespace Path

theorem setOperands_plug {path : Path} {p : BlockId} {kind : Connective} {old new : List Block}
    (hb : p ∉ idsBefore path) (ha : p ∉ idsAfter path) :
    (plug path (.operator p kind old)).setOperands p new = plug path (.operator p kind new) := by
  induction path with
  | nil => simp [plug, Block.setOperands]
  | cons f fs ih =>
    obtain ⟨hid, hrest⟩ := List.ne_and_not_mem_of_not_mem_cons hb
    obtain ⟨hleft, hfs⟩ := not_or.mp (mt List.mem_append.mpr hrest)
    obtain ⟨hfs', hright⟩ := not_or.mp (mt List.mem_append.mpr ha)
    rw [plug, Block.setOperands, if_neg (Ne.symm hid), Block.setOperandsIn_eq_map,
      List.map_append, List.map_cons, ih hfs hfs', Block.map_setOperands_of_not_mem hleft,
      Block.map_setOperands_of_not_mem hright, plug]

/-- Without duplicates, the ids of the block at the end of a path are not those of the path. -/
theorem not_mem_of_nodup {path : Path} {b : Block} (hn : (plug path b).ids.Nodup) {x : BlockId}
    (hx : x ∈ b.ids) : x ∉ idsBefore path ∧ x ∉ idsAfter path := by
  rw [ids_plug, List.append_assoc] at hn
  obtain ⟨-, hn', hbefore⟩ := List.nodup_append.mp hn
  obtain ⟨-, -, hafter⟩ := List.nodup_append.mp hn'
  exact ⟨fun h => hbefore x h x (List.mem_append_left _ hx) rfl, fun h => hafter x hx x h rfl⟩

end Path

namespace Operator

/-! ## Finding operators and conditions -/

/-- Looking for an operator is looking for a block that is one. -/
theorem operatorAt?_eq_bind (o : Operator) (p : BlockId) :
    o.operatorAt? p = (Block.find? p o.toBlock).bind Block.operator? := by
  by_cases h : o.id = p
  · subst h; simp [operatorAt?, toBlock, Block.find?, Block.operator?]
  · simp [operatorAt?, toBlock, Block.find?, find?, h]

theorem toBlock_eq_of_operator? {b : Block} {o : Operator} (h : b.operator? = some o) :
    b = o.toBlock := by
  cases b with
  | condition c => simp [Block.operator?] at h
  | operator id kind operands =>
    obtain rfl : ⟨id, kind, operands⟩ = o := by simpa [Block.operator?] using h
    rfl

/-- The operator that is found has the id, and a path leads to it. -/
theorem operatorAt?_eq_some {o q : Operator} {p : BlockId} (h : o.operatorAt? p = some q) :
    q.id = p ∧ ∃ path, o.toBlock = Path.plug path q.toBlock := by
  rw [operatorAt?_eq_bind] at h
  obtain ⟨b, hb, hq⟩ := Option.bind_eq_some_iff.mp h
  obtain rfl := toBlock_eq_of_operator? hq
  exact Block.find?_eq_some hb

/-- An operator at the end of a path is found. -/
theorem operatorAt?_of_plug {o q : Operator} {path : Path} (hn : o.toBlock.ids.Nodup)
    (h : o.toBlock = Path.plug path q.toBlock) : o.operatorAt? q.id = some q := by
  have hbefore := (Path.not_mem_of_nodup (h ▸ hn) (Block.id_mem_ids q.toBlock)).1
  rw [operatorAt?_eq_bind, h]
  exact congrArg (Option.bind · Block.operator?) (Path.find?_plug hbefore)

/-- An operator is another one or above it. -/
def Includes (o q : Operator) : Prop := ∃ path, o.toBlock = Path.plug path q.toBlock

/-- Without duplicates among the ids, the operators that are found are those that are there. -/
theorem operatorAt?_eq_some_iff {o q : Operator} (hn : o.toBlock.ids.Nodup) {p : BlockId} :
    o.operatorAt? p = some q ↔ o.Includes q ∧ q.id = p := by
  constructor
  · intro h
    obtain ⟨hid, hpath⟩ := operatorAt?_eq_some h
    exact ⟨hpath, hid⟩
  · rintro ⟨⟨path, hpath⟩, rfl⟩
    exact operatorAt?_of_plug hn hpath

/-- The ids below an operator that is found have no duplicates either. -/
theorem nodup_operands {o q : Operator} (hn : o.toBlock.ids.Nodup) {p : BlockId}
    (hq : o.operatorAt? p = some q) : (Block.idsAll q.operands).Nodup := by
  obtain ⟨-, path, hpath⟩ := operatorAt?_eq_some hq
  rw [hpath, Path.ids_plug, List.append_assoc] at hn
  have hids : q.toBlock.ids.Nodup := (List.nodup_append.mp (List.nodup_append.mp hn).2.1).1
  exact (List.nodup_cons.mp hids).2

/-- The conditions that are found below an operator are its conditions. -/
theorem find?_eq_condition {o : Operator} (hn : o.toBlock.ids.Nodup) {x : BlockId}
    {c : Condition} :
    o.find? x = some (.condition c) ↔ c ∈ o.toBlock.conditions ∧ c.id = x := by
  constructor
  · intro h
    obtain ⟨b, hb, hc⟩ := Block.findIn?_eq_some h
    obtain ⟨hid, path, rfl⟩ := Block.find?_eq_some hc
    refine ⟨Block.mem_conditionsAll.mpr ⟨_, hb, ?_⟩, hid⟩
    simp [Path.conditions_plug, Block.conditions]
  · rintro ⟨hc, rfl⟩
    obtain ⟨path, hpath⟩ := Block.exists_path_of_mem_conditions hc
    have hbefore := (Path.not_mem_of_nodup (hpath ▸ hn) (Block.id_mem_ids (.condition c))).1
    have hfind : Block.find? c.id o.toBlock = some (.condition c) :=
      hpath ▸ Path.find?_plug hbefore
    by_cases hid : o.id = c.id
    · simp [toBlock, Block.find?, hid] at hfind
    · simpa [toBlock, Block.find?, find?, hid] using hfind

/-- Two conditions of an operator with one id are the same. -/
theorem condition_eq_of_id_eq {o : Operator} (hn : o.toBlock.ids.Nodup) {c d : Condition}
    (hc : c ∈ o.toBlock.conditions) (hd : d ∈ o.toBlock.conditions) (h : c.id = d.id) : c = d := by
  have hcd := ((find?_eq_condition hn).mpr ⟨hc, h⟩).symm.trans
    ((find?_eq_condition hn).mpr ⟨hd, rfl⟩)
  simpa using hcd

/-- One operator is the other but for the operator `p` of a kind, itself or one below it, which
holds `new` in the place of `old`. -/
def Regrafted (o o' : Operator) (p : BlockId) (kind : Connective) (old new : List Block) : Prop :=
  ∃ path, o.toBlock = Path.plug path (.operator p kind old) ∧
    o'.toBlock = Path.plug path (.operator p kind new)

/-- Giving the operator with an id other operands changes only these. -/
theorem regrafted_setOperands {o q : Operator} {p : BlockId} (hn : o.toBlock.ids.Nodup)
    (h : o.operatorAt? p = some q) (new : List Block) :
    o.Regrafted (o.setOperands p new) p q.kind q.operands new := by
  obtain ⟨rfl, path, hpath⟩ := operatorAt?_eq_some h
  obtain ⟨hb, ha⟩ := Path.not_mem_of_nodup (hpath ▸ hn) (Block.id_mem_ids q.toBlock)
  exact ⟨path, hpath, by rw [toBlock_setOperands, hpath]; exact Path.setOperands_plug hb ha⟩

end Operator

namespace Operator.Regrafted

variable {o o' : Operator} {p : BlockId} {kind : Connective} {old new : List Block}

/-- The outermost operator keeps its id and its kind, and either it is the one that got other
operands, or that one is below it. -/
theorem cases_outermost (h : o.Regrafted o' p kind old new) :
    o'.id = o.id ∧ o'.kind = o.kind ∧
      ((o.id = p ∧ o.kind = kind ∧ o.operands = old ∧ o'.operands = new) ∨
        ∃ before path after,
          o.operands = before ++ Path.plug path (.operator p kind old) :: after ∧
            o'.operands = before ++ Path.plug path (.operator p kind new) :: after) := by
  obtain ⟨path, ho, ho'⟩ := h
  cases path with
  | nil =>
    obtain ⟨hid, hkind, hops⟩ := Block.operator.inj ho
    obtain ⟨hid', hkind', hops'⟩ := Block.operator.inj ho'
    exact ⟨hid'.trans hid.symm, hkind'.trans hkind.symm, .inl ⟨hid, hkind, hops, hops'⟩⟩
  | cons f fs =>
    obtain ⟨hid, hkind, hops⟩ := Block.operator.inj ho
    obtain ⟨hid', hkind', hops'⟩ := Block.operator.inj ho'
    exact ⟨hid'.trans hid.symm, hkind'.trans hkind.symm,
      .inr ⟨f.before, fs, f.after, hops, hops'⟩⟩

theorem kind_eq (h : o.Regrafted o' p kind old new) : o'.kind = o.kind := h.cases_outermost.2.1

/-- The ids change where the operands do. -/
theorem ids_eq (h : o.Regrafted o' p kind old new) :
    ∃ before after, o.toBlock.ids = before ++ Block.idsAll old ++ after ∧
      o'.toBlock.ids = before ++ Block.idsAll new ++ after := by
  obtain ⟨path, ho, ho'⟩ := h
  refine ⟨Path.idsBefore path ++ [p], Path.idsAfter path, ?_, ?_⟩
  · rw [ho, Path.ids_plug]; simp [Block.ids]
  · rw [ho', Path.ids_plug]; simp [Block.ids]

/-- The limits stay kept if the new operands keep them and are not too many. -/
theorem keepsLimits (h : o.Regrafted o' p kind old new) (ho : o.toBlock.keepsLimits = true)
    (hfits : kind.fits new.length = true) (hnew : Block.allKeepLimits new = true) :
    o'.toBlock.keepsLimits = true := by
  obtain ⟨path, hpath, hpath'⟩ := h
  rw [hpath'] at *
  exact Path.keepsLimits_plug (hpath ▸ ho) (by simp [Block.keepsLimits, hfits, hnew])

/-- The operands that are left keep the limits. -/
theorem old_keepLimits (h : o.Regrafted o' p kind old new) (ho : o.toBlock.keepsLimits = true) :
    kind.fits old.length = true ∧ Block.allKeepLimits old = true := by
  obtain ⟨path, hpath, -⟩ := h
  have hp : (Block.operator p kind old).keepsLimits = true :=
    Path.keepsLimits_of_plug (hpath ▸ ho)
  rwa [Block.keepsLimits, Bool.and_eq_true] at hp

/-- There is no root among the operands that are left if there is none below the outermost
operator. -/
theorem old_rootless (h : o.Regrafted o' p kind old new)
    (ho : Block.anyHasRoot o.operands = false) : Block.anyHasRoot old = false := by
  obtain ⟨-, -, ⟨-, -, hold, -⟩ | ⟨before, path, after, hops, -⟩⟩ := h.cases_outermost
  · exact hold ▸ ho
  · simp only [hops, Block.anyHasRoot_append, Block.anyHasRoot, Bool.or_eq_false_iff] at ho
    exact (Bool.or_eq_false_iff.mp (Path.hasRoot_of_plug ho.2.1)).2

/-- There is still no root below the outermost operator if the new operands have none. -/
theorem rootless (h : o.Regrafted o' p kind old new) (ho : Block.anyHasRoot o.operands = false)
    (hnew : Block.anyHasRoot new = false) : Block.anyHasRoot o'.operands = false := by
  obtain ⟨-, -, ⟨-, -, -, hops'⟩ | ⟨before, path, after, hops, hops'⟩⟩ := h.cases_outermost
  · exact hops' ▸ hnew
  · simp only [hops, Block.anyHasRoot_append, Block.anyHasRoot, Bool.or_eq_false_iff] at ho
    obtain ⟨hkind, -⟩ := Bool.or_eq_false_iff.mp (Path.hasRoot_of_plug ho.2.1)
    have hplug := Path.hasRoot_plug (c := .operator p kind new) ho.2.1
      (Bool.or_eq_false_iff.mpr ⟨hkind, hnew⟩)
    simp [hops', Block.anyHasRoot, ho.1, ho.2.2, hplug]

end Operator.Regrafted

end SearchComposer
