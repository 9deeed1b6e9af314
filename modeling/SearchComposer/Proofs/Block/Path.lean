import SearchComposer.Proofs.Block.Folds

/-!
# Paths

A path leads from a block down to one of the blocks below it: the operators on the way, the
outermost first, each with its operands to the left and to the right of the way. Plugging a block
into a path puts it at the end of the way and leaves everything beside the way as it is. So two
blocks that differ in one place only are one path with two blocks plugged into it, and each fold of
a plugged block is the fold of that block between two parts that belong to the path.
-/

namespace SearchComposer

/-- An operator, of whose operands one is left open. -/
structure Frame where
  /-- The id of the operator. -/
  id : BlockId
  /-- How the operands are joined. -/
  kind : Connective
  /-- The operands before the open one. -/
  before : List Block
  /-- The operands after the open one. -/
  after : List Block

/-- The operators from a block down to the place of a block below it, the outermost first. -/
abbrev Path := List Frame

namespace Path

/-- The block that has the given block at the end of the path. -/
def plug : Path → Block → Block
  | [], b => b
  | f :: fs, b => .operator f.id f.kind (f.before ++ plug fs b :: f.after)

/-- The ids of a path that come before those of the block at its end: the operators on the way, and
all blocks to the left. -/
def idsBefore : Path → List BlockId
  | [] => []
  | f :: fs => f.id :: (Block.idsAll f.before ++ idsBefore fs)

/-- The ids of a path that come after those of the block at its end: all blocks to the right. -/
def idsAfter : Path → List BlockId
  | [] => []
  | f :: fs => idsAfter fs ++ Block.idsAll f.after

/-- The conditions to the left of the way. -/
def conditionsBefore : Path → List Condition
  | [] => []
  | f :: fs => Block.conditionsAll f.before ++ conditionsBefore fs

/-- The conditions to the right of the way. -/
def conditionsAfter : Path → List Condition
  | [] => []
  | f :: fs => conditionsAfter fs ++ Block.conditionsAll f.after

/-- A path can be cut anywhere: its end with the block is a block at the end of the rest. -/
theorem plug_append (path rest : Path) (b : Block) :
    plug (path ++ rest) b = plug path (plug rest b) := by
  induction path with
  | nil => rfl
  | cons f fs ih => rw [List.cons_append, plug, ih, plug]

/-- The last operator on the way can be put into the block at its end instead. -/
theorem plug_concat (path : Path) (f : Frame) (b : Block) :
    plug (path ++ [f]) b = plug path (.operator f.id f.kind (f.before ++ b :: f.after)) :=
  plug_append path [f] b

/-! ## Folds -/

theorem ids_plug (path : Path) (b : Block) :
    (plug path b).ids = idsBefore path ++ b.ids ++ idsAfter path := by
  induction path with
  | nil => simp [plug, idsBefore, idsAfter]
  | cons f fs ih => simp [plug, Block.ids, Block.idsAll, idsBefore, idsAfter, ih]

theorem conditions_plug (path : Path) (b : Block) :
    (plug path b).conditions = conditionsBefore path ++ b.conditions ++ conditionsAfter path := by
  induction path with
  | nil => simp [plug, conditionsBefore, conditionsAfter]
  | cons f fs ih =>
    simp [plug, Block.conditions, Block.conditionsAll, conditionsBefore, conditionsAfter, ih]

theorem conditionsBefore_concat (path : Path) (f : Frame) :
    conditionsBefore (path ++ [f]) = conditionsBefore path ++ Block.conditionsAll f.before := by
  induction path with
  | nil => simp [conditionsBefore]
  | cons g gs ih => simp [conditionsBefore, ih]

theorem conditionsAfter_concat (path : Path) (f : Frame) :
    conditionsAfter (path ++ [f]) = Block.conditionsAll f.after ++ conditionsAfter path := by
  induction path with
  | nil => simp [conditionsAfter]
  | cons g gs ih => simp [conditionsAfter, ih]

/-- The block at the end of a path keeps the limits if the whole does. -/
theorem keepsLimits_of_plug {path : Path} {b : Block} (h : (plug path b).keepsLimits = true) :
    b.keepsLimits = true := by
  induction path with
  | nil => exact h
  | cons f fs ih =>
    simp only [plug, Block.keepsLimits, Block.allKeepLimits_append, Block.allKeepLimits,
      Bool.and_eq_true] at h
    exact ih h.2.2.1

/-- Limits stay kept if the block at the end of a path changes for one that keeps them: no operator
on the way gets another number of operands. -/
theorem keepsLimits_plug {path : Path} {b c : Block} (h : (plug path b).keepsLimits = true)
    (hc : c.keepsLimits = true) : (plug path c).keepsLimits = true := by
  induction path with
  | nil => exact hc
  | cons f fs ih =>
    simp only [plug, Block.keepsLimits, Block.allKeepLimits_append, Block.allKeepLimits,
      Bool.and_eq_true, List.length_append, List.length_cons] at h ⊢
    exact ⟨h.1, h.2.1, ih h.2.2.1, h.2.2.2⟩

/-- The block at the end of a path has no root if the whole has none. -/
theorem hasRoot_of_plug {path : Path} {b : Block} (h : (plug path b).hasRoot = false) :
    b.hasRoot = false := by
  induction path with
  | nil => exact h
  | cons f fs ih =>
    simp only [plug, Block.hasRoot, Block.anyHasRoot_append, Block.anyHasRoot,
      Bool.or_eq_false_iff] at h
    exact ih h.2.2.1

/-- There is still no root if the block at the end of a path changes for one without a root. -/
theorem hasRoot_plug {path : Path} {b c : Block} (h : (plug path b).hasRoot = false)
    (hc : c.hasRoot = false) : (plug path c).hasRoot = false := by
  induction path with
  | nil => exact hc
  | cons f fs ih =>
    simp only [plug, Block.hasRoot, Block.anyHasRoot_append, Block.anyHasRoot,
      Bool.or_eq_false_iff] at h ⊢
    exact ⟨h.1, h.2.1, ih h.2.2.1, h.2.2.2⟩

end Path

/-! ## Finding a block -/

namespace Block

theorem findIn?_eq_some {x : BlockId} {bs : List Block} {c : Block} (h : findIn? x bs = some c) :
    ∃ b ∈ bs, find? x b = some c := by
  induction bs with
  | nil => simp [findIn?] at h
  | cons b bs ih =>
    rcases Option.or_eq_some_iff.mp h with h | ⟨-, h⟩
    · exact ⟨b, List.mem_cons_self, h⟩
    · obtain ⟨d, hd, hc⟩ := ih h
      exact ⟨d, List.mem_cons_of_mem _ hd, hc⟩

/-- A block that is found has the id, and a path leads to it. -/
theorem find?_eq_some {x : BlockId} {b c : Block} (h : find? x b = some c) :
    c.id = x ∧ ∃ path, b = Path.plug path c := by
  induction b using Block.induction with
  | condition d =>
    by_cases hd : d.id = x
    · obtain rfl : condition d = c := by simpa [find?, hd] using h
      exact ⟨hd, [], rfl⟩
    · simp [find?, hd] at h
  | operator id kind operands ih =>
    by_cases hid : id = x
    · obtain rfl : operator id kind operands = c := by simpa [find?, hid] using h
      exact ⟨hid, [], rfl⟩
    · obtain ⟨d, hd, hc⟩ := findIn?_eq_some (by simpa [find?, hid] using h)
      obtain ⟨hx, path, hpath⟩ := ih d hd hc
      obtain ⟨before, after, rfl⟩ := List.append_of_mem hd
      exact ⟨hx, ⟨id, kind, before, after⟩ :: path, by rw [hpath]; rfl⟩

/-- A path leads to every condition of a block. -/
theorem exists_path_of_mem_conditions {c : Condition} {b : Block} (h : c ∈ b.conditions) :
    ∃ path, b = Path.plug path (.condition c) := by
  induction b using Block.induction with
  | condition d =>
    obtain rfl : c = d := by simpa [conditions] using h
    exact ⟨[], rfl⟩
  | operator id kind operands ih =>
    obtain ⟨b, hb, hc⟩ := mem_conditionsAll.mp h
    obtain ⟨path, hpath⟩ := ih b hb hc
    obtain ⟨before, after, rfl⟩ := List.append_of_mem hb
    exact ⟨⟨id, kind, before, after⟩ :: path, by rw [hpath]; rfl⟩

theorem id_mem_ids_of_mem_conditions {c : Condition} {b : Block} (h : c ∈ b.conditions) :
    c.id ∈ b.ids := by
  obtain ⟨path, rfl⟩ := exists_path_of_mem_conditions h
  rw [Path.ids_plug]
  simp [ids]

theorem findIn?_eq_none_of {x : BlockId} {bs : List Block}
    (h : ∀ b ∈ bs, find? x b = none) : findIn? x bs = none := by
  induction bs with
  | nil => rfl
  | cons b bs ih =>
    rw [findIn?, h b List.mem_cons_self, Option.none_or]
    exact ih fun c hc => h c (List.mem_cons_of_mem _ hc)

/-- Nothing is found under an id that is not there. -/
theorem find?_eq_none {x : BlockId} {b : Block} (h : x ∉ b.ids) : find? x b = none := by
  induction b using Block.induction with
  | condition c => simpa [find?, ids, eq_comm] using h
  | operator id kind operands ih =>
    obtain ⟨hid, hops⟩ := List.ne_and_not_mem_of_not_mem_cons h
    rw [find?, if_neg (Ne.symm hid)]
    exact findIn?_eq_none_of fun b hb => ih b hb fun hx => hops (mem_idsAll.mpr ⟨b, hb, hx⟩)

theorem findIn?_eq_none {x : BlockId} {bs : List Block} (h : x ∉ idsAll bs) :
    findIn? x bs = none :=
  findIn?_eq_none_of fun b hb => find?_eq_none fun hx => h (mem_idsAll.mpr ⟨b, hb, hx⟩)

theorem findIn?_append (x : BlockId) (bs cs : List Block) :
    findIn? x (bs ++ cs) = (findIn? x bs).or (findIn? x cs) := by
  induction bs with
  | nil => rfl
  | cons b bs ih => simp [findIn?, ih, Option.or_assoc]

theorem find?_self (b : Block) : find? b.id b = some b := by
  cases b <;> simp [find?, id]

end Block

namespace Path

/-- The block at the end of a path is found, unless its id comes earlier. -/
theorem find?_plug {path : Path} {b : Block} (h : b.id ∉ idsBefore path) :
    Block.find? b.id (plug path b) = some b := by
  induction path with
  | nil => exact Block.find?_self b
  | cons f fs ih =>
    obtain ⟨hid, hrest⟩ := List.ne_and_not_mem_of_not_mem_cons h
    obtain ⟨hbefore, hfs⟩ := not_or.mp (mt List.mem_append.mpr hrest)
    rw [plug, Block.find?, if_neg (Ne.symm hid), Block.findIn?_append,
      Block.findIn?_eq_none hbefore, Option.none_or, Block.findIn?, ih hfs, Option.some_or]

end Path

end SearchComposer
