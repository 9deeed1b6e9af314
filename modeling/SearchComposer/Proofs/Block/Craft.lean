import SearchComposer.Proofs.Block.Path
import SearchComposer.Proofs.Block.Supply

/-!
# Loose blocks

Blocks that are not in a tree are loose. They are made there: new conditions with any parts, new
operators, operators that take in other loose blocks, and copies. A loose block that goes into
another block is no longer loose, so every block is in one place. A craft is one such step; whatever
crafts are made, the ids of the loose blocks are covered by the supply together with all ids that
were covered before, and the loose blocks keep the limits of their operators.
-/

namespace SearchComposer

/-- The loose block with an id, and the other ones. -/
def pick? (x : BlockId) (loose : List Block) : Option (Block × List Block) :=
  (Slot.find? x loose).map fun s => (s.block, s.fill [])

/-- The loose blocks with the given ids in this order, and the other ones. No block is picked
twice. -/
def pickAll? : List BlockId → List Block → Option (List Block × List Block)
  | [], loose => some ([], loose)
  | x :: xs, loose => do
    let (b, others) ← pick? x loose
    let (bs, others) ← pickAll? xs others
    return (b :: bs, others)

/-- A step that makes or drops loose blocks. Loose blocks are named by their ids. -/
inductive Craft where
  /-- A new condition. -/
  | condition (property? : Option Property) (comparator? : Option Comparator)
      (value? : Option Value)
  /-- A new operator without operands. -/
  | operator (kind : Connective)
  /-- A new operator that takes in loose blocks. If they do not fit, all of them are dropped. -/
  | join (kind : Connective) (operands : List BlockId)
  /-- A loose operator takes in another loose block. If there is no room, that one is dropped. -/
  | push (o b : BlockId)
  /-- A copy of a block at any depth. -/
  | copy (x : BlockId)
  /-- A loose block is dropped. -/
  | drop (x : BlockId)

namespace Craft

/-- The loose blocks after some of them went into a new operator. -/
def joined (kind : Connective) (xs : List BlockId) (loose : List Block) : Fresh (List Block) :=
  match pickAll? xs loose with
  | none => return loose
  | some (bs, others) => do
    match ← Operator.ofOperands kind bs with
    | .ok o => return o.toBlock :: others
    | .error _ => return others

/-- The loose blocks after the one with the id `y` went into the operator with the id `x`. -/
def pushed (x y : BlockId) (loose : List Block) : List Block :=
  match pickAll? [x, y] loose with
  | some ([.operator id kind operands, c], others) =>
    match Operator.push ⟨id, kind, operands⟩ c with
    | .ok o => o.toBlock :: others
    | .error _ => .operator id kind operands :: others
  | _ => loose

/-- The loose blocks together with a copy of one of the blocks `all` or below them. -/
def copied (x : BlockId) (all loose : List Block) : Fresh (List Block) :=
  match Block.findIn? x all with
  | some b => do return (← b.copy) :: loose
  | none => return loose

/-- The loose blocks after a step. Besides these, the blocks `placed` can be copied. A step that
names a block that is not loose does nothing. -/
def apply (placed loose : List Block) : Craft → Fresh (List Block)
  | condition property? comparator? value? => do
    return .condition (← Condition.new property? comparator? value?) :: loose
  | operator kind => do return (← Operator.new kind).toBlock :: loose
  | join kind xs => joined kind xs loose
  | push x y => return pushed x y loose
  | copy x => copied x (placed ++ loose) loose
  | drop x => return ((pick? x loose).map (·.2)).getD loose

/-- The loose blocks after some steps, if no others can be copied. -/
def applyAll : List Craft → List Block → Fresh (List Block)
  | [], loose => return loose
  | c :: cs, loose => do applyAll cs (← c.apply [] loose)

end Craft

/-! ## Picking -/

theorem perm_of_pick? {x : BlockId} {loose others : List Block} {b : Block}
    (h : pick? x loose = some (b, others)) : b.id = x ∧ loose.Perm (b :: others) := by
  obtain ⟨s, hs, heq⟩ := Option.map_eq_some_iff.mp h
  obtain ⟨rfl, rfl⟩ := Prod.mk.inj heq
  obtain ⟨hid, hfill⟩ := Slot.find?_eq_some hs
  exact ⟨hid, hfill ▸ by simp [Slot.fill, List.perm_middle]⟩

theorem perm_of_pickAll? {xs : List BlockId} {loose bs others : List Block}
    (h : pickAll? xs loose = some (bs, others)) : loose.Perm (bs ++ others) := by
  induction xs generalizing loose bs with
  | nil => cases h; exact .refl _
  | cons x xs ih =>
    obtain ⟨⟨b, rest⟩, hb, h⟩ := Option.bind_eq_some_iff.mp h
    obtain ⟨⟨cs, rest'⟩, hcs, h⟩ := Option.bind_eq_some_iff.mp h
    cases h
    exact (perm_of_pick? hb).2.trans ((ih hcs).cons b)

namespace Block

theorem count_idsAll_of_perm {bs cs : List Block} (h : bs.Perm cs) (x : BlockId) :
    (idsAll bs).count x = (idsAll cs).count x := by
  rw [idsAll_eq_flatMap, idsAll_eq_flatMap]
  exact (h.flatMap_right ids).count_eq x

theorem allKeepLimits_of_perm {bs cs : List Block} (h : bs.Perm cs)
    (hbs : allKeepLimits bs = true) : allKeepLimits cs = true := by
  simp only [allKeepLimits_eq_all, List.all_eq_true] at hbs ⊢
  exact fun b hb => hbs b (h.mem_iff.mpr hb)

/-- A block that is found among others keeps the limits if they do. -/
theorem keepsLimits_of_findIn? {x : BlockId} {bs : List Block} {b : Block}
    (h : findIn? x bs = some b) (hbs : allKeepLimits bs = true) : b.keepsLimits = true := by
  obtain ⟨c, hc, hb⟩ := findIn?_eq_some h
  obtain ⟨-, path, rfl⟩ := find?_eq_some hb
  rw [allKeepLimits_eq_all, List.all_eq_true] at hbs
  exact Path.keepsLimits_of_plug (hbs _ hc)

end Block

/-! ## Loose blocks are accounted for -/

open Block (idsAll allKeepLimits)

/-- The loose blocks keep the limits, and their ids are covered together with other ids in use. -/
structure Accounted (s : Supply) (ids : List BlockId) (loose : List Block) : Prop where
  /-- No id is used twice. -/
  covers : s.Covers (ids ++ idsAll loose)
  /-- No operator holds too many operands. -/
  keepLimits : allKeepLimits loose = true

namespace Accounted

variable {s : Supply} {ids : List BlockId} {loose others bs : List Block} {b c : Block}

theorem of_perm (h : Accounted s ids loose) (hp : loose.Perm others) : Accounted s ids others where
  covers := h.covers.of_count_le fun x => Nat.le_of_eq <| by
    rw [List.count_append, List.count_append, Block.count_idsAll_of_perm hp]
  keepLimits := Block.allKeepLimits_of_perm hp h.keepLimits

/-- Some loose blocks can be dropped. -/
theorem of_append (h : Accounted s ids (bs ++ loose)) : Accounted s ids loose where
  covers := h.covers.of_count_le fun x => by
    simp only [Block.idsAll_append, List.count_append]
    omega
  keepLimits := by
    have hlim := h.keepLimits
    rw [Block.allKeepLimits_append, Bool.and_eq_true] at hlim
    exact hlim.2

theorem tail (h : Accounted s ids (b :: loose)) : Accounted s ids loose := by
  have happend : Accounted s ids ([b] ++ loose) := h
  exact happend.of_append

theorem mono (h : Accounted s ids loose) (n : Nat) : Accounted ⟨s.next + n⟩ ids loose :=
  ⟨h.covers.mono n, h.keepLimits⟩

/-- A block can be added that takes its ids from the supply. -/
theorem cons (h : Accounted s ids loose) {n : Nat} (hids : b.ids = s.batch n)
    (hb : b.keepsLimits = true) : Accounted ⟨s.next + n⟩ ids (b :: loose) where
  covers := (h.covers.batch n).of_count_le fun x => by
    simp only [idsAll, hids, List.count_append]; omega
  keepLimits := by rw [allKeepLimits, hb, h.keepLimits]; rfl

/-- Loose blocks can go into a new operator that has room for them. -/
theorem join (h : Accounted s ids (bs ++ loose)) {kind : Connective}
    (hfits : kind.fits bs.length = true) :
    Accounted ⟨s.next + 1⟩ ids (.operator ⟨s.next⟩ kind bs :: loose) where
  covers := h.covers.take.of_count_le fun x => by
    simp only [idsAll, Block.ids, Block.idsAll_append, List.count_append, List.count_cons]; omega
  keepLimits := by
    have hlim := h.keepLimits
    rw [Block.allKeepLimits_append, Bool.and_eq_true] at hlim
    simp [allKeepLimits, Block.keepsLimits, hfits, hlim]

/-- A loose block can go into a loose operator that has room for it. -/
theorem push {x : BlockId} {kind : Connective}
    (h : Accounted s ids (.operator x kind bs :: c :: loose))
    (hfits : kind.fits (bs.length + 1) = true) :
    Accounted s ids (.operator x kind (bs ++ [c]) :: loose) where
  covers := h.covers.of_count_le fun y => by
    simp only [idsAll, Block.ids, Block.idsAll_append, List.count_append, List.count_cons,
      List.append_nil]
    omega
  keepLimits := by
    have hlim := h.keepLimits
    simp only [allKeepLimits, Block.keepsLimits, Bool.and_eq_true] at hlim
    simp [allKeepLimits, Block.keepsLimits, hfits, hlim]

end Accounted

/-! ## Crafts -/

namespace Craft

variable {s : Supply} {ids : List BlockId} {placed loose : List Block}

theorem run_ofOperands (kind : Connective) (bs : List Block) (s : Supply) :
    (Operator.ofOperands kind bs).run s =
      (bs.foldlM Operator.push ⟨⟨s.next⟩, kind, []⟩, ⟨s.next + 1⟩) := rfl

theorem accounted_joined (h : Accounted s ids loose) (kind : Connective) (xs : List BlockId) :
    Accounted ((joined kind xs loose).run s).2 ids ((joined kind xs loose).run s).1 := by
  unfold joined
  split
  · exact h
  · next bs others hp =>
    have h' := h.of_perm (perm_of_pickAll? hp)
    rw [Fresh.run_bind, run_ofOperands]
    cases ho : bs.foldlM Operator.push ⟨⟨s.next⟩, kind, []⟩ with
    | error e => exact h'.of_append.mono 1
    | ok o =>
      obtain ⟨hid, hkind, hops, hfits⟩ :=
        Operator.foldlM_push_eq_ok ho (Block.fits_zero kind)
      have ho : o.toBlock = .operator ⟨s.next⟩ kind bs := by
        rw [Operator.toBlock, hid, hkind, hops, List.nil_append]
      rw [hkind, hops] at hfits
      show Accounted ⟨s.next + 1⟩ ids (o.toBlock :: others)
      exact ho ▸ h'.join hfits

theorem accounted_pushed (h : Accounted s ids loose) (x y : BlockId) :
    Accounted s ids (pushed x y loose) := by
  unfold pushed
  split
  · next id kind operands c others hp =>
    have h' := h.of_perm (perm_of_pickAll? hp)
    cases ho : Operator.push ⟨id, kind, operands⟩ c with
    | error e => exact (h'.of_perm (.swap ..)).tail
    | ok o =>
      obtain ⟨-, hroom, rfl⟩ := Operator.push_eq_ok.mp ho
      exact h'.push hroom
  · exact h

theorem accounted_copied (h : Accounted s ids loose) (hplaced : allKeepLimits placed = true)
    (x : BlockId) : Accounted ((copied x (placed ++ loose) loose).run s).2 ids
      ((copied x (placed ++ loose) loose).run s).1 := by
  unfold copied
  split
  · next b hb =>
    have hlim := Block.keepsLimits_of_findIn? hb (by simp [hplaced, h.keepLimits])
    obtain ⟨hs, hids, hcopy⟩ := Block.run_copy b s
    have h' := h.cons hids (hcopy.trans hlim)
    rwa [Fresh.run_bind, Fresh.run_pure, hs]
  · exact h

/-- The loose blocks stay accounted for in a craft. -/
theorem accounted_apply (h : Accounted s ids loose) (hplaced : allKeepLimits placed = true)
    (c : Craft) :
    Accounted ((c.apply placed loose).run s).2 ids ((c.apply placed loose).run s).1 := by
  cases c with
  | condition property? comparator? value? => exact h.cons (n := 1) rfl rfl
  | operator kind => exact h.cons (n := 1) rfl (Block.keepsLimits_empty _ kind)
  | join kind xs => exact accounted_joined h kind xs
  | push x y => exact accounted_pushed h x y
  | copy x => exact accounted_copied h hplaced x
  | drop x =>
    cases hp : pick? x loose with
    | none =>
      simpa only [apply, Fresh.run_pure, hp, Option.map_none, Option.getD_none] using h
    | some picked =>
      simpa only [apply, Fresh.run_pure, hp, Option.map_some, Option.getD_some] using
        (h.of_perm (perm_of_pick? hp).2).tail

/-- The loose blocks stay accounted for in a sequence of crafts. -/
theorem accounted_applyAll (h : Accounted s ids loose) (cs : List Craft) :
    Accounted ((applyAll cs loose).run s).2 ids ((applyAll cs loose).run s).1 := by
  induction cs generalizing loose s with
  | nil => exact h
  | cons c cs ih => exact ih (accounted_apply h rfl c)

end Craft

end SearchComposer
