import Mathlib.Data.List.Forall2
import SearchComposer.Proofs.Block.Folds

/-!
# Blocks that are equal but for the ids

A block is made anonymous by giving all blocks in it one id. Two blocks are alike exactly if they
are equal when both are anonymous, so whatever is the same for a block and the anonymous one cannot
tell alike blocks apart. There is a second way to say it. An address leads from a block down to one
below it, operand by operand. Blocks are alike exactly if they show the same at every address, ids
aside.
-/

namespace SearchComposer

/-- A condition whose id says nothing. -/
def Condition.anonymous (c : Condition) : Condition := { c with id := ⟨0⟩ }

/-- What a block shows of itself, the ids aside. -/
inductive Guise where
  /-- A condition shows its parts. -/
  | condition (property? : Option Property) (comparator? : Option Comparator)
    (value? : Option Value)
  /-- An operator shows its kind and how many operands it holds. -/
  | operator (kind : Connective) (count : Nat)
  deriving DecidableEq, Repr

namespace Block

/-- The guise of a block. -/
def guise : Block → Guise
  | condition c => .condition c.property? c.comparator? c.value?
  | operator _ kind operands => .operator kind operands.length

/-- The block at an address: at each step, the operand at a position. -/
def at? : List Nat → Block → Option Block
  | [], b => some b
  | _ :: _, condition _ => none
  | i :: address, operator _ _ operands => operands[i]?.bind (at? address)

mutual

/-- A block whose ids say nothing. -/
def anonymous : Block → Block
  | condition c => condition c.anonymous
  | operator _ kind operands => operator ⟨0⟩ kind (anonymousAll operands)

/-- Blocks whose ids say nothing. -/
def anonymousAll : List Block → List Block
  | [] => []
  | b :: bs => anonymous b :: anonymousAll bs

end

theorem anonymousAll_eq_map (bs : List Block) : anonymousAll bs = bs.map anonymous := by
  induction bs with
  | nil => rfl
  | cons b bs ih => rw [anonymousAll, List.map_cons, ih]

variable {a b : Block} {bs cs : List Block}

/-! ## Alike is equal without ids -/

/-- Lists are alike if they are equally long and the blocks at equal positions are alike. -/
theorem alikeAll_eq_zip (bs cs : List Block) :
    alikeAll bs cs = (bs.length == cs.length && (bs.zip cs).all fun (b, c) => b.alike c) := by
  induction bs generalizing cs with
  | nil => cases cs <;> rfl
  | cons b bs ih =>
    cases cs with
    | nil => rfl
    | cons c cs =>
      rw [alikeAll, ih, List.zip_cons_cons, List.all_cons, Bool.and_left_comm]
      simp

/-- Lists are alike if they are equal without ids, if this holds of each block of one. -/
theorem alikeAll_iff_of
    (h : ∀ b ∈ bs, ∀ c, b.alike c = true ↔ b.anonymous = c.anonymous) :
    alikeAll bs cs = true ↔ anonymousAll bs = anonymousAll cs := by
  rw [alikeAll_eq_zip, Bool.and_eq_true, beq_iff_eq, List.all_eq_true, anonymousAll_eq_map,
    anonymousAll_eq_map, ← List.forall₂_eq_eq_eq, List.forall₂_map_left_iff,
    List.forall₂_map_right_iff, List.forall₂_iff_zip]
  refine and_congr_right fun _ => ⟨fun hzip b c hbc => ?_, fun hzip p hp => ?_⟩
  · exact (h b (List.of_mem_zip hbc).1 c).mp (hzip (b, c) hbc)
  · exact (h p.1 (List.of_mem_zip hp).1 p.2).mpr (hzip hp)

theorem alike_iff : a.alike b = true ↔ a.anonymous = b.anonymous := by
  induction a using Block.induction generalizing b with
  | condition c =>
    cases b with
    | condition d => simp [alike, anonymous, Condition.anonymous, and_assoc]
    | operator => simp [alike, anonymous]
  | operator id kind bs ih =>
    cases b with
    | condition d => simp [alike, anonymous]
    | operator id' kind' cs =>
      have hoperands : alikeAll bs cs = true ↔ anonymousAll bs = anonymousAll cs :=
        alikeAll_iff_of fun b hb c => ih b hb
      simp [alike, anonymous, hoperands]

theorem equivalence_alike : Equivalence fun a b : Block => a.alike b = true where
  refl _ := alike_iff.mpr rfl
  symm h := alike_iff.mpr (alike_iff.mp h).symm
  trans h h' := alike_iff.mpr ((alike_iff.mp h).trans (alike_iff.mp h'))

/-! ## Addresses -/

@[simp] theorem guise_anonymous (b : Block) : b.anonymous.guise = b.guise := by
  cases b with
  | condition c => rfl
  | operator id kind operands => simp [anonymous, guise, anonymousAll_eq_map]

theorem at?_anonymous (address : List Nat) (b : Block) :
    b.anonymous.at? address = (b.at? address).map anonymous := by
  induction address generalizing b with
  | nil => rfl
  | cons i address ih =>
    cases b with
    | condition c => rfl
    | operator id kind operands =>
      rw [anonymous, at?, at?, anonymousAll_eq_map, List.getElem?_map]
      cases operands[i]? with
      | none => rfl
      | some c => exact ih c

/-- The guises at all addresses are what is left of a block without its ids. -/
theorem anonymous_eq_iff : a.anonymous = b.anonymous ↔
    ∀ address, (a.at? address).map guise = (b.at? address).map guise := by
  constructor
  · intro h address
    have hat : (a.at? address).map anonymous = (b.at? address).map anonymous := by
      rw [← at?_anonymous, ← at?_anonymous, h]
    simpa [Function.comp_def] using congrArg (Option.map guise) hat
  · intro h
    induction a using Block.induction generalizing b with
    | condition c =>
      have hguise : guise (.condition c) = b.guise := Option.some.inj (h [])
      cases b with
      | condition d => simp_all [guise, anonymous, Condition.anonymous]
      | operator => cases hguise
    | operator id kind bs ih =>
      have hguise : guise (.operator id kind bs) = b.guise := Option.some.inj (h [])
      cases b with
      | condition d => cases hguise
      | operator id' kind' cs =>
        obtain ⟨rfl, hlength⟩ := Guise.operator.inj hguise
        have hoperands : bs.map anonymous = cs.map anonymous := by
          refine List.ext_getElem (by simpa using hlength) fun i hb hc => ?_
          rw [List.length_map] at hb hc
          rw [List.getElem_map, List.getElem_map]
          refine ih bs[i] (List.getElem_mem hb) fun address => ?_
          simpa [at?, List.getElem?_eq_getElem hb, List.getElem?_eq_getElem hc] using
            h (i :: address)
        rw [anonymous, anonymous, anonymousAll_eq_map, anonymousAll_eq_map, hoperands]

/-- Blocks are alike exactly if they show the same everywhere. -/
theorem alike_iff_guise : a.alike b = true ↔
    ∀ address, (a.at? address).map guise = (b.at? address).map guise :=
  alike_iff.trans anonymous_eq_iff

/-! ## What does not depend on ids -/

mutual

theorem level_anonymous : ∀ b : Block, b.anonymous.level = b.level
  | condition _ => rfl
  | operator _ _ operands => by rw [anonymous, level, level, levelAll_anonymousAll operands]

theorem levelAll_anonymousAll : ∀ bs : List Block, levelAll (anonymousAll bs) = levelAll bs
  | [] => rfl
  | b :: bs => by
    rw [anonymousAll, levelAll, levelAll, level_anonymous b, levelAll_anonymousAll bs]

end

mutual

theorem hasRoot_anonymous : ∀ b : Block, b.anonymous.hasRoot = b.hasRoot
  | condition _ => rfl
  | operator _ _ operands => by
    rw [anonymous, hasRoot, hasRoot, anyHasRoot_anonymousAll operands]

theorem anyHasRoot_anonymousAll : ∀ bs : List Block, anyHasRoot (anonymousAll bs) = anyHasRoot bs
  | [] => rfl
  | b :: bs => by
    rw [anonymousAll, anyHasRoot, anyHasRoot, hasRoot_anonymous b, anyHasRoot_anonymousAll bs]

end

mutual

theorem conditions_anonymous :
    ∀ b : Block, b.anonymous.conditions = b.conditions.map Condition.anonymous
  | condition _ => rfl
  | operator _ _ operands => by
    rw [anonymous, conditions, conditions, conditionsAll_anonymousAll operands]

theorem conditionsAll_anonymousAll : ∀ bs : List Block,
    conditionsAll (anonymousAll bs) = (conditionsAll bs).map Condition.anonymous
  | [] => rfl
  | b :: bs => by
    rw [anonymousAll, conditionsAll, conditionsAll, conditions_anonymous b,
      conditionsAll_anonymousAll bs, List.map_append]

end

end Block

end SearchComposer
