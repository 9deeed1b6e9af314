import Mathlib.Data.List.ReduceOption
import SearchComposer.Proofs.Block.Folds
import SearchComposer.Request.Basic

/-!
# What a query means

A query is read in the usual way: all parts of one clause have to match, some part or no part of
another, and where a clause has no parts everything matches, as it does without a query. Blocks have
a meaning of their own, in which operators join what their operands say. The query of a composition
means what the composition does after the conditions without a test were pruned: a conjunction, a
disjunction or a negation that loses all its operands stays, and stands for everything, whereas a
root that loses its operand says nothing, and is no operand of the operator around it any more.
-/

namespace SearchComposer

namespace Clause

mutual

/-- Whether a document matches a query, given which tests it passes. -/
def isMatch (passed : Test → Bool) : Clause → Bool
  | test t => passed t
  | must parts => allMatch passed parts
  | should parts => parts.isEmpty || anyMatch passed parts
  | mustNot parts => !anyMatch passed parts

/-- Whether a document matches all of some queries. -/
def allMatch (passed : Test → Bool) : List Clause → Bool
  | [] => true
  | c :: cs => isMatch passed c && allMatch passed cs

/-- Whether a document matches one of some queries. -/
def anyMatch (passed : Test → Bool) : List Clause → Bool
  | [] => false
  | c :: cs => isMatch passed c || anyMatch passed cs

end

end Clause

/-- Whether a document is found by a request; without a query all are. -/
def Request.isMatch (passed : Test → Bool) (r : Request) : Bool :=
  (r.query?.map (Clause.isMatch passed)).getD true

/-- What operands say, put together. Operands that say nothing are left out, and where none is left
an operator says yes; a root says what its first operand does, and nothing without one. -/
def Connective.join? : Connective → List (Option Bool) → Option Bool
  | .and, readings => some (readings.reduceOption.all (· = true))
  | .or, readings =>
    some (readings.reduceOption.isEmpty || readings.reduceOption.any (· = true))
  | .not, readings => some (!readings.reduceOption.any (· = true))
  | .root, readings => readings.head?.getD none

namespace Block

mutual

/-- Whether a block holds, given which conditions do; nothing for a root without an operand that
says something. -/
def holds? (truth : Condition → Bool) : Block → Option Bool
  | condition c => some (truth c)
  | operator _ kind operands => kind.join? (holdsEach truth operands)

/-- Whether each of some blocks holds. -/
def holdsEach (truth : Condition → Bool) : List Block → List (Option Bool)
  | [] => []
  | b :: bs => holds? truth b :: holdsEach truth bs

end

/-- What the query of a block says of a document that passes some tests; nothing without a query. -/
def reading? (s : Settings) (passed : Test → Bool) (b : Block) : Option Bool :=
  (b.clause? s).map (Clause.isMatch passed)

mutual

/-- A block without the conditions that have no test; nothing if it is such a condition. -/
def prune (s : Settings) : Block → Option Block
  | condition c => if (c.test? s).isSome then some (condition c) else none
  | operator id kind operands => some (operator id kind (pruneAll s operands))

/-- Blocks without the conditions that have no test. -/
def pruneAll (s : Settings) : List Block → List Block
  | [] => []
  | b :: bs =>
    match prune s b with
    | some c => c :: pruneAll s bs
    | none => pruneAll s bs

end

end Block

/-- An operator without the conditions that have no test. -/
def Operator.prune (s : Settings) (o : Operator) : Operator :=
  { o with operands := Block.pruneAll s o.operands }

/-! ## Lists of clauses and blocks -/

namespace Clause

variable {passed : Test → Bool}

theorem allMatch_eq_all (cs : List Clause) :
    allMatch passed cs = (cs.map (isMatch passed)).all (· = true) := by
  induction cs with
  | nil => rfl
  | cons c cs ih => simp [allMatch, ih]

theorem anyMatch_eq_any (cs : List Clause) :
    anyMatch passed cs = (cs.map (isMatch passed)).any (· = true) := by
  induction cs with
  | nil => rfl
  | cons c cs ih => simp [anyMatch, ih]

end Clause

namespace Block

variable {s : Settings} {passed : Test → Bool} {truth : Condition → Bool} {b : Block}
  {bs : List Block}

theorem holdsEach_eq_map (bs : List Block) : holdsEach truth bs = bs.map (holds? truth) := by
  induction bs with
  | nil => rfl
  | cons b bs ih => rw [holdsEach, List.map_cons, ih]

theorem clauses_eq_filterMap (s : Settings) (bs : List Block) :
    clauses s bs = bs.filterMap (clause? s) := by
  induction bs with
  | nil => rfl
  | cons b bs ih =>
    rw [clauses, List.filterMap_cons, ih]
    cases clause? s b <;> rfl

theorem pruneAll_eq_filterMap (s : Settings) (bs : List Block) :
    pruneAll s bs = bs.filterMap (prune s) := by
  induction bs with
  | nil => rfl
  | cons b bs ih =>
    rw [pruneAll, List.filterMap_cons, ih]
    cases prune s b <;> rfl

/-! ## Pruning -/

/-- The conditions that are left are those with a test. -/
theorem conditions_prune (s : Settings) (b : Block) :
    ((b.prune s).map conditions).getD [] = b.conditions.filter fun c => (c.test? s).isSome := by
  induction b using Block.induction with
  | condition c => cases h : (c.test? s).isSome <;> simp [prune, conditions, h]
  | operator id kind bs ih =>
    simp only [prune, conditions, Option.map_some, Option.getD_some, pruneAll_eq_filterMap]
    induction bs with
    | nil => rfl
    | cons b bs ihs =>
      have hb := ih b List.mem_cons_self
      have hbs := ihs fun c hc => ih c (List.mem_cons_of_mem _ hc)
      rw [conditionsAll, List.filter_append, ← hb, ← hbs, List.filterMap_cons]
      cases b.prune s <;> simp [conditionsAll]

/-- Pruning does not change queries, if this holds of each block. -/
theorem clauses_pruneAll_of (h : ∀ b ∈ bs, (b.prune s).bind (clause? s) = b.clause? s) :
    clauses s (pruneAll s bs) = clauses s bs := by
  rw [clauses_eq_filterMap, clauses_eq_filterMap, pruneAll_eq_filterMap, List.filterMap_filterMap]
  exact List.filterMap_congr h

/-- Pruning does not change the query of a block that keeps the limits. -/
theorem clause?_prune (s : Settings) (hb : b.keepsLimits = true) :
    (b.prune s).bind (clause? s) = b.clause? s := by
  induction b using Block.induction with
  | condition c => cases h : c.test? s <;> simp [prune, clause?, h]
  | operator id kind bs ih =>
    rw [keepsLimits, Bool.and_eq_true, allKeepLimits_eq_all, List.all_eq_true] at hb
    obtain ⟨hfits, hbs⟩ := hb
    have hall := clauses_pruneAll_of fun b hb => ih b hb (hbs b hb)
    rw [prune, Option.bind_some]
    cases kind with
    | and => rw [clause?, clause?, hall]
    | or => rw [clause?, clause?, hall]
    | not => rw [clause?, clause?, hall]
    | root =>
      rcases eq_nil_or_singleton_of_fits_root hfits with rfl | ⟨b, rfl⟩
      · rfl
      · have hb := ih b List.mem_cons_self (hbs b List.mem_cons_self)
        rw [clause?, clause?, firstClause?, ← hb, pruneAll, pruneAll]
        cases b.prune s <;> rfl

/-- Pruning does not change what the query of a block says. -/
theorem reading?_prune (passed : Test → Bool) (hb : b.keepsLimits = true) :
    (b.prune s).bind (reading? s passed) = b.reading? s passed := by
  rw [reading?, ← clause?_prune s hb, Option.map_bind]
  rfl

/-! ## Readings -/

theorem map_isMatch_clauses (s : Settings) (passed : Test → Bool) (bs : List Block) :
    (clauses s bs).map (Clause.isMatch passed) = (bs.map (reading? s passed)).reduceOption := by
  rw [clauses_eq_filterMap, List.map_filterMap, List.reduceOption, List.filterMap_map]
  rfl

/-- The reading of an operator is made of those of its operands. -/
theorem reading?_operator (id : BlockId) (kind : Connective) (bs : List Block) :
    (operator id kind bs).reading? s passed = kind.join? (bs.map (reading? s passed)) := by
  have hmap := map_isMatch_clauses s passed bs
  cases kind with
  | and =>
    rw [reading?, clause?, Option.map_some, Clause.isMatch, Clause.allMatch_eq_all, hmap,
      Connective.join?]
  | or =>
    have hempty : (clauses s bs).isEmpty = ((clauses s bs).map (Clause.isMatch passed)).isEmpty :=
      List.isEmpty_map.symm
    rw [reading?, clause?, Option.map_some, Clause.isMatch, Clause.anyMatch_eq_any, hempty, hmap,
      Connective.join?]
  | not =>
    rw [reading?, clause?, Option.map_some, Clause.isMatch, Clause.anyMatch_eq_any, hmap,
      Connective.join?]
  | root => cases bs <;> rfl

/-- A block whose conditions all have a test, and hold as it says, reads as it holds. -/
theorem reading?_eq_holds?
    (h : ∀ c ∈ b.conditions, ∃ t, c.test? s = some t ∧ truth c = passed t) :
    b.reading? s passed = b.holds? truth := by
  induction b using Block.induction with
  | condition c =>
    obtain ⟨t, ht, htruth⟩ := h c List.mem_cons_self
    rw [reading?, clause?, ht, holds?, htruth]
    rfl
  | operator id kind bs ih =>
    have hbs : bs.map (reading? s passed) = bs.map (holds? truth) := by
      refine List.map_congr_left fun b hb => ih b hb fun c hc => ?_
      exact h c (mem_conditionsAll.mpr ⟨b, hb, hc⟩)
    rw [reading?_operator, holds?, holdsEach_eq_map, hbs]

end Block

/-- A request finds a document if the reading of its root does not say no. -/
theorem Request.isMatch_of (s : Settings) (passed : Test → Bool) (root : Operator)
    (visible? : Option Shape) (ranking : Ranking) (page : Page) :
    (Request.of s root visible? ranking page).isMatch passed =
      (root.toBlock.reading? s passed).getD true := rfl

/-- The conditions of a pruned operator have a test. -/
theorem Operator.exists_test?_of_mem_prune {s : Settings} {o : Operator} {c : Condition}
    (hc : c ∈ (o.prune s).toBlock.conditions) : ∃ t, c.test? s = some t := by
  have hprune : (o.prune s).toBlock.conditions =
      o.toBlock.conditions.filter fun c => (c.test? s).isSome :=
    Block.conditions_prune s o.toBlock
  rw [hprune, List.mem_filter] at hc
  exact Option.isSome_iff_exists.mp hc.2

/-- The request of an operator that keeps the limits finds the documents for which the composition
holds after the conditions without a test were pruned, where each other condition holds as its test
says; if nothing is left it finds all. Pruning changes the query of no operator that keeps the
limits. -/
theorem Request.isMatch_of_eq_holds_prune {s : Settings} {passed : Test → Bool}
    {truth : Condition → Bool} {o : Operator}
    (htruth : ∀ c t, Condition.test? s c = some t → truth c = passed t)
    (hlimits : o.toBlock.keepsLimits = true) (visible? : Option Shape) (ranking : Ranking)
    (page : Page) :
    (Request.of s o visible? ranking page).isMatch passed =
        ((o.prune s).toBlock.holds? truth).getD true ∧
      ∀ q : Operator, q.toBlock.keepsLimits = true →
        (q.prune s).toBlock.clause? s = q.toBlock.clause? s := by
  refine ⟨?_, fun q hq => Block.clause?_prune s hq⟩
  have hprune : (o.prune s).toBlock.reading? s passed = o.toBlock.reading? s passed :=
    Block.reading?_prune passed hlimits
  have hholds : (o.prune s).toBlock.reading? s passed = (o.prune s).toBlock.holds? truth := by
    refine Block.reading?_eq_holds? fun c hc => ?_
    obtain ⟨t, ht⟩ := Operator.exists_test?_of_mem_prune hc
    exact ⟨t, ht, htruth c t ht⟩
  rw [isMatch_of, ← hprune, hholds]

/-- An operator whose only condition is pruned stands for everything, and a root below another block
that loses its operand is none: here a document is found for which the composition does not hold
before it is pruned. -/
theorem Request.isMatch_of_emptied_operator :
    ∃ (o : Operator) (passed : Test → Bool) (truth : Condition → Bool),
      (∀ c t, Condition.test? .default c = some t → truth c = passed t) ∧
      o.toBlock.keepsLimits = true ∧
      (Request.of .default o none ⟨none, .ascending⟩ ⟨1, 10⟩).isMatch passed =
        ((o.prune .default).toBlock.holds? truth).getD true ∧
      (o.prune .default).toBlock.holds? truth = some true ∧
      o.toBlock.holds? truth = some false := by
  refine ⟨⟨⟨0⟩, .root, [.operator ⟨1⟩ .and
      [.condition ⟨⟨2⟩, some (.mapped none "open" .boolean false), some .booleanIs,
          some (.text "true")⟩,
        .operator ⟨3⟩ .or [.condition ⟨⟨4⟩, none, some .textContains, some (.text "word")⟩],
        .operator ⟨5⟩ .not [.operator ⟨6⟩ .root [.condition ⟨⟨7⟩, none, none, none⟩]]]]⟩,
    (· == .term "open" "true"),
    fun c => ((c.test? .default).map (· == .term "open" "true")).getD false, ?_⟩
  have htruth (c : Condition) (t : Test) (h : c.test? .default = some t) :
      ((c.test? .default).map (· == .term "open" "true")).getD false =
        (t == .term "open" "true") := by
    simp [h]
  exact ⟨htruth, rfl,
    (isMatch_of_eq_holds_prune htruth rfl none ⟨none, .ascending⟩ ⟨1, 10⟩).1, rfl, rfl⟩

end SearchComposer
