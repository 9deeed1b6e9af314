import SearchComposer.Proofs.Request.Test
import SearchComposer.Proofs.Session.Desk

/-!
# Requests leave nothing out

Read from left to right, the tests of a query are those of the conditions that have one: clauses and
blocks are nested alike, and limits see to it that the root has no second operand that would be left
out. In a session all conditions are complete whatever was done before, so a request tests every
condition of the tree, and it has no query only if there is nothing in the tree.
-/

namespace SearchComposer

namespace Clause

mutual

/-- The tests of a query, from left to right. -/
def tests : Clause → List Test
  | test t => [t]
  | must parts => testsAll parts
  | should parts => testsAll parts
  | mustNot parts => testsAll parts

/-- The tests of some queries, from left to right. -/
def testsAll : List Clause → List Test
  | [] => []
  | c :: cs => tests c ++ testsAll cs

end

end Clause

/-- The tests of the query of a request, from left to right; none without a query. -/
def Request.tests (r : Request) : List Test := (r.query?.map Clause.tests).getD []

namespace Block

variable {s : Settings} {b : Block} {bs : List Block}

/-- The tests of some queries are those of the conditions of the blocks, if this holds of each
block. -/
theorem testsAll_clauses_of
    (h : ∀ b ∈ bs, ((b.clause? s).map Clause.tests).getD [] = b.conditions.filterMap (·.test? s)) :
    Clause.testsAll (clauses s bs) = (conditionsAll bs).filterMap (·.test? s) := by
  induction bs with
  | nil => rfl
  | cons b bs ih =>
    have hb := h b List.mem_cons_self
    have hbs := ih fun c hc => h c (List.mem_cons_of_mem _ hc)
    rw [conditionsAll, List.filterMap_append, ← hb, ← hbs, clauses]
    cases b.clause? s <;> simp [Clause.testsAll]

/-- The tests of the query that a block is are those of its conditions. -/
theorem tests_clause? (s : Settings) (hb : b.keepsLimits = true) :
    ((b.clause? s).map Clause.tests).getD [] = b.conditions.filterMap (·.test? s) := by
  induction b using Block.induction with
  | condition c => cases h : c.test? s <;> simp [clause?, conditions, Clause.tests, h]
  | operator id kind bs ih =>
    rw [keepsLimits, Bool.and_eq_true, allKeepLimits_eq_all, List.all_eq_true] at hb
    obtain ⟨hfits, hbs⟩ := hb
    have hall := testsAll_clauses_of fun b hb => ih b hb (hbs b hb)
    cases kind with
    | and => simpa [clause?, Clause.tests, conditions] using hall
    | or => simpa [clause?, Clause.tests, conditions] using hall
    | not => simpa [clause?, Clause.tests, conditions] using hall
    | root =>
      rcases eq_nil_or_singleton_of_fits_root hfits with rfl | ⟨b, rfl⟩
      · rfl
      · have hb := ih b List.mem_cons_self (hbs b List.mem_cons_self)
        simpa [clause?, firstClause?, conditions, conditionsAll] using hb

/-- Without a root, only a condition without a test has no query. -/
theorem isSome_clause? (hroot : b.hasRoot = false) (h : ∀ c ∈ b.conditions, (c.test? s).isSome) :
    (b.clause? s).isSome = true := by
  cases b with
  | condition c => simpa [clause?] using h c (by simp [conditions])
  | operator id kind bs => cases kind <;> first | rfl | simp [hasRoot] at hroot

end Block

/-- Where every member of a list has a value, the values are those of the members in order. -/
theorem forall₂_filterMap {α β : Type} {f : α → Option β} {as : List α}
    (h : ∀ a ∈ as, (f a).isSome = true) :
    List.Forall₂ (fun a b => f a = some b) as (as.filterMap f) := by
  induction as with
  | nil => exact .nil
  | cons a as ih =>
    obtain ⟨b, hb⟩ := Option.isSome_iff_exists.mp (h a List.mem_cons_self)
    rw [List.filterMap_cons_some hb]
    exact .cons hb (ih fun c hc => h c (List.mem_cons_of_mem _ hc))

namespace Session

variable {s : Session} {loose : List Block}

/-- In a sound session the query tests every condition of the tree. -/
theorem Sound.forall₂_tests (h : s.Sound loose) (visible? : Option Shape) (ranking : Ranking)
    (page : Page) :
    List.Forall₂ (fun c t => c.test? s.settings = some t ∧ t.fields = c.targets s.settings)
      s.tree.conditions (Request.of s.settings s.tree.root visible? ranking page).tests := by
  have htests : (Request.of s.settings s.tree.root visible? ranking page).tests =
      s.tree.conditions.filterMap (·.test? s.settings) := by
    rw [h.tree.conditions_eq]
    exact Block.tests_clause? s.settings h.tree.keepsLimits
  rw [htests]
  exact (forall₂_filterMap fun c hc => Condition.isSome_test?_of_isComplete _ (h.complete c hc)).imp
    fun c t ht => ⟨ht, Condition.fields_of_test? ht⟩

/-- In a sound session there is no query only if there is nothing in the tree. -/
theorem Sound.isEmpty_of_query?_eq_none (h : s.Sound loose)
    (hquery : s.tree.root.toBlock.clause? s.settings = none) : s.tree.isEmpty = true := by
  have hroot := h.tree.rootless
  have hcomplete : ∀ c ∈ Block.conditionsAll s.tree.root.operands,
      (c.test? s.settings).isSome = true := fun c hc =>
    Condition.isSome_test?_of_isComplete _ (h.complete c (h.tree.conditions_eq ▸ hc))
  rw [Operator.toBlock, h.tree.kind_eq, Block.clause?] at hquery
  unfold Tree.isEmpty
  cases hops : s.tree.root.operands with
  | nil => rfl
  | cons b bs =>
    rw [hops] at hroot hcomplete hquery
    have hsome := Block.isSome_clause? (Bool.or_eq_false_iff.mp hroot).1 fun c hc =>
      hcomplete c (List.mem_append_left _ hc)
    rw [Block.firstClause?] at hquery
    rw [hquery] at hsome
    cases hsome

/-- A request of a session after any moves tests every condition of the tree, in order and at the
fields that the condition is about, and it has no query only if the tree is empty. For a value that
a comparator accepts there is a test, and for texts as numbers only then. -/
theorem Desk.request_covers {w : Desk} (hw : w.Reachable) {visible? : Option Shape}
    {ranking : Ranking} {page : Page} {r : Request}
    (hr : w.session.request? visible? ranking page = some r) :
    List.Forall₂ (fun c t => c.test? w.session.settings = some t ∧
        t.fields = c.targets w.session.settings) w.session.tree.conditions r.tests ∧
      (r.toJson.field? "query" = none → w.session.tree.isEmpty = true) ∧
      (∀ (s : Settings) (x : BlockId) (p : Property) (k : Comparator) (v? : Option Value),
        k.accepts v? = true → (Condition.test? s ⟨x, some p, some k, v?⟩).isSome = true) ∧
      ∀ (b : Bound) (text : String),
        (Comparator.number b).accepts (some (.text text)) = (searchedNumber? text).isSome := by
  have hsound := hw.sound
  obtain rfl : Request.of w.session.settings w.session.tree.root visible? ranking page = r := by
    unfold request? at hr
    split at hr
    · exact Option.some.inj hr
    · cases hr
  refine ⟨hsound.forall₂_tests visible? ranking page, fun hnone => ?_, fun s x p k v? h => ?_,
    Comparator.accepts_number⟩
  · refine hsound.isEmpty_of_query?_eq_none ?_
    cases hquery : w.session.tree.root.toBlock.clause? w.session.settings with
    | none => rfl
    | some q =>
      simp [Request.toJson, Request.of, hquery, Json.field?, Json.Entries.get?] at hnone
  · exact Condition.isSome_test?_of_isComplete s
      (Condition.isComplete_iff.mpr ⟨p, k, rfl, rfl, h⟩)

/-- Two conditions that an operator joins, one of them edited, are both tested. -/
theorem Desk.request_covers_joined_conditions : ∃ (w : Desk) (r : Request), w.Reachable ∧
    w.session.request? none ⟨none, .ascending⟩ ⟨1, 10⟩ = some r ∧
    r.tests = [.term "open" "false", .term w.session.settings.spaceField "s1"] ∧
    List.Forall₂ (fun c t => c.test? w.session.settings = some t ∧
      t.fields = c.targets w.session.settings) w.session.tree.conditions r.tests := by
  have hw : Reachable ((start .default [] ⟨1⟩
      [.condition (some (.mapped none "open" .boolean false)) (some .booleanIs)
          (some (.text "true")),
        .condition (some .space) (some .spaceIs) (some (.space ⟨"s1", "Space"⟩)),
        .join .and [⟨1⟩, ⟨2⟩]]).run
      [.add ⟨4⟩ ⟨3⟩, .startEdit ⟨1⟩, .updateEdit ⟨1⟩ (.text "false"), .finishEdit ⟨1⟩]) :=
    ⟨_, _, _, _, _, rfl⟩
  exact ⟨_, _, hw, rfl, rfl, (request_covers hw rfl).1⟩

end Session

end SearchComposer
