import SearchComposer.Proofs.Block.Alike
import SearchComposer.Proofs.Session.Desk
import SearchComposer.Proofs.Tree.Bench

/-!
# Copies

A copy of a block is the block under the next ids of the supply, as many as it has blocks. They are
given out in the order in which the ids of a block are listed, and that order is the one of the
addresses: an operator comes before its operands, and they come from left to right with all that is
below them. What was there before the copy has ids that were given out before, so the copy shares no
id with any tree, with the blocks beside it or with the drafts of a session.
-/

namespace SearchComposer

open Block (idsAll)

namespace Supply

theorem pairwise_lt_batch (s : Supply) (n : Nat) :
    (s.batch n).Pairwise fun x y => x.number < y.number :=
  List.pairwise_map.mpr List.pairwise_lt_range'

end Supply

namespace Block

variable {b c d e : Block} {address address' : List Nat}

/-! ## The order of ids -/

theorem exists_operand_of_at?_cons {i : Nat} (h : b.at? (i :: address) = some d) :
    ∃ id kind operands c, b = .operator id kind operands ∧ operands[i]? = some c ∧
      c.at? address = some d := by
  cases b with
  | condition c => cases h
  | operator id kind operands =>
    obtain ⟨c, hc, hd⟩ := Option.bind_eq_some_iff.mp h
    exact ⟨id, kind, operands, c, rfl, hc, hd⟩

theorem id_mem_ids_of_at? (h : b.at? address = some d) : d.id ∈ b.ids := by
  induction address generalizing b with
  | nil =>
    obtain rfl : b = d := Option.some.inj h
    exact id_mem_ids b
  | cons i address ih =>
    obtain ⟨id, kind, operands, c, rfl, hc, hd⟩ := exists_operand_of_at?_cons h
    have hmem : d.id ∈ idsAll operands := mem_idsAll.mpr ⟨c, List.mem_of_getElem? hc, ih hd⟩
    exact List.mem_cons_of_mem id hmem

/-- A relation that holds from each id of an operator to all later ones does so in each operand and
from one operand to the next. -/
theorem pairwise_operands {R : BlockId → BlockId → Prop} {id : BlockId} {kind : Connective}
    {operands : List Block} (hR : (ids (.operator id kind operands)).Pairwise R) :
    (∀ c ∈ operands, c.ids.Pairwise R) ∧
      operands.Pairwise fun c d => ∀ x ∈ c.ids, ∀ y ∈ d.ids, R x y := by
  have hoperands : (idsAll operands).Pairwise R := (List.pairwise_cons.mp hR).2
  rw [idsAll_eq_flatMap] at hoperands
  exact List.pairwise_flatMap.mp hoperands

/-- The ids of a block are listed in the order of its addresses: what holds from each id to all
later ones holds along that order. -/
theorem rel_of_pairwise_ids {R : BlockId → BlockId → Prop} (hR : b.ids.Pairwise R)
    (hd : b.at? address = some d) (he : b.at? address' = some e)
    (hlt : List.Lex (· < ·) address address') : R d.id e.id := by
  induction hlt generalizing b with
  | nil =>
    -- the operator itself comes first
    obtain rfl : b = d := Option.some.inj hd
    obtain ⟨id, kind, operands, c, rfl, hc, he⟩ := exists_operand_of_at?_cons he
    have hmem : e.id ∈ idsAll operands :=
      mem_idsAll.mpr ⟨c, List.mem_of_getElem? hc, id_mem_ids_of_at? he⟩
    exact (List.pairwise_cons.mp hR).1 e.id hmem
  | rel hij =>
    obtain ⟨id, kind, operands, c, rfl, hc, hd⟩ := exists_operand_of_at?_cons hd
    obtain ⟨c', hc', he⟩ := Option.bind_eq_some_iff.mp he
    obtain ⟨hi, hic⟩ := List.getElem?_eq_some_iff.mp hc
    obtain ⟨hj, hjc⟩ := List.getElem?_eq_some_iff.mp hc'
    have hacross := List.pairwise_iff_getElem.mp (pairwise_operands hR).2 _ _ hi hj hij
    rw [hic, hjc] at hacross
    exact hacross d.id (id_mem_ids_of_at? hd) e.id (id_mem_ids_of_at? he)
  | cons _ ih =>
    obtain ⟨id, kind, operands, c, rfl, hc, hd⟩ := exists_operand_of_at?_cons hd
    obtain ⟨c', hc', he⟩ := Option.bind_eq_some_iff.mp he
    obtain rfl : c = c' := Option.some.inj (hc.symm.trans hc')
    have hwithin : c.ids.Pairwise R := (pairwise_operands hR).1 c (List.mem_of_getElem? hc)
    exact ih hwithin hd he

/-! ## One copy -/

mutual

theorem anonymous_copy :
    ∀ (b : Block) (s : Supply), (b.copy.run s).1.anonymous = b.anonymous
  | condition _, _ => rfl
  | operator _ _ operands, s => by
    rw [run_copy_operator, anonymous, anonymous, anonymousAll_copyAll operands]

theorem anonymousAll_copyAll :
    ∀ (bs : List Block) (s : Supply), anonymousAll ((copyAll bs).run s).1 = anonymousAll bs
  | [], _ => rfl
  | b :: bs, s => by
    rw [run_copyAll_cons, anonymousAll, anonymousAll, anonymous_copy b, anonymousAll_copyAll bs]

end

/-- What holds of a copy `c` of a block `b` that was made with the supply `s` and left `s'`. -/
structure Copies (b c : Block) (s s' : Supply) : Prop where
  /-- The copy is the block but for the ids. -/
  alike : c.alike b = true
  /-- The copy has the next ids, as many as the block has. -/
  ids : c.ids = s.batch b.ids.length
  /-- No others were given out. -/
  supply : s' = ⟨s.next + b.ids.length⟩
  /-- No id is in the copy twice. -/
  nodup : c.ids.Nodup
  /-- No id of the copy was given out before. -/
  unused : ∀ x : BlockId, x.number < s.next → x ∉ c.ids
  /-- Ids were given out to operators before their operands, and to these from left to right. -/
  ordered : ∀ address address' d e, c.at? address = some d → c.at? address' = some e →
    List.Lex (· < ·) address address' → d.id.number < e.id.number
  /-- The copy keeps the limits if the block does. -/
  keepsLimits : c.keepsLimits = b.keepsLimits
  /-- The copy has a root in it if the block has. -/
  hasRoot : c.hasRoot = b.hasRoot

theorem copies_run_copy (b : Block) (s : Supply) :
    Copies b (b.copy.run s).1 s (b.copy.run s).2 := by
  obtain ⟨hsupply, hids, hlimits⟩ := run_copy b s
  have hanonymous := anonymous_copy b s
  refine ⟨alike_iff.mpr hanonymous, hids, hsupply, ?_, ?_, ?_, hlimits, ?_⟩
  · rw [hids]
    exact Supply.nodup_batch s b.ids.length
  · intro x hx hmem
    rw [hids, Supply.mem_batch] at hmem
    exact Nat.not_lt.mpr hmem.1 hx
  · intro address address' d e hd he hlt
    have hincreasing := Supply.pairwise_lt_batch s b.ids.length
    rw [← hids] at hincreasing
    exact rel_of_pairwise_ids hincreasing hd he hlt
  · rw [← hasRoot_anonymous, hanonymous, hasRoot_anonymous]

end Block

/-! ## Beside trees and sessions -/

/-- The ids of a sound tree and of the blocks beside it were given out before. -/
theorem Tree.Sound.number_lt {t : Tree} {loose : List Block} (h : t.Sound loose) {x : BlockId}
    (hx : x ∈ t.root.toBlock.ids ++ idsAll loose) : x.number < t.supply.next :=
  h.accounted.covers.2 x hx

namespace Session

/-- Drafts belong to conditions of the tree, so their ids were given out before as well. -/
theorem Sound.number_lt_of_get? {s : Session} {loose : List Block} (h : s.Sound loose)
    {x : BlockId} {d : Draft} (hd : s.drafts.get? x = some d) : x.number < s.tree.supply.next := by
  obtain ⟨c, hc, rfl, -⟩ := h.edited x d hd
  rw [h.tree.conditions_eq] at hc
  exact h.tree.number_lt (List.mem_append_left _ (Block.id_mem_ids_of_mem_conditions hc))

namespace Desk

/-- A copy of any block is the block under the next ids, given out in order. None of these is the id
of a block in a tree or beside it, or of a draft, whatever moves were made with the ids that were
given out before. -/
theorem copies_are_alike_and_new (b : Block) (s : Supply) :
    Block.Copies b (b.copy.run s).1 s (b.copy.run s).2 ∧
      (∀ w : Tree.Bench, w.Reachable → w.tree.supply.next ≤ s.next →
        ∀ x ∈ (b.copy.run s).1.ids, x ∉ w.tree.root.toBlock.ids ++ idsAll w.loose) ∧
      ∀ w : Desk, w.Reachable → w.session.tree.supply.next ≤ s.next →
        ∀ x ∈ (b.copy.run s).1.ids,
          x ∉ w.session.tree.root.toBlock.ids ++ idsAll w.loose ∧
            w.session.drafts.get? x = none := by
  have hcopies := Block.copies_run_copy b s
  refine ⟨hcopies, ?_, ?_⟩
  · intro w hw hle x hx hmem
    have h : w.tree.Sound w.loose := hw.sound
    exact hcopies.unused x (Nat.lt_of_lt_of_le (h.number_lt hmem) hle) hx
  · intro w hw hle x hx
    have h : w.session.Sound w.loose := hw.sound
    refine ⟨fun hmem => ?_, Option.eq_none_iff_forall_not_mem.mpr fun d hd => ?_⟩
    · exact hcopies.unused x (Nat.lt_of_lt_of_le (h.tree.number_lt hmem) hle) hx
    · exact hcopies.unused x (Nat.lt_of_lt_of_le (h.number_lt_of_get? hd) hle) hx

/-- The negation of a condition that is edited is copied. The negation gets the next id and its
condition the one after that, and the draft is not a draft of the copy. -/
theorem copies_are_alike_and_new_beside_draft :
    ∃ (w : Desk) (b c : Block) (s' : Supply), w.Reachable ∧ b ∈ w.session.tree.root.operands ∧
      b.copy.run w.session.tree.supply = (c, s') ∧ c.alike b = true ∧ c.ids = [⟨4⟩, ⟨5⟩] ∧
      s'.next = 6 ∧ (c.at? [0]).map Block.id = some ⟨5⟩ ∧
      w.session.drafts.entries.map (·.1) = [⟨1⟩] ∧ w.session.drafts.get? ⟨5⟩ = none := by
  let condition : Block := .condition
    ⟨⟨1⟩, some (.mapped none "open" .boolean false), some .booleanIs, some (.text "true")⟩
  let negation : Block := .operator ⟨2⟩ .not [condition]
  let tree : Tree := ⟨⟨⟨3⟩, .root, [negation]⟩, ⟨4⟩⟩
  let drafts : Drafts := ⟨[(⟨1⟩, ⟨true, some (.text "true")⟩)]⟩
  have hw : Reachable ⟨⟨.default, ⟨[], Settings.default.zone⟩, tree, drafts⟩, []⟩ :=
    ⟨.default, [], ⟨1⟩,
      [.condition (some (.mapped none "open" .boolean false)) (some .booleanIs)
        (some (.text "true")), .join .not [⟨1⟩]],
      [.add ⟨3⟩ ⟨2⟩, .startEdit ⟨1⟩], rfl⟩
  obtain ⟨hcopies, -, hnew⟩ := copies_are_alike_and_new negation tree.supply
  obtain ⟨-, hdraft⟩ := hnew _ hw (Nat.le_refl 4) ⟨5⟩ (by decide)
  exact ⟨_, negation, _, _, hw, List.mem_cons_self, rfl, hcopies.alike, rfl, rfl, rfl, rfl, hdraft⟩

end Desk

end Session

end SearchComposer
