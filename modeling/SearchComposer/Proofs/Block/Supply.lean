import Mathlib.Data.List.Nodup
import SearchComposer.Block.Supply
import SearchComposer.Proofs.Block.Folds

/-!
# Ids are given out once

A supply covers a list of ids if it has given out all of them and the list has no duplicates: so the
ids of all blocks that exist at one time are covered. Edits only move ids and drop them, and new ids
come from the supply, so the ids stay covered. Which ids a list has matters here, not their order,
so lists are compared by how often each id occurs in them.
-/

namespace SearchComposer

namespace Supply

/-- The supply has given out all of these ids, and no id is in the list twice. -/
def Covers (s : Supply) (ids : List BlockId) : Prop :=
  ids.Nodup ∧ ∀ x ∈ ids, x.number < s.next

/-- The next `n` ids. -/
def batch (s : Supply) (n : Nat) : List BlockId :=
  (List.range' s.next n).map BlockId.mk

theorem mem_batch {s : Supply} {n : Nat} {x : BlockId} :
    x ∈ s.batch n ↔ s.next ≤ x.number ∧ x.number < s.next + n := by
  simp only [batch, List.mem_map, List.mem_range'_1]
  exact ⟨by rintro ⟨k, hk, rfl⟩; exact hk, fun h => ⟨x.number, h, rfl⟩⟩

theorem nodup_batch (s : Supply) (n : Nat) : (s.batch n).Nodup :=
  List.Nodup.map (fun _ _ h => BlockId.mk.inj h) List.nodup_range'

theorem batch_succ (s : Supply) (n : Nat) :
    s.batch (n + 1) = ⟨s.next⟩ :: batch ⟨s.next + 1⟩ n := rfl

theorem batch_add (s : Supply) (m n : Nat) :
    s.batch (m + n) = s.batch m ++ batch ⟨s.next + m⟩ n := by
  rw [batch, batch, batch, ← List.map_append, List.range'_append_1]

theorem covers_nil (s : Supply) : s.Covers [] := ⟨List.nodup_nil, by simp⟩

variable {s : Supply} {ids ids' : List BlockId}

/-- Ids that occur no more often than covered ones are covered. -/
theorem Covers.of_count_le (h : s.Covers ids) (hle : ∀ x, ids'.count x ≤ ids.count x) :
    s.Covers ids' := by
  refine ⟨List.nodup_iff_count_le_one.mpr fun x => ?_, fun x hx => h.2 x ?_⟩
  · exact Nat.le_trans (hle x) (List.nodup_iff_count_le_one.mp h.1 x)
  · exact List.count_pos_iff.mp (Nat.lt_of_lt_of_le (List.count_pos_iff.mpr hx) (hle x))

theorem Covers.left (h : s.Covers (ids ++ ids')) : s.Covers ids :=
  h.of_count_le fun x => by rw [List.count_append]; exact Nat.le_add_right ..

theorem Covers.right (h : s.Covers (ids ++ ids')) : s.Covers ids' :=
  h.of_count_le fun x => by rw [List.count_append]; exact Nat.le_add_left ..

/-- The next ids of the supply are covered together with those that it gave out already. -/
theorem Covers.batch (h : s.Covers ids) (n : Nat) :
    Covers ⟨s.next + n⟩ (s.batch n ++ ids) := by
  refine ⟨List.nodup_append.mpr ⟨nodup_batch s n, h.1, fun x hx y hy hxy => ?_⟩, fun x hx => ?_⟩
  · have hx := (mem_batch.mp hx).1
    have hy := h.2 y hy
    subst hxy
    omega
  · rcases List.mem_append.mp hx with hx | hx
    · exact (mem_batch.mp hx).2
    · exact Nat.lt_add_right n (h.2 x hx)

/-- The next id of the supply is covered together with those that it gave out already. -/
theorem Covers.take (h : s.Covers ids) : Covers ⟨s.next + 1⟩ (⟨s.next⟩ :: ids) := h.batch 1

/-- Ids that were given out stay covered when the supply goes on. -/
theorem Covers.mono (h : s.Covers ids) (n : Nat) : Covers ⟨s.next + n⟩ ids := (h.batch n).right

end Supply

/-! ## Taking ids -/

theorem Fresh.run_pure {α : Type} (a : α) (s : Supply) :
    StateT.run (pure a : Fresh α) s = (a, s) := rfl

theorem Fresh.run_bind {α β : Type} (x : Fresh α) (f : α → Fresh β) (s : Supply) :
    (x >>= f).run s = (f (x.run s).1).run (x.run s).2 := rfl

namespace Block

theorem run_copyAll_cons (b : Block) (bs : List Block) (s : Supply) :
    (copyAll (b :: bs)).run s =
      (((b.copy.run s).1 :: ((copyAll bs).run (b.copy.run s).2).1,
        ((copyAll bs).run (b.copy.run s).2).2)) := rfl

theorem run_copy_operator (id : BlockId) (kind : Connective) (operands : List Block)
    (s : Supply) :
    (copy (.operator id kind operands)).run s =
      (.operator ⟨s.next⟩ kind ((copyAll operands).run ⟨s.next + 1⟩).1,
        ((copyAll operands).run ⟨s.next + 1⟩).2) := rfl

/-- Copying some blocks takes as many ids as they have and gives them out in order, if this holds of
copying each of them. -/
theorem run_copyAll_of {bs : List Block}
    (h : ∀ b ∈ bs, ∀ s : Supply, (b.copy.run s).2 = ⟨s.next + b.ids.length⟩ ∧
      (b.copy.run s).1.ids = s.batch b.ids.length ∧
      (b.copy.run s).1.keepsLimits = b.keepsLimits) (s : Supply) :
    ((copyAll bs).run s).2 = ⟨s.next + (idsAll bs).length⟩ ∧
      idsAll ((copyAll bs).run s).1 = s.batch (idsAll bs).length ∧
      ((copyAll bs).run s).1.length = bs.length ∧
      allKeepLimits ((copyAll bs).run s).1 = allKeepLimits bs := by
  induction bs generalizing s with
  | nil => exact ⟨rfl, rfl, rfl, rfl⟩
  | cons b bs ih =>
    obtain ⟨hs, hids, hlim⟩ := h b List.mem_cons_self s
    obtain ⟨hs', hids', hlen, hlim'⟩ :=
      ih (fun c hc => h c (List.mem_cons_of_mem _ hc)) ⟨s.next + b.ids.length⟩
    rw [run_copyAll_cons, hs]
    refine ⟨?_, ?_, congrArg (· + 1) hlen, ?_⟩
    · rw [hs', idsAll, List.length_append, Nat.add_assoc]
    · rw [idsAll, idsAll, hids, hids', List.length_append, Supply.batch_add]
    · rw [allKeepLimits, allKeepLimits, hlim, hlim']

/-- A copy of a block takes as many ids as the block has and gives them out in order. It keeps the
limits if the block does. -/
theorem run_copy (b : Block) (s : Supply) :
    (b.copy.run s).2 = ⟨s.next + b.ids.length⟩ ∧ (b.copy.run s).1.ids = s.batch b.ids.length ∧
      (b.copy.run s).1.keepsLimits = b.keepsLimits := by
  induction b using Block.induction generalizing s with
  | condition c => exact ⟨rfl, rfl, rfl⟩
  | operator id kind operands ih =>
    obtain ⟨hs, hids, hlen, hlim⟩ := run_copyAll_of ih ⟨s.next + 1⟩
    rw [run_copy_operator]
    refine ⟨?_, ?_, ?_⟩
    · rw [hs, ids, List.length_cons]; exact congrArg Supply.mk (Nat.add_right_comm ..)
    · rw [ids, ids, hids, List.length_cons, Supply.batch_succ]
    · rw [keepsLimits, keepsLimits, hlen, hlim]

end Block

/-! ## Taking in operands -/

namespace Operator

/-- An operator takes in a block exactly if the block has no root and there is room for it. -/
theorem push_eq_ok {o o' : Operator} {b : Block} :
    o.push b = .ok o' ↔
      b.hasRoot = false ∧ o.hasRoom = true ∧ o' = { o with operands := o.operands ++ [b] } := by
  unfold push hasRoom Connective.fits
  cases hb : b.hasRoot with
  | true => simp
  | false =>
    cases hl : o.kind.limit? with
    | none => simp [eq_comm]
    | some limit =>
      by_cases h : limit ≤ o.operands.length
      · simp [h, Nat.not_le_of_lt (Nat.lt_succ_of_le h)]
      · simp [h, Nat.succ_le_of_lt (Nat.lt_of_not_le h), eq_comm]

/-- Blocks that were taken in one after the other are the last operands, and there was room for
them. -/
theorem foldlM_push_eq_ok {bs : List Block} {o o' : Operator} (h : bs.foldlM push o = .ok o')
    (ho : o.kind.fits o.operands.length = true) :
    o'.id = o.id ∧ o'.kind = o.kind ∧ o'.operands = o.operands ++ bs ∧
      o'.kind.fits o'.operands.length = true := by
  induction bs generalizing o with
  | nil => cases h; exact ⟨rfl, rfl, by simp, ho⟩
  | cons b bs ih =>
    rw [List.foldlM_cons] at h
    cases hb : o.push b with
    | error e => rw [hb] at h; cases h
    | ok o₁ =>
      rw [hb] at h
      obtain ⟨-, hroom, rfl⟩ := push_eq_ok.mp hb
      obtain ⟨hid, hkind, hops, hfits⟩ := ih h (by simpa [hasRoom] using hroom)
      exact ⟨hid, hkind, by simpa using hops, hfits⟩

end Operator

end SearchComposer
