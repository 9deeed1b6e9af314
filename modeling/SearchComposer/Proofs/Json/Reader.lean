import SearchComposer.Json.Reader
import SearchComposer.Proofs.Json.Entries

/-!
# What is read has distinct keys

Whenever a value of an object has been read, it is put under its key, in the place of a value that
was there. So the keys of every object that is read are distinct. This is an invariant of the
machine that reads tokens, over the lists and objects that are open; the tokens themselves are no
objects.
-/

namespace SearchComposer.Json

/-- What holds at the start of a run and after each step holds at its end. -/
theorem of_foldlM {σ α : Type} {P : σ → Prop} {f : σ → α → Option σ} {as : List α} {s s' : σ}
    (hstep : ∀ a ∈ as, ∀ s s', P s → f s a = some s' → P s') (hs : P s)
    (h : as.foldlM f s = some s') : P s' := by
  induction as generalizing s with
  | nil =>
    obtain rfl : s = s' := Option.some.inj h
    exact hs
  | cons a as ih =>
    obtain ⟨next, hnext, hrest⟩ := Option.bind_eq_some_iff.mp h
    have hP : P next := hstep a List.mem_cons_self s next hs hnext
    exact ih (fun b hb => hstep b (List.mem_cons_of_mem _ hb)) hP hrest

/-! ## Tokens -/

namespace Token

/-- Whether the value that a token is has distinct keys. -/
def distinctKeys : Token → Bool
  | .atom j => j.distinctKeys
  | _ => true

variable {token : Token} {tokens : List Token} {c : Char} {word : List Char} {s s' : Scan}

theorem distinctKeys_of_punctuation? (h : punctuation? c = some token) :
    token.distinctKeys = true := by
  unfold punctuation? at h
  repeat' split at h
  all_goals first | cases h; rfl | cases h

theorem distinctKeys_of_ofWord? (h : ofWord? word = some token) : token.distinctKeys = true := by
  unfold ofWord? at h
  repeat' split at h
  all_goals try (cases h; rfl)
  obtain ⟨n, -, rfl⟩ := Option.map_eq_some_iff.mp h
  rfl

theorem distinctKeys_stepBetween? (h : ∀ t ∈ tokens, t.distinctKeys = true) (c : Char) :
    ∀ t ∈ (stepBetween? tokens c).tokens, t.distinctKeys = true := by
  unfold stepBetween?
  split
  · exact h
  · split
    · exact h
    · cases hc : punctuation? c with
      | none => exact h
      | some token => exact List.forall_mem_cons.mpr ⟨distinctKeys_of_punctuation? hc, h⟩

/-- Reading a character adds no tokens but punctuation, words and texts. -/
theorem distinctKeys_step? (h : ∀ t ∈ s.tokens, t.distinctKeys = true)
    (hstep : step? s c = some s') : ∀ t ∈ s'.tokens, t.distinctKeys = true := by
  obtain ⟨place, tokens⟩ := s
  cases place with
  | between =>
    obtain rfl := Option.some.inj hstep
    exact distinctKeys_stepBetween? h c
  | word seen =>
    unfold step? at hstep
    dsimp only at hstep
    split at hstep
    · obtain ⟨token, htoken, rfl⟩ := Option.map_eq_some_iff.mp hstep
      refine distinctKeys_stepBetween? (List.forall_mem_cons.mpr ⟨?_, h⟩) c
      exact distinctKeys_of_ofWord? htoken
    · obtain rfl := Option.some.inj hstep
      exact h
  | text seen =>
    unfold step? at hstep
    dsimp only at hstep
    repeat' split at hstep
    · obtain rfl := Option.some.inj hstep
      exact List.forall_mem_cons.mpr ⟨rfl, h⟩
    all_goals cases hstep
    all_goals exact h
  | escape seen =>
    unfold step? at hstep
    dsimp only at hstep
    split at hstep
    · obtain rfl := Option.some.inj hstep
      exact h
    · obtain ⟨d, -, rfl⟩ := Option.map_eq_some_iff.mp hstep
      exact h
  | hex seen high count value =>
    obtain ⟨digit, -, hstep⟩ := Option.bind_eq_some_iff.mp hstep
    split at hstep
    · obtain rfl := Option.some.inj hstep
      exact h
    · obtain ⟨place, -, hstep⟩ := Option.bind_eq_some_iff.mp hstep
      obtain rfl := Option.some.inj hstep
      exact h
  | afterHigh seen high =>
    unfold step? at hstep
    dsimp only at hstep
    split at hstep
    · obtain rfl := Option.some.inj hstep
      exact h
    · cases hstep
  | escapeAfterHigh seen high =>
    unfold step? at hstep
    dsimp only at hstep
    split at hstep
    · obtain rfl := Option.some.inj hstep
      exact h
    · cases hstep

/-- No token of a text is a value with two entries of one key. -/
theorem distinctKeys_of_scan? {text : String} (h : scan? text = some tokens) :
    ∀ t ∈ tokens, t.distinctKeys = true := by
  obtain ⟨s, hs, hfinish⟩ := Option.bind_eq_some_iff.mp h
  have hall : ∀ t ∈ s.tokens, t.distinctKeys = true :=
    of_foldlM (P := fun s => ∀ t ∈ s.tokens, t.distinctKeys = true)
      (fun c _ s s' hP hstep => distinctKeys_step? hP hstep) (by simp) hs
  unfold finish? at hfinish
  split at hfinish
  · cases hfinish
    exact fun t ht => hall t (List.mem_reverse.mp ht)
  · obtain ⟨token, htoken, rfl⟩ := Option.map_eq_some_iff.mp hfinish
    intro t ht
    rcases List.mem_cons.mp (List.mem_reverse.mp ht) with rfl | ht
    · exact distinctKeys_of_ofWord? htoken
    · exact hall t ht
  · cases hfinish

end Token

/-! ## Values -/

/-- Whether the keys of what was read of a list or an object are distinct. -/
def Frame.distinctKeys : Frame → Bool
  | .list items => distinctKeysIn items
  | .entry entries _ => (obj entries).distinctKeys

/-- Whether the keys of what was read last are distinct. -/
def Goal.distinctKeys : Goal → Bool
  | .key entries => (obj entries).distinctKeys
  | .colon entries _ => (obj entries).distinctKeys
  | .next j => j.distinctKeys
  | _ => true

namespace Reading

/-- What holds throughout: the keys of all that was read are distinct. -/
structure Distinct (r : Reading) : Prop where
  /-- They are in what was read last. -/
  goal : r.goal.distinctKeys = true
  /-- They are in all that is open. -/
  frames : ∀ f ∈ r.frames, f.distinctKeys = true

variable {r r' : Reading} {token : Token} {value : Json} {frames : List Frame}

theorem Distinct.value? (h : r.Distinct) (htoken : token.distinctKeys = true)
    (hstep : r.value? token = some r') : r'.Distinct := by
  cases token with
  | atom j =>
    cases hstep
    exact ⟨htoken, h.frames⟩
  | openList =>
    obtain ⟨-, hstep⟩ := Option.ite_none_right_eq_some.mp hstep
    obtain rfl := Option.some.inj hstep
    exact ⟨rfl, List.forall_mem_cons.mpr ⟨rfl, h.frames⟩⟩
  | openObject =>
    obtain ⟨-, hstep⟩ := Option.ite_none_right_eq_some.mp hstep
    obtain rfl := Option.some.inj hstep
    exact ⟨rfl, h.frames⟩
  | _ => cases hstep

/-- A value that was read goes into the list or the object that is open. -/
theorem distinct_next? (hvalue : value.distinctKeys = true)
    (hframes : ∀ f ∈ frames, f.distinctKeys = true) (hstep : next? value frames token = some r') :
    r'.Distinct := by
  cases frames with
  | nil => cases token <;> cases hstep
  | cons f outer =>
    obtain ⟨hf, houter⟩ := List.forall_mem_cons.mp hframes
    cases f with
    | list items =>
      have hitems : distinctKeysIn (value :: items) = true := by
        rw [distinctKeysIn, hvalue, Bool.true_and]
        exact hf
      cases token with
      | comma =>
        cases hstep
        exact ⟨rfl, List.forall_mem_cons.mpr ⟨hitems, houter⟩⟩
      | closeList =>
        cases hstep
        refine ⟨?_, houter⟩
        refine distinctKeysIn_iff.mpr ?_
        exact fun j hj => distinctKeysIn_iff.mp hitems j (List.mem_reverse.mp hj)
      | _ => cases hstep
    | entry entries key =>
      have hentries := distinctKeys_insert hf key hvalue
      cases token with
      | comma =>
        cases hstep
        exact ⟨hentries, houter⟩
      | closeObject =>
        cases hstep
        exact ⟨hentries, houter⟩
      | _ => cases hstep

theorem Distinct.step? (h : r.Distinct) (htoken : token.distinctKeys = true)
    (hstep : r.step? token = some r') : r'.Distinct := by
  obtain ⟨goal, frames⟩ := r
  cases goal with
  | value => exact h.value? htoken hstep
  | firstItem =>
    unfold Reading.step? at hstep
    dsimp only at hstep
    split at hstep
    · cases hstep
      exact ⟨rfl, (List.forall_mem_cons.mp h.frames).2⟩
    · exact h.value? htoken hstep
  | firstKey =>
    unfold Reading.step? at hstep
    dsimp only at hstep
    split at hstep
    · cases hstep
      exact ⟨rfl, h.frames⟩
    · cases hstep
      exact ⟨rfl, h.frames⟩
    · cases hstep
  | key entries =>
    unfold Reading.step? at hstep
    dsimp only at hstep
    split at hstep
    · cases hstep
      exact ⟨h.goal, h.frames⟩
    · cases hstep
  | colon entries key =>
    unfold Reading.step? at hstep
    dsimp only at hstep
    split at hstep
    · cases hstep
      exact ⟨rfl, List.forall_mem_cons.mpr ⟨h.goal, h.frames⟩⟩
    · cases hstep
  | next value => exact distinct_next? h.goal h.frames hstep

end Reading

/-- Every value that is read has distinct keys. -/
theorem distinctKeys_of_read? {text : String} {j : Json} (h : read? text = some j) :
    j.distinctKeys = true := by
  obtain ⟨tokens, htokens, h⟩ := Option.bind_eq_some_iff.mp h
  obtain ⟨r, hr, h⟩ := Option.bind_eq_some_iff.mp h
  have hdistinct : r.Distinct :=
    of_foldlM (P := Reading.Distinct)
      (fun token hmem r r' hP hstep =>
        hP.step? (Token.distinctKeys_of_scan? htokens token hmem) hstep)
      ⟨rfl, by simp⟩ hr
  split at h
  · obtain rfl := Option.some.inj h
    exact hdistinct.goal
  · cases h

end SearchComposer.Json
