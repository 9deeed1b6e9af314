/-!
# Steps that may be refused

An edit is a sequence of steps on a state, any of which may refuse to go on; what was done until
then remains. An edit is atomic if it leaves the state as it was whenever it is refused. This holds
of an edit whose first steps only look at the state and whose later steps are never refused.
-/

namespace SearchComposer

variable {ε σ α β : Type}

theorem except_bind_eq_ok {x : Except ε α} {f : α → Except ε β} {b : β} :
    (x >>= f) = .ok b ↔ ∃ a, x = .ok a ∧ f a = .ok b := by
  cases x <;> simp [bind, Except.bind]

theorem bind_eq_ok {x : EStateM ε σ α} {f : α → EStateM ε σ β} {s s'' : σ} {b : β} :
    (x >>= f) s = .ok b s'' ↔ ∃ a s', x s = .ok a s' ∧ f a s' = .ok b s'' := by
  simp only [bind, EStateM.bind]
  cases x s with
  | ok a s' => exact ⟨fun h => ⟨a, s', rfl, h⟩, by rintro ⟨_, _, h, hf⟩; cases h; exact hf⟩
  | error e s' => simp

theorem bind_eq_error {x : EStateM ε σ α} {f : α → EStateM ε σ β} {s s'' : σ} {e : ε} :
    (x >>= f) s = .error e s'' ↔
      x s = .error e s'' ∨ ∃ a s', x s = .ok a s' ∧ f a s' = .error e s'' := by
  simp only [bind, EStateM.bind]
  cases x s with
  | ok a s' =>
    refine ⟨fun h => .inr ⟨a, s', rfl, h⟩, ?_⟩
    rintro (h | ⟨_, _, h, hf⟩)
    · cases h
    · cases h; exact hf
  | error e s' => simp

theorem get_bind (f : σ → EStateM ε σ α) (s : σ) : (get >>= f) s = f s s := rfl

theorem bind_of_ok {x : EStateM ε σ α} {s s' : σ} {a : α} (h : x s = .ok a s')
    (f : α → EStateM ε σ β) : (x >>= f) s = f a s' := by
  simp only [bind, EStateM.bind, h]

theorem bind_of_error {x : EStateM ε σ α} {s s' : σ} {e : ε} (h : x s = .error e s')
    (f : α → EStateM ε σ β) : (x >>= f) s = .error e s' := by
  simp only [bind, EStateM.bind, h]

theorem discard_eq_ok {x : EStateM ε σ α} {s s' : σ} {u : PUnit} :
    discard x s = .ok u s' ↔ ∃ a, x s = .ok a s' := by
  show EStateM.map _ x s = _ ↔ _
  simp only [EStateM.map]
  cases x s <;> simp

theorem discard_eq_error {x : EStateM ε σ α} {s s' : σ} {e : ε} :
    discard x s = .error e s' ↔ x s = .error e s' := by
  show EStateM.map _ x s = _ ↔ _
  simp only [EStateM.map]
  cases x s <;> simp

@[simp] theorem pure_eq_ok {a b : α} {s s' : σ} :
    (pure a : EStateM ε σ α) s = .ok b s' ↔ a = b ∧ s = s' := by
  show EStateM.Result.ok a s = .ok b s' ↔ _
  rw [EStateM.Result.ok.injEq]

@[simp] theorem pure_ne_error {a : α} {e : ε} {s s' : σ} :
    (pure a : EStateM ε σ α) s ≠ .error e s' := by
  intro h
  cases h

@[simp] theorem throw_ne_ok {a : α} {e : ε} {s s' : σ} :
    (throw e : EStateM ε σ α) s ≠ .ok a s' := by
  intro h
  cases h

@[simp] theorem throw_eq_error {e e' : ε} {s s' : σ} :
    (throw e : EStateM ε σ α) s = .error e' s' ↔ e = e' ∧ s = s' := by
  show EStateM.Result.error e s = .error e' s' ↔ _
  rw [EStateM.Result.error.injEq]

@[simp] theorem modify_eq_ok {f : σ → σ} {u : PUnit} {s s' : σ} :
    (modify f : EStateM ε σ PUnit) s = .ok u s' ↔ f s = s' := by
  show EStateM.Result.ok ⟨⟩ (f s) = .ok u s' ↔ _
  rw [EStateM.Result.ok.injEq]
  exact and_iff_right rfl

/-- A step that only looks at the state. -/
def Looks (x : EStateM ε σ α) : Prop :=
  ∀ s, (∃ a, x s = .ok a s) ∨ ∃ e, x s = .error e s

/-- A step that is never refused. -/
def Succeeds (x : EStateM ε σ α) : Prop :=
  ∀ s, ∃ a s', x s = .ok a s'

/-- An edit that changes nothing if it is refused. -/
def Atomic (x : EStateM ε σ α) : Prop :=
  ∀ s e s', x s = .error e s' → s' = s

theorem Looks.atomic {x : EStateM ε σ α} (h : Looks x) : Atomic x := by
  intro s e s' he
  rcases h s with ⟨a, ha⟩ | ⟨e', he'⟩
  · rw [ha] at he; cases he
  · rw [he'] at he; cases he; rfl

theorem Succeeds.atomic {x : EStateM ε σ α} (h : Succeeds x) : Atomic x := by
  intro s e s' he
  obtain ⟨a, t, ha⟩ := h s
  rw [ha] at he
  cases he

theorem looks_pure (a : α) : Looks (pure a : EStateM ε σ α) := fun _ => .inl ⟨a, rfl⟩

theorem looks_throw (e : ε) : Looks (throw e : EStateM ε σ α) := fun _ => .inr ⟨e, rfl⟩

theorem succeeds_pure (a : α) : Succeeds (pure a : EStateM ε σ α) := fun s => ⟨a, s, rfl⟩

theorem succeeds_modify (f : σ → σ) : Succeeds (modify f : EStateM ε σ PUnit) :=
  fun s => ⟨_, f s, rfl⟩

theorem Succeeds.bind {x : EStateM ε σ α} {f : α → EStateM ε σ β} (hx : Succeeds x)
    (hf : ∀ a, Succeeds (f a)) : Succeeds (x >>= f) := by
  intro s
  obtain ⟨a, s', ha⟩ := hx s
  obtain ⟨b, s'', hb⟩ := hf a s'
  exact ⟨b, s'', bind_eq_ok.mpr ⟨a, s', ha, hb⟩⟩

/-- Looking first keeps an edit atomic. -/
theorem Looks.bind {x : EStateM ε σ α} {f : α → EStateM ε σ β} (hx : Looks x)
    (hf : ∀ a, Atomic (f a)) : Atomic (x >>= f) := by
  intro s e s'' he
  rcases bind_eq_error.mp he with hx' | ⟨a, s', ha, hfa⟩
  · exact hx.atomic s e s'' hx'
  · rcases hx s with ⟨a', ha'⟩ | ⟨e', he'⟩
    · rw [ha'] at ha; cases ha; exact hf _ _ e s'' hfa
    · rw [he'] at ha; cases ha

/-- Steps that are never refused keep an edit atomic. -/
theorem Atomic.bind {x : EStateM ε σ α} {f : α → EStateM ε σ β} (hx : Atomic x)
    (hf : ∀ a, Succeeds (f a)) : Atomic (x >>= f) := by
  intro s e s'' he
  rcases bind_eq_error.mp he with hx' | ⟨a, s', -, hfa⟩
  · exact hx s e s'' hx'
  · obtain ⟨b, t, hb⟩ := hf a s'
    rw [hb] at hfa
    cases hfa

end SearchComposer
