import Mathlib.Logic.Basic

/-! What a sequence of two steps comes to, where a step may fail and where it may change a state
besides. -/
namespace PipeCompiler

section Fallible

variable {ε ε' α β : Type} {x : Except ε α} {f : α → Except ε β}

theorem bind_eq_ok {b : β} : x >>= f = .ok b ↔ ∃ a, x = .ok a ∧ f a = .ok b := by
  cases x with
  | error e => simp [bind, Except.bind]
  | ok a => simp [bind, Except.bind]

theorem bind_eq_error {e : ε} :
    x >>= f = .error e ↔ x = .error e ∨ ∃ a, x = .ok a ∧ f a = .error e := by
  cases x with
  | error e' => simp [bind, Except.bind]
  | ok a => simp [bind, Except.bind]

theorem mapError_eq_ok {g : ε → ε'} {a : α} : x.mapError g = .ok a ↔ x = .ok a := by
  cases x with
  | error e => exact ⟨nofun, nofun⟩
  | ok b =>
    constructor
    · rintro ⟨⟩
      rfl
    · rintro ⟨⟩
      rfl

theorem mapError_eq_error {g : ε → ε'} {e' : ε'} :
    x.mapError g = .error e' ↔ ∃ e, x = .error e ∧ g e = e' := by
  cases x with
  | error e =>
    constructor
    · intro h
      cases h
      exact ⟨e, rfl, rfl⟩
    · rintro ⟨_, ⟨⟩, rfl⟩
      rfl
  | ok a => exact ⟨nofun, nofun⟩

theorem eq_ok_of_isSome (h : x.toOption.isSome = true) : ∃ a, x = .ok a := by
  cases x with
  | error e => cases h
  | ok a => exact ⟨a, rfl⟩

end Fallible

section Stateful

variable {ε σ α β : Type} {m : EStateM ε σ α} {f : α → EStateM ε σ β} {s s' s'' : σ}

theorem run_bind_of_ok {a : α} (h : m s = .ok a s') : (m >>= f) s = f a s' := by
  change EStateM.bind m f s = _
  rw [EStateM.bind, h]

theorem run_bind_of_error {e : ε} (h : m s = .error e s') : (m >>= f) s = .error e s' := by
  change EStateM.bind m f s = _
  rw [EStateM.bind, h]

theorem run_bind_eq_ok {b : β} :
    (m >>= f) s = .ok b s'' ↔ ∃ a s', m s = .ok a s' ∧ f a s' = .ok b s'' := by
  constructor
  · intro h
    cases hm : m s with
    | ok a s' => exact ⟨a, s', rfl, (run_bind_of_ok hm).symm.trans h⟩
    | error e s' => cases (run_bind_of_error hm).symm.trans h
  · rintro ⟨a, s', hm, hf⟩
    exact (run_bind_of_ok hm).trans hf

theorem run_bind_eq_error {e : ε} :
    (m >>= f) s = .error e s'' ↔
      m s = .error e s'' ∨ ∃ a s', m s = .ok a s' ∧ f a s' = .error e s'' := by
  constructor
  · intro h
    cases hm : m s with
    | ok a s' => exact .inr ⟨a, s', rfl, (run_bind_of_ok hm).symm.trans h⟩
    | error e' s' =>
      cases (run_bind_of_error (f := f) hm).symm.trans h
      exact .inl rfl
  · rintro (hm | ⟨a, s', hm, hf⟩)
    · exact run_bind_of_error hm
    · exact (run_bind_of_ok hm).trans hf

end Stateful
end PipeCompiler
