import KaduoxSsh.Lib.Result

/-!
# Fallible computations with a state

A computation returns its outcome together with the state after it, also when it
fails. A sequence is taken apart by `run_bind`, and where only success matters by
`bind_eq_ok`.
-/

namespace KaduoxSsh.Stateful

variable {σ α β : Type}

theorem run_bind (x : ExceptT AnyError (StateM σ) α) (f : α → ExceptT AnyError (StateM σ) β)
    (s : σ) :
    (x >>= f).run s =
      match x.run s with
      | (.ok a, t) => (f a).run t
      | (.error e, t) => (.error e, t) := by
  show ExceptT.bindCont f (x s).1 (x s).2 = _
  rcases hx : x s with ⟨e | a, t⟩
  · simp only [ExceptT.run, hx]
    rfl
  · simp only [ExceptT.run, hx]
    rfl

/-- A sequence succeeds exactly when each of its stages does. -/
theorem bind_eq_ok {x : ExceptT AnyError (StateM σ) α} {f : α → ExceptT AnyError (StateM σ) β}
    {b : β} {s t : σ} :
    (x >>= f).run s = (.ok b, t) ↔
      ∃ a s₁, x.run s = (.ok a, s₁) ∧ (f a).run s₁ = (.ok b, t) := by
  rw [run_bind]
  rcases x.run s with ⟨e | a, s₁⟩
  · exact ⟨nofun, nofun⟩
  · constructor
    · intro h
      exact ⟨a, s₁, rfl, h⟩
    · rintro ⟨a, s₁, heq, h⟩
      cases heq
      exact h

theorem pure_eq_ok {a b : α} {s t : σ} :
    (pure a : ExceptT AnyError (StateM σ) α).run s = (.ok b, t) ↔ a = b ∧ s = t := by
  show ((.ok a, s) : Result α × σ) = (.ok b, t) ↔ _
  rw [Prod.mk.injEq, Except.ok.injEq]

/-- An outcome that does not look at the state. -/
theorem mk_pure_eq_ok {x : Result α} {b : α} {s t : σ} :
    (ExceptT.mk (pure x) : ExceptT AnyError (StateM σ) α).run s = (.ok b, t) ↔
      x = .ok b ∧ s = t := by
  show (x, s) = (.ok b, t) ↔ _
  rw [Prod.mk.injEq]

end KaduoxSsh.Stateful
