import KaduoxSsh.Lib.Result

/-!
# Loops that may fail

A loop over a list that ends with the first failure. It succeeds when every step does, and
a failure is that of one step, which the steps before it have led to.
-/

namespace KaduoxSsh.Result

universe u v w

variable {α : Type u} {γ : Type v} {f : α → γ → Result α} {a b c : α} {l l' : List γ} {x : γ}
  {e : AnyError}

theorem bind_eq_error {β : Type u} {x : Result β} {g : β → Result α} :
    x >>= g = .error e ↔ x = .error e ∨ ∃ y, x = .ok y ∧ g y = .error e := by
  cases x with
  | error e' => simp
  | ok y => simp

theorem foldlM_append_eq_ok : (l ++ l').foldlM f a = .ok c ↔
    ∃ b, l.foldlM f a = .ok b ∧ l'.foldlM f b = .ok c := by
  rw [List.foldlM_append, bind_eq_ok]

theorem foldlM_concat_eq_ok : (l ++ [x]).foldlM f a = .ok c ↔
    ∃ b, l.foldlM f a = .ok b ∧ f b x = .ok c := by
  rw [foldlM_append_eq_ok]
  refine exists_congr fun b ↦ and_congr_right fun _ ↦ ?_
  rw [List.foldlM_cons]
  exact Iff.of_eq (congrArg (· = Except.ok c) (bind_pure (f b x)))

/-- What every step keeps holds at the end. -/
theorem foldlM_invariant {Inv : α → Prop} (hstart : Inv a)
    (hstep : ∀ a x b, Inv a → f a x = .ok b → Inv b) (h : l.foldlM f a = .ok c) : Inv c := by
  induction l generalizing a with
  | nil =>
      cases h
      exact hstart
  | cons x rest ih =>
      obtain ⟨b, hb, hrest⟩ := bind_eq_ok.mp h
      exact ih (hstep a x b hstart hb) hrest

/-- A loop over lists one behind the other is a loop of loops. -/
theorem foldlM_flatMap {δ : Type w} {g : δ → List γ} {l : List δ} :
    (l.flatMap g).foldlM f a = l.foldlM (fun a d ↦ (g d).foldlM f a) a := by
  induction l generalizing a with
  | nil => rfl
  | cons d rest ih =>
      rw [List.flatMap_cons, List.foldlM_append, List.foldlM_cons]
      exact congrArg (_ >>= ·) (funext fun b ↦ ih)

/-- A failure is that of one step, and the steps before it succeed. -/
theorem foldlM_eq_error : l.foldlM f a = .error e ↔ ∃ before x after b,
    l = before ++ x :: after ∧ before.foldlM f a = .ok b ∧ f b x = .error e := by
  induction l generalizing a with
  | nil =>
      refine iff_of_false nofun ?_
      rintro ⟨before, x, after, b, heq, -, -⟩
      exact absurd heq.symm (List.append_ne_nil_of_right_ne_nil _ (List.cons_ne_nil x after))
  | cons y rest ih =>
      rw [List.foldlM_cons]
      cases hy : f a y with
      | error e' =>
          constructor
          · intro h
            cases h
            exact ⟨[], y, rest, a, rfl, rfl, hy⟩
          · rintro ⟨before, x, after, b, heq, hbefore, hx⟩
            cases before with
            | nil =>
                cases heq
                cases hbefore
                rw [hy] at hx
                exact hx
            | cons z before =>
                cases heq
                rw [List.foldlM_cons, hy] at hbefore
                cases hbefore
      | ok d =>
          rw [bind_ok, ih]
          constructor
          · rintro ⟨before, x, after, b, rfl, hbefore, hx⟩
            exact ⟨y :: before, x, after, b, rfl, by rwa [List.foldlM_cons, hy, bind_ok], hx⟩
          · rintro ⟨before, x, after, b, heq, hbefore, hx⟩
            cases before with
            | nil =>
                cases heq
                cases hbefore
                rw [hy] at hx
                cases hx
            | cons z before =>
                cases heq
                rw [List.foldlM_cons, hy, bind_ok] at hbefore
                exact ⟨before, x, after, b, rfl, hbefore, hx⟩

end KaduoxSsh.Result
