import Mathlib.Logic.Function.Basic

/-!
# Computations that keep their answers

A fallible computation that is given a table of answers, looks some up and keeps some
more. `Computes` relates it to the computation that has no table: both fail together,
or both give one value, and the table that is left has right answers only. It is kept
by sequences, so that a recursion with a table follows the one without.
-/

namespace KaduoxSsh.Memoised

universe u

variable {κ ν ε : Type} {α β : Type u}

/-- The answers that are kept. -/
abbrev Table (κ ν : Type) : Type := κ → Option ν

def Table.insert [DecidableEq κ] (table : Table κ ν) (key : κ) (value : ν) : Table κ ν :=
  Function.update table key (some value)

/-- Every answer that is kept is right. -/
def Table.Right (right : κ → ν → Prop) (table : Table κ ν) : Prop :=
  ∀ key value, table key = some value → right key value

/-- Every answer that is kept is the one of a computation. -/
abbrev Table.Sound (answer : κ → Except ε ν) : Table κ ν → Prop :=
  Table.Right fun key value ↦ answer key = .ok value

/-- What a computation with a table gives, and that it keeps right answers. -/
structure Computes (answer : κ → Except ε ν) (expected : Except ε α)
    (found : Except ε (α × Table κ ν)) : Prop where
  result : found.map Prod.fst = expected
  sound : ∀ value table, found = .ok (value, table) → table.Sound answer

section

variable {answer : κ → Except ε ν} {right : κ → ν → Prop} {table : Table κ ν} {key : κ} {value : ν}

theorem Table.right_empty : Table.Right right fun _ ↦ none := nofun

theorem Table.Right.insert [DecidableEq κ] (h : table.Right right) (hvalue : right key value) :
    (table.insert key value).Right right := by
  intro other kept hget
  by_cases hother : other = key
  · rw [hother, Table.insert, Function.update_self, Option.some.injEq] at hget
    rwa [hother, ← hget]
  · rw [Table.insert, Function.update_of_ne hother] at hget
    exact h other kept hget

namespace Computes

/-- An answer that is looked up is as good as one that is found anew. -/
theorem lookup (hsound : table.Sound answer) (hget : table key = some value) :
    Computes answer (answer key) (.ok (value, table)) where
  result := (hsound key value hget).symm
  sound := by
    rintro _ _ ⟨⟩
    exact hsound

theorem pure {a : α} (hsound : table.Sound answer) : Computes answer (.ok a) (.ok (a, table)) where
  result := rfl
  sound := by
    rintro _ _ ⟨⟩
    exact hsound

theorem error {e : ε} : Computes answer (.error e : Except ε α) (.error e) where
  result := rfl
  sound := nofun

theorem bind {expected : Except ε α} {found : Except ε (α × Table κ ν)} {f : α → Except ε β}
    {g : α × Table κ ν → Except ε (β × Table κ ν)} (h : Computes answer expected found)
    (hnext : ∀ a table, expected = .ok a → table.Sound answer →
      Computes answer (f a) (g (a, table))) :
    Computes answer (expected >>= f) (found >>= g) := by
  obtain ⟨rfl, hsound⟩ := h
  cases found with
  | error e => exact error
  | ok pair => exact hnext pair.1 pair.2 rfl (hsound _ _ rfl)

/-- The answer to a question can be kept once it is found. -/
theorem keep [DecidableEq κ] {found : Except ε (ν × Table κ ν)}
    (h : Computes answer (answer key) found) :
    Computes answer (answer key) (found >>= fun (value, table) ↦
      .ok (value, table.insert key value)) := by
  have hkeep := h.bind (f := .ok) (g := fun (value, table) ↦ .ok (value, table.insert key value))
    fun value table hvalue hsound ↦ pure (hsound.insert hvalue)
  rwa [show (answer key >>= Except.ok) = answer key from bind_pure _] at hkeep

end Computes

end

end KaduoxSsh.Memoised
