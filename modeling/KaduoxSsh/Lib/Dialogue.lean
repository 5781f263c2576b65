import Mathlib.Data.List.Basic

/-!
# Computations that send messages

A `Dialogue` is a computation whose only effect is to send a message and to go on
with the reply. It runs against any party that keeps a state and replies to each
message (`run`). Against a party whose replies depend on the message alone, all
there is to know is the result and the messages (`transcript`).

`run_or_transcript` compares the two: a party that replies like that, unless
something goes wrong for good, is told what the transcript says, unless that has
gone wrong.
-/

namespace KaduoxSsh

universe u

/-- A computation that sends messages `φ` and is told a reply `ρ` to each. -/
inductive Dialogue (φ ρ : Type) (α : Type u) where
  | done (a : α)
  | send (message : φ) (next : ρ → Dialogue φ ρ α)

namespace Dialogue

variable {φ ρ σ ω : Type} {α β : Type u}

def bind : Dialogue φ ρ α → (α → Dialogue φ ρ β) → Dialogue φ ρ β
  | .done a, f => f a
  | .send message next, f => .send message fun reply ↦ (next reply).bind f

instance : Monad (Dialogue φ ρ) where
  pure := .done
  bind := bind

/-- Send a message and return the reply. -/
def tell (message : φ) : Dialogue φ ρ ρ := .send message .done

/-- The computation against a party with a state. -/
def run (respond : φ → σ → ρ × σ) : Dialogue φ ρ α → σ → α × σ
  | .done a, s => (a, s)
  | .send message next, s => (next (respond message s).1).run respond (respond message s).2

/-- The result and the messages, when the reply depends on the message alone. -/
def transcript (reply : φ → ρ) : Dialogue φ ρ α → α × List φ
  | .done a => (a, [])
  | .send message next =>
      let (a, messages) := (next (reply message)).transcript reply
      (a, message :: messages)

section

variable {reply : φ → ρ}

@[simp] theorem transcript_pure (a : α) :
    (pure a : Dialogue φ ρ α).transcript reply = (a, []) := rfl

@[simp] theorem transcript_tell (message : φ) :
    (tell message).transcript reply = (reply message, [message]) := rfl

/-- The messages of a sequence are those of its stages, one after the other. -/
theorem transcript_bind (x : Dialogue φ ρ α) (f : α → Dialogue φ ρ β) :
    (x >>= f).transcript reply =
      (((f (x.transcript reply).1).transcript reply).1,
        (x.transcript reply).2 ++ ((f (x.transcript reply).1).transcript reply).2) := by
  show (x.bind f).transcript reply = _
  induction x with
  | done a => rfl
  | send message next ih =>
      rw [bind, transcript, ih]
      rfl

end

section

variable {respond : φ → σ → ρ × σ}

/-- What every message preserves, the whole computation preserves. -/
theorem run_invariant {Inv : σ → Prop} (hstep : ∀ message s, Inv s → Inv (respond message s).2)
    (x : Dialogue φ ρ α) {s : σ} (h : Inv s) : Inv (x.run respond s).2 := by
  induction x generalizing s with
  | done a => exact h
  | send message next ih => exact ih _ (hstep message s h)

/-- A party that replies by the message alone, and remembers what it heard, unless something has
gone wrong for good. -/
theorem run_or_transcript {Wrong : σ → Prop} {memory : σ → List ω} {reply : φ → ρ}
    {heard : φ → List ω} (hwrong : ∀ message s, Wrong s → Wrong (respond message s).2)
    (hstep : ∀ message s, Wrong (respond message s).2 ∨
      (respond message s).1 = reply message ∧
        memory (respond message s).2 = memory s ++ heard message)
    (x : Dialogue φ ρ α) (s : σ) :
    Wrong (x.run respond s).2 ∨ (x.run respond s).1 = (x.transcript reply).1 ∧
      memory (x.run respond s).2 = memory s ++ (x.transcript reply).2.flatMap heard := by
  induction x generalizing s with
  | done a =>
      right
      exact ⟨rfl, (List.append_nil _).symm⟩
  | send message next ih =>
      rw [run, transcript]
      rcases hstep message s with hgone | ⟨hreply, hmemory⟩
      · left
        exact run_invariant hwrong _ hgone
      · rw [hreply]
        rcases ih (reply message) (respond message s).2 with hgone | ⟨hresult, hrest⟩
        · left
          exact hgone
        · right
          refine ⟨hresult, ?_⟩
          rw [hrest, hmemory, List.flatMap_cons, List.append_assoc]

end

end Dialogue

end KaduoxSsh
