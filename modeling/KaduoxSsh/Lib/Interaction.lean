import KaduoxSsh.Lib.Result
import Mathlib.Data.List.Induction

/-!
# Computations that ask questions

An `Interaction` asks its environment one question after the other and goes on with what it is
replied. Nothing is known of the replies but their type, which depends on the question. `Runs` are
the runs of such a computation, also those that have been left off somewhere.

A `Monitor` is a protocol for runs: it has a state, tells which questions may be asked in it, and
goes on with each question and its reply. `Keeps` is the weakest precondition of a computation
under a monitor, and `Meets` its form for computations that may fail, with one rule for each way
to put them together. What they say holds of every run (`Keeps.obeys`, `Keeps.result`).
-/

namespace KaduoxSsh

universe u

/-- A computation that asks questions `q` and is given replies of the type `A q`. -/
inductive Interaction (Q : Type) (A : Q → Type) (α : Type u) where
  | done (a : α)
  | ask (q : Q) (next : A q → Interaction Q A α)

namespace Interaction

variable {Q : Type} {A : Q → Type} {α β : Type u} {σ : Type}

def bind : Interaction Q A α → (α → Interaction Q A β) → Interaction Q A β
  | .done a, f => f a
  | .ask q next, f => .ask q fun reply ↦ (next reply).bind f

instance : Monad (Interaction Q A) where
  pure := .done
  bind := bind

/-- A question and the reply to it. -/
structure Event (A : Q → Type) where
  question : Q
  reply : A question

/-- What is left of a computation after some events. -/
inductive Runs : Interaction Q A α → List (Event A) → Interaction Q A α → Prop
  | start (x : Interaction Q A α) : Runs x [] x
  | next {q : Q} {next : A q → Interaction Q A α} {reply : A q} {events : List (Event A)}
      {rest : Interaction Q A α} :
      Runs (next reply) events rest → Runs (.ask q next) (⟨q, reply⟩ :: events) rest

/-! ## Monitors -/

/-- A protocol: which questions may be asked, and what is known after a reply. -/
structure Monitor (A : Q → Type) (σ : Type) where
  allows : σ → Q → Prop
  next : σ → Event A → σ

namespace Monitor

variable (m : Monitor A σ)

/-- What is known after some events. -/
def after (s : σ) (events : List (Event A)) : σ := events.foldl m.next s

/-- Each question may be asked when it is. -/
def Obeys (s : σ) : List (Event A) → Prop
  | [] => True
  | e :: events => m.allows s e.question ∧ Obeys (m.next s e) events

variable {m} {s : σ}

theorem after_append (events events' : List (Event A)) :
    m.after s (events ++ events') = m.after (m.after s events) events' := List.foldl_append

theorem Obeys.allows {before after : List (Event A)} {e : Event A}
    (h : m.Obeys s (before ++ e :: after)) : m.allows (m.after s before) e.question := by
  induction before generalizing s with
  | nil => exact h.1
  | cons e' before ih => exact ih h.2

/-- What each allowed question keeps holds at the end. -/
theorem Obeys.invariant {Inv : σ → Prop} {events : List (Event A)} (h : m.Obeys s events)
    (hs : Inv s) (hstep : ∀ t e, Inv t → m.allows t e.question → Inv (m.next t e)) :
    Inv (m.after s events) := by
  induction events generalizing s with
  | nil => exact hs
  | cons e events ih => exact ih h.2 (hstep s e hs h.1)

theorem obeys_append {events events' : List (Event A)} :
    m.Obeys s (events ++ events') ↔ m.Obeys s events ∧ m.Obeys (m.after s events) events' := by
  induction events generalizing s with
  | nil => exact (and_iff_right trivial).symm
  | cons e events ih => exact (and_congr_right' ih).trans (and_assoc (a := m.allows s _)).symm

/-- What each allowed question keeps of the state and of what has led to it. -/
theorem Obeys.trace {Inv : List (Event A) → σ → Prop} {events : List (Event A)}
    (h : m.Obeys s events) (hs : Inv [] s) (hstep : ∀ before t e, Inv before t →
      m.allows t e.question → Inv (before ++ [e]) (m.next t e)) :
    Inv events (m.after s events) := by
  induction events using List.reverseRecOn with
  | nil => exact hs
  | append_singleton events e ih =>
      obtain ⟨hevents, hlast⟩ := obeys_append.mp h
      rw [after_append]
      exact hstep events _ e (ih hevents) hlast.1

/-- The monitor that remembers all that has been asked and replied. -/
def ofHistory (allows : List (Event A) → Q → Prop) : Monitor A (List (Event A)) where
  allows := allows
  next history e := history ++ [e]

theorem after_ofHistory {allows : List (Event A) → Q → Prop} (history events : List (Event A)) :
    (ofHistory allows).after history events = history ++ events := by
  induction events generalizing history with
  | nil => exact (List.append_nil history).symm
  | cons e events ih => exact (ih _).trans (List.append_assoc history [e] events)

theorem Obeys.ofHistory {allows : List (Event A) → Q → Prop} {events : List (Event A)}
    (h : (ofHistory allows).Obeys [] events) {before after : List (Event A)} {e : Event A}
    (heq : events = before ++ e :: after) : allows before e.question := by
  subst heq
  have hallows := h.allows
  rwa [after_ofHistory] at hallows

end Monitor

/-- A computation asks only what a monitor allows, and ends with a value and a state such as
`post` says. -/
def Keeps (m : Monitor A σ) : Interaction Q A α → σ → (α → σ → Prop) → Prop
  | .done a, s, post => post a s
  | .ask q next, s, post =>
      m.allows s q ∧ ∀ reply, (next reply).Keeps m (m.next s ⟨q, reply⟩) post

section

variable {m : Monitor A σ} {x y : Interaction Q A α} {s : σ} {post post' : α → σ → Prop}
  {events : List (Event A)}

theorem keeps_bind {f : α → Interaction Q A β} {post : β → σ → Prop} :
    (x >>= f).Keeps m s post ↔ x.Keeps m s fun a t ↦ (f a).Keeps m t post := by
  induction x generalizing s with
  | done a => rfl
  | ask q next ih => exact and_congr_right' (forall_congr' fun reply ↦ ih reply)

theorem Keeps.mono (h : x.Keeps m s post) (himp : ∀ a t, post a t → post' a t) :
    x.Keeps m s post' := by
  induction x generalizing s with
  | done a => exact himp a s h
  | ask q next ih => exact ⟨h.1, fun reply ↦ ih reply (h.2 reply)⟩

/-- What no event undoes still holds at the end. -/
theorem Keeps.frame {kept : σ → Prop} (h : x.Keeps m s post) (hs : kept s)
    (hnext : ∀ t e, kept t → kept (m.next t e)) :
    x.Keeps m s fun a t ↦ post a t ∧ kept t := by
  induction x generalizing s with
  | done a => exact ⟨h, hs⟩
  | ask q next ih => exact ⟨h.1, fun reply ↦ ih reply (h.2 reply) (hnext _ _ hs)⟩

/-- What is left keeps to the monitor where the run has led it. -/
theorem Keeps.rest (h : x.Keeps m s post) (hruns : Runs x events y) :
    y.Keeps m (m.after s events) post := by
  induction hruns generalizing s with
  | start => exact h
  | next _ ih => exact ih (h.2 _)

theorem Keeps.obeys (h : x.Keeps m s post) (hruns : Runs x events y) : m.Obeys s events := by
  induction hruns generalizing s with
  | start => trivial
  | next _ ih => exact ⟨h.1, ih (h.2 _)⟩

/-- The question at hand may be asked, whatever the reply will be. -/
theorem Keeps.allows {q : Q} {next : A q → Interaction Q A α} (h : x.Keeps m s post)
    (hruns : Runs x events (.ask q next)) : m.allows (m.after s events) q := (h.rest hruns).1

theorem Keeps.result {a : α} (h : x.Keeps m s post) (hruns : Runs x events (.done a)) :
    post a (m.after s events) := h.rest hruns

end

/-- A computation inside of another one, whose wait for a reply can come to an end before there is
one. That is the end of the computation, then. -/
def timeout {Q' : Type} {A' : Q' → Type} (f : Q → Q') (answer : ∀ q, A' (f q) → Option (A q)) :
    Interaction Q A α → Interaction Q' A' (Option α)
  | .done a => .done (some a)
  | .ask q next => .ask (f q) fun reply ↦
      (answer q reply).elim (.done none) fun known ↦ (next known).timeout f answer

/-- What the inner monitor knows of the replies, the outer one does, and it knows what is the case
at the end of the time. -/
theorem Keeps.timeout {Q' τ : Type} {A' : Q' → Type} {f : Q → Q'}
    {answer : ∀ q, A' (f q) → Option (A q)} {m : Monitor A σ} {m' : Monitor A' τ}
    {related : σ → τ → Prop} {x : Interaction Q A α} {s : σ} {t : τ} {post : α → σ → Prop}
    {post' : Option α → τ → Prop} (h : x.Keeps m s post) (hrelated : related s t)
    (hallows : ∀ s t q, related s t → m.allows s q → m'.allows t (f q))
    (hnext : ∀ s t q reply known, related s t → m.allows s q → answer q reply = some known →
      related (m.next s ⟨q, known⟩) (m'.next t ⟨f q, reply⟩))
    (hover : ∀ s t q reply, related s t → m.allows s q → answer q reply = none →
      post' none (m'.next t ⟨f q, reply⟩))
    (hpost : ∀ a s t, related s t → post a s → post' (some a) t) :
    (x.timeout f answer).Keeps m' t post' := by
  induction x generalizing s t with
  | done a => exact hpost a s t hrelated h
  | ask q next ih =>
      rw [Interaction.timeout]
      refine ⟨hallows s t q hrelated h.1, fun reply ↦ ?_⟩
      dsimp only
      cases hreply : answer q reply with
      | some known =>
        exact ih known (h.2 known) (hnext s t q reply known hrelated h.1 hreply)
      | none => exact hover s t q reply hrelated h.1 hreply

end Interaction

/-! ## Computations that may fail -/

/-- A computation that asks questions and may fail. -/
abbrev Asking (Q : Type) (A : Q → Type) (α : Type) := ExceptT AnyError (Interaction Q A) α

namespace Asking

open Interaction

variable {Q : Type} {A : Q → Type} {α β γ σ : Type}

/-- Ask a question, and read the reply. -/
def query (q : Q) (read : A q → Result α) : Asking Q A α :=
  ExceptT.mk (.ask q fun reply ↦ .done (read reply))

def ofResult (x : Result α) : Asking Q A α := ExceptT.mk (.done x)

def bail (text : String) : Asking Q A α := ofResult (Result.bail text)

/-- Put a context in front of the chain of a failure. -/
def context (text : String) (x : Asking Q A α) : Asking Q A α :=
  ExceptT.mk (x.run >>= fun result ↦ .done (Result.context text result))

/-- Go on with the result, also when it is a failure. -/
def outcome (x : Asking Q A α) : Asking Q A (Result α) :=
  ExceptT.mk (x.run >>= fun result ↦ .done (.ok result))

/-- How a computation may end. -/
def ending (post : α → σ → Prop) (failed : σ → Prop) : Result α → σ → Prop
  | .ok a => post a
  | .error _ => failed

/-- From a state with `pre`, a computation asks only what a monitor allows. A value comes with
`post`, and a failure leaves a state with `failed`. -/
def Meets (m : Monitor A σ) (x : Asking Q A α) (pre : σ → Prop) (post : α → σ → Prop)
    (failed : σ → Prop) : Prop :=
  ∀ s, pre s → x.run.Keeps m s (ending post failed)

namespace Meets

variable {m : Monitor A σ} {x : Asking Q A α} {f : α → Asking Q A β}
  {pre pre' failed failed' : σ → Prop} {post post' : α → σ → Prop} {post₂ : β → σ → Prop}

theorem mono (h : x.Meets m pre post failed) (hpre : ∀ s, pre' s → pre s)
    (hpost : ∀ a s, post a s → post' a s) (hfailed : ∀ s, failed s → failed' s) :
    x.Meets m pre' post' failed' := by
  intro s hs
  refine (h s (hpre s hs)).mono ?_
  rintro (e | a) t ht
  · exact hfailed t ht
  · exact hpost a t ht

theorem pure {a : α} (h : ∀ s, pre s → post a s) :
    (Pure.pure a : Asking Q A α).Meets m pre post failed := h

theorem bail {text : String} (h : ∀ s, pre s → failed s) :
    (Asking.bail text : Asking Q A α).Meets m pre post failed := h

theorem ofResult {x : Result α} (hok : ∀ a, x = .ok a → ∀ s, pre s → post a s)
    (herror : ∀ e, x = .error e → ∀ s, pre s → failed s) :
    (Asking.ofResult x : Asking Q A α).Meets m pre post failed := by
  intro s hs
  cases x with
  | error e => exact herror e rfl s hs
  | ok a => exact hok a rfl s hs

theorem query {q : Q} {read : A q → Result α} (hallows : ∀ s, pre s → m.allows s q)
    (hok : ∀ s reply a, pre s → read reply = .ok a → post a (m.next s ⟨q, reply⟩))
    (herror : ∀ s reply e, pre s → read reply = .error e → failed (m.next s ⟨q, reply⟩)) :
    (Asking.query q read).Meets m pre post failed := by
  refine fun s hs ↦ ⟨hallows s hs, fun reply ↦ ?_⟩
  rw [Keeps]
  cases h : read reply with
  | error e => exact herror s reply e hs h
  | ok a => exact hok s reply a hs h

theorem bind (h : x.Meets m pre post failed) (hf : ∀ a, (f a).Meets m (post a) post₂ failed) :
    (x >>= f).Meets m pre post₂ failed := by
  intro s hs
  refine keeps_bind.mpr ((h s hs).mono ?_)
  rintro (e | a) t ht
  · exact ht
  · exact hf a t ht

theorem context {text : String} (h : x.Meets m pre post failed) :
    (x.context text).Meets m pre post failed := by
  intro s hs
  refine keeps_bind.mpr ((h s hs).mono ?_)
  rintro (e | a) t ht
  · exact ht
  · exact ht

theorem outcome {failed' : σ → Prop} (h : x.Meets m pre post failed) :
    x.outcome.Meets m pre (ending post failed) failed' := by
  intro s hs
  refine keeps_bind.mpr ((h s hs).mono ?_)
  exact fun _ _ ↦ id

theorem frame {kept : σ → Prop} (h : x.Meets m pre post failed)
    (hnext : ∀ t e, kept t → kept (m.next t e)) :
    x.Meets m (fun s ↦ pre s ∧ kept s) (fun a s ↦ post a s ∧ kept s)
      fun s ↦ failed s ∧ kept s := by
  rintro s ⟨hs, hkept⟩
  refine ((h s hs).frame hkept hnext).mono ?_
  rintro (e | a) t ht
  · exact ht
  · exact ht

/-- A computation for each state that there may be before it. -/
theorem of_each (h : ∀ s, pre s → x.Meets m (· = s) post failed) : x.Meets m pre post failed :=
  fun s hs ↦ h s hs s rfl

/-- A fact about the state that does not change with it. -/
theorem of_fact {fact : Prop} (h : fact → x.Meets m pre post failed) :
    x.Meets m (fun s ↦ fact ∧ pre s) post failed := fun s hs ↦ h hs.1 s hs.2

end Meets

end Asking

end KaduoxSsh
