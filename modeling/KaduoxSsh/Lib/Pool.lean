import KaduoxSsh.Lib.Interaction
import Mathlib.Data.List.Forall2
import Mathlib.Logic.Relation

/-!
# Calls that run side by side

Several calls are in flight at a time. Each is an `Interaction` with the same service, which takes
one question after the other, from any of the calls. A relation tells how it goes on and what it
may reply. A call can be dropped at any time.

`Pool.Reached.rely` is the rule for what holds in every state of such a pool: each call keeps to a
monitor, and an invariant of the service, of all that has been asked of it, and of the states of
the calls' monitors is kept by each question that the monitor of its call allows.
-/

namespace KaduoxSsh

open Interaction

variable {Q : Type} {A : Q → Type} {α S σ : Type}

/-- How a service goes on with a question and the reply that it gives. -/
abbrev Service (A : Q → Type) (S : Type) := S → Event A → S → Prop

structure Pool (A : Q → Type) (α S : Type) where
  service : S
  /-- All that has been asked so far, with the replies. -/
  history : List (Event A)
  calls : List (Interaction Q A α)

/-- What belongs to one element in the middle, and to those before and after it. -/
theorem forall₂_middle {β γ : Type} {r : β → γ → Prop} {before after : List β} {x : β}
    {states : List γ} (h : List.Forall₂ r (before ++ x :: after) states) :
    ∃ before' y after', states = before' ++ y :: after' ∧ List.Forall₂ r before before' ∧ r x y ∧
      List.Forall₂ r after after' := by
  induction before generalizing states with
  | nil =>
      cases h with
      | cons hxy hafter => exact ⟨[], _, _, rfl, .nil, hxy, hafter⟩
  | cons z before ih =>
      cases h with
      | cons hz hrest =>
          obtain ⟨before', y, after', rfl, hbefore, hxy, hafter⟩ := ih hrest
          exact ⟨_ :: before', y, after', rfl, .cons hz hbefore, hxy, hafter⟩

namespace Pool

/-- The steps of a pool with at most `limit` calls in flight. -/
inductive Step (serves : Service A S) (starts : Interaction Q A α → Prop) (limit : Nat) :
    Pool A α S → Pool A α S → Prop
  | call {s : S} {history : List (Event A)} {calls : List (Interaction Q A α)}
      {x : Interaction Q A α} (hstarts : starts x) (hlimit : calls.length < limit) :
      Step serves starts limit ⟨s, history, calls⟩ ⟨s, history, x :: calls⟩
  | ask {s t : S} {history : List (Event A)} {before after : List (Interaction Q A α)} {q : Q}
      {next : A q → Interaction Q A α} {reply : A q} (hserves : serves s ⟨q, reply⟩ t) :
      Step serves starts limit ⟨s, history, before ++ .ask q next :: after⟩
        ⟨t, history ++ [⟨q, reply⟩], before ++ next reply :: after⟩
  /-- The call has come to its end, or nobody waits for it any longer. -/
  | drop {s : S} {history : List (Event A)} {before after : List (Interaction Q A α)}
      {x : Interaction Q A α} :
      Step serves starts limit ⟨s, history, before ++ x :: after⟩ ⟨s, history, before ++ after⟩

/-- What a service comes to, with calls in any order. -/
def Reached (serves : Service A S) (starts : Interaction Q A α → Prop) (limit : Nat) (s : S) :
    Pool A α S → Prop :=
  Relation.ReflTransGen (Step serves starts limit) ⟨s, [], []⟩

variable {serves : Service A S} {starts : Interaction Q A α → Prop} {limit : Nat} {s : S}
  {p : Pool A α S} {m : Monitor A σ} {first : σ}

/-- What every question keeps that the monitor of its call allows. -/
theorem Reached.rely (Inv : S → List (Event A) → List σ → Prop)
    (hreached : Reached serves starts limit s p)
    (hkeeps : ∀ x, starts x → x.Keeps m first fun _ _ ↦ True) (hstart : Inv s [] [])
    (hcall : ∀ s history states, Inv s history states → states.length < limit →
      Inv s history (first :: states))
    (hdrop : ∀ s history before state after, Inv s history (before ++ state :: after) →
      Inv s history (before ++ after))
    (hask : ∀ s history before state after e t, Inv s history (before ++ state :: after) →
      m.allows state e.question → serves s e t →
        Inv t (history ++ [e]) (before ++ m.next state e :: after)) :
    ∃ states, List.Forall₂ (fun x state ↦ x.Keeps m state fun _ _ ↦ True) p.calls states ∧
      Inv p.service p.history states := by
  induction (hreached : Relation.ReflTransGen _ _ _) with
  | refl => exact ⟨[], .nil, hstart⟩
  | tail _ hstep ih =>
      obtain ⟨states, hcalls, hinv⟩ := ih
      cases hstep with
      | call hstarts hlimit =>
          exact ⟨first :: states, .cons (hkeeps _ hstarts) hcalls,
            hcall _ _ _ hinv (hcalls.length_eq ▸ hlimit)⟩
      | ask hserves =>
          obtain ⟨before', state, after', rfl, hbefore, hthis, hafter⟩ := forall₂_middle hcalls
          exact ⟨_, List.rel_append hbefore (.cons (hthis.2 _) hafter),
            hask _ _ _ _ _ _ _ hinv hthis.1 hserves⟩
      | drop =>
          obtain ⟨before', state, after', rfl, hbefore, -, hafter⟩ := forall₂_middle hcalls
          exact ⟨_, List.rel_append hbefore hafter, hdrop _ _ _ _ _ hinv⟩

/-- How a service goes on with one event after the other. -/
inductive Serving (serves : Service A S) : S → List (Event A) → S → Prop
  | nil {s : S} : Serving serves s [] s
  | cons {s t u : S} {e : Event A} {events : List (Event A)} (hserves : serves s e t)
      (hserving : Serving serves t events u) : Serving serves s (e :: events) u

theorem Serving.append {t u : S} {events events' : List (Event A)}
    (h : Serving serves s events t) (h' : Serving serves t events' u) :
    Serving serves s (events ++ events') u := by
  induction h with
  | nil => exact h'
  | cons hserves _ ih => exact .cons hserves (ih h')

/-- A call goes on for some time without another one. -/
theorem Reached.runs {x y : Interaction Q A α} {t u : S} {history events : List (Event A)}
    (before : List (Interaction Q A α)) {after : List (Interaction Q A α)}
    (hreached : Reached serves starts limit s ⟨t, history, before ++ x :: after⟩)
    (hruns : Runs x events y) (hserving : Serving serves t events u) :
    Reached serves starts limit s ⟨u, history ++ events, before ++ y :: after⟩ := by
  induction hruns generalizing t history with
  | start x =>
      cases hserving
      rwa [List.append_nil]
  | @next q next reply events rest hruns ih =>
      cases hserving with
      | @cons _ u _ _ _ hserves hserving =>
          have hask : Step serves starts limit ⟨t, history, before ++ .ask q next :: after⟩
              ⟨u, history ++ [⟨q, reply⟩], before ++ next reply :: after⟩ := .ask hserves
          have hnext := ih (hreached.tail hask) hserving
          rwa [List.append_assoc, List.singleton_append] at hnext

/-- A bound that is checked in one step and used up in a later one: each call that has passed the
check holds a ticket for one more, so that `limit` calls get less than `limit` beyond it. -/
theorem tickets_lt [DecidableEq σ] {size size' bound : Nat} {before after : List σ}
    {state state' ticket : σ}
    (hsize : size + (before ++ state :: after).count ticket < bound + limit)
    (hlength : (before ++ state :: after).length ≤ limit)
    (hstep : size' + [state'].count ticket ≤ size + [state].count ticket ∨ size' < bound) :
    size' + (before ++ state' :: after).count ticket < bound + limit := by
  rw [List.count_append, ← List.singleton_append, List.count_append] at hsize ⊢
  rcases hstep with hstep | hstep
  · omega
  · have hcount : (before ++ ([state'] ++ after)).count ticket ≤ limit :=
      Nat.le_trans List.count_le_length (by simpa using hlength)
    rw [List.count_append, List.count_append] at hcount
    omega

end Pool

end KaduoxSsh
