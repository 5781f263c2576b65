import Mathlib.Data.List.Basic

/-!
# Runs of a system that takes step after step

A system is a partial step function on states and events; an event that is not
possible in a state has no step there. `Reaches` is about runs each of whose
steps meets a condition on the state and the event, and `Reaches.invariant` is
the rule with which properties of whole runs are proved.
-/

namespace KaduoxSsh

universe u v

variable {σ : Type u} {ε : Type v} {step : σ → ε → Option σ} {Admits : σ → ε → Prop} {s t : σ}
  {start : σ}

/-- The states reached from `s` by runs each step of which meets `Admits`. -/
inductive Reaches (step : σ → ε → Option σ) (Admits : σ → ε → Prop) (s : σ) : σ → Prop
  | start : Reaches step Admits s s
  | next {t u : σ} {e : ε} :
      Reaches step Admits s t → Admits t e → step t e = some u → Reaches step Admits s u

/-- What holds at the start and is kept by each admitted step holds in every state of a run. -/
theorem Reaches.invariant {Inv : σ → Prop} (hreach : Reaches step Admits s t) (hstart : Inv s)
    (hstep : ∀ t e u, Inv t → Admits t e → step t e = some u → Inv u) : Inv t := by
  induction hreach with
  | start => exact hstart
  | next _ hadmits hu ih => exact hstep _ _ _ ih hadmits hu

/-- A run is one with another condition when each of its steps meets that. -/
theorem Reaches.mono {Admits' : σ → ε → Prop} (hreach : Reaches step Admits s t)
    (h : ∀ t e, Admits t e → Admits' t e) : Reaches step Admits' s t := by
  induction hreach with
  | start => exact .start
  | next _ hadmits hu ih => exact ih.next (h _ _ hadmits) hu

/-- The state after some events, if each of them is possible in its turn. -/
def runEvents (step : σ → ε → Option σ) (s : σ) : List ε → Option σ
  | [] => some s
  | e :: events => (step s e).bind fun t ↦ runEvents step t events

/-- The state after some events that meet a condition is reached by a run with that condition. -/
theorem Reaches.runAdmitted (hreach : Reaches step Admits start s) (events : List ε)
    (hadmits : ∀ e ∈ events, ∀ t, Admits t e) (hrun : KaduoxSsh.runEvents step s events = some t) :
    Reaches step Admits start t := by
  induction events generalizing s with
  | nil =>
      cases hrun
      exact hreach
  | cons e events ih =>
      obtain ⟨u, hu, hrun⟩ := Option.bind_eq_some_iff.mp hrun
      have hnext := hreach.next (hadmits e List.mem_cons_self s) hu
      exact ih hnext (fun e he ↦ hadmits e (List.mem_cons_of_mem _ he)) hrun

/-- The state after some events each of which meets a condition in its turn is reached by a run with
that condition. -/
theorem Reaches.runChecked [∀ s e, Decidable (Admits s e)] (hreach : Reaches step Admits start s)
    (events : List ε)
    (hrun : KaduoxSsh.runEvents (fun s e ↦ if Admits s e then step s e else none) s events = some t) :
    Reaches step Admits start t := by
  induction events generalizing s with
  | nil =>
      cases hrun
      exact hreach
  | cons e events ih =>
      obtain ⟨u, hu, hrun⟩ := Option.bind_eq_some_iff.mp hrun
      obtain ⟨hadmits, hstep⟩ := Option.ite_none_right_eq_some.mp hu
      exact ih (hreach.next hadmits hstep) hrun

/-- The state after some events is reached by a run. -/
theorem Reaches.runEvents (hreach : Reaches step (fun _ _ ↦ True) start s) (events : List ε)
    (hrun : KaduoxSsh.runEvents step s events = some t) : Reaches step (fun _ _ ↦ True) start t :=
  hreach.runAdmitted events (fun _ _ _ ↦ trivial) hrun

end KaduoxSsh
