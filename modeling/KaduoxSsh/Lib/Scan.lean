import Mathlib.Order.Basic

/-!
# Loops that read up to a stop

A scanner is a loop over an index: while the index is below the stop, the body
runs, and the body moves the index forward. `run` is the state such a loop ends
in and `trace` the states its body starts from. Both are given by fuel, so that
they compute; `run_next` and `trace_of_lt` are the equations without it.

Two scanners that read the same text need not take steps of the same size.
`run_related` asks only that related states lead to related states further on.
-/

namespace KaduoxSsh

universe u v w

/-- A loop over an index that its body moves forward. -/
structure Scanner (σ : Type u) where
  stop : Nat
  pos : σ → Nat
  next : σ → σ
  pos_lt_next : ∀ s, pos s < stop → pos s < pos (next s)

namespace Scanner

variable {σ : Type u} {τ : Type v} (L : Scanner σ) (M : Scanner τ) {s t' : σ} {t : τ}
  {P : σ → Prop} {fuel fuel' : Nat}

/-- At most so many rounds of the loop. -/
def steps : Nat → σ → σ
  | 0, s => s
  | fuel + 1, s => if L.pos s < L.stop then steps fuel (L.next s) else s

/-- The state in which the loop ends. -/
def run (s : σ) : σ := L.steps (L.stop - L.pos s) s

/-- The states in which at most so many rounds start. -/
def starts : Nat → σ → List σ
  | 0, _ => []
  | fuel + 1, s => if L.pos s < L.stop then s :: starts fuel (L.next s) else []

/-- The states in which the rounds of the loop start. -/
def trace (s : σ) : List σ := L.starts (L.stop - L.pos s) s

/-! ## The equations of the loop -/

/-- A loop with fuel for all that is left to read needs no more. -/
theorem fuel_congr {α : Type w} {f : Nat → σ → α} {g : σ → α → α} {stay : σ → α}
    (hzero : ∀ s, f 0 s = stay s)
    (hsucc : ∀ fuel s, f (fuel + 1) s = if L.pos s < L.stop then g s (f fuel (L.next s)) else stay s)
    (hfuel : L.stop - L.pos s ≤ fuel) (hfuel' : L.stop - L.pos s ≤ fuel') :
    f fuel s = f fuel' s := by
  have hend : ∀ fuel s, ¬L.pos s < L.stop → f fuel s = stay s := by
    intro fuel s hend
    cases fuel with
    | zero => exact hzero s
    | succ fuel => rw [hsucc, if_neg hend]
  induction fuel generalizing fuel' s with
  | zero => rw [hzero, hend fuel' s (by omega)]
  | succ fuel ih =>
      by_cases hlt : L.pos s < L.stop
      · have hprogress := L.pos_lt_next s hlt
        obtain ⟨k, rfl⟩ : ∃ k, fuel' = k + 1 := ⟨fuel' - 1, by omega⟩
        rw [hsucc, hsucc, if_pos hlt, if_pos hlt]
        exact congrArg (g s) (ih (by omega) (by omega))
      · rw [hend _ s hlt, hend _ s hlt]

theorem steps_congr (hfuel : L.stop - L.pos s ≤ fuel) (hfuel' : L.stop - L.pos s ≤ fuel') :
    L.steps fuel s = L.steps fuel' s :=
  L.fuel_congr (g := fun _ s ↦ s) (fun _ ↦ rfl) (fun _ _ ↦ rfl) hfuel hfuel'

theorem starts_congr (hfuel : L.stop - L.pos s ≤ fuel) (hfuel' : L.stop - L.pos s ≤ fuel') :
    L.starts fuel s = L.starts fuel' s :=
  L.fuel_congr (fun _ ↦ rfl) (fun _ _ ↦ rfl) hfuel hfuel'

/-- What is behind a place in both branches is behind it. -/
theorem lt_ite {f : σ → Nat} {n : Nat} {p : Prop} [Decidable p] {s t : σ} (hs : n < f s)
    (ht : n < f t) : n < f (if p then s else t) := by
  split
  · exact hs
  · exact ht

theorem run_of_not_lt (hend : ¬L.pos s < L.stop) : L.run s = s := by
  rw [run, Nat.sub_eq_zero_of_le (Nat.le_of_not_lt hend), steps]

/-- One round does not change where the loop ends. -/
theorem run_next (hlt : L.pos s < L.stop) : L.run (L.next s) = L.run s := by
  have hprogress := L.pos_lt_next s hlt
  obtain ⟨k, hk⟩ : ∃ k, L.stop - L.pos s = k + 1 := ⟨L.stop - L.pos s - 1, by omega⟩
  rw [run, run, hk, steps, if_pos hlt]
  apply steps_congr
  · omega
  · omega

theorem trace_of_lt (hlt : L.pos s < L.stop) : L.trace s = s :: L.trace (L.next s) := by
  have hprogress := L.pos_lt_next s hlt
  obtain ⟨k, hk⟩ : ∃ k, L.stop - L.pos s = k + 1 := ⟨L.stop - L.pos s - 1, by omega⟩
  rw [trace, trace, hk, starts, if_pos hlt]
  apply congrArg
  apply starts_congr
  · omega
  · omega

theorem trace_of_not_lt (hend : ¬L.pos s < L.stop) : L.trace s = [] := by
  rw [trace, Nat.sub_eq_zero_of_le (Nat.le_of_not_lt hend), starts]

theorem mem_trace_iff : t' ∈ L.trace s ↔ L.pos s < L.stop ∧ (t' = s ∨ t' ∈ L.trace (L.next s)) := by
  by_cases hlt : L.pos s < L.stop
  · rw [L.trace_of_lt hlt, List.mem_cons]
    exact (and_iff_right hlt).symm
  · rw [L.trace_of_not_lt hlt]
    constructor
    · intro hmem
      cases hmem
    · intro h
      exact absurd h.1 hlt

theorem self_mem_trace (hlt : L.pos s < L.stop) : s ∈ L.trace s :=
  L.mem_trace_iff.mpr ⟨hlt, .inl rfl⟩

theorem mem_trace_of_next (hlt : L.pos s < L.stop) (hmem : t' ∈ L.trace (L.next s)) :
    t' ∈ L.trace s :=
  L.mem_trace_iff.mpr ⟨hlt, .inr hmem⟩

/-! ## Inductions over the rounds -/

/-- What holds at the end, and before a round when it holds after it, holds everywhere. -/
theorem loop_induction (hend : ∀ s, ¬L.pos s < L.stop → P s)
    (hround : ∀ s, L.pos s < L.stop → P (L.next s) → P s) (s : σ) : P s := by
  generalize hn : L.stop - L.pos s = n
  induction n using Nat.strongRecOn generalizing s with
  | _ n ih =>
      by_cases hlt : L.pos s < L.stop
      · have hprogress := L.pos_lt_next s hlt
        exact hround s hlt (ih (L.stop - L.pos (L.next s)) (by omega) (L.next s) rfl)
      · exact hend s hlt

/-- What each round of a loop keeps holds where its rounds start and where it ends. -/
theorem trace_invariant (hstart : P s) (hnext : ∀ t ∈ L.trace s, P t → P (L.next t)) :
    (∀ t ∈ L.trace s, P t) ∧ P (L.run s) := by
  induction s using L.loop_induction with
  | hend s hend =>
      rw [L.run_of_not_lt hend]
      exact ⟨fun t hmem ↦ absurd (L.mem_trace_iff.mp hmem).1 hend, hstart⟩
  | hround s hlt ih =>
      obtain ⟨htrace, hrun⟩ := ih (hnext s (L.self_mem_trace hlt) hstart) fun t hmem ↦
        hnext t (L.mem_trace_of_next hlt hmem)
      rw [L.run_next hlt] at hrun
      refine ⟨fun t hmem ↦ ?_, hrun⟩
      rcases (L.mem_trace_iff.mp hmem).2 with rfl | hmem
      · exact hstart
      · exact htrace t hmem

/-- The rounds of a loop start below the stop. -/
theorem pos_lt_of_mem_trace (hmem : t' ∈ L.trace s) : L.pos t' < L.stop := by
  induction s using L.loop_induction with
  | hend s hend => exact absurd (L.mem_trace_iff.mp hmem).1 hend
  | hround s hlt ih =>
      rcases (L.mem_trace_iff.mp hmem).2 with rfl | hmem
      · exact hlt
      · exact ih hmem

/-- What each round keeps holds where the loop ends. -/
theorem run_invariant (hstart : P s) (hnext : ∀ s, P s → L.pos s < L.stop → P (L.next s)) :
    P (L.run s) :=
  (L.trace_invariant hstart fun t hmem hP ↦ hnext t hP (L.pos_lt_of_mem_trace hmem)).2

/-- The loop ends no further back than it starts. -/
theorem pos_le_run : L.pos s ≤ L.pos (L.run s) :=
  L.run_invariant (P := fun u ↦ L.pos s ≤ L.pos u) (Nat.le_refl _) fun u hle hlt ↦
    Nat.le_trans hle (Nat.le_of_lt (L.pos_lt_next u hlt))

/-- The rounds from a state on start no further back than there. -/
theorem pos_le_of_mem_trace (hmem : t' ∈ L.trace s) : L.pos s ≤ L.pos t' := by
  have hle : (∀ t ∈ L.trace s, L.pos s ≤ L.pos t) ∧ L.pos s ≤ L.pos (L.run s) :=
    L.trace_invariant (P := fun u ↦ L.pos s ≤ L.pos u) (Nat.le_refl _) fun t hmem hle ↦
      Nat.le_trans hle (Nat.le_of_lt (L.pos_lt_next t (L.pos_lt_of_mem_trace hmem)))
  exact hle.1 t' hmem

/-- A round that starts further on starts after the next round too. -/
theorem mem_trace_next (hmem : t' ∈ L.trace s) (hlt : L.pos s < L.pos t') :
    L.pos s < L.stop ∧ t' ∈ L.trace (L.next s) := by
  obtain ⟨hstop, rfl | hmem⟩ := L.mem_trace_iff.mp hmem
  · exact absurd hlt (Nat.lt_irrefl _)
  · exact ⟨hstop, hmem⟩

/-- From the start of a round the loop ends where it ends in any case. -/
theorem run_of_mem_trace (hmem : t' ∈ L.trace s) : L.run t' = L.run s := by
  induction s using L.loop_induction with
  | hend s hend => exact absurd (L.mem_trace_iff.mp hmem).1 hend
  | hround s hlt ih =>
      rcases (L.mem_trace_iff.mp hmem).2 with rfl | hmem
      · rfl
      · exact (ih hmem).trans (L.run_next hlt)

/-- Each place from the start of a loop on lies in one of its rounds. -/
theorem exists_round {p : Nat} (hstart : L.pos s ≤ p) (hp : p < L.stop) :
    ∃ t ∈ L.trace s, L.pos t ≤ p ∧ p < L.pos (L.next t) := by
  induction s using L.loop_induction with
  | hend s hend => omega
  | hround s hlt ih =>
      by_cases hfar : p < L.pos (L.next s)
      · exact ⟨s, L.self_mem_trace hlt, hstart, hfar⟩
      · obtain ⟨t, hmem, hround⟩ := ih (Nat.le_of_not_lt hfar)
        exact ⟨t, L.mem_trace_of_next hlt hmem, hround⟩

/-! ## Simulations -/

/-- Related states end in related states, when from related states the one scanner and the other
come to related states, each in some rounds of its own. -/
theorem run_related {R : σ → τ → Prop} (hrelated : R s t)
    (hend : ∀ s t, R s t → (L.pos s < L.stop ↔ M.pos t < M.stop))
    (hstep : ∀ s t, R s t → L.pos s < L.stop → M.pos t < M.stop →
      ∃ s' t', L.pos s < L.pos s' ∧ L.run s' = L.run s ∧ M.run t' = M.run t ∧ R s' t') :
    R (L.run s) (M.run t) := by
  generalize hn : L.stop - L.pos s = n
  induction n using Nat.strongRecOn generalizing s t with
  | _ n ih =>
      by_cases hlt : L.pos s < L.stop
      · obtain ⟨s', t', hprogress, hs, ht, hrelated'⟩ :=
          hstep s t hrelated hlt ((hend s t hrelated).mp hlt)
        rw [← hs, ← ht]
        exact ih (L.stop - L.pos s') (by omega) hrelated' rfl
      · rw [L.run_of_not_lt hlt, M.run_of_not_lt (mt (hend s t hrelated).mpr hlt)]
        exact hrelated

/-- Each round of the one scanner that matters starts in a state which is related to the start of a
round of the other, and conversely, when from related states both come to related states further on
and between them pass no other rounds that matter. -/
theorem exists_partner {R : σ → τ → Prop} {Q : τ → Prop} (hrelated : R s t)
    (hend : ∀ s t, R s t → (L.pos s < L.stop ↔ M.pos t < M.stop))
    (hstep : ∀ s t, R s t → L.pos s < L.stop → M.pos t < M.stop →
      ∃ s' t', L.pos s < L.pos s' ∧ R s' t' ∧
        L.trace s' ⊆ L.trace s ∧ M.trace t' ⊆ M.trace t ∧
        (∀ u ∈ L.trace s, P u → u = s ∨ u ∈ L.trace s') ∧
        ∀ v ∈ M.trace t, Q v → v = t ∨ v ∈ M.trace t') :
    (∀ u ∈ L.trace s, P u → ∃ v ∈ M.trace t, R u v) ∧
      ∀ v ∈ M.trace t, Q v → ∃ u ∈ L.trace s, R u v := by
  generalize hn : L.stop - L.pos s = n
  induction n using Nat.strongRecOn generalizing s t with
  | _ n ih =>
      by_cases hlt : L.pos s < L.stop
      · have hlt' := (hend s t hrelated).mp hlt
        obtain ⟨s', t', hprogress, hrelated', hsub, hsub', hP, hQ⟩ := hstep s t hrelated hlt hlt'
        obtain ⟨hleft, hright⟩ := ih (L.stop - L.pos s') (by omega) hrelated' rfl
        constructor
        · intro u hu hmatters
          rcases hP u hu hmatters with rfl | hu
          · exact ⟨t, M.self_mem_trace hlt', hrelated⟩
          · obtain ⟨v, hv, huv⟩ := hleft u hu hmatters
            exact ⟨v, hsub' hv, huv⟩
        · intro v hv hmatters
          rcases hQ v hv hmatters with rfl | hv
          · exact ⟨s, L.self_mem_trace hlt, hrelated⟩
          · obtain ⟨u, hu, huv⟩ := hright v hv hmatters
            exact ⟨u, hsub hu, huv⟩
      · constructor
        · intro u hu
          exact absurd (L.mem_trace_iff.mp hu).1 hlt
        · intro v hv
          exact absurd ((hend s t hrelated).mpr (M.mem_trace_iff.mp hv).1) hlt

end Scanner

/-! ## Automata -/

/-- The state of an automaton before the symbol at an index. -/
def stateAt {σ : Type u} {α : Type v} (step : σ → α → σ) (init : σ) (l : List α) (i : Nat) : σ :=
  (l.take i).foldl step init

theorem stateAt_succ {σ : Type u} {α : Type v} {step : σ → α → σ} {init : σ} {l : List α} {i : Nat}
    {a : α} (ha : l[i]? = some a) :
    stateAt step init l (i + 1) = step (stateAt step init l i) a := by
  rw [stateAt, List.take_add_one, ha, List.foldl_append]
  rfl

end KaduoxSsh
