import KaduoxSsh.Lib.Result

/-!
# Computations whose steps may fail

A computation on a state, each step of which has a name. The environment decides which steps
fail, and how far a failing one came. What was done before an error stays done, so that it is up
to the computation to clean up.

`Runs` tells of a computation what it takes to come to its end, and what it leaves in both cases.
It is composed along sequences, handlers and loops.
-/

namespace KaduoxSsh

/-- What goes wrong at a step, and how much of the step was done by then. -/
structure Fault where
  error : AnyError
  done : Nat
deriving DecidableEq, Repr

/-- The steps that fail. -/
abbrev Faults (L : Type) : Type := L → Option Fault

/-- Some steps do not fail. -/
def Quiet {L : Type} (faults : Faults L) (steps : List L) : Prop := ∀ l ∈ steps, faults l = none

instance decidableQuiet {L : Type} (faults : Faults L) (steps : List L) :
    Decidable (Quiet faults steps) :=
  inferInstanceAs (Decidable (∀ l ∈ steps, faults l = none))

section

variable {L : Type} {faults : Faults L} {l : L} {steps steps' : List L}

@[simp] theorem quiet_nil : Quiet faults [] := nofun

@[simp] theorem quiet_cons : Quiet faults (l :: steps) ↔ faults l = none ∧ Quiet faults steps :=
  List.forall_mem_cons

@[simp] theorem quiet_append :
    Quiet faults (steps ++ steps') ↔ Quiet faults steps ∧ Quiet faults steps' :=
  List.forall_mem_append

end

/-- A computation whose steps have names of `L`, on states of `S`. -/
def Faulty (L S α : Type) : Type := Faults L → S → Result α × S

namespace Faulty

variable {L S α β : Type}

protected def pure (a : α) : Faulty L S α := fun _ s ↦ (.ok a, s)

protected def bind (x : Faulty L S α) (f : α → Faulty L S β) : Faulty L S β := fun faults s ↦
  match x faults s with
  | (.ok a, s) => f a faults s
  | (.error e, s) => (.error e, s)

instance : Monad (Faulty L S) where
  pure := Faulty.pure
  bind := Faulty.bind

def ofResult (x : Result α) : Faulty L S α := fun _ s ↦ (x, s)

/-- A step: what a failing one leaves, and what is done otherwise. -/
def step (l : L) (broken : Nat → S → S) (run : S → Result (α × S)) : Faulty L S α := fun faults s ↦
  match faults l with
  | some fault => (.error fault.error, broken fault.done s)
  | none => match run s with
      | .ok (a, s) => (.ok a, s)
      | .error e => (.error e, s)

/-- A step that only looks. -/
def look (l : L) (f : S → α) : Faulty L S α := step l (fun _ s ↦ s) fun s ↦ .ok (f s, s)

/-- A step that is of no account for the state. -/
def pass (l : L) : Faulty L S Unit := look l fun _ ↦ ()

/-- A step that is done as a whole or not at all. -/
def change (l : L) (f : S → Result S) : Faulty L S Unit :=
  step l (fun _ s ↦ s) fun s ↦ (f s).map fun s' ↦ ((), s')

/-- What follows an error. -/
def tryCatch (x : Faulty L S α) (handle : AnyError → Faulty L S α) : Faulty L S α := fun faults s ↦
  match x faults s with
  | (.ok a, s) => (.ok a, s)
  | (.error e, s) => handle e faults s

def throw (e : AnyError) : Faulty L S α := ofResult (.error e)

/-- Whatever a computation comes to is taken as done. -/
def ignore (x : Faulty L S α) : Faulty L S Unit := fun faults s ↦ (.ok (), (x faults s).2)

def context (text : String) (x : Faulty L S α) : Faulty L S α := fun faults s ↦
  let outcome := x faults s
  (outcome.1.context text, outcome.2)

/-- What is cleaned up after an error, which is passed on. -/
def cleaningUp (x : Faulty L S α) (cleanUp : Faulty L S Unit) : Faulty L S α :=
  x.tryCatch fun e ↦ do
    cleanUp.ignore
    throw e

section

variable {faults : Faults L} {x : Faulty L S α} {f : α → Faulty L S β} {a : α} {e : AnyError}
  {s s' : S}

theorem bind_of_ok (h : x faults s = (.ok a, s')) : (x >>= f) faults s = f a faults s' := by
  change Faulty.bind x f faults s = _
  rw [Faulty.bind, h]

theorem bind_of_error (h : x faults s = (.error e, s')) :
    (x >>= f) faults s = (.error e, s') := by
  change Faulty.bind x f faults s = _
  rw [Faulty.bind, h]

end

/-! ## What it takes to come to the end -/

/-- From the states of `pre` a computation comes to its end exactly under a condition. It leaves
a state of `post` then, and one of `broken` else. -/
structure Runs (faults : Faults L) (x : Faulty L S α) (pre : S → Prop) (quiet : Prop)
    (post : α → S → Prop) (broken : S → Prop) : Prop where
  ok : ∀ s, pre s → quiet → ∃ a s', x faults s = (.ok a, s') ∧ post a s'
  error : ∀ s, pre s → ¬quiet → ∃ e s', x faults s = (.error e, s') ∧ broken s'

namespace Runs

variable {faults : Faults L} {x : Faulty L S α} {f : α → Faulty L S β} {pre pre' : S → Prop}
  {quiet quiet' : Prop} {post : α → S → Prop} {post' : β → S → Prop} {broken broken' : S → Prop}
  {a : α} {l : L}

theorem congr (h : Runs faults x pre quiet post broken) (hquiet : quiet ↔ quiet') :
    Runs faults x pre quiet' post broken where
  ok s hs hq := h.ok s hs (hquiet.mpr hq)
  error s hs hq := h.error s hs (hquiet.not.mpr hq)

/-- The rule of consequence. -/
theorem mono {post₂ : α → S → Prop} (h : Runs faults x pre quiet post broken)
    (hpre : ∀ s, pre' s → pre s) (hpost : ∀ a s, post a s → post₂ a s)
    (hbroken : ∀ s, ¬quiet → broken s → broken' s) : Runs faults x pre' quiet post₂ broken' where
  ok s hs hq := by
    obtain ⟨a, s', hrun, hs'⟩ := h.ok s (hpre s hs) hq
    exact ⟨a, s', hrun, hpost a s' hs'⟩
  error s hs hq := by
    obtain ⟨e, s', hrun, hs'⟩ := h.error s (hpre s hs) hq
    exact ⟨e, s', hrun, hbroken s' hq hs'⟩

/-- What is known of more than the state may be used. -/
theorem of_fact {fact : Prop} (h : fact → Runs faults x pre quiet post broken) :
    Runs faults x (fun s ↦ fact ∧ pre s) quiet post broken where
  ok s hs hq := (h hs.1).ok s hs.2 hq
  error s hs hq := (h hs.1).error s hs.2 hq

/-- Each state may be considered by itself. -/
theorem of_each (h : ∀ s, pre s → Runs faults x (· = s) quiet post broken) :
    Runs faults x pre quiet post broken where
  ok s hs hq := (h s hs).ok s rfl hq
  error s hs hq := (h s hs).error s rfl hq

theorem pure (h : ∀ s, pre s → post a s) :
    Runs faults (Pure.pure a : Faulty L S α) pre True post broken where
  ok s hs _ := ⟨a, s, rfl, h s hs⟩
  error _ _ hq := absurd trivial hq

/-- A sequence comes to its end exactly when both of its stages do. -/
theorem bind (h : Runs faults x pre quiet post broken)
    (hf : quiet → ∀ a, Runs faults (f a) (post a) quiet' post' broken) :
    Runs faults (x >>= f) pre (quiet ∧ quiet') post' broken where
  ok s hs hq := by
    obtain ⟨a, s₁, hrun, hs₁⟩ := h.ok s hs hq.1
    obtain ⟨b, s', hrun', hs'⟩ := (hf hq.1 a).ok s₁ hs₁ hq.2
    exact ⟨b, s', (bind_of_ok hrun).trans hrun', hs'⟩
  error s hs hq := by
    by_cases hquiet : quiet
    · obtain ⟨a, s₁, hrun, hs₁⟩ := h.ok s hs hquiet
      obtain ⟨e, s', hrun', hs'⟩ := (hf hquiet a).error s₁ hs₁ fun hquiet' ↦ hq ⟨hquiet, hquiet'⟩
      exact ⟨e, s', (bind_of_ok hrun).trans hrun', hs'⟩
    · obtain ⟨e, s', hrun, hs'⟩ := h.error s hs hquiet
      exact ⟨e, s', bind_of_error hrun, hs'⟩

/-- The next stage may count on the value of the first. -/
theorem bind_value (h : Runs faults x pre quiet (fun b s ↦ b = a ∧ pre' s) broken)
    (hf : quiet → Runs faults (f a) pre' quiet' post' broken) :
    Runs faults (x >>= f) pre (quiet ∧ quiet') post' broken := by
  refine h.bind fun hquiet b ↦ ⟨?_, ?_⟩
  · rintro s ⟨rfl, hs⟩ hq
    exact (hf hquiet).ok s hs hq
  · rintro s ⟨rfl, hs⟩ hq
    exact (hf hquiet).error s hs hq

theorem ofResult {result : Result α} (hok : ∀ a, result = .ok a → ∀ s, pre s → post a s)
    (herror : ∀ s, pre s → broken s) :
    Runs faults (Faulty.ofResult result) pre (result.isOk = true) post broken where
  ok s hs hq := by
    obtain ⟨a, rfl⟩ := Result.isOk_iff.mp hq
    exact ⟨a, s, rfl, hok a rfl s hs⟩
  error s hs hq := by
    cases result with
    | ok a => exact absurd rfl hq
    | error e => exact ⟨e, s, rfl, herror s hs⟩

theorem throw {e : AnyError} (h : ∀ s, pre s → broken s) :
    Runs faults (Faulty.throw e : Faulty L S α) pre False post broken where
  ok _ _ hq := hq.elim
  error s hs _ := ⟨e, s, rfl, h s hs⟩

/-- A step that is possible comes to its end unless it fails. -/
theorem step {left : Nat → S → S} {run : S → Result (α × S)}
    (hok : ∀ s, pre s → ∃ a s', run s = .ok (a, s') ∧ post a s')
    (hbroken : ∀ done s, pre s → broken (left done s)) :
    Runs faults (Faulty.step l left run) pre (faults l = none) post broken where
  ok s hs hq := by
    obtain ⟨a, s', hrun, hs'⟩ := hok s hs
    refine ⟨a, s', ?_, hs'⟩
    rw [Faulty.step, hq]
    dsimp only
    rw [hrun]
  error s hs hq := by
    obtain ⟨fault, hfault⟩ := Option.ne_none_iff_exists'.mp hq
    refine ⟨fault.error, left fault.done s, ?_, hbroken _ s hs⟩
    rw [Faulty.step, hfault]

theorem look {g : S → α} (hok : ∀ s, pre s → post (g s) s) (hbroken : ∀ s, pre s → broken s) :
    Runs faults (Faulty.look l g) pre (faults l = none) post broken :=
  step (fun s hs ↦ ⟨g s, s, rfl, hok s hs⟩) fun _ ↦ hbroken

theorem pass (hbroken : ∀ s, pre s → broken s) :
    Runs faults (Faulty.pass l : Faulty L S Unit) pre (faults l = none) (fun _ ↦ pre) broken :=
  look (fun _ hs ↦ hs) hbroken

theorem change {g : S → Result S} {after : S → Prop}
    (hok : ∀ s, pre s → ∃ s', g s = .ok s' ∧ after s') (hbroken : ∀ s, pre s → broken s) :
    Runs faults (Faulty.change l g) pre (faults l = none) (fun _ ↦ after) broken := by
  refine step (fun s hs ↦ ?_) fun _ ↦ hbroken
  obtain ⟨s', hs', hafter⟩ := hok s hs
  refine ⟨(), s', ?_, hafter⟩
  rw [hs']
  rfl

theorem context {text : String} (h : Runs faults x pre quiet post broken) :
    Runs faults (x.context text) pre quiet post broken where
  ok s hs hq := by
    obtain ⟨a, s', hrun, hs'⟩ := h.ok s hs hq
    refine ⟨a, s', ?_, hs'⟩
    rw [Faulty.context, hrun]
    rfl
  error s hs hq := by
    obtain ⟨e, s', hrun, hs'⟩ := h.error s hs hq
    refine ⟨⟨⟨text, none⟩ :: e.chain⟩, s', ?_, hs'⟩
    rw [Faulty.context, hrun]
    rfl

theorem tryCatch {handle : AnyError → Faulty L S α} (h : Runs faults x pre quiet post broken)
    (hhandle : ∀ e, Runs faults (handle e) broken False post broken') :
    Runs faults (x.tryCatch handle) pre quiet post broken' where
  ok s hs hq := by
    obtain ⟨a, s', hrun, hs'⟩ := h.ok s hs hq
    refine ⟨a, s', ?_, hs'⟩
    rw [Faulty.tryCatch, hrun]
  error s hs hq := by
    obtain ⟨e, s', hrun, hs'⟩ := h.error s hs hq
    obtain ⟨e', s'', hrun', hs''⟩ := (hhandle e).error s' hs' id
    refine ⟨e', s'', ?_, hs''⟩
    rw [Faulty.tryCatch, hrun]
    exact hrun'

theorem ignore (h : Runs faults x pre quiet post broken) :
    Runs faults x.ignore pre True
      (fun _ s ↦ quiet ∧ (∃ a, post a s) ∨ ¬quiet ∧ broken s) broken' where
  ok s hs _ := by
    by_cases hq : quiet
    · obtain ⟨a, s', hrun, hs'⟩ := h.ok s hs hq
      refine ⟨(), s', ?_, .inl ⟨hq, a, hs'⟩⟩
      rw [Faulty.ignore, hrun]
    · obtain ⟨e, s', hrun, hs'⟩ := h.error s hs hq
      refine ⟨(), s', ?_, .inr ⟨hq, hs'⟩⟩
      rw [Faulty.ignore, hrun]
  error _ _ hq := absurd trivial hq

/-- After an error the state is the one that the cleaning up leaves. -/
theorem cleaningUp {cleanUp : Faulty L S Unit} {clean dirty : S → Prop}
    (h : Runs faults x pre quiet post broken)
    (hclean : Runs faults cleanUp broken quiet' (fun _ ↦ clean) dirty) :
    Runs faults (x.cleaningUp cleanUp) pre quiet post
      fun s ↦ quiet' ∧ clean s ∨ ¬quiet' ∧ dirty s := by
  refine h.tryCatch fun e ↦ ?_
  refine (hclean.ignore.bind fun _ _ ↦ throw fun s hs ↦ ?_).congr ⟨And.right, False.elim⟩
  rcases hs with ⟨hq, -, hs⟩ | hs
  · exact .inl ⟨hq, hs⟩
  · exact .inr hs

end Runs

end Faulty

end KaduoxSsh
