import KaduoxSsh.Desktop.AiChat

/-!
# One chain at a time

A chain begins with a submission and goes on over its tool rounds. The property of
the states: at most one chain of the current token is active, `busy` says whether
one is, the guard of `resolveBatch` is not taken away from it, and no command runs
for a chain that was broken off.

The code hands `busy` on from function to function, and gives it up too early or
never: `resolveBatch` clears it when the answer to its results has tool calls again,
the limit of rounds does not clear it, and what is left of a broken chain clears
that of the next one. Where a run does none of this, the property holds.
-/

namespace KaduoxSsh.Desktop.Ai

namespace State

variable (s : State)

/-- The tasks that carry the chain token. -/
def working : Nat := s.tasks.countP (·.token = some s.chainToken)

/-- How often the chain token is carried: by a task, or by a batch that waits for the user. -/
def activities : Nat :=
  s.working + s.pendingAutoResults.countP fun entry ↦ s.awaitsDecision entry.1

end State

/-- The submission that led to a card had the chain token. -/
def Born (token : Nat) (card : Card) : Prop :=
  ∃ origin, card.origin = some origin ∧ origin.born = token

/-- Commands ran only while the chain token was that of the submission that led to them. -/
def Unbroken (log : List Entry) : Prop :=
  ∀ card mode token, .executed card mode token ∈ log → Born token card

structure Exclusive (s : State) : Prop where
  one : s.activities ≤ 1
  busy : s.busy = true ↔ s.activities ≠ 0
  guarded : ∀ t ∈ s.tasks, t.inBatch = true → t.token = some s.chainToken →
    s.resolvingBatch = true
  unbroken : Unbroken s.log

/-- A batch is rejected, and the answer is a call that runs: it does so while `busy` is false. -/
theorem batch_gives_up_busy : ∃ s, Reaches State.step (fun _ _ ↦ True) (.initial .approval) s ∧
    ¬Exclusive s := by
  let delete : ToolCall := ⟨"a", "web", "rm old", .delete⟩
  let list : ToolCall := ⟨"b", "web", "ls", .readOnly⟩
  refine ⟨_, Reaches.start.runEvents [.submit, .settle 0 .ensured,
    .settle 0 (.response [delete]), .settle 0 .timer, .resolveBatch 2 false,
    .settle 0 (.response [list]), .settle 0 .timer] rfl, fun h ↦ ?_⟩
  exact absurd (h.busy.mpr (by decide)) (by decide)

/-! ## What a run keeps clear of -/

/-- The round of a loop that comes to its end is not the last one. -/
def EndsBelowLimit (round : Nat) (cards : List Card) (hasPending : Bool) : Prop :=
  State.Completes cards hasPending → round + 1 < maxToolRounds

/-- What a step must not do for chains to stay apart. -/
def KeepsChainsApart (s : State) : Event → Prop
  -- the user decides on cards that no chain waits with
  | .resolveBatch index _ => s.resolvingBatch = false → s.awaitsDecision index = true →
      (s.pendingAutoResults.lookup index).isSome = true
  | .settle task outcome => ∀ t, s.tasks[task]? = some t →
      match t, outcome with
      -- a submission goes on beside another, or in another conversation
      | .submitting born, .ensured => born = s.chainToken ∧ s.busy = false
      -- a batch goes on with tool calls, or a broken chain clears what is another's
      | .asking _ token _ caller, .response calls =>
          (token = s.chainToken → (calls.map ToolCall.id).Nodup ∧ (caller = .batch → calls = [])) ∧
            (token ≠ s.chainToken → s.busy = false)
      | .asking _ token _ _, .failure => token ≠ s.chainToken → s.busy = false
      -- a broken chain begins its loop
      | .deferred job cards, .timer =>
          job.token = s.chainToken ∧ EndsBelowLimit job.round cards false
      | .running job _ rest _ hasPending, .exit _ =>
          (job.token = s.chainToken → EndsBelowLimit job.round rest hasPending) ∧
            (job.token ≠ s.chainToken → s.busy = false)
      | .approving job _ _ _ _, .exit _ => job.token ≠ s.chainToken → s.busy = false
      -- the messages are replaced under a loop, or under a batch that waits
      | .loading, .stored _ => s.pendingAutoResults = [] ∧
          ∀ t ∈ s.tasks, ∀ work, t.work = some work → work.job.token = s.chainToken →
            work.approved = true
      | _, _ => True
  | _ => True

/-! ## The invariant -/

/-- The message at an index shows cards of the chain, and some that wait. -/
def Waits (s : State) (index : Nat) : Prop :=
  ∃ message, s.messages[index]? = some message ∧ message.pendingCards ≠ [] ∧
    ∀ card ∈ message.commandCards, Born s.chainToken card

/-- The cards that a loop has left are shown by its message; what waits is none of them. -/
structure Loops (messages : List Message) (token : Nat) (job : Job) (cards : List Card)
    (hasPending : Bool) : Prop where
  born : ∀ card ∈ cards, Born token card
  ids : (cards.map Card.id).Nodup
  shown : ∃ message, messages[job.index]? = some message ∧
    (∀ card ∈ message.commandCards, Born token card) ∧
    (∀ card ∈ cards, ∃ c ∈ message.commandCards, c.id = card.id) ∧
    (hasPending = true → ∃ c ∈ message.commandCards, c.status = .pending ∧
      c.id ∉ cards.map Card.id)

/-- What a task of the chain goes on with is of the chain. -/
def Task.Sound (s : State) : Task → Prop
  | .asking born _ _ caller =>
      born = s.chainToken ∧ (caller = .batch → s.resolvingBatch = true)
  | .deferred job cards => job.born = s.chainToken ∧ Loops s.messages s.chainToken job cards false
  | .running job card rest _ hasPending =>
      job.born = s.chainToken ∧ Loops s.messages s.chainToken job (card :: rest) hasPending
  | .approving job _ rest _ _ =>
      job.born = s.chainToken ∧ s.resolvingBatch = true ∧ ∀ card ∈ rest, Born s.chainToken card
  | _ => True

inductive Phase (s : State) : Prop where
  | idle (busy : s.busy = false) (working : s.working = 0)
      (results : s.pendingAutoResults = [])
  | working (busy : s.busy = true) (working : s.working = 1)
      (results : s.pendingAutoResults = [])
  | waiting (busy : s.busy = true) (working : s.working = 0) {index : Nat}
      {prior : List Message} (results : s.pendingAutoResults = [(index, prior)])
      (waits : Waits s index)

structure Chained (s : State) : Prop where
  tokens : ∀ t ∈ s.tasks, ∀ token, t.token = some token → token ≤ s.chainToken
  sound : ∀ t ∈ s.tasks, t.token = some s.chainToken → t.Sound s
  unbroken : Unbroken s.log
  phase : Phase s

variable {s : State}

theorem Waits.awaitsDecision {index : Nat} (h : Waits s index) :
    s.awaitsDecision index = true := by
  obtain ⟨message, hmessage, hpending, -⟩ := h
  simp [State.awaitsDecision, hmessage, hpending]

theorem Task.Sound.guarded {t : Task} (h : t.Sound s) (hin : t.inBatch = true) :
    s.resolvingBatch = true := by
  cases t with
  | asking born token round caller => exact h.2 (by simpa [Task.inBatch] using hin)
  | approving => exact h.2.1
  | _ => cases hin

theorem Chained.exclusive (h : Chained s) : Exclusive s := by
  obtain ⟨hone, hbusy⟩ : s.activities ≤ 1 ∧ (s.busy = true ↔ s.activities ≠ 0) := by
    cases h.phase with
    | idle busy working results => simp [State.activities, busy, working, results]
    | working busy working results => simp [State.activities, busy, working, results]
    | waiting busy working results waits =>
        simp [State.activities, busy, working, results, waits.awaitsDecision]
  exact ⟨hone, hbusy, fun t hmem hin hcurrent ↦ (h.sound t hmem hcurrent).guarded hin, h.unbroken⟩

end KaduoxSsh.Desktop.Ai
