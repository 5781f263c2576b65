import KaduoxSsh.Desktop.AiMessages
import KaduoxSsh.Lib.Run

/-!
# The chat loop

`submit`, `continueConversation`, `runToolCalls` and `resolveBatch` of
`AiView.tsx`. Each of them runs without a break up to its next `await`, where it
leaves a `Task`: what it waits for, with what it needs to go on. An event lets
the user act, or settles one of the tasks, whichever, so a run of `step` is an
interleaving of all that goes on.

The view is drawn anew between two events. A section therefore sees, in
`messagesRef.current`, the messages as they were when it began, which is why some
functions are given them as `seen`.

Besides the state of the code there are what was sent to the provider, and a log
of what became of the commands.
-/

namespace KaduoxSsh.Desktop.Ai

def maxToolRounds : Nat := 6

/-! ## The state -/

/-- What goes on when a conversation has been continued: nothing, or the end of `resolveBatch`. -/
inductive Caller where
  | plain
  | batch
deriving DecidableEq, Repr

/-- Whose cards are worked on: those of the message at an index, in a round. -/
structure Job where
  index : Nat
  round : Nat
  token : Nat
  born : Nat
deriving DecidableEq, Repr

inductive Task where
  /-- `submit` waits for `ensureConversation`. -/
  | submitting (born : Nat)
  /-- `continueConversation` waits for the provider. -/
  | asking (born token round : Nat) (caller : Caller)
  /-- `runToolCalls` waits for its timer. -/
  | deferred (job : Job) (cards : List Card)
  /-- `runToolCalls` waits for a command. -/
  | running (job : Job) (card : Card) (rest : List Card) (results : List Message)
      (hasPending : Bool)
  /-- `resolveBatch` waits for a command. -/
  | approving (job : Job) (card : Card) (rest : List Card) (prior results : List Message)
  /-- `selectConversation` waits for the stored messages. -/
  | loading
deriving DecidableEq, Repr

/-- Cards that a task has still to come to: in the loop of `runToolCalls`, or approved ones. -/
structure Work where
  job : Job
  cards : List Card
  approved : Bool
deriving DecidableEq, Repr

namespace Task

def work : Task → Option Work
  | .deferred job cards => some ⟨job, cards, false⟩
  | .running job _ rest _ _ => some ⟨job, rest, false⟩
  | .approving job _ rest _ _ => some ⟨job, rest, true⟩
  | _ => none

/-- The token that a task of a chain compares with the one of the state. -/
def token : Task → Option Nat
  | .asking _ token _ _ => some token
  | .deferred job _ => some job.token
  | .running job _ _ _ _ => some job.token
  | .approving job _ _ _ _ => some job.token
  | _ => none

/-- Whether `resolveBatch` waits, for a command or for the end of the conversation. -/
def inBatch : Task → Bool
  | .asking _ _ _ caller => caller = .batch
  | .approving .. => true
  | _ => false

theorem token_of_work {t : Task} {work : Work} (h : t.work = some work) :
    t.token = some work.job.token := by
  cases t <;> simp_all [Task.work, token] <;> simp [← h]

theorem inBatch_of_work {t : Task} {work : Work} (h : t.work = some work)
    (happroved : work.approved = true) : t.inBatch = true := by
  cases t with
  | approving => rfl
  | _ =>
      cases h
      try cases happroved

end Task

/-- What became of commands; `executed` is a call of `aiExecuteCommand`. -/
inductive Entry where
  | blocked (card : Card)
  | rejected (card : Card)
  | approved (cards : List Card)
  | executed (card : Card) (mode : PermissionMode) (token : Nat)
deriving DecidableEq, Repr

structure State where
  messages : List Message
  busy : Bool
  permissionMode : PermissionMode
  chainToken : Nat
  pendingAutoResults : List (Nat × List Message)
  resolvingBatch : Bool
  tasks : List Task
  sent : List (List WireMessage)
  log : List Entry
  /-- How many tool calls there were so far. -/
  calls : Nat
deriving DecidableEq, Repr

def State.initial (mode : PermissionMode) : State :=
  ⟨initialMessages, false, mode, 0, [], false, [], [], [], 0⟩

namespace State

variable (s : State)

def append (message : Message) : State := { s with messages := s.messages ++ [message] }

def patchCard (index : Nat) (id : String) (status : CardStatus) : State :=
  { s with messages := patchCards s.messages index id status }

def record (entry : Entry) : State := { s with log := s.log ++ [entry] }

def suspend (task : Task) : State := { s with tasks := s.tasks ++ [task] }

def forgetResults (index : Nat) : State :=
  { s with pendingAutoResults := s.pendingAutoResults.filter (·.1 ≠ index) }

def keepResults (index : Nat) (results : List Message) : State :=
  { s.forgetResults index with
    pendingAutoResults := (index, results) :: (s.forgetResults index).pendingAutoResults }

def breakChain : State :=
  { s with
    chainToken := s.chainToken + 1, pendingAutoResults := [], resolvingBatch := false,
    busy := false }

/-! ## Continuing a conversation -/

/-- What follows the end of `continueConversation`. -/
def resume : Caller → State
  | .plain => s
  | .batch => { s with resolvingBatch := false, busy := false }

def continueConversation (conversation : List Message) (round born : Nat) (caller : Caller) :
    State :=
  if maxToolRounds ≤ round then (s.append .note).resume caller
  else
    { s with busy := true, sent := s.sent ++ [wireMessages conversation] }.suspend
      (.asking born s.chainToken round caller)

/-! ## The tool calls of a response -/

/-- Whether a card waits for the user, as the client decides it. -/
def cardNeedsApproval (mode : PermissionMode) (level : RiskLevel) : Bool :=
  level = .dangerous || mode = .strict || level = .delete || level = .modify && mode ≠ .full

def finishToolCalls (seen : List Message) (job : Job) (results : List Message)
    (hasPending : Bool) : State :=
  if hasPending then s.keepResults job.index results
  else if results = [] then { s with busy := false }
  else s.continueConversation (seen ++ results) (job.round + 1) job.born .plain

/-- The loop of `runToolCalls` up to the first command that is executed, or to its end. -/
def runToolCalls (seen : List Message) (job : Job) :
    List Card → List Message → Bool → State → State
  | [], results, hasPending, s => s.finishToolCalls seen job results hasPending
  | card :: rest, results, hasPending, s =>
      if card.toolCall.riskLevel = .dangerous then
        runToolCalls seen job rest (results ++ [.tool card.id]) hasPending
          ((s.patchCard job.index card.id .blocked).record (.blocked card))
      else if cardNeedsApproval s.permissionMode card.toolCall.riskLevel then
        runToolCalls seen job rest results true (s.patchCard job.index card.id .pending)
      else
        ((s.patchCard job.index card.id .auto).record
          (.executed card s.permissionMode s.chainToken)).suspend
            (.running job card rest results hasPending)

/-- The loop comes to its end without a command or a decision to wait for. -/
def Completes (cards : List Card) (hasPending : Bool) : Prop :=
  hasPending = false ∧ ∀ card ∈ cards, card.toolCall.riskLevel = .dangerous

/-- What a command's end leaves on its card. -/
def outcomeStatus (succeeded : Bool) : CardStatus := if succeeded then .done else .error

theorem outcomeStatus_ne_pending (succeeded : Bool) : outcomeStatus succeeded ≠ .pending := by
  cases succeeded <;> nofun

def afterCommand (job : Job) (card : Card) (rest : List Card) (results : List Message)
    (hasPending succeeded : Bool) : State :=
  if job.token ≠ s.chainToken then { s with busy := false }
  else
    runToolCalls s.messages job rest (results ++ [.tool card.id]) hasPending
      (s.patchCard job.index card.id (outcomeStatus succeeded))

/-! ## The user's decision -/

def finishBatch (seen : List Message) (job : Job) (prior results : List Message) : State :=
  s.continueConversation (seen ++ (prior ++ results)) (job.round + 1) job.born .batch

/-- The loop of `resolveBatch` over approved cards up to its next command, or to its end. -/
def runApproved (seen : List Message) (job : Job) (prior results : List Message) :
    List Card → State
  | [] => s.finishBatch seen job prior results
  | card :: rest =>
      ((s.patchCard job.index card.id .approved).record
        (.executed card s.permissionMode s.chainToken)).suspend
          (.approving job card rest prior results)

def afterApproved (job : Job) (card : Card) (rest : List Card) (prior results : List Message)
    (succeeded : Bool) : State :=
  if job.token ≠ s.chainToken then s.resume .batch
  else
    (s.patchCard job.index card.id (outcomeStatus succeeded)).runApproved s.messages job prior
      (results ++ [.tool card.id]) rest

def rejectCard (job : Job) (card : Card) : State :=
  (s.patchCard job.index card.id .rejected).record (.rejected card)

/-- The chain that a batch of cards belongs to. -/
def bornOf (cards : List Card) : Nat :=
  ((cards.head?.bind Card.origin).map Origin.born).getD s.chainToken

/-- The message at an index shows cards for the user to decide on. -/
def awaitsDecision (index : Nat) : Bool :=
  (s.messages[index]?).any fun message ↦ message.pendingCards ≠ []

def resolveBatch (index : Nat) (approved : Bool) : State :=
  if s.resolvingBatch then s
  else
    match s.messages[index]? with
    | none => s
    | some message =>
        let pendingCards := message.pendingCards
        if pendingCards = [] then s
        else
          let job : Job :=
            ⟨index, message.round.getD 0, s.chainToken, s.bornOf pendingCards⟩
          let prior := (s.pendingAutoResults.lookup index).getD []
          let held := { s.forgetResults index with resolvingBatch := true, busy := true }
          if approved then
            (held.record (.approved pendingCards)).runApproved s.messages job prior [] pendingCards
          else
            (pendingCards.foldl (fun s card ↦ s.rejectCard job card) held).finishBatch
              s.messages job prior (pendingCards.map fun card ↦ .tool card.id)

/-! ## What settles a task -/

/-- The cards of a response, each with its own number. -/
def cardsOf (born : Nat) (calls : List ToolCall) : List Card :=
  (calls.zipIdx s.calls).map fun (call, serial) ↦ ⟨call, .pending, some ⟨serial, born⟩⟩

theorem serials_cardsOf (born : Nat) (calls : List ToolCall) :
    (s.cardsOf born calls).map Card.serial = (List.range' s.calls calls.length).map some := by
  calc (s.cardsOf born calls).map Card.serial
      = ((calls.zipIdx s.calls).map Prod.snd).map some := by
        simp only [cardsOf, List.map_map]
        rfl
    _ = _ := by rw [List.zipIdx_map_snd]

theorem ids_cardsOf (born : Nat) (calls : List ToolCall) :
    (s.cardsOf born calls).map Card.id = calls.map ToolCall.id := by
  calc (s.cardsOf born calls).map Card.id
      = ((calls.zipIdx s.calls).map Prod.fst).map ToolCall.id := by
        simp only [cardsOf, List.map_map]
        rfl
    _ = _ := by rw [List.zipIdx_map_fst]

theorem mem_cardsOf {born : Nat} {calls : List ToolCall} {card : Card}
    (h : card ∈ s.cardsOf born calls) :
    card.status = .pending ∧ ∃ n, s.calls ≤ n ∧ n < s.calls + calls.length ∧
      card.origin = some ⟨n, born⟩ := by
  obtain ⟨⟨call, n⟩, hmem, rfl⟩ := List.mem_map.mp h
  exact ⟨rfl, n, List.le_snd_of_mem_zipIdx hmem, List.snd_lt_add_of_mem_zipIdx hmem, rfl⟩

theorem cardsOf_eq_nil {born : Nat} {calls : List ToolCall} :
    s.cardsOf born calls = [] ↔ calls = [] := by
  simp [cardsOf]

/-- The state with the message of a response. -/
def responded (born round : Nat) (calls : List ToolCall) : State :=
  { s.append (.response round (s.cardsOf born calls)) with calls := s.calls + calls.length }

/-- `submit` once `ensureConversation` has ended. -/
def ensured (born : Nat) : State :=
  let nextMessages := s.messages ++ [.user]
  { s with messages := nextMessages }.continueConversation nextMessages 0 born .plain

def answered (born token round : Nat) (caller : Caller) (calls : List ToolCall) : State :=
  if token ≠ s.chainToken then { s with busy := false }.resume caller
  else
    let grown := s.responded born round calls
    let job : Job := ⟨s.messages.length, round, token, born⟩
    if calls = [] then { grown with busy := false }.resume caller
    else (grown.suspend (.deferred job (s.cardsOf born calls))).resume caller

def failed (token : Nat) (caller : Caller) : State :=
  if token ≠ s.chainToken then { s with busy := false }.resume caller
  else { s.append .note with busy := false }.resume caller

/-- `selectConversation` once the stored messages are there. -/
def loaded (stored : List Message) : State :=
  { s with messages := if stored = [] then initialMessages else stored.map Message.restore }

end State

/-! ## Runs -/

inductive Outcome where
  | ensured
  | response (calls : List ToolCall)
  | failure
  | timer
  | exit (succeeded : Bool)
  | stored (messages : List Message)
deriving DecidableEq, Repr

inductive Event where
  | submit
  | resolveBatch (index : Nat) (approved : Bool)
  /-- The target changes, or a new conversation begins. -/
  | switch
  | selectConversation
  | setPermissionMode (mode : PermissionMode)
  | settle (task : Nat) (outcome : Outcome)
deriving DecidableEq, Repr

namespace State

variable (s : State)

/-- What goes on when a task, which the state no longer has, is settled. -/
def wake : Task → Outcome → Option State
  | .submitting born, .ensured => some (s.ensured born)
  | .asking born token round caller, .response calls =>
      some (s.answered born token round caller calls)
  | .asking _ token _ caller, .failure => some (s.failed token caller)
  | .deferred job cards, .timer => some (runToolCalls s.messages job cards [] false s)
  | .running job card rest results hasPending, .exit succeeded =>
      some (s.afterCommand job card rest results hasPending succeeded)
  | .approving job card rest prior results, .exit succeeded =>
      some (s.afterApproved job card rest prior results succeeded)
  | .loading, .stored messages => some (s.loaded messages)
  | .loading, .failure => some s
  | _, _ => none

def without (task : Nat) : State := { s with tasks := s.tasks.eraseIdx task }

def step : Event → Option State
  | .submit => if s.busy then none else some (s.suspend (.submitting s.chainToken))
  | .resolveBatch index approved => some (s.resolveBatch index approved)
  | .switch => some { s.breakChain with messages := initialMessages }
  | .selectConversation => if s.busy then none else some (s.breakChain.suspend .loading)
  | .setPermissionMode mode => some { s with permissionMode := mode }
  | .settle task outcome => s.tasks[task]?.bind fun t ↦ (s.without task).wake t outcome

end State

end KaduoxSsh.Desktop.Ai
