import KaduoxSsh.Desktop.Classify

/-!
# Messages of the assistant

The conversation that `AiView` keeps, and what of it is sent to the provider:
`trimWireMessages` of `aiTrim.ts` takes the last messages, but does not begin
with the answer to a tool call.

Of a message only what steers the chat is here: its role, the ids of the tool
calls that it carries or answers, the cards with the commands, and the round.
Texts are left out. A card also has its `Origin`, which is not in the code and
which no function reads: it tells the calls of all responses apart.
-/

namespace KaduoxSsh.Desktop.Ai

inductive CardStatus where
  | pending
  | auto
  | approved
  | rejected
  | blocked
  | done
  | error
  | interrupted
deriving DecidableEq, Repr

structure ToolCall where
  id : String
  hostAlias : String
  command : String
  riskLevel : RiskLevel
deriving DecidableEq, Repr

/-- The number of a tool call among those of all responses, and the chain token at the
submission that led to it. -/
structure Origin where
  serial : Nat
  born : Nat
deriving DecidableEq, Repr

/-- A command of an assistant message. One that was read back from the store has no origin. -/
structure Card where
  toolCall : ToolCall
  status : CardStatus
  origin : Option Origin
deriving DecidableEq, Repr

namespace Card

variable (card : Card)

def id : String := card.toolCall.id

def serial : Option Nat := card.origin.map Origin.serial

/-- A card that waits for the user when the conversation is loaded is only shown from then on. -/
def restore : Card :=
  { card with
    status := if card.status = .pending then .interrupted else card.status
    origin := none }

@[simp] theorem serial_restore : card.restore.serial = none := rfl

theorem restore_not_pending : card.restore.status ≠ .pending := by
  simp only [restore]
  split <;> simp_all

end Card

inductive Role where
  | user
  | assistant
  | tool
deriving DecidableEq, Repr

structure Message where
  role : Role
  /-- The ids of the calls that the assistant's message carries. -/
  toolCalls : Option (List String)
  /-- The call that a tool's message answers. -/
  toolCallId : Option String
  commandCards : List Card
  round : Option Nat
deriving DecidableEq, Repr

namespace Message

def user : Message := ⟨.user, none, none, [], none⟩

/-- A message of the assistant that the client wrote itself. -/
def note : Message := ⟨.assistant, none, none, [], none⟩

def tool (toolCallId : String) : Message := ⟨.tool, none, some toolCallId, [], none⟩

/-- What the provider answered in a round. -/
def response (round : Nat) (cards : List Card) : Message :=
  { role := .assistant
    toolCalls := if cards = [] then none else some (cards.map Card.id)
    toolCallId := none
    commandCards := cards
    round := some round }

variable (message : Message)

/-- A message as it is read back from the store, which keeps no round. -/
def restore : Message :=
  { message with commandCards := message.commandCards.map Card.restore, round := none }

def pendingCards : List Card := message.commandCards.filter (·.status = .pending)

/-- The numbers of the calls, in the order of the cards. -/
def serials : List (Option Nat) := message.commandCards.map Card.serial

/-- The cards of one id get a new status. -/
def patchCard (id : String) (status : CardStatus) : Message :=
  { message with
    commandCards := message.commandCards.map fun card ↦
      if card.id = id then { card with status } else card }

@[simp] theorem serials_patchCard (id : String) (status : CardStatus) :
    (message.patchCard id status).serials = message.serials := by
  simp only [serials, patchCard, List.map_map]
  apply List.map_congr_left
  intro card _
  simp only [Function.comp_apply]
  split <;> rfl

end Message

def initialMessages : List Message := [.note]

/-! ## Cards in a conversation -/

/-- A card of the message at an index. -/
def Shows (messages : List Message) (index : Nat) (card : Card) : Prop :=
  ∃ message, messages[index]? = some message ∧ card ∈ message.commandCards

theorem Shows.lt {messages : List Message} {index : Nat} {card : Card}
    (h : Shows messages index card) : index < messages.length :=
  let ⟨_, hmessage, _⟩ := h
  (List.getElem?_eq_some_iff.mp hmessage).1

/-- The messages after a change of the status of cards, as `patchCard` makes it. -/
def patchCards (messages : List Message) (index : Nat) (id : String) (status : CardStatus) :
    List Message :=
  messages.modify index fun message ↦ message.patchCard id status

variable {messages : List Message} {index i : Nat} {id : String} {status : CardStatus}
  {card : Card}

theorem shows_patchCards : Shows (patchCards messages index id status) i card ↔
    ∃ before, Shows messages i before ∧
      card = if i = index ∧ before.id = id then { before with status } else before := by
  simp only [Shows, patchCards, List.getElem?_modify, Option.map_eq_map, Option.map_eq_some_iff]
  constructor
  · rintro ⟨_, ⟨message, hmessage, rfl⟩, hmem⟩
    by_cases hi : index = i
    · rw [if_pos hi] at hmem
      obtain ⟨before, hbefore, rfl⟩ := List.mem_map.mp hmem
      exact ⟨before, ⟨message, hmessage, hbefore⟩, by simp [hi]⟩
    · rw [if_neg hi] at hmem
      exact ⟨card, ⟨message, hmessage, hmem⟩, by simp [Ne.symm hi]⟩
  · rintro ⟨before, ⟨message, hmessage, hbefore⟩, rfl⟩
    refine ⟨_, ⟨message, hmessage, rfl⟩, ?_⟩
    by_cases hi : index = i
    · rw [if_pos hi]
      exact List.mem_map.mpr ⟨before, hbefore, by simp [hi]⟩
    · rw [if_neg hi]
      simpa [Ne.symm hi] using hbefore

/-- What does not read the statuses of cards is not changed with them. -/
theorem map_patchCards {β : Type*} {f : Message → β}
    (hf : ∀ message : Message, f (message.patchCard id status) = f message) :
    (patchCards messages index id status).map f = messages.map f := by
  apply List.ext_getElem?
  intro i
  simp only [patchCards, List.getElem?_map, List.getElem?_modify, Option.map_eq_map,
    Option.map_map]
  congr 1
  funext message
  simp only [Function.comp_apply]
  split
  · exact hf message
  · rfl

@[simp] theorem length_patchCards :
    (patchCards messages index id status).length = messages.length := by
  simp [patchCards]

theorem shows_append {message : Message} : Shows (messages ++ [message]) i card ↔
    Shows messages i card ∨ i = messages.length ∧ card ∈ message.commandCards := by
  simp only [Shows]
  rcases lt_trichotomy i messages.length with hi | rfl | hi
  · simp [List.getElem?_append_left hi, hi.ne]
  · simp
  · have hlast : (messages ++ [message])[i]? = none :=
      List.getElem?_eq_none (by simp; omega)
    simp [hlast, List.getElem?_eq_none hi.le, hi.ne']

/-- A card that is shown after a change was there before, with its number and its id. -/
theorem Shows.before_patch (h : Shows (patchCards messages index id status) i card) :
    ∃ before, Shows messages i before ∧ card.serial = before.serial ∧ card.id = before.id ∧
      (card.status = before.status ∧ ¬(i = index ∧ card.id = id) ∨
        i = index ∧ card.id = id ∧ card.status = status) := by
  obtain ⟨before, hbefore, rfl⟩ := shows_patchCards.mp h
  refine ⟨before, hbefore, ?_⟩
  by_cases hhit : i = index ∧ before.id = id
  · rw [if_pos hhit]
    exact ⟨rfl, rfl, .inr ⟨hhit.1, hhit.2, rfl⟩⟩
  · rw [if_neg hhit]
    exact ⟨rfl, rfl, .inl ⟨rfl, hhit⟩⟩

/-- Stored messages show no card with a number, and none that waits. -/
theorem Shows.of_restored {stored : List Message}
    (h : Shows (stored.map Message.restore) i card) :
    card.serial = none ∧ card.status ≠ .pending := by
  obtain ⟨_, hmessage, hmem⟩ := h
  rw [List.getElem?_map, Option.map_eq_some_iff] at hmessage
  obtain ⟨message, -, rfl⟩ := hmessage
  obtain ⟨before, -, rfl⟩ := List.mem_map.mp hmem
  exact ⟨before.serial_restore, before.restore_not_pending⟩

/-! ## What the provider gets -/

/-- A message as `chatWithAi` passes it on. -/
structure WireMessage where
  role : Role
  toolCalls : Option (List String)
  toolCallId : Option String
deriving DecidableEq, Repr

def Message.wire (message : Message) : WireMessage :=
  ⟨message.role, message.toolCalls, message.toolCallId⟩

def wireMessageLimit : Nat := 60

/-- The last place up to `start` whose message is not a tool's, or the first one. -/
def startBefore (messages : List Message) : Nat → Nat
  | 0 => 0
  | start + 1 =>
      if (messages[start + 1]?).map Message.role = some .tool then startBefore messages start
      else start + 1

def trimWireMessages (messages : List Message) : List Message :=
  if messages.length ≤ wireMessageLimit then messages
  else
    let start := startBefore messages (messages.length - wireMessageLimit)
    -- an assistant's message with calls right before the place is taken with what follows it
    let start :=
      if 0 < start ∧ (messages[start - 1]?).any fun previous ↦
          previous.role = .assistant && previous.toolCalls.isSome then start - 1
      else start
    if start = 0 then messages else .user :: messages.drop start

/-- The messages that say what they answer, if they are a tool's. -/
def answering (messages : List Message) : List Message :=
  messages.filter fun message ↦
    message.role ≠ .tool ∨ ∃ id, message.toolCallId = some id ∧ id ≠ ""

def wireMessages (conversation : List Message) : List WireMessage :=
  (trimWireMessages (answering conversation)).map Message.wire

end KaduoxSsh.Desktop.Ai
