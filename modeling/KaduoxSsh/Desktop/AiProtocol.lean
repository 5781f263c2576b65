import KaduoxSsh.Desktop.AiChat

/-!
# The conversations that are sent

What a provider expects of a conversation: the calls of an assistant's message are
answered by the tool messages right behind it, each call by one, and there are no
others. A conversation that keeps to this keeps to it when it is cut as
`trimWireMessages` cuts it.

What the chat loop sends does not always keep to it. The results of a round are put
behind the messages for the next request only, and never become messages of the
state. The request after that has the calls without their answers.
-/

namespace KaduoxSsh.Desktop.Ai

/-! ## The protocol -/

def WireMessage.callIds (message : WireMessage) : List String :=
  if message.role = .assistant then message.toolCalls.getD [] else []

structure Answers (message : WireMessage) (answers : List WireMessage) : Prop where
  each : ∀ id ∈ message.callIds, answers.countP (·.toolCallId = some id) = 1
  known : ∀ answer ∈ answers, ∃ id ∈ message.callIds, answer.toolCallId = some id

/-- The tool messages right behind a message answer its calls. -/
def Paired : List WireMessage → Prop
  | [] => True
  | message :: rest =>
      (message.role ≠ .tool → Answers message (rest.takeWhile (·.role = .tool))) ∧ Paired rest

structure FollowsProtocol (messages : List WireMessage) : Prop where
  paired : Paired messages
  starts : ∀ first ∈ messages.head?, first.role ≠ .tool

/-- In the second round the call of the first one is sent without its answer. -/
theorem second_round_unanswered : ∃ s, Reaches State.step (fun _ _ ↦ True) (.initial .approval) s ∧
    ∃ conversation ∈ s.sent, ¬FollowsProtocol conversation := by
  let list : ToolCall := ⟨"a", "web", "ls", .readOnly⟩
  let read : ToolCall := ⟨"b", "web", "cat log", .readOnly⟩
  let conversation : List WireMessage := [⟨.assistant, none, none⟩, ⟨.user, none, none⟩,
    ⟨.assistant, some ["a"], none⟩, ⟨.assistant, some ["b"], none⟩, ⟨.tool, none, some "b"⟩]
  have hnot : ¬FollowsProtocol conversation := by
    intro h
    exact absurd ((h.paired.2.2.1 nofun).each "a" (.head _)) nofun
  let events : List Event := [.submit, .settle 0 .ensured,
    .settle 0 (.response [list]), .settle 0 .timer, .settle 0 (.exit true),
    .settle 0 (.response [read]), .settle 0 .timer, .settle 0 (.exit true)]
  have hrun : (runEvents State.step (.initial .approval) events).map (·.sent[2]?) =
      some (some conversation) := by decide
  obtain ⟨s, hs, hsent⟩ := Option.map_eq_some_iff.mp hrun
  exact ⟨s, Reaches.start.runEvents events hs, conversation, List.mem_of_getElem? hsent, hnot⟩

section Paired

variable {message : WireMessage} {before rest answers messages : List WireMessage}

/-- A conversation is paired where it is cut before a message that is no answer. -/
theorem paired_append (h : message.role ≠ .tool) :
    Paired (before ++ message :: rest) ↔ Paired before ∧ Paired (message :: rest) := by
  induction before with
  | nil => simp [Paired]
  | cons first before ih =>
      have htake : (before ++ message :: rest).takeWhile (·.role = .tool) =
          before.takeWhile (·.role = .tool) := by
        rw [List.takeWhile_append, List.takeWhile_cons_of_neg (by simpa using h), List.append_nil]
        split
        next hall => exact ((List.takeWhile_prefix _).eq_of_length hall).symm
        next => rfl
      rw [List.cons_append, Paired, htake, ih, ← and_assoc]
      rfl

theorem paired_of_tools (h : ∀ answer ∈ answers, answer.role = .tool) : Paired answers := by
  induction answers with
  | nil => trivial
  | cons answer answers ih =>
      obtain ⟨hanswer, hrest⟩ := List.forall_mem_cons.mp h
      exact ⟨fun hne ↦ absurd hanswer hne, ih hrest⟩

theorem Paired.drop (h : Paired messages) (n : Nat) : Paired (messages.drop n) := by
  induction messages generalizing n with
  | nil => simpa using h
  | cons message messages ih =>
      cases n with
      | zero => exact h
      | succ n => exact ih h.2 n

theorem followsProtocol_append (h : message.role ≠ .tool) :
    FollowsProtocol (before ++ message :: rest) ↔
      FollowsProtocol before ∧ Paired (message :: rest) := by
  have hstarts : (∀ first ∈ (before ++ message :: rest).head?, first.role ≠ .tool) ↔
      ∀ first ∈ before.head?, first.role ≠ .tool := by
    cases before <;> simp [h]
  constructor
  · rintro ⟨hpaired, hhead⟩
    obtain ⟨hbefore, hrest⟩ := (paired_append h).mp hpaired
    exact ⟨⟨hbefore, hstarts.mp hhead⟩, hrest⟩
  · rintro ⟨⟨hbefore, hhead⟩, hrest⟩
    exact ⟨(paired_append h).mpr ⟨hbefore, hrest⟩, hstarts.mpr hhead⟩

/-- A message with its answers. -/
theorem paired_answered (htools : ∀ answer ∈ answers, answer.role = .tool)
    (h : Answers message answers) : Paired (message :: answers) := by
  have htake : answers.takeWhile (·.role = .tool) = answers :=
    List.takeWhile_eq_self_iff.mpr (by simpa using htools)
  exact ⟨fun _ ↦ htake.symm ▸ h, paired_of_tools htools⟩

/-- A message without calls needs no answer. -/
theorem paired_singleton (h : message.callIds = []) : Paired [message] :=
  ⟨fun _ ↦ ⟨by simp [h], nofun⟩, trivial⟩

end Paired

/-! ## Cutting a conversation -/

theorem startBefore_role {messages : List Message} {start : Nat} {message : Message}
    (hpos : startBefore messages start ≠ 0)
    (h : messages[startBefore messages start]? = some message) : message.role ≠ .tool := by
  induction start with
  | zero => exact absurd rfl hpos
  | succ start ih =>
      rw [startBefore] at h hpos
      split at h
      next htool =>
        rw [if_pos htool] at hpos
        exact ih hpos h
      next htool =>
        have hstart : (messages[start + 1]?).map Message.role = some message.role := by rw [h]; rfl
        exact fun hrole ↦ htool (hrole ▸ hstart)

theorem FollowsProtocol.cut {messages : List Message} {k : Nat}
    (h : FollowsProtocol (messages.map Message.wire))
    (hk : ∀ message, messages[k]? = some message → message.role ≠ .tool) :
    FollowsProtocol ((.user :: messages.drop k).map Message.wire) := by
  have hnone : ((messages.drop k).map Message.wire).takeWhile (·.role = .tool) = [] := by
    cases hdrop : messages.drop k with
    | nil => rfl
    | cons message rest =>
        have hhead : messages[k]? = some message := by
          rw [← List.head?_drop, hdrop, List.head?_cons]
        simpa [Message.wire] using hk message hhead
  refine ⟨⟨fun _ ↦ hnone.symm ▸ ⟨nofun, nofun⟩, ?_⟩, ?_⟩
  · rw [List.map_drop]
    exact h.paired.drop k
  · rintro _ ⟨⟩
    nofun

theorem FollowsProtocol.trim {messages : List Message}
    (h : FollowsProtocol (messages.map Message.wire)) :
    FollowsProtocol ((trimWireMessages messages).map Message.wire) := by
  rw [trimWireMessages]
  split
  · exact h
  extract_lets start first
  split
  · exact h
  next hfirst =>
  refine h.cut fun message hmessage ↦ ?_
  by_cases hprevious : 0 < start ∧ (messages[start - 1]?).any fun previous ↦
      previous.role = .assistant && previous.toolCalls.isSome
  · have hstart : first = start - 1 := if_pos hprevious
    rw [hstart] at hmessage
    have hassistant : message.role = .assistant ∧ message.toolCalls.isSome = true := by
      simpa [hmessage] using hprevious.2
    simp [hassistant.1]
  · have hstart : first = start := if_neg hprevious
    rw [hstart] at hmessage hfirst
    exact startBefore_role hfirst hmessage

/-! ## What a run keeps clear of -/

/-- A response of this session with calls. The messages never get their answers. -/
def Message.CarriesCalls (message : Message) : Prop :=
  message.round.isSome = true ∧ message.toolCalls.isSome = true

/-- The message at an index is the last one, and no other carries calls. -/
def State.OnlyLastCarries (s : State) (index : Nat) : Prop :=
  index + 1 = s.messages.length ∧
    ∀ i message, s.messages[i]? = some message → message.CarriesCalls → i = index

/-- What a step must not do for the calls to be answered in what is sent. -/
def KeepsCallsAnswered (s : State) : Event → Prop
  -- the user decides on cards whose other results are gone, or not there yet
  | .resolveBatch index approved => s.resolvingBatch = false → s.awaitsDecision index = true →
      (s.pendingAutoResults.lookup index).isSome = true ∧
        (approved = false → s.OnlyLastCarries index)
  | .settle task outcome => ∀ t, s.tasks[task]? = some t →
      match t, outcome with
      -- a submission after a round with calls
      | .submitting _, .ensured => ∀ message ∈ s.messages, ¬message.CarriesCalls
      | .asking _ token _ _, .response calls => token = s.chainToken →
          (calls.map ToolCall.id).Nodup ∧ "" ∉ calls.map ToolCall.id
      -- a later round with calls
      | .deferred job cards, .timer => job.token = s.chainToken ∧
          (State.Completes cards false → s.OnlyLastCarries job.index)
      | .running job _ rest _ hasPending, .exit _ => job.token = s.chainToken →
          State.Completes rest hasPending → s.OnlyLastCarries job.index
      | .approving job _ rest _ _, .exit _ => job.token = s.chainToken →
          rest = [] → s.OnlyLastCarries job.index
      -- messages that were not stored in full, or that replace those of a round at work
      | .loading, .stored stored => s.pendingAutoResults = [] ∧
          FollowsProtocol ((answering (stored.map Message.restore)).map Message.wire) ∧
          ∀ t ∈ s.tasks, t.work.isSome = true → t.token ≠ some s.chainToken
      | _, _ => True
  | _ => True

end KaduoxSsh.Desktop.Ai
