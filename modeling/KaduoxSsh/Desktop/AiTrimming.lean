import KaduoxSsh.Desktop.AiProtocol
import KaduoxSsh.Hosts.Model
import Mathlib.Algebra.GroupWithZero.Nat

/-!
# How much of a conversation is sent

`trimWireMessages` begins with one of the last sixty messages, and goes back to the message
that a tool answers where it would begin with an answer. `validate_messages` of `ai.rs` takes
at most sixty-four messages. The difference is made up for by a batch of four answers, unless
a note has to go in front of it.
-/

namespace KaduoxSsh.Desktop.Ai

open Hosts Result List

/-! ## What the backend takes -/

def maxMessages : Nat := 64

def maxMessageChars : Nat := 12000

/-- A message of a request. -/
structure AiMessageDto (J : Type) where
  role : String
  content : Option String
  toolCalls : Option J
  toolCallId : Option String

namespace AiMessageDto

variable {J : Type} (message : AiMessageDto J)

def text : List Char := (message.content.getD "").toList

def validate : Result Unit := do
  bailIf (message.role ∉ ["user", "assistant", "tool"]) "AI 消息角色无效"
  bailIf ((message.toolCalls.isSome || message.toolCallId.isSome) = false ∧
      (trim message.text = [] ∨ message.text.length > maxMessageChars))
    s!"单条 AI 消息不能为空且不能超过 {maxMessageChars} 个字符"
  bailIf (message.text.length > maxMessageChars * 4) "单条 AI 消息过长"

end AiMessageDto

/-- The number of characters of the messages of a request. -/
def validateMessages {J : Type} (messages : List (AiMessageDto J)) : Result Nat := do
  bailIf (messages = []) "AI 消息不能为空"
  bailIf (messages.length > maxMessages) s!"AI 对话最多保留 {maxMessages} 条消息"
  messages.forM AiMessageDto.validate
  return (messages.map fun message ↦ message.text.length).sum

/-- Of a request that is taken the length is in bounds. -/
theorem validateMessages_length_le {J : Type} {messages : List (AiMessageDto J)} {total : Nat}
    (h : validateMessages messages = .ok total) : messages.length ≤ maxMessages := by
  obtain ⟨-, h⟩ := check_bind_eq_ok.mp h
  obtain ⟨hlength, -⟩ := check_bind_eq_ok.mp h
  exact Nat.le_of_not_lt (bailIf_eq_ok.mp hlength)

/-! ## Batches -/

/-- Whether a message carries calls. -/
def Message.carriesCalls (message : Message) : Bool :=
  message.role = .assistant && message.toolCalls.isSome

/-- A message with calls is directly followed by one to four tool messages that answer it, and
there are no other tool messages. What it is to answer is left open. -/
inductive Batched (answering : Message → List Message → Prop) : List Message → Prop
  | nil : Batched answering []
  | plain {message : Message} {rest : List Message} (role : message.role ≠ .tool)
      (calls : message.carriesCalls = false) (more : Batched answering rest) :
      Batched answering (message :: rest)
  | batch {message : Message} {answers rest : List Message}
      (calls : message.carriesCalls = true) (tools : ∀ answer ∈ answers, answer.role = .tool)
      (some : 1 ≤ answers.length) (few : answers.length ≤ 4) (answered : answering message answers)
      (more : Batched answering rest) : Batched answering (message :: (answers ++ rest))

section

variable {answering : Message → List Message → Prop} {messages : List Message} {k : Nat}

/-- The role of the message at an index. -/
def roleAt (messages : List Message) (k : Nat) : Option Role := (messages[k]?).map Message.role

theorem Message.role_of_carriesCalls {message : Message} (h : message.carriesCalls = true) :
    message.role = .assistant := by
  rw [carriesCalls, Bool.and_eq_true, decide_eq_true_iff] at h
  exact h.1

/-- Batches stay whole where a conversation is cut before a message that is no answer. -/
theorem Batched.drop (h : Batched answering messages) (hk : roleAt messages k ≠ some .tool) :
    Batched answering (messages.drop k) := by
  induction h generalizing k with
  | nil =>
      rw [drop_nil]
      exact .nil
  | plain role calls more ih =>
      cases k with
      | zero => exact .plain role calls more
      | succ k => exact ih hk
  | @batch message answers rest calls tools some few answered more ih =>
      cases k with
      | zero => exact .batch calls tools some few answered more
      | succ k =>
          have hnext : roleAt (answers ++ rest) k ≠ .some .tool := hk
          rw [drop_succ_cons]
          by_cases hlt : k < answers.length
          · refine absurd ?_ hnext
            rw [roleAt, List.getElem?_append_left hlt, List.getElem?_eq_getElem hlt]
            exact congrArg Option.some (tools _ (getElem_mem hlt))
          · have hle : answers.length ≤ k := Nat.le_of_not_lt hlt
            rw [roleAt, List.getElem?_append_right hle] at hnext
            rw [drop_append, drop_eq_nil_of_le hle, nil_append]
            exact ih hnext

theorem Batched.first (h : Batched answering messages) : roleAt messages 0 ≠ some .tool := by
  intro hrole
  cases h with
  | nil => cases hrole
  | plain role calls more => exact role (Option.some.inj hrole)
  | batch calls tools some few answered more =>
      have hassistant := Option.some.inj hrole
      rw [Message.role_of_carriesCalls calls] at hassistant
      cases hassistant

/-- The message before one that is no answer carries no calls. -/
theorem Batched.not_carriesCalls (h : Batched answering messages) {message : Message}
    (hmessage : messages[k]? = some message)
    (hnext : roleAt messages (k + 1) ≠ some .tool) : message.carriesCalls = false := by
  refine Bool.eq_false_iff.mpr fun hcalls ↦ ?_
  have hrole : roleAt messages k ≠ some .tool := by
    rw [roleAt, hmessage, Option.map_some, Message.role_of_carriesCalls hcalls]
    exact nofun
  have hdrop := h.drop hrole
  have hhead : messages.drop k = message :: messages.drop (k + 1) := by
    obtain ⟨hk, rfl⟩ := List.getElem?_eq_some_iff.mp hmessage
    exact drop_eq_getElem_cons hk
  rw [hhead] at hdrop
  generalize hrest : messages.drop (k + 1) = rest at hdrop
  cases hdrop with
  | plain role calls more =>
      rw [hcalls] at calls
      cases calls
  | @batch _ answers rest calls tools some few answered more =>
      obtain ⟨answer, answers, rfl⟩ := exists_cons_of_length_pos some
      have hanswer : messages[k + 1]? = .some answer := by
        rw [← List.head?_drop, hrest]
        rfl
      refine hnext ?_
      rw [roleAt, hanswer, Option.map_some, tools answer mem_cons_self]

/-- There are no five answers in a row. -/
theorem Batched.not_tools (h : Batched answering messages) :
    ¬∀ i < 5, roleAt messages (k + i) = some .tool := by
  induction h generalizing k with
  | nil => exact fun h ↦ absurd (h 0 (by omega)) nofun
  | plain role calls more ih =>
      cases k with
      | zero => exact fun h ↦ role (Option.some.inj (h 0 (by omega)))
      | succ k =>
          intro h
          refine ih (k := k) fun i hi ↦ ?_
          rw [← h i hi, Nat.add_right_comm]
          rfl
  | @batch message answers rest calls tools some few answered more ih =>
      have hbehind : ∀ k i, answers.length ≤ k + i →
          roleAt (message :: (answers ++ rest)) (k + 1 + i) =
            roleAt rest (k + i - answers.length) := by
        intro k i hle
        rw [Nat.add_right_comm, roleAt, List.getElem?_cons_succ, List.getElem?_append_right hle]
        rfl
      intro h
      cases k with
      | zero =>
          have hassistant := Option.some.inj (h 0 (by omega))
          rw [Message.role_of_carriesCalls calls] at hassistant
          cases hassistant
      | succ k =>
          by_cases hlt : k < answers.length
          · have hfirst := h (answers.length - k) (by omega)
            rw [hbehind k _ (by omega), Nat.add_sub_cancel' hlt.le, Nat.sub_self] at hfirst
            exact more.first hfirst
          · refine ih (k := k - answers.length) fun i hi ↦ ?_
            rw [← h i hi, hbehind k i (by omega)]
            congr 1
            omega

/-! ## Where a conversation is cut -/

theorem startBefore_le (start : Nat) : startBefore messages start ≤ start := by
  induction start with
  | zero => exact Nat.le_refl 0
  | succ start ih =>
      rw [startBefore]
      split_ifs
      · exact ih.trans (Nat.le_succ start)
      · exact Nat.le_refl _

/-- The place is gone back from over answers only. -/
theorem roleAt_of_startBefore_lt {start i : Nat} (hlt : startBefore messages start < i)
    (hle : i ≤ start) : roleAt messages i = some .tool := by
  induction start with
  | zero => exact absurd (hlt.trans_le hle) (Nat.not_lt_zero _)
  | succ start ih =>
      rw [startBefore] at hlt
      split_ifs at hlt with htool
      · rcases Nat.lt_or_eq_of_le hle with hle | rfl
        · exact ih hlt (Nat.le_of_lt_succ hle)
        · exact htool
      · exact absurd hlt (Nat.not_lt.mpr hle)

theorem roleAt_startBefore {start : Nat} (h : startBefore messages start ≠ 0) :
    roleAt messages (startBefore messages start) ≠ some .tool := by
  intro hrole
  obtain ⟨message, hmessage, htool⟩ := Option.map_eq_some_iff.mp hrole
  exact startBefore_role h hmessage htool

/-- The place is gone back from by four at most. -/
theorem Batched.le_startBefore (h : Batched answering messages) (start : Nat) :
    start ≤ startBefore messages start + 4 := by
  refine Nat.le_of_not_lt fun hlt ↦ h.not_tools (k := startBefore messages start + 1) fun i hi ↦ ?_
  have hle : startBefore messages start + 1 + i ≤ start := by omega
  exact roleAt_of_startBefore_lt (by omega) hle

/-- Of a long conversation all is kept, or what is behind a place before which no batch is cut. -/
theorem Batched.trimWireMessages_eq (h : Batched answering messages)
    (hlong : wireMessageLimit < messages.length) :
    trimWireMessages messages =
      if startBefore messages (messages.length - wireMessageLimit) = 0 then messages
      else .user ::
        messages.drop (startBefore messages (messages.length - wireMessageLimit)) := by
  have hnot : ¬(0 < startBefore messages (messages.length - wireMessageLimit) ∧
      (messages[startBefore messages (messages.length - wireMessageLimit) - 1]?).any
        fun previous ↦ previous.role = .assistant && previous.toolCalls.isSome) := by
    rintro ⟨hpos, hprevious⟩
    obtain ⟨previous, hsome, hcalls⟩ := (Option.any_eq_true _ _).mp hprevious
    have hnone := h.not_carriesCalls hsome (by
      rw [Nat.sub_add_cancel hpos]
      exact roleAt_startBefore hpos.ne')
    rw [Message.carriesCalls, hcalls] at hnone
    cases hnone
  rw [trimWireMessages, if_neg (Nat.not_le.mpr hlong)]
  dsimp only
  rw [if_neg hnot]

/-- The last sixty messages begin with the fourth answer of a batch that is not the first of the
conversation. -/
def CutsFullBatch (messages : List Message) : Prop :=
  maxMessages < messages.length ∧
    ∀ i < 4, roleAt messages (messages.length - wireMessageLimit - i) = some .tool

/-- What `trimWireMessages` is for: the end of a conversation with whole batches, behind one note
at most, in the bounds of the backend. -/
structure Trimmed (answering : Message → List Message → Prop) (messages result : List Message) :
    Prop where
  suffix : ∃ kept, kept <:+ messages ∧ (result = kept ∨ result = .user :: kept)
  batched : Batched answering result
  length : result.length ≤ maxMessages

theorem Batched.trim_suffix (h : Batched answering messages) :
    ∃ kept, kept <:+ messages ∧
      (trimWireMessages messages = kept ∨ trimWireMessages messages = .user :: kept) := by
  by_cases hlong : wireMessageLimit < messages.length
  · rw [h.trimWireMessages_eq hlong]
    split_ifs
    · exact ⟨messages, suffix_rfl, .inl rfl⟩
    · exact ⟨_, drop_suffix _ _, .inr rfl⟩
  · exact ⟨messages, suffix_rfl, .inl (if_pos (Nat.le_of_not_lt hlong))⟩

theorem Batched.trim (h : Batched answering messages) :
    Batched answering (trimWireMessages messages) := by
  by_cases hlong : wireMessageLimit < messages.length
  · rw [h.trimWireMessages_eq hlong]
    split_ifs with hzero
    · exact h
    · exact .plain (by decide) rfl (h.drop (roleAt_startBefore hzero))
  · rw [trimWireMessages, if_pos (Nat.le_of_not_lt hlong)]
    exact h

theorem Batched.length_trim_le_iff (h : Batched answering messages) :
    (trimWireMessages messages).length ≤ maxMessages ↔ ¬CutsFullBatch messages := by
  by_cases hlong : wireMessageLimit < messages.length
  · have hle := h.le_startBefore (messages.length - wireMessageLimit)
    have hge := @startBefore_le messages (messages.length - wireMessageLimit)
    have hcut : CutsFullBatch messages ↔ maxMessages < messages.length ∧
        startBefore messages (messages.length - wireMessageLimit) + 4 =
          messages.length - wireMessageLimit := by
      refine and_congr_right fun hmany ↦ ⟨fun htools ↦ ?_, fun hfour i hi ↦ ?_⟩
      · by_contra hne
        have hnear : startBefore messages (messages.length - wireMessageLimit) ≠ 0 := by
          rw [wireMessageLimit, maxMessages] at *
          omega
        refine roleAt_startBefore hnear ?_
        have hfew := htools (messages.length - wireMessageLimit -
          startBefore messages (messages.length - wireMessageLimit)) (by omega)
        rwa [Nat.sub_sub_self hge] at hfew
      · exact roleAt_of_startBefore_lt (by omega) (Nat.sub_le _ _)
    rw [h.trimWireMessages_eq hlong, hcut]
    rw [wireMessageLimit, maxMessages] at *
    split_ifs with hzero
    · omega
    · rw [length_cons, length_drop]
      omega
  · rw [trimWireMessages, if_pos (Nat.le_of_not_lt hlong)]
    rw [CutsFullBatch]
    rw [wireMessageLimit] at hlong
    rw [maxMessages]
    omega

/-- A conversation of whole batches is trimmed as it should be unless a full batch is cut. -/
theorem trimWireMessages_trimmed (h : Batched answering messages) :
    Trimmed answering messages (trimWireMessages messages) ↔ ¬CutsFullBatch messages :=
  ⟨fun htrimmed ↦ h.length_trim_le_iff.mp htrimmed.length,
    fun hcut ↦ ⟨h.trim_suffix, h.trim, h.length_trim_le_iff.mpr hcut⟩⟩

/-- The backend takes no request for a conversation with a full batch that is cut. -/
theorem Batched.refused {J : Type} (h : Batched answering messages) (hcut : CutsFullBatch messages)
    {request : List (AiMessageDto J)}
    (hrequest : request.length = (trimWireMessages messages).length) :
    (validateMessages request).isOk = false := by
  refine isOk_eq_false_iff.mpr fun total hok ↦ ?_
  have hle := validateMessages_length_le hok
  rw [hrequest] at hle
  exact h.length_trim_le_iff.mp hle hcut

end

/-- The calls are answered one by one, in their order. -/
def AnswersInOrder (message : Message) (answers : List Message) : Prop :=
  answers.map Message.toolCallId = (message.toolCalls.getD []).map some

theorem batched_users (n : Nat) : Batched AnswersInOrder (replicate n .user) := by
  induction n with
  | zero => exact .nil
  | succ n ih => exact .plain (by decide) rfl ih

/-- The last sixty of these messages begin with the second of two answers. -/
def answeredConversation : List Message :=
  .user :: ⟨.assistant, some ["a", "b"], none, [], none⟩ :: .tool "a" :: .tool "b" ::
    replicate 59 .user

theorem trimWireMessages_trimmed_answered :
    trimWireMessages answeredConversation = .user :: answeredConversation.drop 1 ∧
      Trimmed AnswersInOrder answeredConversation (trimWireMessages answeredConversation) := by
  refine ⟨rfl, (trimWireMessages_trimmed (.plain (by decide) rfl ?_)).mpr fun hcut ↦
    absurd hcut.1 (by decide)⟩
  exact @Batched.batch _ ⟨.assistant, some ["a", "b"], none, [], none⟩ [.tool "a", .tool "b"]
    (replicate 59 .user) rfl (by decide) (by decide) (by decide) rfl (batched_users 59)

/-- A note is put in front of sixty-four messages. -/
theorem trimmed_beyond_bound :
    ¬∀ messages, Batched AnswersInOrder messages →
      Trimmed AnswersInOrder messages (trimWireMessages messages) := by
  let calls : Message := ⟨.assistant, some ["a", "b", "c", "d"], none, [], none⟩
  let answers : List Message := [.tool "a", .tool "b", .tool "c", .tool "d"]
  have hbatched : Batched AnswersInOrder (.user :: calls :: (answers ++ List.replicate 59 .user)) :=
    .plain (by decide) rfl (.batch rfl (by decide) (by decide) (by decide) rfl (batched_users 59))
  have hlength : (trimWireMessages
      (.user :: calls :: (answers ++ List.replicate 59 .user))).length = 65 := by decide
  intro h
  have hle := (h _ hbatched).length
  rw [hlength] at hle
  exact absurd hle (by decide)

end KaduoxSsh.Desktop.Ai
