import KaduoxSsh.Desktop.AiProtocol
import Mathlib.Data.List.Nodup

/-!
# Accounts of the calls

The messages of a state keep to the protocol if the calls of this session are
struck out of them, `closedConversation`. A round has an `Account` of its calls:
each was answered, is left, or waits for the user. When nothing is left, the
results are the answers of the message that carries the calls, and behind this
message, as the last one, they make a conversation that keeps to the protocol.
-/

namespace KaduoxSsh.Desktop.Ai

open List

/-! ## Messages without the calls of this session -/

instance (message : Message) : Decidable message.CarriesCalls :=
  inferInstanceAs (Decidable (_ ∧ _))

namespace Message

variable {message : Message}

def closed (message : Message) : WireMessage :=
  if message.CarriesCalls then { message.wire with toolCalls := none } else message.wire

@[simp] theorem role_closed : message.closed.role = message.role := by
  rw [closed]
  split <;> rfl

theorem closed_of_not_carries (h : ¬message.CarriesCalls) : message.closed = message.wire :=
  if_neg h

theorem callIds_closed (h : message.CarriesCalls ∨ message.toolCalls = none) :
    message.closed.callIds = [] := by
  by_cases hcarries : message.CarriesCalls
  · simp [closed, hcarries, WireMessage.callIds]
  · simp [closed, hcarries, WireMessage.callIds, wire, h.resolve_left hcarries]

theorem not_carries_of_round (h : message.round = none) : ¬message.CarriesCalls := by
  simp [CarriesCalls, h]

end Message

def closedConversation (messages : List Message) : List WireMessage :=
  (answering messages).map Message.closed

section Closed

variable {messages seen results : List Message} {message : Message}

theorem answering_append (before after : List Message) :
    answering (before ++ after) = answering before ++ answering after :=
  filter_append ..

theorem answering_singleton (h : message.role ≠ .tool) : answering [message] = [message] := by
  simp [answering, h]

/-- Which messages are kept can be told from what is sent of them. -/
theorem map_answering {β : Type*} (f : Message → β) :
    (answering messages).map f = ((messages.map fun message ↦ (message.wire, f message)).filter
      fun pair ↦ pair.1.role ≠ .tool ∨ ∃ id, pair.1.toolCallId = some id ∧ id ≠ "").map
        Prod.snd := by
  simp only [answering, filter_map, map_map]
  rfl

theorem closedConversation_patchCards {index : Nat} {id : String} {status : CardStatus} :
    closedConversation (patchCards messages index id status) = closedConversation messages := by
  have hsame : (patchCards messages index id status).map (fun message ↦
      (message.wire, message.closed)) = messages.map fun message ↦
        (message.wire, message.closed) := map_patchCards fun _ ↦ rfl
  rw [closedConversation, map_answering, hsame, ← map_answering, closedConversation]

theorem wire_answering_congr (h : seen.map Message.wire = messages.map Message.wire) :
    (answering seen).map Message.wire = (answering messages).map Message.wire := by
  have hpairs : ∀ l : List Message, l.map (fun message ↦ (message.wire, message.wire)) =
      (l.map Message.wire).map fun wire ↦ (wire, wire) := by simp
  rw [map_answering, hpairs, h, ← hpairs, ← map_answering]

/-- A message that is no tool's, and whose calls are struck out or none. -/
theorem FollowsProtocol.closed_append (h : FollowsProtocol (closedConversation messages))
    (hrole : message.role ≠ .tool) (hcalls : message.CarriesCalls ∨ message.toolCalls = none) :
    FollowsProtocol (closedConversation (messages ++ [message])) := by
  rw [closedConversation, answering_append, answering_singleton hrole, map_append]
  refine (followsProtocol_append (by simpa using hrole)).mpr ⟨h, ?_⟩
  exact paired_singleton (Message.callIds_closed hcalls)

theorem closedConversation_eq (h : ∀ message ∈ messages, ¬message.CarriesCalls) :
    closedConversation messages = (answering messages).map Message.wire :=
  map_congr_left fun message hmem ↦
    Message.closed_of_not_carries (h message (mem_filter.mp hmem).1)

end Closed

/-! ## Accounts -/

namespace Message

variable (message : Message)

def ids : List String := message.commandCards.map Card.id

def Waits (id : String) : Prop :=
  ∃ card ∈ message.commandCards, card.id = id ∧ card.status = .pending

/-- A message of a response with calls. -/
structure Calling : Prop where
  role : message.role = .assistant
  round : message.round.isSome = true
  toolCalls : message.toolCalls = some message.ids
  nodup : message.ids.Nodup
  nonempty : "" ∉ message.ids

variable {message} {id other : String} {status : CardStatus}

@[simp] theorem ids_patchCard : (message.patchCard id status).ids = message.ids := by
  simp only [ids, patchCard, map_map]
  apply map_congr_left
  intro card _
  simp only [Function.comp_apply]
  split <;> rfl

theorem Calling.patchCard (h : message.Calling) : (message.patchCard id status).Calling where
  role := h.role
  round := h.round
  toolCalls := ids_patchCard.symm ▸ h.toolCalls
  nodup := ids_patchCard.symm ▸ h.nodup
  nonempty := ids_patchCard.symm ▸ h.nonempty

theorem waits_patchCard_of_ne (hne : other ≠ id) :
    (message.patchCard id status).Waits other ↔ message.Waits other := by
  constructor
  · rintro ⟨_, hmem, hid, hstatus⟩
    obtain ⟨card, hcard, rfl⟩ := mem_map.mp hmem
    by_cases hhit : card.id = id
    · rw [if_pos hhit] at hid
      exact absurd (hid.symm.trans hhit) hne
    · rw [if_neg hhit] at hid hstatus
      exact ⟨card, hcard, hid, hstatus⟩
  · rintro ⟨card, hcard, hid, hstatus⟩
    have hmiss : card.id ≠ id := fun hhit ↦ hne (hid.symm.trans hhit)
    exact ⟨card, mem_map.mpr ⟨card, hcard, if_neg hmiss⟩, hid, hstatus⟩

theorem waits_patchCard_self :
    (message.patchCard id status).Waits id ↔ status = .pending ∧ id ∈ message.ids := by
  constructor
  · rintro ⟨_, hmem, hid, hstatus⟩
    obtain ⟨card, hcard, rfl⟩ := mem_map.mp hmem
    by_cases hhit : card.id = id
    · rw [if_pos hhit] at hstatus
      exact ⟨hstatus, mem_map.mpr ⟨card, hcard, hhit⟩⟩
    · rw [if_neg hhit] at hid
      exact absurd hid hhit
  · rintro ⟨rfl, hmem⟩
    obtain ⟨card, hcard, hhit⟩ := mem_map.mp hmem
    exact ⟨_, mem_map_of_mem hcard, by rw [if_pos hhit]; exact ⟨hhit, rfl⟩⟩

end Message

/-- Each call was answered, is left, or waits, and no two of that. -/
structure Account (ids done remaining : List String) (waits : String → Prop) : Prop where
  nodup : (done ++ remaining).Nodup
  subset : ∀ id ∈ done ++ remaining, id ∈ ids
  covers : ∀ id ∈ ids, id ∈ done ∨ id ∈ remaining ∨ waits id

/-- The account of `runToolCalls` for the message at an index. -/
def LoopAccount (messages : List Message) (index : Nat) (cards : List Card)
    (results : List Message) (hasPending : Bool) : Prop :=
  ∃ message done, messages[index]? = some message ∧ message.Calling ∧
    results = done.map Message.tool ∧
    Account message.ids done (cards.map Card.id) (fun id ↦ hasPending = true ∧ message.Waits id) ∧
    ∀ id ∈ done, ¬message.Waits id

/-- The account of `resolveBatch`, for which no statuses of cards count. -/
def BatchAccount (messages : List Message) (index : Nat) (cards : List Card)
    (results : List Message) : Prop :=
  ∃ message done, messages[index]? = some message ∧ message.Calling ∧
    results = done.map Message.tool ∧
    Account message.ids done (cards.map Card.id) fun _ ↦ False

section Accounts

variable {messages results : List Message} {index i : Nat} {id : String} {card : Card}
  {cards rest : List Card} {hasPending : Bool} {status : CardStatus} {message : Message}

theorem getElem?_patchCards_self (h : messages[index]? = some message) :
    (patchCards messages index id status)[index]? = some (message.patchCard id status) := by
  simp [patchCards, h]

theorem getElem?_patchCards_of_ne (h : i ≠ index) :
    (patchCards messages i id status)[index]? = messages[index]? := by
  simp [patchCards, h]

theorem LoopAccount.patch_other (h : LoopAccount messages index cards results hasPending)
    (hne : i ≠ index) :
    LoopAccount (patchCards messages i id status) index cards results hasPending := by
  rw [LoopAccount, getElem?_patchCards_of_ne hne]
  exact h

theorem LoopAccount.append (h : LoopAccount messages index cards results hasPending) :
    LoopAccount (messages ++ [message]) index cards results hasPending := by
  obtain ⟨own, done, hown, hrest⟩ := h
  have hlt := (List.getElem?_eq_some_iff.mp hown).1
  exact ⟨own, done, (List.getElem?_append_left hlt).trans hown, hrest⟩

theorem BatchAccount.append (h : BatchAccount messages index cards results) :
    BatchAccount (messages ++ [message]) index cards results := by
  obtain ⟨own, done, hown, hrest⟩ := h
  have hlt := (List.getElem?_eq_some_iff.mp hown).1
  exact ⟨own, done, (List.getElem?_append_left hlt).trans hown, hrest⟩

theorem BatchAccount.patch (h : BatchAccount messages index cards results) :
    BatchAccount (patchCards messages i id status) index cards results := by
  obtain ⟨own, done, hown, hcalling, hresults, haccount⟩ := h
  by_cases hi : i = index
  · subst hi
    exact ⟨_, done, getElem?_patchCards_self hown, hcalling.patchCard, hresults,
      Message.ids_patchCard.symm ▸ haccount⟩
  · exact ⟨own, done, (getElem?_patchCards_of_ne hi).trans hown, hcalling, hresults, haccount⟩

/-- The next card is answered. -/
theorem Account.answer {ids done remaining : List String} {waits : String → Prop}
    (h : Account ids done (id :: remaining) waits) :
    Account ids (done ++ [id]) remaining waits where
  nodup := by simpa using h.nodup
  subset := by simpa using h.subset
  covers := by
    intro other hmem
    rcases h.covers other hmem with hdone | hleft | hwaits
    · exact .inl (mem_append_left _ hdone)
    · rcases mem_cons.mp hleft with rfl | hleft
      · exact .inl (by simp)
      · exact .inr (.inl hleft)
    · exact .inr (.inr hwaits)

theorem BatchAccount.answer (h : BatchAccount messages index (card :: rest) results) :
    BatchAccount messages index rest (results ++ [.tool card.id]) := by
  obtain ⟨own, done, hown, hcalling, rfl, haccount⟩ := h
  exact ⟨own, done ++ [card.id], hown, hcalling, by simp, haccount.answer⟩

/-- The card that the loop is at gets a status in which it does not wait. -/
theorem LoopAccount.patch (h : LoopAccount messages index (card :: rest) results hasPending)
    (hstatus : status ≠ .pending) : LoopAccount (patchCards messages index card.id status) index
      (card :: rest) results hasPending := by
  obtain ⟨own, done, hown, hcalling, hresults, haccount, hdecided⟩ := h
  refine ⟨_, done, getElem?_patchCards_self hown, hcalling.patchCard, hresults, ?_, ?_⟩
  · refine ⟨haccount.nodup, Message.ids_patchCard.symm ▸ haccount.subset, ?_⟩
    intro id hmem
    rw [Message.ids_patchCard] at hmem
    by_cases hid : id = card.id
    · exact .inr (.inl (hid ▸ .head _))
    · rw [Message.waits_patchCard_of_ne hid]
      exact haccount.covers id hmem
  · intro id hmem
    by_cases hid : id = card.id
    · rw [hid, Message.waits_patchCard_self]
      exact fun hboth ↦ hstatus hboth.1
    · rw [Message.waits_patchCard_of_ne hid]
      exact hdecided id hmem

/-- The card that the loop is at is answered. -/
theorem LoopAccount.answer (h : LoopAccount messages index (card :: rest) results hasPending)
    (hstatus : status ≠ .pending) : LoopAccount (patchCards messages index card.id status) index
      rest (results ++ [.tool card.id]) hasPending := by
  obtain ⟨own, done, hown, hcalling, rfl, haccount, hdecided⟩ := h.patch hstatus
  refine ⟨own, done ++ [card.id], hown, hcalling, by simp, haccount.answer, ?_⟩
  intro id hmem
  rcases mem_append.mp hmem with hmem | hmem
  · exact hdecided id hmem
  · obtain rfl := mem_singleton.mp hmem
    obtain ⟨before, -, hbefore, -⟩ := h
    obtain rfl : before.patchCard card.id status = own :=
      Option.some.inj ((getElem?_patchCards_self hbefore).symm.trans hown)
    rw [Message.waits_patchCard_self]
    exact fun hboth ↦ hstatus hboth.1

/-- The card that the loop is at waits. -/
theorem LoopAccount.wait (h : LoopAccount messages index (card :: rest) results hasPending) :
    LoopAccount (patchCards messages index card.id .pending) index rest results true := by
  obtain ⟨own, done, hown, hcalling, hresults, haccount, hdecided⟩ := h
  have hnodup : (card.id :: (done ++ rest.map Card.id)).Nodup :=
    perm_middle.nodup_iff.mp haccount.nodup
  have hcard : card.id ∈ own.ids := haccount.subset _ (by simp)
  refine ⟨_, done, getElem?_patchCards_self hown, hcalling.patchCard, hresults, ?_, ?_⟩
  · refine ⟨(nodup_cons.mp hnodup).2, fun id hmem ↦ ?_, fun id hmem ↦ ?_⟩
    · rw [Message.ids_patchCard]
      exact haccount.subset id (perm_middle.mem_iff.mpr (.tail _ hmem))
    · rw [Message.ids_patchCard] at hmem
      by_cases hid : id = card.id
      · rw [hid, Message.waits_patchCard_self]
        exact .inr (.inr ⟨rfl, rfl, hcard⟩)
      · rw [Message.waits_patchCard_of_ne hid]
        rcases haccount.covers id hmem with hdone | hleft | hwaits
        · exact .inl hdone
        · exact .inr (.inl ((mem_cons.mp hleft).resolve_left hid))
        · exact .inr (.inr ⟨rfl, hwaits.2⟩)
  · intro id hmem
    have hid : id ≠ card.id := by
      rintro rfl
      exact (nodup_cons.mp hnodup).1 (mem_append_left _ hmem)
    rw [Message.waits_patchCard_of_ne hid]
    exact hdecided id hmem

/-- The loop has come to its end and nothing waits. -/
theorem LoopAccount.toBatch (h : LoopAccount messages index [] results false) :
    BatchAccount messages index [] results := by
  obtain ⟨own, done, hown, hcalling, hresults, ⟨hnodup, hsubset, hcovers⟩, -⟩ := h
  refine ⟨own, done, hown, hcalling, hresults, hnodup, hsubset, fun id hmem ↦ ?_⟩
  rcases hcovers id hmem with hdone | hleft | hwaits
  · exact .inl hdone
  · exact .inr (.inl hleft)
  · exact absurd hwaits.1 nofun

/-- The user decides on what waits. -/
theorem LoopAccount.decide (h : LoopAccount messages index [] results true)
    (hmessage : messages[index]? = some message) :
    BatchAccount messages index message.pendingCards results := by
  obtain ⟨own, done, hown, hcalling, hresults, haccount, hdecided⟩ := h
  obtain rfl : own = message := Option.some.inj (hown.symm.trans hmessage)
  have hwaits : ∀ id, id ∈ own.pendingCards.map Card.id ↔ own.Waits id := by
    intro id
    simp only [Message.pendingCards, Message.Waits, mem_map, mem_filter,
      decide_eq_true_eq]
    exact ⟨fun ⟨c, hc, hid⟩ ↦ ⟨c, hc.1, hid, hc.2⟩, fun ⟨c, hc, hid, hs⟩ ↦ ⟨c, ⟨hc, hs⟩, hid⟩⟩
  have hsub : (own.pendingCards.map Card.id).Sublist own.ids := filter_sublist.map _
  refine ⟨own, done, hown, hcalling, hresults, ?_, ?_, ?_⟩
  · refine nodup_append.mpr ⟨by simpa using haccount.nodup, hsub.nodup hcalling.nodup, ?_⟩
    rintro id hdone _ hpending rfl
    exact hdecided id hdone ((hwaits id).mp hpending)
  · intro id hmem
    rcases mem_append.mp hmem with hmem | hmem
    · exact haccount.subset id (by simpa using hmem)
    · exact hsub.subset hmem
  · intro id hmem
    rcases haccount.covers id hmem with hdone | hleft | hpending
    · exact .inl hdone
    · cases hleft
    · exact .inr (.inl ((hwaits id).mpr hpending.2))

end Accounts

/-! ## Sending results -/

section Results

variable {messages seen results : List Message} {index : Nat}

theorem answers_of_account {message : Message} {done : List String} (hcalling : message.Calling)
    (haccount : Account message.ids done [] fun _ ↦ False) :
    Answers message.wire ((done.map Message.tool).map Message.wire) := by
  have hids : message.wire.callIds = message.ids := by
    simp [WireMessage.callIds, Message.wire, hcalling.role, hcalling.toolCalls]
  have hnodup : done.Nodup := by simpa using haccount.nodup
  refine ⟨fun id hmem ↦ ?_, fun answer hmem ↦ ?_⟩
  · rw [hids] at hmem
    have hdone : id ∈ done := by simpa using haccount.covers id hmem
    rw [map_map, countP_map, ← count_eq_one_of_mem hnodup hdone, List.count]
    apply countP_congr
    intro other _
    simp [Message.wire, Message.tool]
  · rw [map_map] at hmem
    obtain ⟨id, hdone, rfl⟩ := mem_map.mp hmem
    exact ⟨id, hids ▸ haccount.subset id (by simpa using hdone), rfl⟩

/-- Behind the last message, which carries the calls, the results make a conversation that
keeps to the protocol. -/
theorem followsProtocol_results (hclosed : FollowsProtocol (closedConversation messages))
    (hseen : seen.map Message.wire = messages.map Message.wire)
    (hlast : index + 1 = messages.length)
    (honly : ∀ i message, messages[i]? = some message → message.CarriesCalls → i = index)
    (h : BatchAccount messages index [] results) :
    FollowsProtocol (wireMessages (seen ++ results)) := by
  obtain ⟨own, done, hown, hcalling, rfl, haccount⟩ := h
  have hsplit : messages = messages.take index ++ [own] := by
    obtain ⟨hlt, rfl⟩ := List.getElem?_eq_some_iff.mp hown
    rw [take_append_getElem, take_of_length_le hlast.ge]
  have hrole : own.role ≠ .tool := by simp [hcalling.role]
  have hanswering : answering (done.map Message.tool) = done.map Message.tool := by
    refine filter_eq_self.mpr fun answer hmem ↦ ?_
    obtain ⟨id, hid, rfl⟩ := mem_map.mp hmem
    have hnonempty : id ≠ "" := by
      rintro rfl
      exact hcalling.nonempty (haccount.subset _ (by simpa using hid))
    simp [Message.tool, hnonempty]
  have hbefore : FollowsProtocol ((answering (messages.take index)).map Message.wire) := by
    rw [hsplit, closedConversation, answering_append, answering_singleton hrole,
      map_append] at hclosed
    have hfirst := ((followsProtocol_append (by simpa using hrole)).mp hclosed).1
    rwa [← closedConversation, closedConversation_eq] at hfirst
    intro message hmem hcarries
    obtain ⟨i, hi⟩ := mem_iff_getElem?.mp hmem
    rw [List.getElem?_take] at hi
    split at hi
    · have := honly i message hi hcarries
      omega
    · cases hi
  refine FollowsProtocol.trim ?_
  have hcongr : (answering (seen ++ done.map Message.tool)).map Message.wire =
      (answering (messages ++ done.map Message.tool)).map Message.wire :=
    wire_answering_congr (by simp [hseen])
  rw [hcongr, answering_append, hanswering, hsplit, answering_append, answering_singleton hrole,
    append_assoc, map_append]
  refine (followsProtocol_append hrole).mpr ⟨hbefore, paired_answered ?_ ?_⟩
  · intro answer hmem
    obtain ⟨result, hresult, rfl⟩ := mem_map.mp hmem
    obtain ⟨id, -, rfl⟩ := mem_map.mp hresult
    rfl
  · exact answers_of_account hcalling haccount

end Results

end KaduoxSsh.Desktop.Ai
