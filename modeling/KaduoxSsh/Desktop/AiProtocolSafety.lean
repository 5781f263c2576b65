import KaduoxSsh.Desktop.AiAccounts
import Mathlib.Data.List.Flatten
import Mathlib.Data.List.Perm.Basic

/-!
# What is sent keeps to the protocol: the invariant

Each message with calls that someone still works on, a task of the chain or a batch
that waits for the user, has one owner, which keeps its account.
-/

namespace KaduoxSsh.Desktop.Ai

open List

/-! ## The invariant -/

def Task.Accounted (messages : List Message) : Task → Prop
  | .deferred job cards => LoopAccount messages job.index cards [] false
  | .running job card rest results hasPending =>
      LoopAccount messages job.index (card :: rest) results hasPending
  | .approving job card rest prior results =>
      BatchAccount messages job.index (card :: rest) (prior ++ results)
  | _ => True

/-- The message that a task of the chain works on. -/
def Task.owned (token : Nat) (t : Task) : List Nat :=
  match t.work with
  | some work => if work.job.token = token then [work.job.index] else []
  | none => []

def State.owned (s : State) : List Nat :=
  s.tasks.flatMap (Task.owned s.chainToken) ++ s.pendingAutoResults.map Prod.fst

structure Answerable (s : State) : Prop where
  sent : ∀ conversation ∈ s.sent, FollowsProtocol conversation
  closed : FollowsProtocol (closedConversation s.messages)
  tokens : ∀ t ∈ s.tasks, ∀ token, t.token = some token → token ≤ s.chainToken
  ownedOnce : s.owned.Nodup
  accounts : ∀ t ∈ s.tasks, t.token = some s.chainToken → t.Accounted s.messages
  waiting : ∀ entry ∈ s.pendingAutoResults, LoopAccount s.messages entry.1 [] entry.2 true

variable {s : State} {index : Nat} {id : String} {status : CardStatus} {card : Card}
  {cards rest : List Card} {job : Job} {results seen : List Message} {hasPending : Bool}
  {t : Task}

theorem owned_of_work {work : Work} {token : Nat} (hwork : t.work = some work)
    (hcurrent : work.job.token = token) : t.owned token = [work.job.index] := by
  simp [Task.owned, hwork, hcurrent]

theorem Task.Accounted.patch {messages : List Message} {token : Nat} (h : t.Accounted messages)
    (hcurrent : t.token = some token) (hfree : index ∉ t.owned token) :
    t.Accounted (patchCards messages index id status) := by
  cases t with
  | deferred job cards =>
      have hne : index ≠ job.index := by
        simpa [Task.owned, Task.work, Option.some.inj hcurrent] using hfree
      exact LoopAccount.patch_other h hne
  | running job card rest results hasPending =>
      have hne : index ≠ job.index := by
        simpa [Task.owned, Task.work, Option.some.inj hcurrent] using hfree
      exact LoopAccount.patch_other h hne
  | approving job card rest prior results => exact BatchAccount.patch h
  | _ => trivial

theorem Task.Accounted.append {messages : List Message} {message : Message}
    (h : t.Accounted messages) : t.Accounted (messages ++ [message]) := by
  cases t with
  | deferred job cards => exact LoopAccount.append h
  | running job card rest results hasPending => exact LoopAccount.append h
  | approving job card rest prior results => exact BatchAccount.append h
  | _ => trivial

/-! ## Tasks that come and go -/

theorem owned_without {k : Nat} (hk : s.tasks[k]? = some t) :
    s.owned.Perm (t.owned s.chainToken ++ (s.without k).owned) := by
  obtain ⟨hlt, rfl⟩ := List.getElem?_eq_some_iff.mp hk
  have hperm := (getElem_cons_eraseIdx_perm hlt).flatMap_right (Task.owned s.chainToken)
  rw [flatMap_cons] at hperm
  exact (hperm.symm.append_right _).trans (append_assoc .. ▸ .refl _)

namespace Answerable

section

variable (h : Answerable s)

include h

theorem without {k : Nat} {t : Task} (hk : s.tasks[k]? = some t) :
    Answerable (s.without k) where
  sent := h.sent
  closed := h.closed
  tokens := fun u hmem ↦ h.tokens u (mem_of_mem_eraseIdx hmem)
  ownedOnce := (nodup_append.mp ((owned_without hk).nodup_iff.mp h.ownedOnce)).2.1
  accounts := fun u hmem ↦ h.accounts u (mem_of_mem_eraseIdx hmem)
  waiting := h.waiting

/-- The section that a task is settled with has the message, and its account, for itself. -/
theorem take {k : Nat} {t : Task} {work : Work} (hk : s.tasks[k]? = some t)
    (hwork : t.work = some work) (hcurrent : work.job.token = s.chainToken) :
    work.job.index ∉ (s.without k).owned ∧ t.Accounted s.messages := by
  have hnodup := (owned_without hk).nodup_iff.mp h.ownedOnce
  rw [owned_of_work hwork hcurrent] at hnodup
  refine ⟨(nodup_cons.mp hnodup).1, h.accounts t (mem_of_getElem? hk) ?_⟩
  exact (Task.token_of_work hwork).trans (congrArg some hcurrent)

theorem suspend {t : Task} (htoken : ∀ token, t.token = some token → token ≤ s.chainToken)
    (hfree : ∀ i ∈ t.owned s.chainToken, i ∉ s.owned) (hnodup : (t.owned s.chainToken).Nodup)
    (haccount : t.token = some s.chainToken → t.Accounted s.messages) :
    Answerable (s.suspend t) where
  sent := h.sent
  closed := h.closed
  tokens := by
    intro u hmem token hu
    rcases mem_append.mp hmem with hmem | hmem
    · exact h.tokens u hmem token hu
    · obtain rfl := mem_singleton.mp hmem
      exact htoken token hu
  ownedOnce := by
    have hperm : (s.suspend t).owned.Perm (t.owned s.chainToken ++ s.owned) := by
      simp only [State.owned, State.suspend, flatMap_append, flatMap_singleton]
      rw [← append_assoc]
      exact perm_append_comm.append_right _
    refine hperm.nodup_iff.mpr (nodup_append.mpr ⟨hnodup, h.ownedOnce, ?_⟩)
    rintro i hi _ hmem rfl
    exact hfree i hi hmem
  accounts := by
    intro u hmem hcurrent
    rcases mem_append.mp hmem with hmem | hmem
    · exact h.accounts u hmem hcurrent
    · obtain rfl := mem_singleton.mp hmem
      exact haccount hcurrent
  waiting := h.waiting

/-- A section leaves the message that it has for itself to a task. -/
theorem handOver {t : Task} {work : Work} (hwork : t.work = some work)
    (hcurrent : work.job.token = s.chainToken) (hfree : work.job.index ∉ s.owned)
    (haccount : t.Accounted s.messages) : Answerable (s.suspend t) := by
  have howned : t.owned s.chainToken = [work.job.index] := owned_of_work hwork hcurrent
  refine h.suspend ?_ ?_ (howned ▸ nodup_singleton _) fun _ ↦ haccount
  · intro token htoken
    have hsame := (Task.token_of_work hwork).symm.trans htoken
    exact (hcurrent ▸ Option.some.inj hsame).ge
  · intro i hi
    obtain rfl := mem_singleton.mp (howned ▸ hi)
    exact hfree

/-! ## Changes of the messages -/

theorem patchCard (hfree : index ∉ s.owned) :
    Answerable (s.patchCard index id status) where
  sent := h.sent
  closed := closedConversation_patchCards.symm ▸ h.closed
  tokens := h.tokens
  ownedOnce := h.ownedOnce
  accounts := by
    intro t hmem hcurrent
    refine (h.accounts t hmem hcurrent).patch hcurrent fun hown ↦ hfree ?_
    exact mem_append_left _ (mem_flatMap.mpr ⟨t, hmem, hown⟩)
  waiting := by
    intro entry hmem
    refine (h.waiting entry hmem).patch_other ?_
    rintro rfl
    exact hfree (mem_append_right _ (mem_map_of_mem hmem))

theorem append {message : Message} (hrole : message.role ≠ .tool)
    (hcalls : message.CarriesCalls ∨ message.toolCalls = none) : Answerable (s.append message) where
  sent := h.sent
  closed := h.closed.closed_append hrole hcalls
  tokens := h.tokens
  ownedOnce := h.ownedOnce
  accounts := fun t hmem hcurrent ↦ (h.accounts t hmem hcurrent).append
  waiting := fun entry hmem ↦ (h.waiting entry hmem).append

/-- What the accounts do not depend on. -/
theorem aside (busy : Bool) (permissionMode : PermissionMode) (resolvingBatch : Bool)
    (log : List Entry) (calls : Nat) :
    Answerable { s with busy, permissionMode, resolvingBatch, log, calls } :=
  ⟨h.sent, h.closed, h.tokens, h.ownedOnce, h.accounts, h.waiting⟩

/-! ## The sections -/

theorem resume (caller : Caller) : Answerable (s.resume caller) := by
  cases caller with
  | plain => exact h
  | batch => exact h.aside false s.permissionMode false s.log s.calls

theorem continueConversation {conversation : List Message} {round born : Nat} (caller : Caller)
    (hconversation : FollowsProtocol (wireMessages conversation)) :
    Answerable (s.continueConversation conversation round born caller) := by
  rw [State.continueConversation]
  split
  · have hnote : Answerable (s.append .note) := h.append nofun (.inr rfl)
    exact hnote.resume caller
  · have hsent : Answerable
        { s with busy := true, sent := s.sent ++ [wireMessages conversation] } := by
      refine ⟨?_, h.closed, h.tokens, h.ownedOnce, h.accounts, h.waiting⟩
      intro other hmem
      rcases mem_append.mp hmem with hmem | hmem
      · exact h.sent other hmem
      · exact mem_singleton.mp hmem ▸ hconversation
    refine hsent.suspend ?_ ?_ .nil fun _ ↦ trivial
    · rintro _ ⟨⟩
      exact le_rfl
    · rintro i ⟨⟩

/-- The results of a message that is the last one, and the only one with calls. -/
theorem sendResults {round born : Nat} (caller : Caller)
    (hseen : seen.map Message.wire = s.messages.map Message.wire)
    (hlast : s.OnlyLastCarries index) (haccount : BatchAccount s.messages index [] results) :
    Answerable (s.continueConversation (seen ++ results) round born caller) :=
  h.continueConversation caller
    (followsProtocol_results h.closed hseen hlast.1 hlast.2 haccount)

theorem keepResults (hfree : index ∉ s.owned)
    (haccount : LoopAccount s.messages index [] results true) :
    Answerable (s.keepResults index results) := by
  have hforget : (s.forgetResults index).pendingAutoResults = s.pendingAutoResults := by
    refine filter_eq_self.mpr fun entry hmem ↦ ?_
    simp only [ne_eq, decide_not, Bool.not_eq_eq_eq_not, Bool.not_true, decide_eq_false_iff_not]
    rintro rfl
    exact hfree (mem_append_right _ (mem_map_of_mem hmem))
  have hresults : (s.keepResults index results).pendingAutoResults =
      (index, results) :: s.pendingAutoResults := by rw [State.keepResults, hforget]
  refine ⟨h.sent, h.closed, h.tokens, ?_, h.accounts, ?_⟩
  · have hperm : (s.keepResults index results).owned.Perm (index :: s.owned) := by
      rw [State.owned, hresults]
      exact perm_middle
    exact hperm.nodup_iff.mpr (nodup_cons.mpr ⟨hfree, h.ownedOnce⟩)
  · rw [hresults]
    exact forall_mem_cons.mpr ⟨haccount, h.waiting⟩

end

end Answerable

/-- Changes of cards are none of what is sent, nor of what carries calls. -/
theorem State.OnlyLastCarries.patch (h : s.OnlyLastCarries index) {i : Nat} :
    (s.patchCard i id status).OnlyLastCarries index := by
  refine ⟨by simpa [State.patchCard] using h.1, fun j message hmessage hcarries ↦ ?_⟩
  simp only [State.patchCard, patchCards, List.getElem?_modify, Option.map_eq_map,
    Option.map_eq_some_iff] at hmessage
  obtain ⟨before, hbefore, rfl⟩ := hmessage
  refine h.2 j before hbefore ?_
  split at hcarries
  · exact hcarries
  · exact hcarries

theorem wire_patchCard {i : Nat} :
    (s.patchCard i id status).messages.map Message.wire = s.messages.map Message.wire :=
  map_patchCards fun _ ↦ rfl

namespace Answerable

/-- The loop of `runToolCalls`, by induction on the cards that are left. -/
theorem runToolCalls (h : Answerable s) (hcurrent : job.token = s.chainToken)
    (hfree : job.index ∉ s.owned) (haccount : LoopAccount s.messages job.index cards results
      hasPending) (hseen : seen.map Message.wire = s.messages.map Message.wire)
    (hlast : State.Completes cards hasPending → s.OnlyLastCarries job.index) :
    Answerable (State.runToolCalls seen job cards results hasPending s) := by
  induction cards generalizing results hasPending s with
  | nil =>
      rw [State.runToolCalls, State.finishToolCalls]
      split
      next hwaits =>
        subst hwaits
        exact h.keepResults hfree haccount
      next hdone =>
        obtain rfl : hasPending = false := by simpa using hdone
        split
        · exact h.aside false s.permissionMode s.resolvingBatch s.log s.calls
        · exact h.sendResults .plain hseen (hlast ⟨rfl, nofun⟩) haccount.toBatch
  | cons card rest ih =>
      rw [State.runToolCalls]
      split
      case isTrue hdangerous =>
        have hpatched : Answerable ((s.patchCard job.index card.id .blocked).record
            (.blocked card)) :=
          (h.patchCard hfree).aside s.busy s.permissionMode s.resolvingBatch _ s.calls
        refine ih hpatched hcurrent hfree (haccount.answer nofun) (hseen.trans wire_patchCard.symm)
          fun hdone ↦ ?_
        exact (hlast ⟨hdone.1, forall_mem_cons.mpr ⟨hdangerous, hdone.2⟩⟩).patch
      case isFalse =>
        split
        case isTrue =>
          exact ih (h.patchCard hfree) hcurrent hfree haccount.wait
            (hseen.trans wire_patchCard.symm) fun hdone ↦ nomatch hdone.1
        case isFalse =>
          have hpatched : Answerable ((s.patchCard job.index card.id .auto).record
              (.executed card s.permissionMode s.chainToken)) :=
            (h.patchCard hfree).aside s.busy s.permissionMode s.resolvingBatch _ s.calls
          have hnext : Task.Accounted (patchCards s.messages job.index card.id .auto)
              (.running job card rest results hasPending) := haccount.patch nofun
          exact hpatched.handOver rfl hcurrent hfree hnext

variable {prior : List Message}

section

variable (h : Answerable s)

include h

theorem runApproved (hcurrent : job.token = s.chainToken) (hfree : job.index ∉ s.owned)
    (haccount : BatchAccount s.messages job.index cards (prior ++ results))
    (hseen : seen.map Message.wire = s.messages.map Message.wire)
    (hlast : cards = [] → s.OnlyLastCarries job.index) :
    Answerable (s.runApproved seen job prior results cards) := by
  cases cards with
  | nil => exact h.sendResults .batch hseen (hlast rfl) haccount
  | cons card rest =>
      have hpatched : Answerable ((s.patchCard job.index card.id .approved).record
          (.executed card s.permissionMode s.chainToken)) :=
        (h.patchCard hfree).aside s.busy s.permissionMode s.resolvingBatch _ s.calls
      have hnext : Task.Accounted (patchCards s.messages job.index card.id .approved)
          (.approving job card rest prior results) := haccount.patch
      exact hpatched.handOver rfl hcurrent hfree hnext

/-- The loop of `resolveBatch` over rejected cards, by induction on them. -/
theorem rejectCards (hfree : job.index ∉ s.owned)
    (haccount : BatchAccount s.messages job.index cards prior)
    (hseen : seen.map Message.wire = s.messages.map Message.wire)
    (hlast : s.OnlyLastCarries job.index) :
    Answerable ((cards.foldl (fun s card ↦ s.rejectCard job card) s).continueConversation
      (seen ++ (prior ++ cards.map fun card ↦ .tool card.id)) (job.round + 1) job.born .batch) := by
  induction cards generalizing s prior with
  | nil =>
      rw [map_nil, append_nil]
      exact h.sendResults .batch hseen hlast haccount
  | cons card rest ih =>
      have hrejected : Answerable (s.rejectCard job card) :=
        (h.patchCard hfree).aside s.busy s.permissionMode s.resolvingBatch _ s.calls
      have haccount' : BatchAccount (s.rejectCard job card).messages job.index rest
          (prior ++ [.tool card.id]) := haccount.answer.patch
      have hnext := ih hrejected hfree haccount' (hseen.trans wire_patchCard.symm) hlast.patch
      rwa [append_assoc, singleton_append] at hnext

theorem forgetResults (hmem : (index, prior) ∈ s.pendingAutoResults) :
    Answerable (s.forgetResults index) ∧ index ∉ (s.forgetResults index).owned := by
  have hsub : (s.forgetResults index).pendingAutoResults.Sublist s.pendingAutoResults :=
    filter_sublist
  have hnodup := nodup_append.mp h.ownedOnce
  refine ⟨⟨h.sent, h.closed, h.tokens, ?_, h.accounts, fun entry hentry ↦
    h.waiting entry (hsub.subset hentry)⟩, ?_⟩
  · exact h.ownedOnce.sublist ((List.Sublist.refl _).append (hsub.map _))
  · intro hown
    rcases mem_append.mp hown with hown | hown
    · exact hnodup.2.2 index hown index (mem_map_of_mem hmem) rfl
    · obtain ⟨entry, hentry, rfl⟩ := mem_map.mp hown
      simpa using (mem_filter.mp hentry).2

theorem resolveBatch {approved : Bool}
    (hadmits : KeepsCallsAnswered s (.resolveBatch index approved)) :
    Answerable (s.resolveBatch index approved) := by
  rw [State.resolveBatch]
  split
  · exact h
  next hguard =>
  split
  · exact h
  next message hmessage =>
  by_cases hnone : message.pendingCards = []
  · simpa only [hnone, if_true] using h
  simp only [hnone, if_false]
  obtain ⟨hlookup, hlast⟩ := hadmits (by simpa using hguard)
    (by simp [State.awaitsDecision, hmessage, hnone])
  obtain ⟨prior, hprior⟩ := Option.isSome_iff_exists.mp hlookup
  have hmem : (index, prior) ∈ s.pendingAutoResults := by
    obtain ⟨before, after, hsplit, -⟩ := lookup_eq_some_iff.mp hprior
    simp [hsplit]
  have haccount : BatchAccount s.messages index message.pendingCards prior :=
    (h.waiting _ hmem).decide hmessage
  obtain ⟨hforgot, hfree⟩ := h.forgetResults hmem
  simp only [hprior, Option.getD_some]
  cases approved with
  | false =>
      exact (hforgot.aside true s.permissionMode true s.log s.calls).rejectCards hfree haccount rfl
        (hlast rfl)
  | true =>
      have happroved : Answerable (State.record { s.forgetResults index with
          resolvingBatch := true, busy := true } (.approved message.pendingCards)) :=
        hforgot.aside true s.permissionMode true _ s.calls
      refine happroved.runApproved rfl hfree ?_ rfl fun hnil ↦ absurd hnil hnone
      rw [append_nil]
      exact haccount

/-! ## New messages and new conversations -/

/-- Someone works only on messages that are there. -/
theorem owned_lt {i : Nat} (hmem : i ∈ s.owned) : i < s.messages.length := by
  rcases mem_append.mp hmem with hmem | hmem
  · obtain ⟨t, ht, hi⟩ := mem_flatMap.mp hmem
    cases hwork : t.work with
    | none => simp [Task.owned, hwork] at hi
    | some work =>
        by_cases hcurrent : work.job.token = s.chainToken
        · obtain rfl := mem_singleton.mp (owned_of_work hwork hcurrent ▸ hi)
          have htoken := (Task.token_of_work hwork).trans (congrArg some hcurrent)
          have haccounted := h.accounts t ht htoken
          cases t with
          | deferred | running | approving =>
              cases hwork
              obtain ⟨_, _, hmessage, -⟩ := haccounted
              exact (List.getElem?_eq_some_iff.mp hmessage).1
          | _ => cases hwork
        · simp [Task.owned, hwork, hcurrent] at hi
  · obtain ⟨entry, hentry, rfl⟩ := mem_map.mp hmem
    obtain ⟨_, _, hmessage, -⟩ := h.waiting entry hentry
    exact (List.getElem?_eq_some_iff.mp hmessage).1

theorem responded (born round : Nat) (calls : List ToolCall) :
    Answerable (s.responded born round calls) := by
  have happended : Answerable (s.append (.response round (s.cardsOf born calls))) := by
    refine h.append nofun ?_
    by_cases hnil : s.cardsOf born calls = []
    · exact .inr (by simp [Message.response, hnil])
    · exact .inl ⟨rfl, by simp [Message.response, hnil]⟩
  exact happended.aside s.busy s.permissionMode s.resolvingBatch s.log _

theorem answered {born token round : Nat} {caller : Caller} {calls : List ToolCall}
    (hids : token = s.chainToken →
      (calls.map ToolCall.id).Nodup ∧ "" ∉ calls.map ToolCall.id) :
    Answerable (s.answered born token round caller calls) := by
  rw [State.answered]
  split
  · exact (h.aside false s.permissionMode s.resolvingBatch s.log s.calls).resume caller
  next hcurrent =>
  obtain rfl : token = s.chainToken := not_not.mp hcurrent
  obtain ⟨hnodup, hnonempty⟩ := hids rfl
  have hresponded := h.responded born round calls
  split
  · exact (hresponded.aside false s.permissionMode s.resolvingBatch _ _).resume caller
  next hcalls =>
  have hcards : s.cardsOf born calls ≠ [] := fun hnil ↦ hcalls (s.cardsOf_eq_nil.mp hnil)
  have hlast : (s.responded born round calls).messages[s.messages.length]? =
      some (.response round (s.cardsOf born calls)) := by simp [State.responded, State.append]
  rw [← s.ids_cardsOf born calls] at hnodup hnonempty
  have hcalling : (Message.response round (s.cardsOf born calls)).Calling :=
    ⟨rfl, rfl, if_neg hcards, hnodup, hnonempty⟩
  have haccount : LoopAccount (s.responded born round calls).messages s.messages.length
      (s.cardsOf born calls) [] false :=
    ⟨_, [], hlast, hcalling, rfl, ⟨hnodup, fun _ ↦ id, fun _ hmem ↦ .inr (.inl hmem)⟩, nofun⟩
  have hnext : Task.Accounted (s.responded born round calls).messages
      (.deferred ⟨s.messages.length, round, s.chainToken, born⟩ (s.cardsOf born calls)) := haccount
  refine (hresponded.handOver rfl rfl (fun hown ↦ ?_) hnext).resume caller
  exact absurd (h.owned_lt hown) (lt_irrefl _)

theorem failed {token : Nat} {caller : Caller} : Answerable (s.failed token caller) := by
  rw [State.failed]
  split
  · exact (h.aside false s.permissionMode s.resolvingBatch s.log s.calls).resume caller
  · have hnote : Answerable (s.append .note) := h.append nofun (.inr rfl)
    exact (hnote.aside false s.permissionMode s.resolvingBatch s.log s.calls).resume caller

theorem ensured {born : Nat} (hnone : ∀ message ∈ s.messages, ¬message.CarriesCalls) :
    Answerable (s.ensured born) := by
  have huser : Answerable (s.append .user) := h.append nofun (.inr rfl)
  refine huser.continueConversation .plain (FollowsProtocol.trim ?_)
  have hclosed := huser.closed
  rwa [closedConversation_eq] at hclosed
  intro message hmem
  rcases mem_append.mp hmem with hmem | hmem
  · exact hnone message hmem
  · obtain rfl := mem_singleton.mp hmem
    exact Message.not_carries_of_round rfl

/-- Stored messages that keep to the protocol, while no one works on others. -/
theorem loaded (stored : List Message) (hresults : s.pendingAutoResults = [])
    (hstored : FollowsProtocol ((answering (stored.map Message.restore)).map Message.wire))
    (hnone : ∀ t ∈ s.tasks, t.work.isSome = true → t.token ≠ some s.chainToken) :
    Answerable (s.loaded stored) where
  sent := h.sent
  closed := by
    simp only [State.loaded]
    split
    · exact ⟨paired_singleton rfl, nofun⟩
    · rwa [closedConversation_eq]
      intro message hmem
      obtain ⟨before, -, rfl⟩ := mem_map.mp hmem
      exact Message.not_carries_of_round rfl
  tokens := h.tokens
  ownedOnce := h.ownedOnce
  accounts := by
    intro t hmem hcurrent
    have hwork := hnone t hmem
    cases t with
    | deferred | running | approving => exact absurd hcurrent (hwork rfl)
    | _ => trivial
  waiting := by
    intro entry hmem
    rw [State.loaded, hresults] at hmem
    cases hmem

theorem breakChain : Answerable s.breakChain := by
  have hstale : ∀ t ∈ s.tasks, t.token ≠ some (s.chainToken + 1) := by
    intro t hmem htoken
    exact absurd (h.tokens t hmem _ htoken) (Nat.not_succ_le_self _)
  have howned : s.breakChain.owned = [] := by
    refine append_eq_nil_iff.mpr ⟨flatMap_eq_nil_iff.mpr fun t hmem ↦ ?_, rfl⟩
    cases hwork : t.work with
    | none => simp [Task.owned, hwork]
    | some work =>
        have hne : work.job.token ≠ s.chainToken + 1 := fun hcurrent ↦
          hstale t hmem ((Task.token_of_work hwork).trans (congrArg some hcurrent))
        simp [Task.owned, hwork, State.breakChain, hne]
  refine ⟨h.sent, h.closed, ?_, howned ▸ .nil, ?_, nofun⟩
  · exact fun t hmem token htoken ↦ (h.tokens t hmem token htoken).trans (Nat.le_succ _)
  · exact fun t hmem hcurrent ↦ absurd hcurrent (hstale t hmem)

/-- A new conversation is one with no stored messages. -/
theorem switch : Answerable { s.breakChain with messages := initialMessages } := by
  refine h.breakChain.loaded [] rfl ⟨trivial, nofun⟩ fun t hmem _ hcurrent ↦ ?_
  exact absurd (h.tokens t hmem _ hcurrent) (Nat.not_succ_le_self _)

end

/-! ## Runs -/

theorem initial (mode : PermissionMode) : Answerable (.initial mode) :=
  ⟨nofun, ⟨paired_singleton rfl, nofun⟩, nofun, .nil, nofun, nofun⟩

/-- What a task that is settled does next keeps the calls answered. -/
theorem wake (h : Answerable s) {k : Nat} {task : Task} {outcome : Outcome} {next : State}
    (hk : s.tasks[k]? = some task) (hadmits : KeepsCallsAnswered s (.settle k outcome))
    (hnext : (s.without k).wake task outcome = some next) : Answerable next := by
  have hwithout := h.without hk
  replace hadmits := hadmits task hk
  cases task with
  | submitting born =>
      cases outcome with
      | ensured =>
          cases hnext
          exact hwithout.ensured hadmits
      | _ => cases hnext
  | asking born token round caller =>
      cases outcome with
      | response calls =>
          cases hnext
          exact hwithout.answered hadmits
      | failure =>
          cases hnext
          exact hwithout.failed
      | _ => cases hnext
  | deferred job cards =>
      cases outcome with
      | timer =>
          cases hnext
          obtain ⟨hcurrent, hlast⟩ := hadmits
          obtain ⟨hfree, haccount⟩ := h.take hk rfl hcurrent
          exact hwithout.runToolCalls hcurrent hfree haccount rfl hlast
      | _ => cases hnext
  | running job card rest results hasPending =>
      cases outcome with
      | exit succeeded =>
          cases hnext
          rw [State.afterCommand]
          split
          · exact hwithout.aside false s.permissionMode s.resolvingBatch s.log s.calls
          next hcurrent =>
            have hcurrent : job.token = s.chainToken := not_not.mp hcurrent
            obtain ⟨hfree, haccount⟩ := h.take hk rfl hcurrent
            have hanswered : LoopAccount ((s.without k).patchCard job.index card.id
                (State.outcomeStatus succeeded)).messages job.index rest
                  (results ++ [.tool card.id]) hasPending :=
              LoopAccount.answer haccount (State.outcomeStatus_ne_pending succeeded)
            exact (hwithout.patchCard hfree).runToolCalls hcurrent hfree hanswered
              wire_patchCard.symm fun hdone ↦ (hadmits hcurrent hdone).patch
      | _ => cases hnext
  | approving job card rest prior results =>
      cases outcome with
      | exit succeeded =>
          cases hnext
          rw [State.afterApproved]
          split
          · exact hwithout.resume .batch
          next hcurrent =>
            have hcurrent : job.token = s.chainToken := not_not.mp hcurrent
            obtain ⟨hfree, haccount⟩ := h.take hk rfl hcurrent
            have hanswered : BatchAccount ((s.without k).patchCard job.index card.id
                (State.outcomeStatus succeeded)).messages job.index rest
                  (prior ++ (results ++ [.tool card.id])) :=
              append_assoc prior results _ ▸ (BatchAccount.answer haccount).patch
            exact (hwithout.patchCard hfree).runApproved hcurrent hfree hanswered
              wire_patchCard.symm fun hdone ↦ (hadmits hcurrent hdone).patch
      | _ => cases hnext
  | loading =>
      cases outcome with
      | stored messages =>
          cases hnext
          obtain ⟨hresults, hstored, hnone⟩ := hadmits
          exact hwithout.loaded messages hresults hstored fun t hmem ↦
            hnone t (mem_of_mem_eraseIdx hmem)
      | failure =>
          cases hnext
          exact hwithout
      | _ => cases hnext

theorem step (h : Answerable s) {event : Event} {next : State}
    (hadmits : KeepsCallsAnswered s event) (hnext : s.step event = some next) :
    Answerable next := by
  cases event with
  | submit =>
      simp only [State.step] at hnext
      split at hnext
      · cases hnext
      · cases hnext
        exact h.suspend nofun (by rintro i ⟨⟩) .nil fun _ ↦ trivial
  | resolveBatch index approved =>
      cases hnext
      exact h.resolveBatch hadmits
  | switch =>
      cases hnext
      exact h.switch
  | selectConversation =>
      simp only [State.step] at hnext
      split at hnext
      · cases hnext
      · cases hnext
        exact h.breakChain.suspend nofun (by rintro i ⟨⟩) .nil fun _ ↦ trivial
  | setPermissionMode mode =>
      cases hnext
      exact h.aside s.busy mode s.resolvingBatch s.log s.calls
  | settle task outcome =>
      obtain ⟨t, ht, hnext⟩ := Option.bind_eq_some_iff.mp hnext
      exact h.wake ht hadmits hnext

end Answerable

/-- In a run that keeps the calls answered, all that is sent keeps to the protocol. -/
theorem followsProtocol_of_reaches {mode : PermissionMode}
    (hreach : Reaches State.step KeepsCallsAnswered (.initial mode) s) :
    ∀ conversation ∈ s.sent, FollowsProtocol conversation := by
  have hanswerable : Answerable s := by
    apply hreach.invariant (Answerable.initial mode)
    intro t event u h hadmits hnext
    exact h.step hadmits hnext
  exact hanswerable.sent

/-- A round with a command that runs and one that is rejected. -/
theorem followsProtocol_rejected :
    ∃ s, Reaches State.step KeepsCallsAnswered (.initial .approval) s ∧ s.sent.length = 2 ∧
      ∀ conversation ∈ s.sent, FollowsProtocol conversation := by
  have hreach : Reaches State.step KeepsCallsAnswered (.initial .approval) _ :=
    (((((Reaches.start.next (e := .submit) trivial rfl).next
      (e := .settle 0 .ensured) (by rintro t ⟨⟩; decide) rfl).next
      (e := .settle 0 (.response [⟨"a", "web", "ls", .readOnly⟩, ⟨"b", "web", "rm x", .delete⟩]))
        (by rintro t ⟨⟩; exact fun _ ↦ by decide) rfl).next
      (e := .settle 0 .timer)
        (by rintro t ⟨⟩; exact ⟨rfl, fun h ↦ absurd (h.2 _ (.head _)) nofun⟩) rfl).next
      (e := .settle 0 (.exit true))
        (by rintro t ⟨⟩; exact fun _ h ↦ absurd (h.2 _ (.head _)) nofun) rfl).next
      (e := .resolveBatch 2 false) (fun _ _ ↦ ⟨rfl, fun _ ↦ ⟨rfl, by
        intro i message hmessage hcarries
        match i with
        | 0 | 1 => cases hmessage; exact absurd hcarries.1 nofun
        | 2 => rfl
        | i + 3 => cases hmessage⟩⟩) rfl
  exact ⟨_, hreach, rfl, followsProtocol_of_reaches hreach⟩

end KaduoxSsh.Desktop.Ai
