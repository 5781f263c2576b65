import KaduoxSsh.Desktop.AiChains
import Mathlib.Data.List.Perm.Basic

/-!
# One chain at a time: the invariant is kept

Between two events the chain is with no one, with one task, or with one batch that
waits for the user. A section that goes on for it starts from a state that is
`Clear`, in which nothing carries the chain token, and leaves the chain with
someone, or ends it.
-/

namespace KaduoxSsh.Desktop.Ai

open List

variable {s : State} {job : Job} {card : Card} {rest : List Card} {hasPending : Bool} {t : Task}
  {k : Nat}

/-! ## States with no chain at work -/

/-- Nothing but the section at work carries the chain token. -/
structure Clear (s : State) : Prop where
  tokens : ∀ t ∈ s.tasks, ∀ token, t.token = some token → token ≤ s.chainToken
  unbroken : Unbroken s.log
  working : s.working = 0
  results : s.pendingAutoResults = []

theorem State.token_ne_of_working (h : s.working = 0) (hmem : t ∈ s.tasks) :
    t.token ≠ some s.chainToken := by
  simpa using countP_eq_zero.mp h t hmem

namespace Clear

theorem sound (h : Clear s) : ∀ t ∈ s.tasks, t.token = some s.chainToken → t.Sound s :=
  fun _ hmem hcurrent ↦ absurd hcurrent (State.token_ne_of_working h.working hmem)

theorem idle (h : Clear s) (hbusy : s.busy = false) : Chained s :=
  ⟨h.tokens, h.sound, h.unbroken, .idle hbusy h.working h.results⟩

theorem waiting (h : Clear s) (hbusy : s.busy = true) {results : List Message}
    (hwaits : Waits s job.index) : Chained (s.keepResults job.index results) := by
  have hresults : (s.keepResults job.index results).pendingAutoResults =
      [(job.index, results)] := by
    simp [State.keepResults, State.forgetResults, h.results]
  exact ⟨h.tokens, h.sound, h.unbroken, .waiting hbusy h.working hresults hwaits⟩

/-- The chain is left to a task. -/
theorem suspend (h : Clear s) (hbusy : s.busy = true) {t : Task}
    (hcurrent : t.token = some s.chainToken) (hsound : t.Sound s) : Chained (s.suspend t) where
  tokens := by
    intro u hmem token htoken
    rcases mem_append.mp hmem with hmem | hmem
    · exact h.tokens u hmem token htoken
    · obtain rfl := mem_singleton.mp hmem
      exact (Option.some.inj (hcurrent.symm.trans htoken)).ge
  sound := by
    intro u hmem hu
    rcases mem_append.mp hmem with hmem | hmem
    · exact h.sound u hmem hu
    · obtain rfl := mem_singleton.mp hmem
      exact hsound
  unbroken := h.unbroken
  phase := by
    refine .working hbusy ?_ h.results
    have hsplit : (s.suspend t).working = s.working + 1 := by
      simp only [State.working, State.suspend, countP_append, countP_singleton]
      simp [hcurrent]
      rfl
    rw [hsplit, h.working]

end Clear

/-! ## Taking up a task -/

theorem working_without (hk : s.tasks[k]? = some t) :
    s.working = (s.without k).working + if t.token = some s.chainToken then 1 else 0 := by
  obtain ⟨hlt, rfl⟩ := List.getElem?_eq_some_iff.mp hk
  have hperm := (getElem_cons_eraseIdx_perm hlt).countP_eq (·.token = some s.chainToken)
  rw [State.working, ← hperm, countP_cons]
  simp only [decide_eq_true_eq]
  rfl

/-- The chain is with the task that carries its token. -/
theorem Chained.take (h : Chained s) (hk : s.tasks[k]? = some t)
    (hcurrent : t.token = some s.chainToken) :
    Clear (s.without k) ∧ s.busy = true ∧ t.Sound (s.without k) := by
  have hworking := working_without hk
  rw [if_pos hcurrent] at hworking
  have hsub : (s.without k).tasks.Sublist s.tasks := eraseIdx_sublist ..
  cases h.phase with
  | idle busy working results => omega
  | waiting busy working results waits => omega
  | working busy working results =>
      refine ⟨⟨fun u hmem ↦ h.tokens u (hsub.subset hmem), h.unbroken, by omega, results⟩, busy, ?_⟩
      exact h.sound t (mem_of_getElem? hk) hcurrent

/-- A task without the chain token leaves the chain where it is. -/
theorem Chained.without (h : Chained s) (hk : s.tasks[k]? = some t)
    (hstale : t.token ≠ some s.chainToken) : Chained (s.without k) := by
  have hworking := working_without hk
  rw [if_neg hstale] at hworking
  have hsub : (s.without k).tasks.Sublist s.tasks := eraseIdx_sublist ..
  refine ⟨fun u hmem ↦ h.tokens u (hsub.subset hmem), fun u hmem ↦ h.sound u (hsub.subset hmem),
    h.unbroken, ?_⟩
  cases h.phase with
  | idle busy working results => exact .idle busy (by omega) results
  | working busy working results => exact .working busy (by omega) results
  | waiting busy working results waits => exact .waiting busy (by omega) results waits

theorem Phase.of_eq {t : State} (h : Phase s) (hbusy : t.busy = s.busy)
    (hworking : t.working = s.working) (hresults : t.pendingAutoResults = s.pendingAutoResults)
    (hmessages : t.messages = s.messages) (htoken : t.chainToken = s.chainToken) : Phase t := by
  cases h with
  | idle busy working results =>
      exact .idle (hbusy.trans busy) (hworking.trans working) (hresults.trans results)
  | working busy working results =>
      exact .working (hbusy.trans busy) (hworking.trans working) (hresults.trans results)
  | waiting busy working results waits =>
      refine .waiting (hbusy.trans busy) (hworking.trans working) (hresults.trans results) ?_
      rw [Waits, hmessages, htoken]
      exact waits

/-- A new task that is not of the chain. -/
theorem Chained.suspend (h : Chained s) (hnone : t.token = none) : Chained (s.suspend t) := by
  have hworking : (s.suspend t).working = s.working := by
    simp [State.working, State.suspend, hnone]
    rfl
  refine ⟨?_, ?_, h.unbroken, h.phase.of_eq rfl hworking rfl rfl rfl⟩
  · intro u hmem token htoken
    rcases mem_append.mp hmem with hmem | hmem
    · exact h.tokens u hmem token htoken
    · obtain rfl := mem_singleton.mp hmem
      simp [hnone] at htoken
  · intro u hmem hcurrent
    rcases mem_append.mp hmem with hmem | hmem
    · exact h.sound u hmem hcurrent
    · obtain rfl := mem_singleton.mp hmem
      simp [hnone] at hcurrent

/-- While `busy` is false there is no chain. -/
theorem Chained.clear (h : Chained s) (hbusy : s.busy = false) : Clear s := by
  cases h.phase with
  | idle _ working results => exact ⟨h.tokens, h.unbroken, working, results⟩
  | working busy => simp [hbusy] at busy
  | waiting busy => simp [hbusy] at busy

/-! ## The cards of a loop -/

theorem patchCards_getElem? {messages : List Message} {index : Nat} {id : String}
    {status : CardStatus} {message : Message} (h : messages[index]? = some message) :
    (patchCards messages index id status)[index]? = some (message.patchCard id status) := by
  simp [patchCards, h]

section Loops

variable {messages : List Message} {token : Nat} {cards : List Card} {id : String}

/-- A card that is left gets a status: what waits is another. -/
theorem Loops.patch (h : Loops messages token job cards hasPending) (hid : id ∈ cards.map Card.id)
    (status : CardStatus) :
    Loops (patchCards messages job.index id status) token job cards hasPending := by
  obtain ⟨message, hmessage, hborn, hshown, hpending⟩ := h.shown
  refine ⟨h.born, h.ids, message.patchCard id status, patchCards_getElem? hmessage, ?_, ?_, ?_⟩
  · intro c hmem
    obtain ⟨before, hbefore, rfl⟩ := mem_map.mp hmem
    split
    · exact hborn before hbefore
    · exact hborn before hbefore
  · intro c hmem
    obtain ⟨before, hbefore, hsame⟩ := hshown c hmem
    refine ⟨_, mem_map_of_mem hbefore, ?_⟩
    split <;> exact hsame
  · intro hwaits
    obtain ⟨before, hbefore, hstatus, hother⟩ := hpending hwaits
    have hne : before.id ≠ id := fun heq ↦ hother (heq ▸ hid)
    exact ⟨before, mem_map.mpr ⟨before, hbefore, if_neg hne⟩, hstatus, hother⟩

/-- The loop comes past a card. -/
theorem Loops.tail (h : Loops messages token job (card :: rest) hasPending) :
    Loops messages token job rest hasPending := by
  obtain ⟨message, hmessage, hborn, hshown, hpending⟩ := h.shown
  refine ⟨fun c hmem ↦ h.born c (.tail _ hmem), (nodup_cons.mp h.ids).2, message, hmessage,
    hborn, fun c hmem ↦ hshown c (.tail _ hmem), fun hwaits ↦ ?_⟩
  obtain ⟨c, hmem, hstatus, hother⟩ := hpending hwaits
  exact ⟨c, hmem, hstatus, fun hmem ↦ hother (.tail _ hmem)⟩

/-- The loop comes past a card, which waits from then on. -/
theorem Loops.wait (h : Loops messages token job (card :: rest) hasPending) :
    Loops (patchCards messages job.index card.id .pending) token job rest true := by
  obtain ⟨message, hmessage, -, hshown, -⟩ := h.shown
  obtain ⟨hborn, hids, _, hpatched, hall, hkept, -⟩ := (h.patch (.head _) .pending).tail
  obtain rfl := Option.some.inj ((patchCards_getElem? hmessage).symm.trans hpatched)
  obtain ⟨before, hbefore, hsame⟩ := hshown card (.head _)
  refine ⟨hborn, hids, _, hpatched, hall, hkept, fun _ ↦ ⟨_, mem_map_of_mem hbefore, ?_⟩⟩
  rw [if_pos hsame]
  exact ⟨rfl, hsame ▸ (nodup_cons.mp h.ids).1⟩

end Loops

theorem Loops.waits (h : Loops s.messages s.chainToken job [] true) : Waits s job.index := by
  obtain ⟨message, hmessage, hborn, -, hpending⟩ := h.shown
  obtain ⟨c, hmem, hstatus, -⟩ := hpending rfl
  refine ⟨message, hmessage, ?_, hborn⟩
  exact ne_nil_of_mem (mem_filter.mpr ⟨hmem, by simpa using hstatus⟩)

/-! ## The sections -/

theorem Unbroken.append {log : List Entry} {entry : Entry} (h : Unbroken log)
    (hentry : ∀ card mode token, entry = .executed card mode token → Born token card) :
    Unbroken (log ++ [entry]) := by
  intro card mode token hmem
  rcases mem_append.mp hmem with hmem | hmem
  · exact h card mode token hmem
  · exact hentry card mode token (mem_singleton.mp hmem).symm

namespace Clear

theorem record (h : Clear s) {entry : Entry}
    (hentry : ∀ card mode token, entry = .executed card mode token → Born token card) :
    Clear (s.record entry) :=
  ⟨h.tokens, h.unbroken.append hentry, h.working, h.results⟩

theorem patchCard (h : Clear s) (index : Nat) (id : String) (status : CardStatus) :
    Clear (s.patchCard index id status) :=
  ⟨h.tokens, h.unbroken, h.working, h.results⟩

/-- A command of the chain is executed. -/
theorem execute (h : Clear s) (hborn : Born s.chainToken card) (index : Nat)
    (status : CardStatus) : Clear ((s.patchCard index card.id status).record
      (.executed card s.permissionMode s.chainToken)) := by
  refine (h.patchCard index card.id status).record ?_
  rintro _ _ _ ⟨⟩
  exact hborn

/-- The chain asks the provider, or ends at the limit of rounds where `resolveBatch` is there to
clear `busy`. -/
theorem continueConversation (h : Clear s) {round born : Nat} {caller : Caller}
    (hborn : born = s.chainToken) (hround : caller = .plain → round < maxToolRounds)
    (hguard : caller = .batch → s.resolvingBatch = true) (conversation : List Message) :
    Chained (s.continueConversation conversation round born caller) := by
  rw [State.continueConversation]
  split
  next hlimit =>
    cases caller with
    | plain => exact absurd (hround rfl) (by omega)
    | batch => exact idle ⟨h.tokens, h.unbroken, h.working, h.results⟩ rfl
  next =>
    have hclear : Clear { s with busy := true, sent := s.sent ++ [wireMessages conversation] } :=
      ⟨h.tokens, h.unbroken, h.working, h.results⟩
    have hsound : Task.Sound s (.asking born s.chainToken round caller) := ⟨hborn, hguard⟩
    exact hclear.suspend rfl rfl hsound

theorem finishToolCalls (h : Clear s) (hbusy : s.busy = true) (hborn : job.born = s.chainToken)
    (hloops : Loops s.messages s.chainToken job [] hasPending)
    (hlimit : EndsBelowLimit job.round [] hasPending) (seen results : List Message) :
    Chained (s.finishToolCalls seen job results hasPending) := by
  rw [State.finishToolCalls]
  split
  next hwaits =>
    subst hwaits
    exact h.waiting hbusy hloops.waits
  next hdone =>
    split
    · exact idle ⟨h.tokens, h.unbroken, h.working, h.results⟩ rfl
    · have hround : job.round + 1 < maxToolRounds := hlimit ⟨by simpa using hdone, nofun⟩
      have hplain : Caller.plain = .batch → s.resolvingBatch = true := nofun
      exact h.continueConversation hborn (fun _ ↦ hround) hplain _

/-- The loop of `runToolCalls`, by induction on the cards that are left. -/
theorem runToolCalls {cards : List Card} (h : Clear s) (hbusy : s.busy = true)
    (hcurrent : job.token = s.chainToken) (hborn : job.born = s.chainToken)
    (hloops : Loops s.messages s.chainToken job cards hasPending)
    (hlimit : EndsBelowLimit job.round cards hasPending) (seen results : List Message) :
    Chained (State.runToolCalls seen job cards results hasPending s) := by
  induction cards generalizing results hasPending s with
  | nil => exact h.finishToolCalls hbusy hborn hloops hlimit seen results
  | cons card rest ih =>
      rw [State.runToolCalls]
      split
      case isTrue hdangerous =>
        have hclear : Clear ((s.patchCard job.index card.id .blocked).record (.blocked card)) := by
          refine (h.patchCard _ _ _).record ?_
          rintro _ _ _ ⟨⟩
        refine ih hclear hbusy hcurrent hborn (hloops.patch (.head _) _).tail ?_ _
        exact fun hdone ↦ hlimit ⟨hdone.1, forall_mem_cons.mpr ⟨hdangerous, hdone.2⟩⟩
      case isFalse =>
        split
        case isTrue =>
          exact ih (h.patchCard _ _ _) hbusy hcurrent hborn hloops.wait
            (fun hdone ↦ nomatch hdone.1) _
        case isFalse =>
          have hsound : Task.Sound (s.patchCard job.index card.id .auto)
              (.running job card rest results hasPending) := ⟨hborn, hloops.patch (.head _) _⟩
          exact (h.execute (hloops.born card (.head _)) _ _).suspend hbusy
            (congrArg some hcurrent) hsound

theorem finishBatch (h : Clear s) (hguard : s.resolvingBatch = true)
    (hborn : job.born = s.chainToken) (seen prior results : List Message) :
    Chained (s.finishBatch seen job prior results) := by
  have hround : Caller.batch = .plain → job.round + 1 < maxToolRounds := nofun
  exact h.continueConversation hborn hround (fun _ ↦ hguard) _

theorem runApproved {cards : List Card} (h : Clear s) (hbusy : s.busy = true)
    (hguard : s.resolvingBatch = true) (hcurrent : job.token = s.chainToken)
    (hborn : job.born = s.chainToken) (hcards : ∀ card ∈ cards, Born s.chainToken card)
    (seen prior results : List Message) :
    Chained (s.runApproved seen job prior results cards) := by
  cases cards with
  | nil => exact h.finishBatch hguard hborn _ _ _
  | cons card rest =>
      have hsound : Task.Sound (s.patchCard job.index card.id .approved)
          (.approving job card rest prior results) :=
        ⟨hborn, hguard, fun c hmem ↦ hcards c (.tail _ hmem)⟩
      exact (h.execute (hcards card (.head _)) _ _).suspend hbusy (congrArg some hcurrent) hsound

theorem rejectCard (h : Clear s) (job : Job) (card : Card) : Clear (s.rejectCard job card) := by
  refine (h.patchCard _ _ _).record ?_
  rintro _ _ _ ⟨⟩

theorem rejectCards (h : Clear s) (hguard : s.resolvingBatch = true)
    (hborn : job.born = s.chainToken) (cards : List Card) (seen prior results : List Message) :
    Chained ((cards.foldl (fun s card ↦ s.rejectCard job card) s).finishBatch
      seen job prior results) := by
  induction cards generalizing s with
  | nil => exact h.finishBatch hguard hborn _ _ _
  | cons card rest ih => exact ih (h.rejectCard job card) hguard hborn

/-- A response of the chain: the loop over its cards begins, or the chain ends. -/
theorem answered (h : Clear s) (hbusy : s.busy = true) {born round : Nat} {caller : Caller}
    {calls : List ToolCall} (hborn : born = s.chainToken) (hids : (calls.map ToolCall.id).Nodup)
    (hcaller : caller = .batch → calls = []) :
    Chained (s.answered born s.chainToken round caller calls) := by
  rw [State.answered, if_neg (not_not.mpr rfl)]
  split
  next =>
    cases caller with
    | plain => exact idle ⟨h.tokens, h.unbroken, h.working, h.results⟩ rfl
    | batch => exact idle ⟨h.tokens, h.unbroken, h.working, h.results⟩ rfl
  next hcalls =>
    cases caller with
    | batch => exact absurd (hcaller rfl) hcalls
    | plain =>
        have hcards : ∀ card ∈ s.cardsOf born calls, Born s.chainToken card := by
          intro card hmem
          obtain ⟨-, n, -, -, horigin⟩ := s.mem_cardsOf hmem
          exact ⟨_, horigin, hborn⟩
        have hloops : Loops (s.responded born round calls).messages s.chainToken
            ⟨s.messages.length, round, s.chainToken, born⟩ (s.cardsOf born calls) false := by
          refine ⟨hcards, s.ids_cardsOf born calls ▸ hids, .response round (s.cardsOf born calls),
            by simp [State.responded, State.append], hcards, fun c hmem ↦ ⟨c, hmem, rfl⟩, nofun⟩
        have hclear : Clear (s.responded born round calls) :=
          ⟨h.tokens, h.unbroken, h.working, h.results⟩
        have hsound : Task.Sound (s.responded born round calls)
            (.deferred ⟨s.messages.length, round, s.chainToken, born⟩ (s.cardsOf born calls)) :=
          ⟨hborn, hloops⟩
        exact hclear.suspend hbusy rfl hsound

theorem failed (h : Clear s) (caller : Caller) : Chained (s.failed s.chainToken caller) := by
  rw [State.failed, if_neg (not_not.mpr rfl)]
  cases caller with
  | plain => exact idle ⟨h.tokens, h.unbroken, h.working, h.results⟩ rfl
  | batch => exact idle ⟨h.tokens, h.unbroken, h.working, h.results⟩ rfl

end Clear

/-- What is left of a broken chain ends while there is no other. -/
theorem Chained.stale (h : Chained s) (hbusy : s.busy = false) (caller : Caller) :
    Chained ({ s with busy := false }.resume caller) := by
  have hclear := h.clear hbusy
  cases caller with
  | plain => exact Clear.idle ⟨hclear.tokens, h.unbroken, hclear.working, hclear.results⟩ rfl
  | batch => exact Clear.idle ⟨hclear.tokens, h.unbroken, hclear.working, hclear.results⟩ rfl

theorem Chained.breakChain (h : Chained s) : Clear s.breakChain where
  tokens := fun t hmem token htoken ↦ (h.tokens t hmem token htoken).trans (Nat.le_succ _)
  unbroken := h.unbroken
  working := by
    refine countP_eq_zero.mpr fun t hmem hcurrent ↦ ?_
    have hle := h.tokens t hmem _ (of_decide_eq_true hcurrent)
    exact absurd hle (Nat.not_succ_le_self _)
  results := rfl

/-- The user decides on a batch that the chain waits with. -/
theorem Chained.resolveBatch (h : Chained s) {index : Nat} (approved : Bool)
    (hadmits : s.resolvingBatch = false → s.awaitsDecision index = true →
      (s.pendingAutoResults.lookup index).isSome = true) :
    Chained (s.resolveBatch index approved) := by
  rw [State.resolveBatch]
  split
  · exact h
  next hguard =>
  split
  · exact h
  next message hmessage =>
  by_cases hnone : message.pendingCards = []
  · simpa only [hnone, if_true] using h
  simp only [hnone, if_false]
  have hlookup := hadmits (by simpa using hguard)
    (by simp [State.awaitsDecision, hmessage, hnone])
  cases h.phase with
  | idle busy working results => simp [results] at hlookup
  | working busy working results => simp [results] at hlookup
  | @waiting busy working i prior results waits =>
      have hi : i = index := by
        by_contra hne
        have hmiss : (index == i) = false := by simpa using Ne.symm hne
        simp [results, lookup_cons, hmiss] at hlookup
      subst hi
      obtain ⟨other, hother, -, hborn⟩ := waits
      obtain rfl : other = message := Option.some.inj (hother.symm.trans hmessage)
      have hpending : ∀ card ∈ other.pendingCards, Born s.chainToken card :=
        fun card hmem ↦ hborn card (mem_filter.mp hmem).1
      have hbornOf : s.bornOf other.pendingCards = s.chainToken := by
        obtain ⟨card, cards, hcards⟩ := exists_cons_of_ne_nil hnone
        obtain ⟨origin, horigin, heq⟩ := hpending card (by simp [hcards])
        simp [State.bornOf, hcards, horigin, heq]
      have hclear : Clear { s.forgetResults i with resolvingBatch := true, busy := true } :=
        ⟨h.tokens, h.unbroken, working, by simp [State.forgetResults, results]⟩
      cases approved with
      | false => exact hclear.rejectCards rfl hbornOf _ _ _ _
      | true =>
          have hrecorded : Clear (State.record { s.forgetResults i with
              resolvingBatch := true, busy := true } (.approved other.pendingCards)) := by
            refine hclear.record ?_
            rintro _ _ _ ⟨⟩
          exact hrecorded.runApproved rfl rfl rfl hbornOf hpending _ _ _

/-! ## Runs -/

theorem Chained.initial (mode : PermissionMode) : Chained (.initial mode) :=
  Clear.idle ⟨nofun, nofun, rfl, rfl⟩ rfl

theorem Chained.loaded (h : Chained s) (stored : List Message)
    (hresults : s.pendingAutoResults = [])
    (hloops : ∀ t ∈ s.tasks, ∀ work, t.work = some work → work.job.token = s.chainToken →
      work.approved = true) : Chained (s.loaded stored) where
  tokens := h.tokens
  sound := by
    intro t hmem hcurrent
    have hsound := h.sound t hmem hcurrent
    cases t with
    | deferred job cards => cases hloops _ hmem _ rfl (Option.some.inj hcurrent)
    | running job => cases hloops _ hmem _ rfl (Option.some.inj hcurrent)
    | _ => exact hsound
  unbroken := h.unbroken
  phase := by
    cases h.phase with
    | idle busy working results => exact .idle busy working results
    | working busy working results => exact .working busy working results
    | waiting busy working results => simp [hresults] at results

/-- What a task that is settled does next keeps the chains apart. -/
theorem Chained.wake (h : Chained s) {task : Task} {outcome : Outcome} {next : State}
    (hk : s.tasks[k]? = some task) (hadmits : KeepsChainsApart s (.settle k outcome))
    (hnext : (s.without k).wake task outcome = some next) : Chained next := by
  replace hadmits := hadmits task hk
  cases task with
  | submitting born =>
      cases outcome with
      | ensured =>
          cases hnext
          obtain ⟨hborn, hbusy⟩ := hadmits
          have hclear := (h.without hk (by rintro ⟨⟩)).clear hbusy
          have huser : Clear ((s.without k).append .user) :=
            ⟨hclear.tokens, hclear.unbroken, hclear.working, hclear.results⟩
          have hbatch : Caller.plain = .batch → s.resolvingBatch = true := by
            rintro ⟨⟩
          exact huser.continueConversation hborn (fun _ ↦ by decide) hbatch _
      | _ => cases hnext
  | asking born token round caller =>
      by_cases hcurrent : token = s.chainToken
      · subst hcurrent
        obtain ⟨hclear, hbusy, hborn, -⟩ := h.take hk rfl
        cases outcome with
        | response calls =>
            cases hnext
            obtain ⟨hids, hcaller⟩ := hadmits.1 rfl
            exact hclear.answered hbusy hborn hids hcaller
        | failure =>
            cases hnext
            exact hclear.failed caller
        | _ => cases hnext
      · have hwithout := h.without hk (by simpa [Task.token] using hcurrent)
        cases outcome with
        | response calls =>
            cases hnext
            rw [State.answered, if_pos (by exact hcurrent)]
            exact hwithout.stale (hadmits.2 hcurrent) caller
        | failure =>
            cases hnext
            rw [State.failed, if_pos (by exact hcurrent)]
            exact hwithout.stale (hadmits hcurrent) caller
        | _ => cases hnext
  | deferred job cards =>
      cases outcome with
      | timer =>
          cases hnext
          obtain ⟨hcurrent, hlimit⟩ := hadmits
          obtain ⟨hclear, hbusy, hborn, hloops⟩ := h.take hk (congrArg some hcurrent)
          exact hclear.runToolCalls hbusy hcurrent hborn hloops hlimit _ _
      | _ => cases hnext
  | running job card rest results hasPending =>
      cases outcome with
      | exit succeeded =>
          cases hnext
          rw [State.afterCommand]
          split
          next hstale =>
            have hstale : job.token ≠ s.chainToken := hstale
            have hwithout := h.without hk (by simpa [Task.token] using hstale)
            exact hwithout.stale (hadmits.2 hstale) .plain
          next hcurrent =>
            have hcurrent : job.token = s.chainToken := not_not.mp hcurrent
            obtain ⟨hclear, hbusy, hborn, hloops⟩ := h.take hk (congrArg some hcurrent)
            exact (hclear.patchCard _ _ _).runToolCalls hbusy hcurrent hborn
              (hloops.patch (.head _) _).tail (hadmits.1 hcurrent) _ _
      | _ => cases hnext
  | approving job card rest prior results =>
      cases outcome with
      | exit succeeded =>
          cases hnext
          rw [State.afterApproved]
          split
          next hstale =>
            have hstale : job.token ≠ s.chainToken := hstale
            have hwithout := h.without hk (by simpa [Task.token] using hstale)
            exact hwithout.stale (hadmits hstale) .batch
          next hcurrent =>
            have hcurrent : job.token = s.chainToken := not_not.mp hcurrent
            obtain ⟨hclear, hbusy, hborn, hguard, hcards⟩ := h.take hk (congrArg some hcurrent)
            exact (hclear.patchCard _ _ _).runApproved hbusy hguard hcurrent hborn hcards _ _ _
      | _ => cases hnext
  | loading =>
      have hwithout := h.without hk (by rintro ⟨⟩)
      cases outcome with
      | stored messages =>
          cases hnext
          exact hwithout.loaded _ hadmits.1 fun t hmem ↦ hadmits.2 t (mem_of_mem_eraseIdx hmem)
      | failure =>
          cases hnext
          exact hwithout
      | _ => cases hnext

theorem Chained.step (h : Chained s) {event : Event} {next : State}
    (hadmits : KeepsChainsApart s event) (hnext : s.step event = some next) : Chained next := by
  cases event with
  | submit =>
      simp only [State.step] at hnext
      split at hnext
      · cases hnext
      · cases hnext
        exact h.suspend rfl
  | resolveBatch index approved =>
      cases hnext
      exact h.resolveBatch approved hadmits
  | switch =>
      cases hnext
      have hclear := h.breakChain
      exact Clear.idle ⟨hclear.tokens, h.unbroken, hclear.working, rfl⟩ rfl
  | selectConversation =>
      simp only [State.step] at hnext
      split at hnext
      · cases hnext
      · cases hnext
        exact (h.breakChain.idle rfl).suspend rfl
  | setPermissionMode mode =>
      cases hnext
      exact ⟨h.tokens, h.sound, h.unbroken, h.phase.of_eq rfl rfl rfl rfl rfl⟩
  | settle task outcome =>
      obtain ⟨t, ht, hnext⟩ := Option.bind_eq_some_iff.mp hnext
      exact h.wake ht hadmits hnext

/-- In a run that keeps the chains apart there is one chain at a time, and `busy` says so. -/
theorem exclusive_of_reaches {mode : PermissionMode}
    (hreach : Reaches State.step KeepsChainsApart (.initial mode) s) : Exclusive s := by
  have hchained : Chained s := by
    apply hreach.invariant (Chained.initial mode)
    intro t event u h hadmits hnext
    exact h.step hadmits hnext
  exact hchained.exclusive
/-- One round with a command. Then the target is changed while the model is asked, and the next chain
is submitted before the answer to the broken one comes. -/
theorem exclusive_answered : ∃ s, Reaches State.step KeepsChainsApart (.initial .approval) s ∧
    s.log.length = 1 ∧ s.sent.length = 3 ∧ s.busy = false ∧ Exclusive s := by
  have hround : Reaches State.step KeepsChainsApart (.initial .approval) _ :=
    ((((Reaches.start.next (e := .submit) trivial rfl).next
      (e := .settle 0 .ensured) (by rintro t ⟨⟩; exact ⟨rfl, rfl⟩) rfl).next
      (e := .settle 0 (.response [⟨"a", "web", "ls", .readOnly⟩]))
        (by rintro t ⟨⟩; exact ⟨fun _ ↦ ⟨by decide, nofun⟩, fun h ↦ absurd rfl h⟩) rfl).next
      (e := .settle 0 .timer) (by rintro t ⟨⟩; exact ⟨rfl, fun _ ↦ by decide⟩) rfl).next
      (e := .settle 0 (.exit true))
        (by rintro t ⟨⟩; exact ⟨fun _ _ ↦ by decide, fun h ↦ absurd rfl h⟩) rfl
  have hreach := ((((hround.next (e := Event.switch) trivial rfl).next
      (e := Event.submit) trivial rfl).next
      (e := .settle 0 (.response []))
        (by rintro t ⟨⟩; exact ⟨fun h ↦ absurd h (by decide), fun _ ↦ rfl⟩) rfl).next
      (e := .settle 0 .ensured) (by rintro t ⟨⟩; exact ⟨rfl, rfl⟩) rfl).next
      (e := .settle 0 (.response []))
        (by rintro t ⟨⟩; exact ⟨fun _ ↦ ⟨.nil, nofun⟩, fun h ↦ absurd rfl h⟩) rfl
  exact ⟨_, hreach, rfl, rfl, rfl, exclusive_of_reaches hreach⟩

end KaduoxSsh.Desktop.Ai
