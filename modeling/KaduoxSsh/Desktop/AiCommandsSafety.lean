import KaduoxSsh.Desktop.AiCommands
import Mathlib.Data.List.Flatten
import Mathlib.Data.List.Nodup
import Mathlib.Data.List.Perm.Basic

/-!
# No command runs twice: the invariant

Each card that waits, and each that a task may still come to, is one that nothing
was decided on, and no two tasks may come to the same one. The loop over the cards
is followed with the cards that are left `InHand`, which is where a task leaves
them and where the next section takes them up.
-/

namespace KaduoxSsh.Desktop.Ai

open List

/-! ## The invariant -/

/-- The calls whose cards a task of the chain may come to. -/
def Task.held (token : Nat) (t : Task) : List (Option Nat) :=
  match t.work with
  | some work => if work.job.token = token then work.cards.map Card.serial else []
  | none => []

def State.held (s : State) : List (Option Nat) := s.tasks.flatMap (Task.held s.chainToken)

/-- No task of the chain is in `resolveBatch`. -/
def State.Lone (s : State) : Prop :=
  ∀ t ∈ s.tasks, ¬(t.inBatch = true ∧ t.token = some s.chainToken)

/-- A call that nothing was decided on; only the message at an index may show it. -/
structure Open (s : State) (index : Nat) (card : Card) : Prop where
  number : ∃ n < s.calls, card.serial = some n
  undecided : card.serial ∉ settled s.log
  linked : ∀ i c, Shows s.messages i c → c.serial = card.serial → i = index ∧ c.id = card.id

/-- A change of the status for the id of a card is one of this card alone. -/
structure Sole (s : State) (index : Nat) (card : Card) : Prop where
  present : index < s.messages.length
  alone : ∀ c, Shows s.messages index c → c.id = card.id → c.serial = card.serial

structure Undecided (s : State) (index : Nat) (cards : List Card) : Prop where
  isOpen : ∀ card ∈ cards, Open s index card
  nodup : (cards.map Card.serial).Nodup

/-- What `runToolCalls` relies on for the cards that it comes to, and `resolveBatch`. -/
structure Ready (s : State) (work : Work) : Prop where
  sole : work.approved = false → ∀ card ∈ work.cards, Sole s work.job.index card
  approved : work.approved = true → ∀ card ∈ work.cards, Approved s.log card

/-- Cards that the section at work may come to, and no task. -/
structure InHand (s : State) (index : Nat) (cards : List Card) : Prop extends
    Undecided s index cards where
  free : ∀ card ∈ cards, card.serial ∉ s.held

structure Apart (s : State) : Prop where
  recorded : Recorded s.log s.calls
  fresh : ∀ i c n, Shows s.messages i c → c.serial = some n → n < s.calls
  apart : ∀ i j c d n, Shows s.messages i c → Shows s.messages j d →
    c.serial = some n → d.serial = some n → i = j ∧ c.id = d.id
  distinct : ∀ serials ∈ s.messages.map Message.serials,
    serials.Pairwise fun a b ↦ a = b → a = none
  waiting : ∀ i c, Shows s.messages i c → c.status = .pending →
    c.serial ≠ none ∧ c.serial ∉ settled s.log
  tokens : ∀ t ∈ s.tasks, ∀ token, t.token = some token → token ≤ s.chainToken
  heldOnce : s.held.Nodup
  holds : ∀ t ∈ s.tasks, ∀ work, t.work = some work → work.job.token = s.chainToken →
    Undecided s work.job.index work.cards ∧ Ready s work
  guarded : ∀ t ∈ s.tasks, t.inBatch = true → t.token = some s.chainToken →
    s.resolvingBatch = true
  single : s.tasks.Pairwise fun t u ↦
    ¬((t.inBatch = true ∧ t.token = some s.chainToken) ∧
      (u.inBatch = true ∧ u.token = some s.chainToken))

variable {s t : State} {index : Nat} {id : String} {status : CardStatus} {card : Card}
  {rest : List Card} {work : Work} {entry : Entry} {cards : List Card} {task : Task} {job : Job}
  {caller : Caller} {token : Nat}

/-! ## Messages that stay, and new ones -/

/-- The cards of a state are those of another, up to their statuses, and new ones behind. -/
structure Evolves (s t : State) : Prop where
  shown : ∀ i c, Shows t.messages i c →
    (∃ before, Shows s.messages i before ∧ c.serial = before.serial ∧ c.id = before.id) ∨
      s.messages.length ≤ i ∧ ∃ n, s.calls ≤ n ∧ c.serial = some n
  length : s.messages.length ≤ t.messages.length
  calls : s.calls ≤ t.calls

theorem Evolves.of_eq (hmessages : t.messages = s.messages) (hcalls : t.calls = s.calls) :
    Evolves s t where
  shown := fun _ c hshow ↦ .inl ⟨c, hmessages ▸ hshow, rfl, rfl⟩
  length := hmessages ▸ le_rfl
  calls := hcalls ▸ le_rfl

theorem evolves_patchCard : Evolves s (s.patchCard index id status) where
  shown := fun _ _ hshow ↦
    let ⟨before, hbefore, hserial, hid, _⟩ := hshow.before_patch
    .inl ⟨before, hbefore, hserial, hid⟩
  length := by simp [State.patchCard]
  calls := le_rfl

theorem evolves_record : Evolves s ((s.patchCard index id status).record entry) where
  shown := (evolves_patchCard (s := s)).shown
  length := (evolves_patchCard (s := s)).length
  calls := le_rfl

theorem Open.evolve (h : Open s index card) (he : Evolves s t)
    (hlog : card.serial ∉ settled t.log) : Open t index card where
  number :=
    let ⟨n, hn, hserial⟩ := h.number
    ⟨n, hn.trans_le he.calls, hserial⟩
  undecided := hlog
  linked := by
    intro i c hshow hserial
    rcases he.shown i c hshow with ⟨before, hbefore, hsame, hid⟩ | ⟨-, n, hn, hnew⟩
    · rw [hid]
      exact h.linked i before hbefore (hsame ▸ hserial)
    · obtain ⟨m, hm, hcard⟩ := h.number
      have : n = m := by simpa [hnew, hcard] using hserial
      omega

theorem Sole.evolve (h : Sole s index card) (he : Evolves s t) : Sole t index card where
  present := h.present.trans_le he.length
  alone := by
    intro c hshow hid
    rcases he.shown index c hshow with ⟨before, hbefore, hsame, hsameId⟩ | ⟨hlast, -⟩
    · rw [hsame]
      exact h.alone before hbefore (hsameId ▸ hid)
    · exact absurd h.present (by omega)

/-- Where the messages evolve, what was undecided is so if nothing was decided on it. -/
theorem Undecided.evolve (h : Undecided s index cards) (he : Evolves s t)
    (hlog : ∀ card ∈ cards, card.serial ∉ settled t.log) : Undecided t index cards where
  isOpen := fun card hmem ↦ (h.isOpen card hmem).evolve he (hlog card hmem)
  nodup := h.nodup

theorem Undecided.tail (h : Undecided s index (card :: rest)) : Undecided s index rest where
  isOpen := fun c hmem ↦ h.isOpen c (mem_cons_of_mem _ hmem)
  nodup := (nodup_cons.mp h.nodup).2

theorem Ready.evolve (h : Ready s work) (he : Evolves s t)
    (happroved : ∀ card, Approved s.log card → Approved t.log card) : Ready t work where
  sole := fun hloop card hmem ↦ (h.sole hloop card hmem).evolve he
  approved := fun hbatch card hmem ↦ happroved card (h.approved hbatch card hmem)

theorem Ready.tail {approved : Bool} (h : Ready s ⟨job, card :: rest, approved⟩) :
    Ready s ⟨job, rest, approved⟩ where
  sole := fun hloop c hmem ↦ h.sole hloop c (mem_cons_of_mem _ hmem)
  approved := fun hbatch c hmem ↦ h.approved hbatch c (mem_cons_of_mem _ hmem)

/-- What the tasks of a state hold, they hold where messages and log are the same. -/
theorem Apart.holds_of_eq (h : Apart s) (hmessages : t.messages = s.messages)
    (hlog : t.log = s.log) (hcalls : t.calls = s.calls) (hmem : task ∈ s.tasks)
    (hwork : task.work = some work) (hcurrent : work.job.token = s.chainToken) :
    Undecided t work.job.index work.cards ∧ Ready t work := by
  have he : Evolves s t := .of_eq hmessages hcalls
  obtain ⟨hundecided, hready⟩ := h.holds task hmem work hwork hcurrent
  exact ⟨hundecided.evolve he fun card hcard ↦ hlog ▸ (hundecided.isOpen card hcard).undecided,
    hready.evolve he fun _ happroved ↦ hlog ▸ happroved⟩

/-- What the cards do not depend on. -/
theorem Apart.aside (h : Apart s) (busy : Bool) (permissionMode : PermissionMode)
    (pendingAutoResults : List (Nat × List Message)) (sent : List (List WireMessage)) :
    Apart { s with busy, permissionMode, pendingAutoResults, sent } :=
  { h with
    holds := fun _ hmem _ hwork hcurrent ↦ h.holds_of_eq rfl rfl rfl hmem hwork hcurrent }

/-! ## Tasks that come and go -/

theorem Apart.without (h : Apart s) (k : Nat) : Apart (s.without k) :=
  have hsub : (s.without k).tasks.Sublist s.tasks := eraseIdx_sublist ..
  { h with
    tokens := fun t hmem ↦ h.tokens t (hsub.subset hmem)
    heldOnce := (hsub.flatMap _).nodup h.heldOnce
    holds := fun _ hmem _ hwork hcurrent ↦
      h.holds_of_eq rfl rfl rfl (hsub.subset hmem) hwork hcurrent
    guarded := fun t hmem ↦ h.guarded t (hsub.subset hmem)
    single := h.single.sublist hsub }

theorem held_of_work (hwork : task.work = some work) (hcurrent : work.job.token = token) :
    task.held token = work.cards.map Card.serial := by
  simp [Task.held, hwork, hcurrent]

theorem Task.work_of_mem_held {serial : Option Nat} (h : serial ∈ task.held token) :
    ∃ work, task.work = some work ∧ work.job.token = token ∧
      serial ∈ work.cards.map Card.serial := by
  cases hwork : task.work with
  | none => simp [Task.held, hwork] at h
  | some work =>
      by_cases hcurrent : work.job.token = token
      · exact ⟨work, rfl, hcurrent, held_of_work hwork hcurrent ▸ h⟩
      · simp [Task.held, hwork, hcurrent] at h

/-- The cards of a task that is settled are in the hands of the section that follows. -/
theorem Apart.take (h : Apart s) {k : Nat} (hk : s.tasks[k]? = some task)
    (hwork : task.work = some work) (hcurrent : work.job.token = s.chainToken) :
    InHand (s.without k) work.job.index work.cards ∧ Ready (s.without k) work := by
  obtain ⟨hlt, rfl⟩ := List.getElem?_eq_some_iff.mp hk
  obtain ⟨hundecided, hready⟩ := h.holds_of_eq (t := s.without k) rfl rfl rfl
    (getElem_mem hlt) hwork hcurrent
  refine ⟨⟨hundecided, ?_⟩, hready⟩
  intro card hcard hheld
  have hperm := (getElem_cons_eraseIdx_perm hlt).flatMap_right (Task.held s.chainToken)
  have hnodup := hperm.nodup_iff.mpr h.heldOnce
  rw [flatMap_cons, held_of_work hwork hcurrent, nodup_append] at hnodup
  exact hnodup.2.2 _ (mem_map_of_mem hcard) _ hheld rfl

/-- When a task in `resolveBatch` is settled, the guard is held and no other is there. -/
theorem Apart.take_batch (h : Apart s) {k : Nat} (hk : s.tasks[k]? = some task)
    (hbatch : task.inBatch = true) (hcurrent : task.token = some s.chainToken) :
    s.resolvingBatch = true ∧ (s.without k).Lone := by
  obtain ⟨hlt, rfl⟩ := List.getElem?_eq_some_iff.mp hk
  refine ⟨h.guarded _ (getElem_mem hlt) hbatch hcurrent, ?_⟩
  intro other hmem hother
  have hperm := getElem_cons_eraseIdx_perm hlt
  have hpairs := (hperm.pairwise_iff fun hab hba ↦ hab ⟨hba.2, hba.1⟩).mpr h.single
  exact (pairwise_cons.mp hpairs).1 other hmem ⟨⟨hbatch, hcurrent⟩, hother⟩

theorem Apart.suspend (h : Apart s)
    (htoken : ∀ token, task.token = some token → token ≤ s.chainToken)
    (hwork : ∀ work, task.work = some work → work.job.token = s.chainToken → InHand s work.job.index work.cards ∧ Ready s work)
    (hbatch : task.inBatch = true → task.token = some s.chainToken → s.resolvingBatch = true ∧ s.Lone) :
    Apart (s.suspend task) := by
  have hheld : (s.suspend task).held = s.held ++ task.held s.chainToken := by
    simp [State.held, State.suspend]
  refine { h with tokens := ?_, heldOnce := ?_, holds := ?_, guarded := ?_, single := ?_ }
  · intro t hmem
    rcases mem_append.mp hmem with hmem | hmem
    · exact h.tokens t hmem
    · obtain rfl := mem_singleton.mp hmem
      exact htoken
  · rw [hheld]
    cases hw : task.work with
    | none => simpa [Task.held, hw] using h.heldOnce
    | some work =>
        by_cases hcurrent : work.job.token = s.chainToken
        · have hand := (hwork work hw hcurrent).1
          rw [held_of_work hw hcurrent]
          refine nodup_append.mpr ⟨h.heldOnce, hand.nodup, ?_⟩
          rintro _ hfirst _ hsecond rfl
          obtain ⟨card, hcard, hserial⟩ := mem_map.mp hsecond
          exact hand.free card hcard (hserial ▸ hfirst)
        · simpa [Task.held, hw, hcurrent] using h.heldOnce
  · intro t hmem work hw hcurrent
    rcases mem_append.mp hmem with hmem | hmem
    · exact h.holds_of_eq rfl rfl rfl hmem hw hcurrent
    · obtain rfl := mem_singleton.mp hmem
      obtain ⟨hand, hready⟩ := hwork work hw hcurrent
      exact ⟨hand.evolve (.of_eq rfl rfl) fun c hc ↦ (hand.isOpen c hc).undecided,
        hready.evolve (.of_eq rfl rfl) fun _ happroved ↦ happroved⟩
  · intro t hmem hin hcurrent
    rcases mem_append.mp hmem with hmem | hmem
    · exact h.guarded t hmem hin hcurrent
    · obtain rfl := mem_singleton.mp hmem
      exact (hbatch hin hcurrent).1
  · refine pairwise_append.mpr ⟨h.single, pairwise_singleton .., ?_⟩
    intro t ht u hu hboth
    obtain rfl := mem_singleton.mp hu
    exact (hbatch hboth.2.1 hboth.2.2).2 t ht hboth.1

/-! ## Changes of the cards -/

theorem Apart.patch (h : Apart s)
    (hpending : status = .pending → ∀ c, Shows s.messages index c → c.id = id →
      c.serial ≠ none ∧ c.serial ∉ settled s.log) : Apart (s.patchCard index id status) := by
  refine { h with fresh := ?_, apart := ?_, distinct := ?_, waiting := ?_, holds := ?_ }
  · intro i c n hshow hserial
    obtain ⟨before, hbefore, hsame, -, -⟩ := hshow.before_patch
    exact h.fresh i before n hbefore (hsame ▸ hserial)
  · intro i j c d n hc hd hcn hdn
    obtain ⟨before, hbefore, hsame, hid, -⟩ := hc.before_patch
    obtain ⟨before', hbefore', hsame', hid', -⟩ := hd.before_patch
    rw [hid, hid']
    exact h.apart i j before before' n hbefore hbefore' (hsame ▸ hcn) (hsame' ▸ hdn)
  · have hserials : (s.patchCard index id status).messages.map Message.serials =
        s.messages.map Message.serials :=
      map_patchCards fun message ↦ message.serials_patchCard id status
    rw [hserials]
    exact h.distinct
  · intro i c hshow hwaits
    obtain ⟨before, hbefore, hsame, hid, ⟨hstatus, -⟩ | ⟨rfl, hhit, hstatus⟩⟩ :=
      hshow.before_patch
    · rw [hsame]
      exact h.waiting i before hbefore (hstatus ▸ hwaits)
    · rw [hsame]
      exact hpending (hstatus ▸ hwaits) before hbefore (hid ▸ hhit)
  · intro t hmem work hwork hcurrent
    obtain ⟨hundecided, hready⟩ := h.holds t hmem work hwork hcurrent
    exact ⟨hundecided.evolve evolves_patchCard fun c hc ↦ (hundecided.isOpen c hc).undecided,
      hready.evolve evolves_patchCard fun _ happroved ↦ happroved⟩

theorem InHand.patch {i : Nat} (h : InHand s i cards) :
    InHand (s.patchCard index id status) i cards :=
  { h.evolve evolves_patchCard fun card hcard ↦ (h.isOpen card hcard).undecided with
    free := h.free }

theorem Ready.patch (h : Ready s work) : Ready (s.patchCard index id status) work :=
  h.evolve evolves_patchCard fun _ happroved ↦ happroved

theorem Apart.patch_outcome (h : Apart s) (succeeded : Bool) :
    Apart (s.patchCard index id (State.outcomeStatus succeeded)) :=
  h.patch fun hwaits ↦ absurd hwaits (State.outcomeStatus_ne_pending succeeded)

/-- A decision on a card that nothing was decided on, and that no task holds. -/
theorem Apart.settle (h : Apart s) (hopen : Open s index card) (hfree : card.serial ∉ s.held)
    (hstatus : status ≠ .pending) (hsettles : entry.settles = some card.serial)
    (hfits : entry.Fits s.log) : Apart ((s.patchCard index card.id status).record entry) := by
  have hpatched : Apart (s.patchCard index card.id status) :=
    h.patch fun hwaits ↦ absurd hwaits hstatus
  have hsettled : settled ((s.patchCard index card.id status).record entry).log =
      settled s.log ++ [card.serial] := by
    simp [State.record, State.patchCard, hsettles]
  refine { hpatched with recorded := ?_, waiting := ?_, holds := ?_ }
  · refine hpatched.recorded.append hfits fun serial hserial ↦ ?_
    obtain rfl : card.serial = serial := by simpa [hsettles] using hserial
    exact ⟨hopen.undecided, hopen.number⟩
  · intro i c hshow hwaits
    obtain ⟨hnumber, hundecided⟩ := hpatched.waiting i c hshow hwaits
    refine ⟨hnumber, fun hmem ↦ ?_⟩
    rw [hsettled] at hmem
    rcases mem_append.mp hmem with hmem | hmem
    · exact hundecided hmem
    -- the card itself is shown by the message at the index, and no longer waits
    · obtain ⟨before, hbefore, hsame, hid, ⟨-, hmissed⟩ | ⟨-, -, hhit⟩⟩ := hshow.before_patch
      · have hserial : before.serial = card.serial := by
          rw [← hsame]
          exact mem_singleton.mp hmem
        obtain ⟨hi, hcard⟩ := hopen.linked i before hbefore hserial
        exact hmissed ⟨hi, hid.trans hcard⟩
      · exact hstatus (hhit ▸ hwaits)
  · intro t hmem work hwork hcurrent
    obtain ⟨hundecided, hready⟩ := hpatched.holds t hmem work hwork hcurrent
    refine ⟨hundecided.evolve (.of_eq rfl rfl) fun c hc hmem' ↦ ?_,
      hready.evolve (.of_eq rfl rfl) fun _ happroved ↦ happroved.append⟩
    rw [hsettled] at hmem'
    rcases mem_append.mp hmem' with hmem' | hmem'
    · exact (hundecided.isOpen c hc).undecided hmem'
    · refine hfree (mem_flatMap.mpr ⟨t, hmem, ?_⟩)
      have hheld : t.held s.chainToken = work.cards.map Card.serial := held_of_work hwork hcurrent
      rw [hheld, ← mem_singleton.mp hmem']
      exact mem_map_of_mem hc

theorem InHand.dropHead (h : InHand s index (card :: rest)) : InHand s index rest :=
  { h.tail with free := fun c hc ↦ h.free c (mem_cons_of_mem _ hc) }

theorem InHand.settle {i : Nat} (h : InHand s i (card :: rest))
    (hsettles : entry.settles = some card.serial) :
    InHand ((s.patchCard index id status).record entry) i rest := by
  refine { h.tail.evolve evolves_record ?_ with free := ?_ }
  · intro c hc hmem
    rw [State.record, settled_append, hsettles] at hmem
    rcases mem_append.mp hmem with hmem | hmem
    · exact (h.tail.isOpen c hc).undecided hmem
    · have hserial : c.serial = card.serial := by simpa using hmem
      exact (nodup_cons.mp h.nodup).1 (hserial ▸ mem_map_of_mem hc)
  · intro c hc
    exact h.free c (mem_cons_of_mem _ hc)

theorem Ready.settle (h : Ready s work) :
    Ready ((s.patchCard index id status).record entry) work :=
  h.evolve evolves_record fun _ happroved ↦ happroved.append

/-- Where the loop of `runToolCalls` comes to a card, the card alone starts to wait. -/
theorem Apart.patch_waiting (h : Apart s) (hopen : Open s index card) (hsole : Sole s index card) :
    Apart (s.patchCard index card.id .pending) := by
  refine h.patch fun _ c hshow hid ↦ ?_
  rw [hsole.alone c hshow hid]
  obtain ⟨n, -, hn⟩ := hopen.number
  exact ⟨by simp [hn], hopen.undecided⟩

/-- A message of the client shows no card. -/
theorem Apart.append (h : Apart s) {message : Message} (hcards : message.commandCards = []) :
    Apart (s.append message) := by
  have hshow : ∀ i c, Shows (s.append message).messages i c → Shows s.messages i c := by
    intro i c hshow
    rcases shows_append.mp hshow with hshow | ⟨-, hmem⟩
    · exact hshow
    · simp [hcards] at hmem
  refine { h with fresh := ?_, apart := ?_, distinct := ?_, waiting := ?_, holds := ?_ }
  · exact fun i c n hc ↦ h.fresh i c n (hshow i c hc)
  · exact fun i j c d n hc hd ↦ h.apart i j c d n (hshow i c hc) (hshow j d hd)
  · intro serials hmem
    rcases mem_append.mp (map_append ▸ hmem) with hmem | hmem
    · exact h.distinct serials hmem
    · obtain rfl : serials = [] := by simpa [Message.serials, hcards] using hmem
      exact .nil
  · exact fun i c hc ↦ h.waiting i c (hshow i c hc)
  · intro t hmem work hwork hcurrent
    have he : Evolves s (s.append message) :=
      ⟨fun i c hc ↦ .inl ⟨c, hshow i c hc, rfl, rfl⟩, by simp [State.append], le_rfl⟩
    obtain ⟨hundecided, hready⟩ := h.holds t hmem work hwork hcurrent
    exact ⟨hundecided.evolve he fun c hc ↦ (hundecided.isOpen c hc).undecided,
      hready.evolve he fun _ happroved ↦ happroved⟩

/-! ## The sections -/

theorem Apart.resume (h : Apart s) (hguard : caller = .batch → s.resolvingBatch = true → s.Lone) :
    Apart (s.resume caller) := by
  cases caller with
  | plain => exact h
  | batch =>
      refine { h with holds := ?_, guarded := ?_ }
      · intro t hmem work hwork hcurrent
        exact h.holds_of_eq rfl rfl rfl hmem hwork hcurrent
      · intro t hmem hin hcurrent
        exact absurd ⟨hin, hcurrent⟩ (hguard rfl (h.guarded t hmem hin hcurrent) t hmem)

theorem Apart.continueConversation (h : Apart s)
    (hbatch : caller = .batch → s.resolvingBatch = true ∧ s.Lone) (conversation : List Message)
    (round born : Nat) : Apart (s.continueConversation conversation round born caller) := by
  rw [State.continueConversation]
  split
  · exact (h.append rfl).resume fun hcaller _ ↦ (hbatch hcaller).2
  · refine (h.aside true s.permissionMode s.pendingAutoResults _).suspend ?_ ?_ ?_
    · rintro token ⟨⟩
      exact le_rfl
    · rintro work ⟨⟩
    · intro hin _
      exact hbatch (by simpa [Task.inBatch] using hin)

theorem Apart.finishToolCalls (h : Apart s) (seen : List Message) (job : Job)
    (results : List Message) (hasPending : Bool) :
    Apart (s.finishToolCalls seen job results hasPending) := by
  rw [State.finishToolCalls]
  split
  · exact h.aside s.busy s.permissionMode _ s.sent
  · split
    · exact h.aside false s.permissionMode s.pendingAutoResults s.sent
    · have hplain : Caller.plain = .batch → s.resolvingBatch = true ∧ s.Lone := nofun
      exact h.continueConversation hplain _ _ _

/-- The loop of `runToolCalls`, by induction on the cards that are left. -/
theorem Apart.runToolCalls {seen : List Message} {results : List Message} {hasPending : Bool}
    (h : Apart s) (hcurrent : job.token = s.chainToken) (hand : InHand s job.index cards)
    (hready : Ready s ⟨job, cards, false⟩) :
    Apart (State.runToolCalls seen job cards results hasPending s) := by
  induction cards generalizing results hasPending s with
  | nil => exact h.finishToolCalls seen job results hasPending
  | cons card rest ih =>
      have hopen := hand.isOpen card (.head _)
      have hfree := hand.free card (.head _)
      rw [State.runToolCalls]
      split
      case isTrue =>
        have hfits : Entry.Fits (.blocked card) s.log := ⟨nofun, nofun⟩
        exact ih (h.settle hopen hfree nofun rfl hfits) hcurrent (hand.settle rfl)
          hready.tail.settle
      case isFalse =>
        split
        case isTrue =>
          exact ih (h.patch_waiting hopen (hready.sole rfl card (.head _))) hcurrent
            hand.dropHead.patch hready.tail.patch
        case isFalse hneeds =>
          have hfits : Entry.Fits (.executed card s.permissionMode s.chainToken) s.log := by
            refine ⟨?_, nofun⟩
            rintro _ _ _ ⟨⟩ happroval
            exact absurd happroval hneeds
          have hsettled : Apart ((s.patchCard job.index card.id .auto).record
              (.executed card s.permissionMode s.chainToken)) :=
            h.settle hopen hfree nofun rfl hfits
          refine hsettled.suspend ?_ ?_ nofun
          · rintro token ⟨⟩
            exact hcurrent.le
          · rintro work ⟨⟩ -
            exact ⟨hand.settle rfl, hready.tail.settle⟩

theorem Apart.runApproved {seen : List Message} {prior results : List Message} (h : Apart s)
    (hcurrent : job.token = s.chainToken) (hand : InHand s job.index cards)
    (hready : Ready s ⟨job, cards, true⟩) (hguard : s.resolvingBatch = true ∧ s.Lone) :
    Apart (s.runApproved seen job prior results cards) := by
  cases cards with
  | nil => exact h.continueConversation (fun _ ↦ hguard) _ _ _
  | cons card rest =>
      have hfits : Entry.Fits (.executed card s.permissionMode s.chainToken) s.log := by
        refine ⟨?_, nofun⟩
        rintro _ _ _ ⟨⟩ -
        exact hready.approved rfl card (.head _)
      have hsettled : Apart ((s.patchCard job.index card.id .approved).record
          (.executed card s.permissionMode s.chainToken)) :=
        h.settle (hand.isOpen card (.head _)) (hand.free card (.head _)) nofun rfl hfits
      refine hsettled.suspend ?_ ?_ fun _ _ ↦ hguard
      · rintro token ⟨⟩
        exact hcurrent.le
      · rintro work ⟨⟩ -
        exact ⟨hand.settle rfl, hready.tail.settle⟩

theorem Apart.rejectCards (h : Apart s) (hand : InHand s job.index cards) :
    Apart (cards.foldl (fun s card ↦ s.rejectCard job card) s) := by
  induction cards generalizing s with
  | nil => exact h
  | cons card rest ih =>
      have hfits : Entry.Fits (.rejected card) s.log := ⟨nofun, nofun⟩
      exact ih (h.settle (hand.isOpen card (.head _)) (hand.free card (.head _)) nofun rfl hfits)
        (hand.settle rfl)

theorem InHand.of_eq (h : InHand s index cards) (hmessages : t.messages = s.messages)
    (hlog : settled t.log = settled s.log) (hcalls : t.calls = s.calls) (hheld : t.held = s.held) :
    InHand t index cards :=
  { h.evolve (.of_eq hmessages hcalls) fun c hc ↦ hlog ▸ (h.isOpen c hc).undecided with
    free := fun c hc ↦ hheld ▸ h.free c hc }

/-- The guard of `resolveBatch` is taken. -/
theorem Apart.guard (h : Apart s) : Apart { s with resolvingBatch := true } :=
  { h with
    holds := fun _ hmem _ hwork hcurrent ↦ h.holds_of_eq rfl rfl rfl hmem hwork hcurrent
    guarded := fun _ _ _ _ ↦ rfl }

theorem Apart.lone (h : Apart s) (hfree : s.resolvingBatch = false) : s.Lone := by
  intro t hmem ⟨hin, hcurrent⟩
  have := h.guarded t hmem hin hcurrent
  simp [hfree] at this

/-- What waits in a message is in no task's hands, if no loop has cards of the message left and
no batch is at work. -/
theorem Apart.pendingCards (h : Apart s) {message : Message} (hfree : s.resolvingBatch = false)
    (hmessage : s.messages[index]? = some message) (hloops : s.LoopsThrough index) :
    InHand s index message.pendingCards := by
  have hshow : ∀ card ∈ message.pendingCards, Shows s.messages index card ∧
      card.status = .pending := by
    intro card hmem
    obtain ⟨hcard, hpending⟩ := mem_filter.mp hmem
    exact ⟨⟨message, hmessage, hcard⟩, by simpa using hpending⟩
  have hopen : ∀ card ∈ message.pendingCards, Open s index card := by
    intro card hmem
    obtain ⟨hcard, hpending⟩ := hshow card hmem
    obtain ⟨hnumber, hundecided⟩ := h.waiting index card hcard hpending
    obtain ⟨n, hn⟩ := Option.ne_none_iff_exists'.mp hnumber
    refine ⟨⟨n, h.fresh index card n hcard hn, hn⟩, hundecided, ?_⟩
    intro i c hc hserial
    exact h.apart i index c card n hc hcard (hserial.trans hn) hn
  refine ⟨⟨hopen, ?_⟩, ?_⟩
  · have hserials : message.serials ∈ s.messages.map Message.serials :=
      mem_map_of_mem (mem_of_getElem? hmessage)
    have hsub : (message.pendingCards.map Card.serial).Sublist message.serials :=
      filter_sublist.map _
    refine ((h.distinct _ hserials).sublist hsub).imp_of_mem ?_
    intro a b ha _ hnone hab
    obtain ⟨card, hmem, rfl⟩ := mem_map.mp ha
    obtain ⟨n, -, hn⟩ := (hopen card hmem).number
    simp [hnone hab] at hn
  · intro card hmem hheld
    obtain ⟨task, htask, hserial⟩ := mem_flatMap.mp hheld
    obtain ⟨work, hwork, hcurrent, hserial⟩ := Task.work_of_mem_held hserial
    obtain ⟨other, hother, hsame⟩ := mem_map.mp hserial
    have hundecided := (h.holds task htask work hwork hcurrent).1
    obtain ⟨hindex, -⟩ := (hundecided.isOpen other hother).linked index card (hshow card hmem).1
      hsame.symm
    cases happroved : work.approved with
    | true =>
        exact absurd ⟨Task.inBatch_of_work hwork happroved, hcurrent ▸ Task.token_of_work hwork⟩
          (h.lone hfree task htask)
    | false =>
        have hnil := hloops task htask work hwork happroved hcurrent hindex.symm
        simp [hnil] at hother

theorem settled_approve (cards : List Card) :
    settled (s.record (.approved cards)).log = settled s.log := by
  simp [State.record, Entry.settles]

/-- An entry that decides on nothing. -/
theorem Apart.approve (h : Apart s) (hfits : Entry.Fits (.approved cards) s.log) :
    Apart (s.record (.approved cards)) := by
  refine { h with recorded := ?_, waiting := ?_, holds := ?_ }
  · exact h.recorded.append hfits nofun
  · rw [settled_approve]
    exact h.waiting
  · intro t hmem work hwork hcurrent
    obtain ⟨hundecided, hready⟩ := h.holds t hmem work hwork hcurrent
    refine ⟨hundecided.evolve (.of_eq rfl rfl) ?_,
      hready.evolve (.of_eq rfl rfl) fun _ happroved ↦ happroved.append⟩
    rw [settled_approve]
    exact fun c hc ↦ (hundecided.isOpen c hc).undecided

theorem rejectCards_guard (job : Job) (cards : List Card) (h : s.Lone) :
    (cards.foldl (fun s card ↦ s.rejectCard job card) s).resolvingBatch = s.resolvingBatch ∧
      (cards.foldl (fun s card ↦ s.rejectCard job card) s).Lone := by
  induction cards generalizing s with
  | nil => exact ⟨rfl, h⟩
  | cons card rest ih => exact ih h

theorem Apart.resolveBatch (h : Apart s) (hloops : s.LoopsThrough index) (approved : Bool) :
    Apart (s.resolveBatch index approved) := by
  rw [State.resolveBatch]
  split
  · exact h
  next hguard =>
  have hfree : s.resolvingBatch = false := by simpa using hguard
  split
  · exact h
  next message hmessage =>
  by_cases hnone : message.pendingCards = []
  · simpa only [hnone, if_true] using h
  simp only [hnone, if_false]
  have hand := h.pendingCards hfree hmessage hloops
  have hheld : Apart { s.forgetResults index with resolvingBatch := true, busy := true } :=
    (h.aside true s.permissionMode (s.forgetResults index).pendingAutoResults s.sent).guard
  have hhand : InHand { s.forgetResults index with resolvingBatch := true, busy := true } index
      message.pendingCards := hand.of_eq rfl rfl rfl rfl
  have hlone : State.Lone { s.forgetResults index with resolvingBatch := true, busy := true } :=
    h.lone hfree
  cases approved with
  | false =>
      let job : Job := ⟨index, message.round.getD 0, s.chainToken, s.bornOf message.pendingCards⟩
      have hguard := rejectCards_guard job message.pendingCards hlone
      exact (hheld.rejectCards hhand).continueConversation (fun _ ↦ hguard) _ _ _
  | true =>
      have hfits : Entry.Fits (.approved message.pendingCards) s.log := by
        refine ⟨nofun, ?_⟩
        rintro _ ⟨⟩ card hcard
        simpa using (mem_filter.mp hcard).2
      refine (hheld.approve hfits).runApproved rfl
        (hhand.of_eq rfl (settled_approve _) rfl rfl) ?_ ⟨rfl, hlone⟩
      refine ⟨nofun, fun _ card hcard ↦ ⟨_, ?_, hcard⟩⟩
      exact mem_append_right _ (.head _)

/-! ## New messages and new conversations -/

section Response

variable {born round : Nat} {calls : List ToolCall}

theorem shows_responded {i : Nat} : Shows (s.responded born round calls).messages i card ↔
    Shows s.messages i card ∨ i = s.messages.length ∧ card ∈ s.cardsOf born calls :=
  shows_append

theorem evolves_responded : Evolves s (s.responded born round calls) where
  shown := by
    intro i c hshow
    rcases shows_responded.mp hshow with hold | ⟨rfl, hmem⟩
    · exact .inl ⟨c, hold, rfl, rfl⟩
    · obtain ⟨-, n, hle, -, horigin⟩ := s.mem_cardsOf hmem
      exact .inr ⟨le_rfl, n, hle, by simp [Card.serial, horigin]⟩
  length := by simp [State.responded, State.append]
  calls := Nat.le_add_right ..

theorem serial_of_mem_cardsOf (hmem : card ∈ s.cardsOf born calls) :
    ∃ n, s.calls ≤ n ∧ n < s.calls + calls.length ∧ card.serial = some n := by
  obtain ⟨-, n, hle, hlt, horigin⟩ := s.mem_cardsOf hmem
  exact ⟨n, hle, hlt, by simp [Card.serial, horigin]⟩

theorem nodup_serials_cardsOf : ((s.cardsOf born calls).map Card.serial).Nodup := by
  rw [s.serials_cardsOf]
  exact List.Nodup.map (fun _ _ ↦ Option.some.inj) nodup_range'

/-- Nothing was decided on a call that is new. -/
theorem Apart.unsettled_of_new (h : Apart s) (hmem : card ∈ s.cardsOf born calls) :
    card.serial ∉ settled s.log := by
  intro hsettled
  obtain ⟨n, hle, -, hserial⟩ := serial_of_mem_cardsOf hmem
  obtain ⟨m, hlt, hm⟩ := h.recorded.known _ hsettled
  have : n = m := by simpa [hserial] using hm
  omega

/-- No message shows a call that is new. -/
theorem Apart.ne_of_new (h : Apart s) {i : Nat} {c : Card} (hshow : Shows s.messages i c)
    (hmem : card ∈ s.cardsOf born calls) : c.serial ≠ card.serial := by
  intro hserial
  obtain ⟨n, hle, -, hn⟩ := serial_of_mem_cardsOf hmem
  have := h.fresh i c n hshow (hserial.trans hn)
  omega

theorem Apart.responded (h : Apart s) : Apart (s.responded born round calls) := by
  have hsame : ∀ c ∈ s.cardsOf born calls, ∀ d ∈ s.cardsOf born calls, c.serial = d.serial →
      c = d := fun c hc d hd ↦ inj_on_of_nodup_map nodup_serials_cardsOf hc hd
  refine { h with
    recorded := h.recorded.mono (Nat.le_add_right ..), fresh := ?_, apart := ?_, distinct := ?_,
    waiting := ?_, holds := ?_ }
  · intro i c n hshow hserial
    rcases shows_responded.mp hshow with hold | ⟨-, hmem⟩
    · exact (h.fresh i c n hold hserial).trans_le (Nat.le_add_right ..)
    · obtain ⟨m, -, hlt, hm⟩ := serial_of_mem_cardsOf hmem
      obtain rfl : m = n := by simpa [hm] using hserial
      exact hlt
  · intro i j c d n hc hd hcn hdn
    have hserial : c.serial = d.serial := hcn.trans hdn.symm
    rcases shows_responded.mp hc with hold | ⟨rfl, hnew⟩ <;>
      rcases shows_responded.mp hd with hold' | ⟨rfl, hnew'⟩
    · exact h.apart i j c d n hold hold' hcn hdn
    · exact absurd hserial (h.ne_of_new hold hnew')
    · exact absurd hserial.symm (h.ne_of_new hold' hnew)
    · exact ⟨rfl, congrArg Card.id (hsame c hnew d hnew' hserial)⟩
  · intro serials hmem
    rcases mem_append.mp (map_append ▸ hmem) with hmem | hmem
    · exact h.distinct serials hmem
    · obtain rfl := mem_singleton.mp hmem
      have hnodup : ((s.cardsOf born calls).map Card.serial).Nodup := nodup_serials_cardsOf
      exact hnodup.imp fun hne heq ↦ absurd heq hne
  · intro i c hshow hwaits
    rcases shows_responded.mp hshow with hold | ⟨-, hmem⟩
    · exact h.waiting i c hold hwaits
    · obtain ⟨n, -, -, hn⟩ := serial_of_mem_cardsOf hmem
      exact ⟨by simp [hn], h.unsettled_of_new hmem⟩
  · intro t hmem work hwork hcurrent
    obtain ⟨hundecided, hready⟩ := h.holds t hmem work hwork hcurrent
    exact ⟨hundecided.evolve evolves_responded fun c hc ↦ (hundecided.isOpen c hc).undecided,
      hready.evolve evolves_responded fun _ happroved ↦ happroved⟩

/-- The cards of a response are in no task's hands. -/
theorem Apart.cardsOf (h : Apart s) : InHand (s.responded born round calls) s.messages.length
    (s.cardsOf born calls) := by
  refine ⟨⟨fun card hmem ↦ ⟨?_, h.unsettled_of_new hmem, ?_⟩, nodup_serials_cardsOf⟩, ?_⟩
  · obtain ⟨n, -, hlt, hn⟩ := serial_of_mem_cardsOf hmem
    exact ⟨n, hlt, hn⟩
  · intro i c hshow hserial
    rcases shows_responded.mp hshow with hold | ⟨rfl, hc⟩
    · exact absurd hserial (h.ne_of_new hold hmem)
    · have hcard : c = card := inj_on_of_nodup_map nodup_serials_cardsOf hc hmem hserial
      exact ⟨rfl, congrArg Card.id hcard⟩
  · intro card hmem hheld
    obtain ⟨task, htask, hserial⟩ := mem_flatMap.mp hheld
    obtain ⟨work, hwork, hcurrent, hserial⟩ := Task.work_of_mem_held hserial
    obtain ⟨other, hother, hsame⟩ := mem_map.mp hserial
    obtain ⟨n, hlt, hn⟩ := ((h.holds task htask work hwork hcurrent).1.isOpen other hother).number
    obtain ⟨m, hle, -, hm⟩ := serial_of_mem_cardsOf hmem
    have : n = m := by simpa [hn, hm] using hsame
    omega

theorem ready_cardsOf {token : Nat} (hids : (calls.map ToolCall.id).Nodup) :
    Ready (s.responded born round calls)
      ⟨⟨s.messages.length, round, token, born⟩, s.cardsOf born calls, false⟩ := by
  refine ⟨fun _ card hmem ↦ ⟨by simp [State.responded, State.append], ?_⟩, nofun⟩
  intro c hshow hid
  rcases shows_responded.mp hshow with hold | ⟨-, hc⟩
  · exact absurd hold.lt (lt_irrefl _)
  · rw [← s.ids_cardsOf born calls] at hids
    exact congrArg Card.serial (inj_on_of_nodup_map hids hc hmem hid)

theorem Apart.answered (h : Apart s) {token : Nat} {caller : Caller}
    (hids : (calls.map ToolCall.id).Nodup) (htoken : token ≤ s.chainToken)
    (hguard : caller = .batch → s.resolvingBatch = true → s.Lone) :
    Apart (s.answered born token round caller calls) := by
  rw [State.answered]
  split
  · exact (h.aside false s.permissionMode s.pendingAutoResults s.sent).resume hguard
  split
  · exact (h.responded.aside false s.permissionMode s.pendingAutoResults s.sent).resume hguard
  next hcurrent _ =>
    obtain rfl : token = s.chainToken := not_not.mp hcurrent
    refine Apart.resume (h.responded.suspend ?_ ?_ ?_) ?_
    · rintro _ ⟨⟩
      exact htoken
    · rintro work ⟨⟩ -
      exact ⟨h.cardsOf, ready_cardsOf hids⟩
    · rintro ⟨⟩
    · intro hcaller hresolving t hmem hboth
      rcases mem_append.mp hmem with hmem | hmem
      · exact hguard hcaller hresolving t hmem hboth
      · obtain rfl := mem_singleton.mp hmem
        cases hboth.1

end Response

theorem Apart.failed (h : Apart s) (hguard : caller = .batch → s.resolvingBatch = true → s.Lone) :
    Apart (s.failed token caller) := by
  rw [State.failed]
  split
  · exact (h.aside false s.permissionMode s.pendingAutoResults s.sent).resume hguard
  · exact ((h.append rfl).aside false s.permissionMode s.pendingAutoResults s.sent).resume hguard

/-- Stored messages show no call that anything waits for, if no loop has cards left. -/
theorem Apart.loaded (h : Apart s) (stored : List Message)
    (hloops : ∀ index, s.LoopsThrough index) : Apart (s.loaded stored) := by
  have hshow : ∀ i c, Shows (s.loaded stored).messages i c →
      c.serial = none ∧ c.status ≠ .pending := by
    intro i c hshow
    simp only [State.loaded] at hshow
    split at hshow
    · obtain ⟨message, hmessage, hmem⟩ := hshow
      simp [mem_singleton.mp (mem_of_getElem? hmessage), Message.note] at hmem
    · exact hshow.of_restored
  refine { h with fresh := ?_, apart := ?_, distinct := ?_, waiting := ?_, holds := ?_ }
  · intro i c n hc hn
    simp [(hshow i c hc).1] at hn
  · intro i j c d n hc hd hn
    simp [(hshow i c hc).1] at hn
  · intro serials hmem
    obtain ⟨message, hmessage, rfl⟩ := mem_map.mp hmem
    obtain ⟨i, hi⟩ := mem_iff_getElem?.mp hmessage
    refine pairwise_iff_forall_sublist.mpr fun hsub _ ↦ ?_
    obtain ⟨card, hcard, rfl⟩ := mem_map.mp (hsub.subset (.head _))
    exact (hshow i card ⟨message, hi, hcard⟩).1
  · intro i c hc hwaits
    exact absurd hwaits (hshow i c hc).2
  · intro t hmem work hwork hcurrent
    obtain ⟨hundecided, hready⟩ := h.holds t hmem work hwork hcurrent
    refine ⟨⟨fun card hcard ↦ ?_, hundecided.nodup⟩, fun hloop card hcard ↦ ?_, hready.approved⟩
    · have hopen := hundecided.isOpen card hcard
      obtain ⟨n, hn, hserial⟩ := hopen.number
      refine ⟨⟨n, hn, hserial⟩, hopen.undecided, fun i c hc hsame ↦ ?_⟩
      simp [hserial, (hshow i c hc).1] at hsame
    · simp [hloops work.job.index t hmem work hwork hloop hcurrent rfl] at hcard

/-- After the chain is broken no task is one of it. -/
theorem Apart.stale (h : Apart s) (hmem : task ∈ s.breakChain.tasks) :
    task.token ≠ some s.breakChain.chainToken := by
  intro htoken
  have hle := h.tokens task hmem _ htoken
  exact absurd hle (Nat.not_succ_le_self _)

theorem Apart.breakChain (h : Apart s) : Apart s.breakChain := by
  have hheld : s.breakChain.held = [] := by
    refine flatMap_eq_nil_iff.mpr fun t hmem ↦ ?_
    by_contra hne
    obtain ⟨serial, hserial⟩ := exists_mem_of_ne_nil _ hne
    obtain ⟨work, hwork, hcurrent, -⟩ := Task.work_of_mem_held hserial
    exact h.stale hmem ((Task.token_of_work hwork).trans (congrArg some hcurrent))
  refine { h with tokens := ?_, heldOnce := ?_, holds := ?_, guarded := ?_, single := ?_ }
  · exact fun t hmem token htoken ↦ (h.tokens t hmem token htoken).trans (Nat.le_succ _)
  · rw [hheld]
    exact .nil
  · intro t hmem work hwork hcurrent
    exact absurd ((Task.token_of_work hwork).trans (congrArg some hcurrent)) (h.stale hmem)
  · exact fun t hmem _ hcurrent ↦ absurd hcurrent (h.stale hmem)
  · exact h.single.imp_of_mem fun ha _ _ hboth ↦ h.stale ha hboth.1.2

/-- A new conversation is one with no stored messages. -/
theorem Apart.switch (h : Apart s) : Apart { s.breakChain with messages := initialMessages } := by
  refine h.breakChain.loaded [] fun index t hmem work hwork _ hcurrent _ ↦ ?_
  exact absurd ((Task.token_of_work hwork).trans (congrArg some hcurrent)) (h.stale hmem)

/-! ## Runs -/

theorem Apart.initial (mode : PermissionMode) : Apart (.initial mode) := by
  have hshow : ∀ i c, ¬Shows initialMessages i c := by
    rintro i c ⟨message, hmessage, hmem⟩
    simp [mem_singleton.mp (mem_of_getElem? hmessage), Message.note] at hmem
  exact {
    recorded := ⟨.nil, nofun, by simp [State.initial], nofun⟩
    fresh := fun i c _ hc ↦ absurd hc (hshow i c)
    apart := fun i _ c _ _ hc ↦ absurd hc (hshow i c)
    distinct := by simp [State.initial, initialMessages, Message.note, Message.serials]
    waiting := fun i c hc ↦ absurd hc (hshow i c)
    tokens := nofun
    heldOnce := .nil
    holds := nofun
    guarded := nofun
    single := .nil }

/-- What a task that is settled does next keeps the cards apart. -/
theorem Apart.wake (h : Apart s) {k : Nat} {outcome : Outcome} {next : State}
    (hk : s.tasks[k]? = some task) (hadmits : KeepsCardsApart s (.settle k outcome))
    (hnext : (s.without k).wake task outcome = some next) : Apart next := by
  have hmem : task ∈ s.tasks := mem_of_getElem? hk
  have hwithout := h.without k
  obtain ⟨hbatch, hadmits⟩ := hadmits task hk
  -- the guard is given up only by the batch that holds it
  have hguard : task.inBatch = true → s.resolvingBatch = true → (s.without k).Lone := by
    intro hin hresolving
    by_cases hcurrent : task.token = some s.chainToken
    · exact (h.take_batch hk hin hcurrent).2
    · simp [hbatch hin hcurrent] at hresolving
  cases task with
  | submitting born =>
      cases outcome with
      | ensured =>
          cases hnext
          have hplain : Caller.plain = .batch → s.resolvingBatch = true ∧ (s.without k).Lone :=
            nofun
          have huser : Apart ((s.without k).append .user) := hwithout.append rfl
          exact huser.continueConversation hplain _ _ _
      | _ => cases hnext
  | asking born token round caller =>
      have hguard : caller = .batch → s.resolvingBatch = true → (s.without k).Lone :=
        fun hcaller ↦ hguard (by simp [Task.inBatch, hcaller])
      cases outcome with
      | response calls =>
          cases hnext
          exact hwithout.answered hadmits (h.tokens _ hmem _ rfl) hguard
      | failure =>
          cases hnext
          exact hwithout.failed hguard
      | _ => cases hnext
  | deferred job cards =>
      cases outcome with
      | timer =>
          cases hnext
          obtain ⟨hand, hready⟩ := h.take hk rfl hadmits
          exact hwithout.runToolCalls hadmits hand hready
      | _ => cases hnext
  | running job card rest results hasPending =>
      cases outcome with
      | exit succeeded =>
          cases hnext
          rw [State.afterCommand]
          split
          · exact hwithout.aside false s.permissionMode s.pendingAutoResults s.sent
          next hcurrent =>
            have hcurrent : job.token = s.chainToken := not_not.mp hcurrent
            obtain ⟨hand, hready⟩ := h.take hk rfl hcurrent
            exact (hwithout.patch_outcome succeeded).runToolCalls hcurrent hand.patch hready.patch
      | _ => cases hnext
  | approving job card rest prior results =>
      cases outcome with
      | exit succeeded =>
          cases hnext
          rw [State.afterApproved]
          split
          · exact hwithout.resume fun _ ↦ hguard rfl
          next hcurrent =>
            have hcurrent : job.token = s.chainToken := not_not.mp hcurrent
            obtain ⟨hand, hready⟩ := h.take hk rfl hcurrent
            exact (hwithout.patch_outcome succeeded).runApproved hcurrent hand.patch hready.patch
              (h.take_batch hk rfl (congrArg some hcurrent))
      | _ => cases hnext
  | loading =>
      cases outcome with
      | stored messages =>
          cases hnext
          refine hwithout.loaded _ fun index t hmem ↦ hadmits index t ?_
          exact mem_of_mem_eraseIdx hmem
      | failure =>
          cases hnext
          exact hwithout
      | _ => cases hnext

theorem Apart.step (h : Apart s) {event : Event} {next : State} (hadmits : KeepsCardsApart s event)
    (hnext : s.step event = some next) : Apart next := by
  cases event with
  | submit =>
      simp only [State.step] at hnext
      split at hnext
      · cases hnext
      · cases hnext
        exact h.suspend nofun nofun nofun
  | resolveBatch index approved =>
      cases hnext
      exact h.resolveBatch hadmits approved
  | switch =>
      cases hnext
      exact h.switch
  | selectConversation =>
      simp only [State.step] at hnext
      split at hnext
      · cases hnext
      · cases hnext
        exact h.breakChain.suspend nofun nofun nofun
  | setPermissionMode mode =>
      cases hnext
      exact h.aside s.busy mode s.pendingAutoResults s.sent
  | settle task outcome =>
      obtain ⟨t, ht, hnext⟩ := Option.bind_eq_some_iff.mp hnext
      exact h.wake ht hadmits hnext

/-- In a run that keeps the cards apart no command runs twice, none that was refused, and none
without the approval that it needs. -/
theorem runAtMostOnce_of_reaches {mode : PermissionMode}
    (hreach : Reaches State.step KeepsCardsApart (.initial mode) s) : RunAtMostOnce s.log := by
  have hinv : Apart s := by
    apply hreach.invariant (Apart.initial mode)
    intro t event u h hadmits hnext
    exact h.step hadmits hnext
  exact hinv.recorded.runAtMostOnce

/-- A deletion that the user approves once it waits. -/
theorem runAtMostOnce_approved :
    ∃ s card, Reaches State.step KeepsCardsApart (.initial .approval) s ∧
      .executed card .approval 0 ∈ s.log ∧ card.toolCall.riskLevel = .delete ∧
        RunAtMostOnce s.log := by
  have hreach : Reaches State.step KeepsCardsApart (.initial .approval) _ :=
    ((((Reaches.start.next (e := .submit) trivial rfl).next
      (e := .settle 0 .ensured) (by rintro t ⟨⟩; exact ⟨nofun, trivial⟩) rfl).next
      (e := .settle 0 (.response [⟨"a", "web", "rm -r old", .delete⟩]))
        (by rintro t ⟨⟩; exact ⟨nofun, by decide⟩) rfl).next
      (e := .settle 0 .timer) (by rintro t ⟨⟩; exact ⟨nofun, rfl⟩) rfl).next
      (e := .resolveBatch 2 true) nofun rfl
  exact ⟨_, _, hreach, .tail _ (.head _), rfl, runAtMostOnce_of_reaches hreach⟩

end KaduoxSsh.Desktop.Ai
