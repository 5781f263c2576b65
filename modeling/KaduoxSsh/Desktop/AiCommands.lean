import KaduoxSsh.Desktop.AiChat

/-!
# A command runs at most once

The property of the log of commands: no call of a response is executed twice, none
that was refused is executed, and one that needs approval only after it was shown
as waiting and approved.

The code falls short of it where the statuses of the cards, which are changed by
the id of the call, do not tell what became of them: when a response repeats an
id, and while `runToolCalls` has not come to all cards of a message, all of which
show as waiting from the start. Where a run keeps clear of that, the log is right.
-/

namespace KaduoxSsh.Desktop.Ai

open List

/-! ## The property -/

namespace Entry

def executedSerial : Entry → Option (Option Nat)
  | .executed card _ _ => some card.serial
  | _ => none

def refusedSerial : Entry → Option (Option Nat)
  | .blocked card => some card.serial
  | .rejected card => some card.serial
  | _ => none

/-- The call that an entry decides on. -/
def settles : Entry → Option (Option Nat)
  | .blocked card => some card.serial
  | .rejected card => some card.serial
  | .executed card _ _ => some card.serial
  | .approved _ => none

end Entry

def executedSerials (log : List Entry) : List (Option Nat) := log.filterMap Entry.executedSerial

def refusedSerials (log : List Entry) : List (Option Nat) := log.filterMap Entry.refusedSerial

def Approved (log : List Entry) (card : Card) : Prop :=
  ∃ cards, .approved cards ∈ log ∧ card ∈ cards

structure RunAtMostOnce (log : List Entry) : Prop where
  once : (executedSerials log).Nodup
  unrefused : ∀ serial ∈ refusedSerials log, serial ∉ executedSerials log
  /-- No command that was only read back from the store. -/
  received : none ∉ executedSerials log
  approvedFirst : ∀ before card mode token after,
    log = before ++ .executed card mode token :: after →
      State.cardNeedsApproval mode card.toolCall.riskLevel = true → Approved before card
  shown : ∀ cards, .approved cards ∈ log → ∀ card ∈ cards, card.status = .pending

/-- A response with a call to list files and one to delete them, both under one id: when the user
approves, the first one runs again. -/
theorem repeated_id_runs_twice : ∃ s, Reaches State.step (fun _ _ ↦ True) (.initial .approval) s ∧
    ¬RunAtMostOnce s.log := by
  let list : ToolCall := ⟨"a", "web", "ls", .readOnly⟩
  let delete : ToolCall := ⟨"a", "web", "rm old", .delete⟩
  refine ⟨_, Reaches.start.runEvents [.submit, .settle 0 .ensured,
    .settle 0 (.response [list, delete]), .settle 0 .timer, .settle 0 (.exit true),
    .resolveBatch 2 true] rfl, fun h ↦ ?_⟩
  exact absurd h.once (by decide)

/-! ## What a run keeps clear of -/

/-- No loop of `runToolCalls` that may go on has cards left of the message at an index. -/
def State.LoopsThrough (s : State) (index : Nat) : Prop :=
  ∀ t ∈ s.tasks, ∀ work, t.work = some work → work.approved = false →
    work.job.token = s.chainToken → work.job.index = index → work.cards = []

/-- What a step must not do for the log to stay right. -/
def KeepsCardsApart (s : State) : Event → Prop
  -- the user decides on cards that the loop would come to afterwards
  | .resolveBatch index _ => s.LoopsThrough index
  | .settle task outcome => ∀ t, s.tasks[task]? = some t →
      -- a batch of an abandoned chain ends and gives up the guard of a later one
      (t.inBatch = true → t.token ≠ some s.chainToken → s.resolvingBatch = false) ∧
        match t, outcome with
        | .asking .., .response calls => (calls.map ToolCall.id).Nodup
        -- an abandoned chain begins its loop, in another conversation
        | .deferred job _, .timer => job.token = s.chainToken
        -- the messages are replaced under a loop
        | .loading, .stored _ => ∀ index, s.LoopsThrough index
        | _, _ => True
  | _ => True

/-! ## The log -/

def settled (log : List Entry) : List (Option Nat) := log.filterMap Entry.settles

variable {log : List Entry} {entry : Entry} {card : Card} {calls : Nat} {serial : Option Nat}

@[simp] theorem settled_append :
    settled (log ++ [entry]) = settled log ++ entry.settles.toList := by
  cases h : entry.settles <;> simp [settled, h]

theorem Approved.append (h : Approved log card) : Approved (log ++ [entry]) card := by
  obtain ⟨cards, hmem, hcard⟩ := h
  exact ⟨cards, mem_append_left _ hmem, hcard⟩

/-- What is known of the log while the calls are told apart by numbers below a bound. -/
structure Recorded (log : List Entry) (calls : Nat) : Prop where
  nodup : (settled log).Nodup
  known : ∀ serial ∈ settled log, ∃ n < calls, serial = some n
  approvedFirst : ∀ before card mode token after,
    log = before ++ .executed card mode token :: after →
      State.cardNeedsApproval mode card.toolCall.riskLevel = true → Approved before card
  shown : ∀ cards, .approved cards ∈ log → ∀ card ∈ cards, card.status = .pending

theorem executedSerial_settles (h : entry.executedSerial = some serial) :
    entry.settles = some serial := by
  cases entry <;> simp_all [Entry.executedSerial, Entry.settles]

theorem refusedSerial_settles (h : entry.refusedSerial = some serial) :
    entry.settles = some serial ∧ entry.executedSerial = none := by
  cases entry <;> simp_all [Entry.refusedSerial, Entry.settles, Entry.executedSerial]

theorem executedSerials_sublist : (executedSerials log).Sublist (settled log) := by
  induction log with
  | nil => exact .slnil
  | cons entry log ih =>
      cases entry <;>
        simp only [executedSerials, settled, Entry.executedSerial, Entry.settles,
          filterMap_cons] at ih ⊢
      · exact ih.cons _
      · exact ih.cons _
      · exact ih
      · exact ih.cons_cons _

/-- Two entries that decide on the same call are one where no call is decided on twice. -/
theorem eq_of_settles (hnodup : (settled log).Nodup) {a b : Entry} (ha : a ∈ log) (hb : b ∈ log)
    (hsa : a.settles = some serial) (hsb : b.settles = some serial) : a = b := by
  induction log with
  | nil => simp at ha
  | cons entry log ih =>
      rw [settled, filterMap_cons] at hnodup
      have hfresh : ∀ c ∈ log, c.settles = some serial → entry.settles ≠ some serial := by
        intro c hc hsc hentry
        rw [hentry, nodup_cons] at hnodup
        exact hnodup.1 (mem_filterMap.mpr ⟨c, hc, hsc⟩)
      have hrest : (settled log).Nodup := by
        cases hentry : entry.settles with
        | none =>
            rw [hentry] at hnodup
            exact hnodup
        | some _ =>
            rw [hentry, nodup_cons] at hnodup
            exact hnodup.2
      rcases mem_cons.mp ha with rfl | ha' <;> rcases mem_cons.mp hb with rfl | hb'
      · rfl
      · exact absurd hsa (hfresh b hb' hsb)
      · exact absurd hsb (hfresh a ha' hsa)
      · exact ih hrest ha' hb'

theorem Recorded.runAtMostOnce (h : Recorded log calls) : RunAtMostOnce log where
  once := executedSerials_sublist.nodup h.nodup
  unrefused := by
    intro serial hrefused hexecuted
    obtain ⟨a, ha, hsa⟩ := mem_filterMap.mp hrefused
    obtain ⟨b, hb, hsb⟩ := mem_filterMap.mp hexecuted
    obtain ⟨hsettles, hnone⟩ := refusedSerial_settles hsa
    obtain rfl := eq_of_settles h.nodup ha hb hsettles (executedSerial_settles hsb)
    simp [hnone] at hsb
  received := by
    intro hnone
    obtain ⟨n, -, hn⟩ := h.known none (executedSerials_sublist.subset hnone)
    cases hn
  approvedFirst := h.approvedFirst
  shown := h.shown

/-- What a new entry has to keep to. -/
structure Entry.Fits (entry : Entry) (log : List Entry) : Prop where
  approved : ∀ card mode token, entry = .executed card mode token →
    State.cardNeedsApproval mode card.toolCall.riskLevel = true → Approved log card
  shown : ∀ cards, entry = .approved cards → ∀ card ∈ cards, card.status = .pending

theorem Recorded.append (h : Recorded log calls) (hfits : entry.Fits log)
    (hnew : ∀ serial, entry.settles = some serial →
      serial ∉ settled log ∧ ∃ n < calls, serial = some n) :
    Recorded (log ++ [entry]) calls where
  nodup := by
    rw [settled_append]
    cases hentry : entry.settles with
    | none => simpa using h.nodup
    | some serial =>
        refine nodup_append.mpr ⟨h.nodup, by simp, ?_⟩
        rintro a ha _ hb rfl
        obtain rfl : a = serial := by simpa using hb
        exact (hnew a hentry).1 ha
  known := by
    intro serial hmem
    rw [settled_append] at hmem
    rcases mem_append.mp hmem with hmem | hmem
    · exact h.known serial hmem
    · exact (hnew serial (by simpa using hmem)).2
  approvedFirst := by
    intro before card mode token after heq hneeds
    rcases eq_nil_or_concat after with rfl | ⟨after, last, rfl⟩
    · obtain ⟨rfl, hlast⟩ := append_inj' heq rfl
      exact hfits.approved card mode token (by simpa using hlast) hneeds
    · have heq : log ++ [entry] = (before ++ .executed card mode token :: after) ++ [last] := by
        simpa using heq
      obtain ⟨hlog, -⟩ := append_inj' heq rfl
      exact h.approvedFirst before card mode token after hlog hneeds
  shown := by
    intro cards hmem
    rcases mem_append.mp hmem with hmem | hmem
    · exact h.shown cards hmem
    · exact hfits.shown cards (mem_singleton.mp hmem).symm

theorem Recorded.mono (h : Recorded log calls) {more : Nat} (hmore : calls ≤ more) :
    Recorded log more :=
  { h with
    known := fun serial hmem ↦
      let ⟨n, hn, heq⟩ := h.known serial hmem
      ⟨n, hn.trans_le hmore, heq⟩ }

end KaduoxSsh.Desktop.Ai
