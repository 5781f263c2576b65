import KaduoxSsh.Lib.Run
import KaduoxSsh.Transfer.TaskRegistry

/-!
# What the registry of transfer tasks keeps

`Consistent` is kept by each of the four changes a registry undergoes: a task goes,
a task comes, a task that has not ended is changed, the tasks that have ended are
cleared. `Outcome` says which of these an operation makes, and `Later` what a state
keeps of an earlier one.
-/

namespace KaduoxSsh.Transfer

open RegistryInner Result List SortedMap

variable {inner inner' inner₁ : RegistryInner} {id : Nat} {record record' : TaskRecord}
  {kind : TransferTaskKind} {source destination : String} {retryOf : Option Nat}
  {op : RegistryOperation} {answer : Result RegistryReply}

namespace RegistryInner

/-- Two tasks write to one destination. -/
def SameTarget (a b : TaskRecord) : Prop :=
  a.snapshot.kind.direction = b.snapshot.kind.direction ∧
    a.snapshot.destination = b.snapshot.destination

/-- The indices of a registry agree, and its tasks keep out of each other's way. -/
structure Consistent (inner : RegistryInner) : Prop where
  increasing : inner.order.Pairwise (· < ·)
  same : ∀ id, id ∈ inner.order ↔ inner.tasks.get? id ≠ none
  room : 0 < inner.maxRetained
  bounded : inner.order.length ≤ inner.maxRetained
  old : ∀ id ∈ inner.order, id < inner.nextId
  counter : inner.nextId < 2 ^ 64
  named : ∀ id record, inner.tasks.get? id = some record → record.snapshot.id = id
  exclusive : ∀ id id' record record', inner.tasks.get? id = some record →
    inner.tasks.get? id' = some record' → record.snapshot.state.isTerminal = false →
    record'.snapshot.state.isTerminal = false → SameTarget record record' → id = id'
  flagged : ∀ id record, inner.tasks.get? id = some record →
    record.cancelled = record.snapshot.cancelRequested

theorem Consistent.nodup (h : inner.Consistent) : inner.order.Nodup :=
  h.increasing.imp Nat.ne_of_lt

/-- The two indices have the same size. -/
theorem Consistent.size_eq (h : inner.Consistent) : inner.tasks.size = inner.order.length := by
  have hperm : inner.tasks.keys.Perm inner.order := by
    rw [perm_ext_iff_of_nodup (SortedMap.keys_nodup _) h.nodup]
    intro id
    rw [h.same, SortedMap.mem_keys, ne_eq, ← contains_eq_false_iff, Bool.not_eq_false]
  rw [size, ← length_map Prod.fst]
  exact hperm.length_eq

theorem Consistent.get?_ne_none (h : inner.Consistent) (hget : inner.tasks.get? id = some record) :
    id ∈ inner.order :=
  (h.same id).mpr (by rw [hget]; exact Option.some_ne_none record)

/-! ## Changes -/

/-- What goes of a registry leaves the rest consistent. -/
theorem Consistent.sublist (h : inner.Consistent) {tasks : SortedMap Nat TaskRecord}
    {order : List Nat} (horder : order.Sublist inner.order)
    (hget : ∀ id, tasks.get? id = if id ∈ order then inner.tasks.get? id else none) :
    Consistent { inner with tasks := tasks, order := order } := by
  have hback : ∀ {id record}, tasks.get? id = some record → inner.tasks.get? id = some record := by
    intro id record hrecord
    rw [hget] at hrecord
    split at hrecord
    · exact hrecord
    · cases hrecord
  refine ⟨h.increasing.sublist horder, fun id ↦ ?_, h.room, horder.length_le.trans h.bounded,
    fun id hid ↦ h.old id (horder.subset hid), h.counter, fun id record hrecord ↦ h.named id record
      (hback hrecord), fun id id' record record' hrecord hrecord' ↦ h.exclusive id id' record record'
      (hback hrecord) (hback hrecord'), fun id record hrecord ↦ h.flagged id record (hback hrecord)⟩
  dsimp only
  rw [hget]
  split
  · next hid => exact ⟨fun _ ↦ (h.same id).mp (horder.subset hid), fun _ ↦ hid⟩
  · next hid => exact ⟨fun hmem ↦ absurd hmem hid, fun hne ↦ absurd rfl hne⟩

theorem Consistent.get?_evict (h : inner.Consistent) (other : Nat) :
    (inner.evict id).tasks.get? other =
      if other ∈ inner.order.erase id then inner.tasks.get? other else none := by
  simp only [evict, get?_erase, h.nodup.mem_erase_iff]
  by_cases hother : other = id
  · rw [if_pos hother, if_neg fun hmem ↦ hmem.1 hother]
  · rw [if_neg hother]
    split
    · rfl
    · next hmem => exact not_ne_iff.mp fun hne ↦ hmem ⟨hother, (h.same other).mpr hne⟩

theorem Consistent.evict (h : inner.Consistent) (id : Nat) : (inner.evict id).Consistent :=
  h.sublist erase_sublist h.get?_evict

theorem get?_foldl_erase (ids : List Nat) (tasks : SortedMap Nat TaskRecord) (id : Nat) :
    (ids.foldl erase tasks).get? id = if id ∈ ids then none else tasks.get? id := by
  induction ids generalizing tasks with
  | nil => simp
  | cons a rest ih =>
      rw [foldl_cons, ih, get?_erase]
      by_cases ha : id = a <;> by_cases hrest : id ∈ rest <;> simp [ha, hrest]

/-- The registry without the tasks that have ended. -/
def cleared (inner : RegistryInner) : RegistryInner :=
  { inner with
    tasks := inner.finished.foldl erase inner.tasks
    order := inner.order.filter fun id ↦ id ∉ inner.finished }

theorem Consistent.get?_cleared (h : inner.Consistent) (id : Nat) :
    inner.cleared.tasks.get? id =
      if id ∈ inner.order.filter (fun id ↦ id ∉ inner.finished) then inner.tasks.get? id
      else none := by
  simp only [cleared, get?_foldl_erase, mem_filter, decide_eq_true_eq]
  by_cases hfinished : id ∈ inner.finished
  · rw [if_pos hfinished, if_neg fun hmem ↦ hmem.2 hfinished]
  · rw [if_neg hfinished]
    split
    · rfl
    · next hmem => exact not_ne_iff.mp fun hne ↦ hmem ⟨(h.same id).mpr hne, hfinished⟩

theorem Consistent.cleared (h : inner.Consistent) : inner.cleared.Consistent :=
  h.sublist filter_sublist h.get?_cleared

/-- A task that has not ended is changed, but neither what it transfers nor where to. -/
structure Edited (record record' : TaskRecord) : Prop where
  live : record.snapshot.state.isTerminal = false
  id_eq : record'.snapshot.id = record.snapshot.id
  kind_eq : record'.snapshot.kind = record.snapshot.kind
  destination_eq : record'.snapshot.destination = record.snapshot.destination
  flagged : record.cancelled = record.snapshot.cancelRequested →
    record'.cancelled = record'.snapshot.cancelRequested

theorem Edited.sameTarget (h : Edited record record') : SameTarget record record' :=
  ⟨by rw [h.kind_eq], h.destination_eq.symm⟩

/-- The registry with another record of a task. -/
def edit (inner : RegistryInner) (id : Nat) (record : TaskRecord) : RegistryInner :=
  { inner with tasks := inner.tasks.insert id record }

theorem get?_edit (id other : Nat) (record : TaskRecord) :
    (inner.edit id record).tasks.get? other =
      if other = id then some record else inner.tasks.get? other :=
  get?_insert _ _ _ _

theorem Consistent.edit (h : inner.Consistent) (hget : inner.tasks.get? id = some record)
    (hedit : Edited record record') : (inner.edit id record').Consistent := by
  -- A record of the changed registry stands for one of the registry before.
  have hback : ∀ {other r}, (inner.edit id record').tasks.get? other = some r →
      ∃ r₀, inner.tasks.get? other = some r₀ ∧ SameTarget r₀ r ∧ r.snapshot.id = r₀.snapshot.id ∧
        (r.snapshot.state.isTerminal = false → r₀.snapshot.state.isTerminal = false) ∧
        (r₀.cancelled = r₀.snapshot.cancelRequested → r.cancelled = r.snapshot.cancelRequested) := by
    intro other r hr
    rw [get?_edit] at hr
    split at hr
    · next heq =>
      cases hr
      exact ⟨record, heq ▸ hget, hedit.sameTarget, hedit.id_eq, fun _ ↦ hedit.live, hedit.flagged⟩
    · exact ⟨r, hr, ⟨rfl, rfl⟩, rfl, fun h ↦ h, fun h ↦ h⟩
  refine ⟨h.increasing, fun other ↦ ?_, h.room, h.bounded, h.old, h.counter, ?_, ?_, ?_⟩
  · rw [get?_edit]
    split
    · next heq =>
      rw [heq]
      exact ⟨fun _ ↦ Option.some_ne_none _, fun _ ↦ h.get?_ne_none hget⟩
    · exact h.same other
  · intro other r hr
    obtain ⟨r₀, hr₀, -, hid, -⟩ := hback hr
    rw [hid]
    exact h.named other r₀ hr₀
  · intro a b r r' hr hr' hlive hlive' htarget
    obtain ⟨r₀, hr₀, hsame, -, hback₀, -⟩ := hback hr
    obtain ⟨r₀', hr₀', hsame', -, hback₀', -⟩ := hback hr'
    exact h.exclusive a b r₀ r₀' hr₀ hr₀' (hback₀ hlive) (hback₀' hlive')
      ⟨hsame.1.trans (htarget.1.trans hsame'.1.symm), hsame.2.trans (htarget.2.trans hsame'.2.symm)⟩
  · intro other r hr
    obtain ⟨r₀, hr₀, -, -, -, hflag⟩ := hback hr
    exact hflag (h.flagged other r₀ hr₀)

theorem conflict_eq_false_iff {direction : TransferDirection} :
    inner.conflict direction destination = false ↔
      ∀ id record, inner.tasks.get? id = some record → record.snapshot.state.isTerminal = false →
        record.snapshot.kind.direction = direction → record.snapshot.destination ≠ destination := by
  simp only [conflict, any_eq_false, mem_values, Bool.and_eq_true, Bool.not_eq_true',
    decide_eq_true_eq, not_and]
  constructor
  · exact fun h id record hrecord hlive hdir ↦ h record ⟨id, hrecord⟩ ⟨hlive, hdir⟩
  · rintro h record ⟨id, hrecord⟩ ⟨hlive, hdir⟩
    exact h id record hrecord hlive hdir

theorem get?_push (other : Nat) :
    (inner.push kind source destination retryOf).tasks.get? other =
      if other = inner.nextId then some (queuedRecord inner.nextId kind source destination retryOf)
      else inner.tasks.get? other :=
  get?_insert _ _ _ _

theorem Consistent.push (h : inner.Consistent) (hroom : inner.order.length < inner.maxRetained)
    (hcounter : inner.nextId + 1 < 2 ^ 64)
    (hconflict : inner.conflict kind.direction destination = false) :
    (inner.push kind source destination retryOf).Consistent := by
  have hnew : inner.tasks.get? inner.nextId = none :=
    not_ne_iff.mp fun hne ↦ Nat.lt_irrefl _ (h.old _ ((h.same _).mpr hne))
  rw [conflict_eq_false_iff] at hconflict
  have hcases : ∀ {other r}, (inner.push kind source destination retryOf).tasks.get? other = some r →
      (other = inner.nextId ∧ r = queuedRecord inner.nextId kind source destination retryOf) ∨
        inner.tasks.get? other = some r := by
    intro other r hr
    rw [get?_push] at hr
    split at hr
    · next heq => exact .inl ⟨heq, (Option.some.inj hr).symm⟩
    · exact .inr hr
  refine ⟨?_, fun other ↦ ?_, h.room, ?_, ?_, hcounter, ?_, ?_, ?_⟩
  · rw [RegistryInner.push, pairwise_append]
    refine ⟨h.increasing, pairwise_singleton _ _, fun a ha b hb ↦ ?_⟩
    rw [mem_singleton.mp hb]
    exact h.old a ha
  · rw [get?_push, RegistryInner.push, mem_append, mem_singleton, h.same]
    split
    · next heq => exact ⟨fun _ ↦ Option.some_ne_none _, fun _ ↦ .inr heq⟩
    · next hne => exact or_iff_left hne
  · rw [RegistryInner.push, length_append, length_singleton]
    exact hroom
  · intro other hother
    rcases mem_append.mp hother with hold | hnext
    · exact Nat.lt_succ_of_lt (h.old other hold)
    · rw [mem_singleton.mp hnext]
      exact Nat.lt_succ_self _
  · intro other r hr
    rcases hcases hr with ⟨rfl, rfl⟩ | hr
    · rfl
    · exact h.named other r hr
  · intro a b r r' hr hr' hlive hlive' htarget
    rcases hcases hr with ⟨rfl, rfl⟩ | hr <;> rcases hcases hr' with ⟨rfl, rfl⟩ | hr'
    · rfl
    · exact absurd htarget.2.symm (hconflict b r' hr' hlive' htarget.1.symm)
    · exact absurd htarget.2 (hconflict a r hr hlive htarget.1)
    · exact h.exclusive a b r r' hr hr' hlive hlive' htarget
  · intro other r hr
    rcases hcases hr with ⟨rfl, rfl⟩ | hr
    · rfl
    · exact h.flagged other r hr

/-- A task of the registry has ended. -/
def Ended (inner : RegistryInner) (id : Nat) : Prop :=
  ∃ record, inner.tasks.get? id = some record ∧ record.snapshot.state.isTerminal = true

theorem Ended.mem_order (h : inner.Consistent) (hended : inner.Ended id) : id ∈ inner.order := by
  obtain ⟨record, hget, -⟩ := hended
  exact h.get?_ne_none hget

theorem Consistent.evictable_iff (h : inner.Consistent) (hid : id ∈ inner.order) :
    inner.evictable id = true ↔ inner.Ended id := by
  rw [evictable, Ended]
  cases hget : inner.tasks.get? id with
  | none => exact absurd hget ((h.same id).mp hid)
  | some record => simp

/-! ## Making room -/

/-- The registry with room for one more task. -/
inductive Room (inner : RegistryInner) : RegistryInner → Prop
  | free (h : inner.order.length < inner.maxRetained) : Room inner inner
  | evict {id : Nat} (hfull : inner.order.length = inner.maxRetained)
      (hfind : inner.order.find? inner.evictable = some id) : Room inner (inner.evict id)

theorem Room.length_lt (hroom : Room inner inner') :
    inner'.order.length < inner'.maxRetained := by
  cases hroom with
  | free hfree => exact hfree
  | evict hfull hfind => exact hfull ▸ inner.length_evict hfind

theorem Room.consistent (h : inner.Consistent) (hroom : Room inner inner') : inner'.Consistent := by
  cases hroom with
  | free => exact h
  | evict hfull hfind => exact h.evict _

theorem Room.nextId_eq (hroom : Room inner inner') : inner'.nextId = inner.nextId := by
  cases hroom <;> rfl

/-- Tasks that have ended do not stand in the way of a registration. -/
theorem Room.conflict_eq_false (h : inner.Consistent) (hroom : Room inner inner')
    {direction : TransferDirection} (hconflict : inner.conflict direction destination = false) :
    inner'.conflict direction destination = false := by
  cases hroom with
  | free => exact hconflict
  | evict hfull hfind =>
      rw [conflict_eq_false_iff] at hconflict ⊢
      intro other r hr
      rw [h.get?_evict] at hr
      split at hr
      · exact hconflict other r hr
      · cases hr

theorem makeCapacity_of_lt (h : inner.Consistent) (hfree : inner.order.length < inner.maxRetained) :
    inner.makeCapacity = (.ok (), inner) := by
  rw [makeCapacity, if_pos (h.size_eq ▸ hfree)]

/-- Room is made by one task that has ended, if there is one. -/
theorem makeCapacity_eq (h : inner.Consistent) :
    (∃ e, inner.makeCapacity = (.error e, inner) ∧ inner.order.length = inner.maxRetained ∧
      inner.order.find? inner.evictable = none) ∨
    ∃ inner', inner.makeCapacity = (.ok (), inner') ∧ Room inner inner' := by
  by_cases hfree : inner.order.length < inner.maxRetained
  · exact .inr ⟨inner, makeCapacity_of_lt h hfree, .free hfree⟩
  · have hfull := Nat.le_antisymm h.bounded (Nat.le_of_not_lt hfree)
    rw [makeCapacity, if_neg (h.size_eq ▸ hfree)]
    split
    · next hfind => exact .inl ⟨_, rfl, hfull, hfind⟩
    · next id hfind =>
      refine .inr ⟨inner.evict id, makeCapacity_of_lt (h.evict id) ?_, .evict hfull hfind⟩
      exact hfull ▸ inner.length_evict hfind

end RegistryInner

/-! ## Operations -/

/-- What a registration asks for. -/
structure RegistrationRequest where
  kind : TransferTaskKind
  source : String
  destination : String
  retryOf : Option Nat

/-- The registration that an operation makes when it passes its own checks. -/
def RegistryOperation.registration (inner : RegistryInner) :
    RegistryOperation → Option RegistrationRequest
  | .register kind source destination =>
      if (validateTaskText "source" source).isOk ∧ (validateTaskText "destination" destination).isOk
      then some ⟨kind, source, destination, none⟩ else none
  | .registerRetry previous => match inner.tasks.get? previous with
      | none => none
      | some record =>
          if record.snapshot.state = .cancelled ∨ record.snapshot.state = .failed then
            some ⟨record.snapshot.kind, record.snapshot.source, record.snapshot.destination,
              some previous⟩
          else none
  | _ => none

/-- An operation asks for a task to be cancelled. -/
def RegistryOperation.Cancels (id : Nat) (op : RegistryOperation) : Prop :=
  op = .requestCancel id ∨ op = .markCancelled id

/-- What an operation answers and makes of the registry. -/
inductive Outcome (inner : RegistryInner) (op : RegistryOperation) :
    Result RegistryReply → RegistryInner → Prop
  | refused (e : AnyError) : Outcome inner op (.error e) inner
  | unchanged (reply : RegistryReply) (hreply : ∀ id, reply ≠ .registered id) :
      Outcome inner op (.ok reply) inner
  | edited {reply : RegistryReply} {id : Nat} {record record' : TaskRecord}
      (hreply : ∀ id, reply ≠ .registered id)
      (hget : inner.tasks.get? id = some record) (hedit : Edited record record')
      (hcancel : record'.cancelled = true → record.cancelled = true ∨ op.Cancels id) :
      Outcome inner op (.ok reply) (inner.edit id record')
  | cleared (hop : op = .clearFinished) :
      Outcome inner op (.ok (.cleared inner.finished.length)) inner.cleared
  | registered {request : RegistrationRequest} {inner' : RegistryInner}
      (hrequest : op.registration inner = some request) (hroom : Room inner inner')
      (hconflict : inner.conflict request.kind.direction request.destination = false)
      (hcounter : inner'.nextId + 1 < 2 ^ 64) :
      Outcome inner op (.ok (.registered inner'.nextId))
        (inner'.push request.kind request.source request.destination request.retryOf)
  | exhausted {request : RegistrationRequest} {inner' : RegistryInner} (e : AnyError)
      (hrequest : op.registration inner = some request) (hroom : Room inner inner')
      (hconflict : inner.conflict request.kind.direction request.destination = false)
      (hcounter : ¬inner'.nextId + 1 < 2 ^ 64) : Outcome inner op (.error e) inner'

theorem registerLocked_outcome (h : inner.Consistent) {request : RegistrationRequest}
    (hrequest : op.registration inner = some request) :
    Outcome inner op
      (registerLocked request.kind request.source request.destination request.retryOf inner).1
      (registerLocked request.kind request.source request.destination request.retryOf inner).2 := by
  unfold registerLocked
  split
  · exact .refused _
  · next hconflict =>
    rw [Bool.not_eq_true] at hconflict
    rcases makeCapacity_eq h with ⟨e, heq, -, -⟩ | ⟨inner', heq, hroom⟩
    · rw [heq]
      exact .refused e
    · rw [heq]
      dsimp only
      split
      · next hcounter => exact .registered hrequest hroom hconflict hcounter
      · next hcounter => exact .exhausted _ hrequest hroom hconflict hcounter

theorem registration_perform {request : RegistrationRequest}
    (hrequest : op.registration inner = some request) :
    op.perform inner =
      registerLocked request.kind request.source request.destination request.retryOf inner := by
  cases op with
  | register kind source destination =>
      obtain ⟨hok, heq⟩ := Option.ite_none_right_eq_some.mp hrequest
      cases heq
      obtain ⟨⟨u, hsource⟩, ⟨v, hdestination⟩⟩ := hok.imp isOk_iff.mp isOk_iff.mp
      simp only [RegistryOperation.perform, register, hsource, hdestination, bind_ok]
  | registerRetry previous =>
      unfold RegistryOperation.registration at hrequest
      change registerRetry previous inner = _
      unfold registerRetry
      dsimp only at hrequest
      cases hget : inner.tasks.get? previous with
      | none =>
          rw [hget] at hrequest
          cases hrequest
      | some record =>
          rw [hget] at hrequest
          obtain ⟨hstate, heq⟩ := Option.ite_none_right_eq_some.mp hrequest
          cases heq
          exact if_pos hstate
  | _ => cases hrequest

/-- An operation through `task_mut` is refused or changes the one record. -/
theorem withTask_outcome {f : TaskRecord → Result (RegistryReply × TaskRecord)}
    (hf : ∀ record reply record', inner.tasks.get? id = some record →
      f record = .ok (reply, record') → (∀ id, reply ≠ .registered id) ∧
        (record' = record ∨ Edited record record' ∧
          (record'.cancelled = true → record.cancelled = true ∨ op.Cancels id))) :
    Outcome inner op (withTask id f inner).1 (withTask id f inner).2 := by
  unfold withTask
  cases hget : inner.tasks.get? id with
  | none => exact .refused _
  | some record =>
      dsimp only
      cases hrecord : f record with
      | error e => exact .refused e
      | ok answer =>
          obtain ⟨reply, record'⟩ := answer
          obtain ⟨hreply, rfl | ⟨hedit, hcancel⟩⟩ := hf record reply record' hget hrecord
          · dsimp only
            rw [insert_get?_self hget]
            exact .unchanged reply hreply
          · exact .edited hreply hget hedit hcancel

theorem register_outcome (h : inner.Consistent) :
    Outcome inner (.register kind source destination) (register kind source destination inner).1
      (register kind source destination inner).2 := by
  by_cases hok : (validateTaskText "source" source).isOk ∧
      (validateTaskText "destination" destination).isOk
  · have hrequest : (RegistryOperation.register kind source destination).registration inner =
        some ⟨kind, source, destination, none⟩ := if_pos hok
    have houtcome := registerLocked_outcome h hrequest
    rw [← registration_perform hrequest] at houtcome
    exact houtcome
  · unfold register
    cases hsource : validateTaskText "source" source with
    | error e => exact .refused e
    | ok u =>
        cases hdestination : validateTaskText "destination" destination with
        | error e => exact .refused e
        | ok v =>
            rw [hsource, hdestination] at hok
            exact absurd ⟨rfl, rfl⟩ hok

theorem registerRetry_outcome (h : inner.Consistent) {previous : Nat} :
    Outcome inner (.registerRetry previous) (registerRetry previous inner).1
      (registerRetry previous inner).2 := by
  cases hrequest : (RegistryOperation.registerRetry previous).registration inner with
  | some request =>
      have houtcome := registerLocked_outcome h hrequest
      rw [← registration_perform hrequest] at houtcome
      exact houtcome
  | none =>
      unfold RegistryOperation.registration at hrequest
      unfold registerRetry
      cases hget : inner.tasks.get? previous with
      | none => exact .refused _
      | some record =>
          simp only [hget] at hrequest
          dsimp only
          split at hrequest
          · cases hrequest
          · next hstate =>
            rw [if_neg hstate]
            exact .refused _

/-- A change of a task's state alone. -/
theorem edited_of_state {snapshot : TransferTaskSnapshot} (hlive : record.snapshot.state.isTerminal = false)
    (hid : snapshot.id = record.snapshot.id) (hkind : snapshot.kind = record.snapshot.kind)
    (hdestination : snapshot.destination = record.snapshot.destination)
    (hcancel : snapshot.cancelRequested = record.snapshot.cancelRequested) :
    Edited record { record with snapshot := snapshot } :=
  ⟨hlive, hid, hkind, hdestination, fun hflag ↦ hflag.trans hcancel.symm⟩

theorem live_of_queued (h : record.snapshot.state = .queued) :
    record.snapshot.state.isTerminal = false := by rw [h]; rfl

theorem live_of_running (h : record.snapshot.state = .running) :
    record.snapshot.state.isTerminal = false := by rw [h]; rfl

theorem ensureRunning_eq_ok {state : TransferTaskState} {u : Unit} :
    ensureRunning id state = .ok u ↔ state = .running := by
  rw [ensureRunning, bailIf_eq_ok, not_not]

theorem perform_outcome (h : inner.Consistent) (op : RegistryOperation) :
    Outcome inner op (op.perform inner).1 (op.perform inner).2 := by
  cases op with
  | register kind source destination => exact register_outcome h
  | registerRetry previous => exact registerRetry_outcome h
  | markRunning id =>
      refine withTask_outcome fun record reply record' _ hrecord ↦ ?_
      obtain ⟨hstate, heq⟩ := check_bind_eq_ok.mp hrecord
      rw [bailIf_eq_ok, not_not] at hstate
      cases heq
      exact ⟨fun _ ↦ RegistryReply.noConfusion,
        .inr ⟨edited_of_state (live_of_queued hstate) rfl rfl rfl rfl, .inl⟩⟩
  | recordProgress id event =>
      refine withTask_outcome fun record reply record' _ hrecord ↦ ?_
      obtain ⟨hstate, hrest⟩ := check_bind_eq_ok.mp hrecord
      obtain ⟨-, heq⟩ := check_bind_eq_ok.mp hrest
      rw [bailIf_eq_ok, not_not] at hstate
      cases heq
      exact ⟨fun _ ↦ RegistryReply.noConfusion,
        .inr ⟨edited_of_state (live_of_running hstate) rfl rfl rfl rfl, .inl⟩⟩
  | requestCancel id =>
      refine withTask_outcome fun record reply record' _ hrecord ↦ ?_
      split at hrecord
      · cases hrecord
        exact ⟨fun _ ↦ RegistryReply.noConfusion, .inl rfl⟩
      · next hlive =>
        cases hrecord
        exact ⟨fun _ ↦ RegistryReply.noConfusion,
          .inr ⟨⟨Bool.not_eq_true _ ▸ fun hterminal ↦ hlive (.inl hterminal), rfl, rfl, rfl,
            fun _ ↦ rfl⟩, fun _ ↦ .inr (.inl rfl)⟩⟩
  | complete id summary =>
      refine withTask_outcome fun record reply record' _ hrecord ↦ ?_
      obtain ⟨hstate, heq⟩ := check_bind_eq_ok.mp hrecord
      cases heq
      exact ⟨fun _ ↦ RegistryReply.noConfusion, .inr
        ⟨edited_of_state (live_of_running (ensureRunning_eq_ok.mp hstate)) rfl rfl rfl rfl, .inl⟩⟩
  | markCancelled id =>
      refine withTask_outcome fun record reply record' _ hrecord ↦ ?_
      obtain ⟨hstate, heq⟩ := check_bind_eq_ok.mp hrecord
      rw [bailIf_eq_ok, not_not] at hstate
      cases heq
      exact ⟨fun _ ↦ RegistryReply.noConfusion,
        .inr ⟨⟨hstate.elim live_of_queued live_of_running, rfl, rfl, rfl, fun _ ↦ rfl⟩,
          fun _ ↦ .inr (.inr rfl)⟩⟩
  | fail id error =>
      refine withTask_outcome fun record reply record' _ hrecord ↦ ?_
      obtain ⟨hstate, heq⟩ := check_bind_eq_ok.mp hrecord
      cases heq
      exact ⟨fun _ ↦ RegistryReply.noConfusion, .inr
        ⟨edited_of_state (live_of_running (ensureRunning_eq_ok.mp hstate)) rfl rfl rfl rfl, .inl⟩⟩
  | clearFinished => exact .cleared rfl

/-! ## One step -/

theorem Outcome.consistent (h : inner.Consistent) (houtcome : Outcome inner op answer inner') :
    inner'.Consistent := by
  cases houtcome with
  | refused => exact h
  | unchanged => exact h
  | edited _ hget hedit _ => exact h.edit hget hedit
  | cleared => exact h.cleared
  | registered _ hroom hconflict hcounter =>
      exact (hroom.consistent h).push hroom.length_lt hcounter
        (hroom.conflict_eq_false h hconflict)
  | exhausted _ _ hroom => exact hroom.consistent h

/-- A task that is registered takes the next identifier. -/
theorem Outcome.fresh (houtcome : Outcome inner op (.ok (.registered id)) inner') :
    id = inner.nextId ∧ inner'.nextId = id + 1 := by
  cases houtcome with
  | unchanged _ hreply => exact absurd rfl (hreply id)
  | edited hreply => exact absurd rfl (hreply id)
  | registered _ hroom => exact ⟨hroom.nextId_eq, rfl⟩

/-- The tasks that an operation takes out of the registry have ended, and those that go to make
room are the oldest of these. -/
theorem Outcome.removed (h : inner.Consistent) (houtcome : Outcome inner op answer inner')
    (hid : id ∈ inner.order) (hgone : id ∉ inner'.order) :
    inner.Ended id ∧ (op ≠ .clearFinished → ∀ other, inner.Ended other → id ≤ other) := by
  have hroom : ∀ {inner₁}, Room inner inner₁ → id ∉ inner₁.order →
      inner.Ended id ∧ ∀ other, inner.Ended other → id ≤ other := by
    intro inner₁ hroom hgone
    cases hroom with
    | free => exact absurd hid hgone
    | @evict first hfull hfind =>
        have heq : id = first := by
          by_contra hne
          exact hgone ((h.nodup.mem_erase_iff).mpr ⟨hne, hid⟩)
        obtain ⟨hfirst, front, back, hsplit, hfront⟩ := List.find?_eq_some_iff_append.mp hfind
        refine ⟨(h.evictable_iff hid).mp (heq ▸ hfirst), fun other hended ↦ ?_⟩
        have hother := hended.mem_order h
        have hevictable := (h.evictable_iff hother).mpr hended
        rw [hsplit, mem_append, mem_cons] at hother
        have hsorted := h.increasing
        rw [hsplit, pairwise_append, pairwise_cons] at hsorted
        rcases hother with hother | rfl | hother
        · have := hfront other hother
          rw [hevictable] at this
          cases this
        · exact Nat.le_of_eq heq
        · exact heq ▸ Nat.le_of_lt (hsorted.2.1.1 other hother)
  cases houtcome with
  | refused => exact absurd hid hgone
  | unchanged => exact absurd hid hgone
  | edited => exact absurd hid hgone
  | cleared hop =>
      refine ⟨?_, fun hne ↦ absurd hop hne⟩
      rw [RegistryInner.cleared, mem_filter, decide_eq_true_eq, not_and, not_not] at hgone
      obtain ⟨record, hget, hterminal⟩ :=
        (Option.any_eq_true _ _).mp (mem_filter.mp (hgone hid)).2
      exact ⟨record, hget, hterminal⟩
  | registered _ hspace =>
      have hroom := hroom hspace fun hmem ↦ hgone (mem_append_left _ hmem)
      exact ⟨hroom.1, fun _ ↦ hroom.2⟩
  | exhausted _ _ hspace => exact ⟨(hroom hspace hgone).1, fun _ ↦ (hroom hspace hgone).2⟩

/-- What a later state keeps of an earlier one: a task that has ended stays as it is until it
goes, and an identifier is never used again. -/
structure Later (inner inner' : RegistryInner) : Prop where
  maxRetained_eq : inner'.maxRetained = inner.maxRetained
  nextId_le : inner.nextId ≤ inner'.nextId
  ended : ∀ id record, inner.tasks.get? id = some record → record.snapshot.state.isTerminal = true →
    inner'.tasks.get? id = none ∨ inner'.tasks.get? id = some record
  gone : ∀ id < inner.nextId, inner.tasks.get? id = none → inner'.tasks.get? id = none

theorem Later.refl (inner : RegistryInner) : Later inner inner :=
  ⟨rfl, Nat.le_refl _, fun _ _ hget _ ↦ .inr hget, fun _ _ hget ↦ hget⟩

theorem Later.trans (h : inner.Consistent) {mid : RegistryInner} (hmid : Later inner mid)
    (hend : Later mid inner') : Later inner inner' := by
  refine ⟨hend.maxRetained_eq.trans hmid.maxRetained_eq, hmid.nextId_le.trans hend.nextId_le,
    fun id record hget hterminal ↦ ?_,
    fun id hlt hget ↦ hend.gone id (hlt.trans_le hmid.nextId_le) (hmid.gone id hlt hget)⟩
  rcases hmid.ended id record hget hterminal with hnone | hsame
  · have hlt := h.old id (h.get?_ne_none hget)
    exact .inl (hend.gone id (hlt.trans_le hmid.nextId_le) hnone)
  · exact hend.ended id record hsame hterminal

/-- A registry that has lost some tasks is a later one. -/
theorem later_of_sublist (hmax : inner'.maxRetained = inner.maxRetained)
    (hnext : inner'.nextId = inner.nextId) {order : List Nat}
    (hget : ∀ id, inner'.tasks.get? id = if id ∈ order then inner.tasks.get? id else none) :
    Later inner inner' := by
  refine ⟨hmax, Nat.le_of_eq hnext.symm, fun id record hrecord _ ↦ ?_, fun id _ hnone ↦ ?_⟩
  · rw [hget]
    split
    · exact .inr hrecord
    · exact .inl rfl
  · rw [hget, hnone, ite_self]
theorem RegistryInner.Room.later (h : inner.Consistent) (hroom : Room inner inner') : Later inner inner' := by
  cases hroom with
  | free => exact .refl inner
  | evict => exact later_of_sublist rfl rfl h.get?_evict

theorem Outcome.later (h : inner.Consistent) (houtcome : Outcome inner op answer inner') :
    Later inner inner' := by
  cases houtcome with
  | refused => exact .refl inner
  | unchanged => exact .refl inner
  | cleared => exact later_of_sublist rfl rfl h.get?_cleared
  | exhausted _ _ hroom => exact hroom.later h
  | edited _ hget hedit =>
      refine ⟨rfl, Nat.le_refl _, fun id record hrecord hterminal ↦ .inr ?_, fun id _ hnone ↦ ?_⟩
      · rw [get?_edit, if_neg]
        · exact hrecord
        · rintro rfl
          rw [hget] at hrecord
          cases hrecord
          rw [hedit.live] at hterminal
          cases hterminal
      · rw [get?_edit, if_neg]
        · exact hnone
        · rintro rfl
          rw [hget] at hnone
          cases hnone
  | registered _ hroom =>
      refine (hroom.later h).trans h ⟨rfl, Nat.le_succ _, fun id record hrecord _ ↦ .inr ?_,
        fun id hlt hnone ↦ ?_⟩
      · have hmid := hroom.consistent h
        rw [get?_push, if_neg (Nat.ne_of_lt (hmid.old id (hmid.get?_ne_none hrecord)))]
        exact hrecord
      · rw [get?_push, if_neg (Nat.ne_of_lt hlt)]
        exact hnone

/-- The flag of a task is set by an operation that asks for it. -/
theorem Outcome.flagged (h : inner.Consistent) (houtcome : Outcome inner op answer inner')
    (hget : inner'.tasks.get? id = some record) (hflag : record.cancelled = true) :
    op.Cancels id ∨ ∃ old, inner.tasks.get? id = some old ∧ old.cancelled = true := by
  have hroom : ∀ {inner₁}, Room inner inner₁ → inner₁.tasks.get? id = some record →
      inner.tasks.get? id = some record := by
    intro inner₁ hroom hrecord
    cases hroom with
    | free => exact hrecord
    | evict =>
        rw [h.get?_evict] at hrecord
        split at hrecord
        · exact hrecord
        · cases hrecord
  cases houtcome with
  | refused => exact .inr ⟨record, hget, hflag⟩
  | unchanged => exact .inr ⟨record, hget, hflag⟩
  | exhausted _ _ hspace => exact .inr ⟨record, hroom hspace hget, hflag⟩
  | cleared =>
      rw [h.get?_cleared] at hget
      split at hget
      · exact .inr ⟨record, hget, hflag⟩
      · cases hget
  | edited _ hold _ hcancel =>
      rw [get?_edit] at hget
      split at hget
      · next heq =>
        cases hget
        rw [heq]
        exact (hcancel hflag).symm.imp_right fun hset ↦ ⟨_, hold, hset⟩
      · exact .inr ⟨record, hget, hflag⟩
  | registered _ hspace =>
      rw [get?_push] at hget
      split at hget
      · cases hget
        cases hflag
      · exact .inr ⟨record, hroom hspace hget, hflag⟩

/-! ## Failures -/

/-- A registration that is not refused, with the last identifier in use up, when the registry is
full and holds a task that has ended. -/
def CounterExhausted (inner : RegistryInner) (op : RegistryOperation) : Prop :=
  ∃ request, op.registration inner = some request ∧
    inner.conflict request.kind.direction request.destination = false ∧
    inner.nextId + 1 = 2 ^ 64 ∧ inner.tasks.size = inner.maxRetained ∧ ∃ id, inner.Ended id

/-- An operation that fails leaves the registry unchanged. -/
def FailsCleanly (inner : RegistryInner) (op : RegistryOperation) : Prop :=
  ∀ e, (op.perform inner).1 = .error e → (op.perform inner).2 = inner

theorem evict_ne (h : inner.order.find? inner.evictable = some id) : inner.evict id ≠ inner :=
  fun heq ↦ Nat.lt_irrefl _ (heq ▸ inner.length_evict h)

theorem failsCleanly_iff (h : inner.Consistent) (op : RegistryOperation) :
    FailsCleanly inner op ↔ ¬CounterExhausted inner op := by
  constructor
  · rintro hclean ⟨request, hrequest, hconflict, hcounter, hfull, id, hended⟩
    rw [h.size_eq] at hfull
    have hid := hended.mem_order h
    rcases makeCapacity_eq h with ⟨e, -, -, hnone⟩ | ⟨inner', heq, hroom⟩
    · exact absurd ((h.evictable_iff hid).mpr hended) (List.find?_eq_none.mp hnone id hid)
    · cases hroom with
      | free hfree => exact absurd hfull (Nat.ne_of_lt hfree)
      | @evict first _ hfind =>
          have hperform : op.perform inner =
              (bail "transfer task id counter overflow", inner.evict first) := by
            rw [registration_perform hrequest, registerLocked, hconflict, heq,
              if_neg Bool.false_ne_true]
            exact if_neg (Nat.not_lt.mpr (Nat.le_of_eq hcounter.symm))
          have hsame := hclean _ (by rw [hperform]; rfl)
          rw [hperform] at hsame
          exact evict_ne hfind hsame
  · intro hcounter e he
    have houtcome := perform_outcome h op
    rw [he] at houtcome
    generalize (op.perform inner).2 = inner' at houtcome
    cases houtcome with
    | refused => rfl
    | exhausted _ hrequest hroom hconflict hlast =>
        cases hroom with
        | free => rfl
        | @evict first hfull hfind =>
            refine absurd ⟨_, hrequest, hconflict, Nat.le_antisymm h.counter (Nat.le_of_not_lt hlast),
              h.size_eq.trans hfull, first, ?_⟩ hcounter
            exact (h.evictable_iff (mem_of_find?_eq_some hfind)).mp (List.find?_some hfind)

/-! ## Runs -/

/-- The registry after some operations. -/
def runOperations (inner : RegistryInner) (ops : List RegistryOperation) : RegistryInner :=
  ops.foldl (fun inner op ↦ (op.perform inner).2) inner

theorem runOperations_append (inner : RegistryInner) (ops more : List RegistryOperation) :
    runOperations inner (ops ++ more) = runOperations (runOperations inner ops) more :=
  foldl_append

/-- The identifier that an answer gives out. -/
def issuedId : Result RegistryReply → List Nat
  | .ok (.registered id) => [id]
  | _ => []

/-- The identifiers that some operations give out. -/
def issuedIds : RegistryInner → List RegistryOperation → List Nat
  | _, [] => []
  | inner, op :: rest => issuedId (op.perform inner).1 ++ issuedIds (op.perform inner).2 rest

theorem consistent_new {maxRetained : Nat} (h : RegistryInner.new maxRetained = .ok inner) :
    inner.Consistent := by
  obtain ⟨hvalid, heq⟩ := check_bind_eq_ok.mp h
  obtain ⟨hzero, -⟩ := check_bind_eq_ok.mp hvalid
  rw [bailIf_eq_ok] at hzero
  cases heq
  refine ⟨.nil, fun id ↦ ?_, Nat.pos_of_ne_zero hzero, Nat.zero_le _, fun id hid ↦ ?_, ?_,
    fun id record hget ↦ ?_, fun id id' record record' hget ↦ ?_, fun id record hget ↦ ?_⟩
  · simp
  · cases hid
  · exact Nat.one_lt_two_pow (by decide)
  · cases hget
  · cases hget
  · cases hget

theorem runOperations_consistent (h : inner.Consistent) (ops : List RegistryOperation) :
    (runOperations inner ops).Consistent := by
  induction ops generalizing inner with
  | nil => exact h
  | cons op rest ih => exact ih ((perform_outcome h op).consistent h)

theorem runOperations_later (h : inner.Consistent) (ops : List RegistryOperation) :
    Later inner (runOperations inner ops) := by
  induction ops generalizing inner with
  | nil => exact .refl inner
  | cons op rest ih =>
      have hop := perform_outcome h op
      exact (hop.later h).trans h (ih (hop.consistent h))

theorem issuedIds_increasing (h : inner.Consistent) (ops : List RegistryOperation) :
    (issuedIds inner ops).Pairwise (· < ·) ∧ ∀ id ∈ issuedIds inner ops, inner.nextId ≤ id := by
  induction ops generalizing inner with
  | nil => exact ⟨.nil, fun _ hid ↦ absurd hid not_mem_nil⟩
  | cons op rest ih =>
      have hop := perform_outcome h op
      obtain ⟨hrest, hle⟩ := ih (hop.consistent h)
      have hfirst : ∀ id ∈ issuedId (op.perform inner).1,
          id = inner.nextId ∧ (op.perform inner).2.nextId = id + 1 := by
        intro id hid
        unfold issuedId at hid
        split at hid
        · next heq =>
          rw [mem_singleton.mp hid]
          exact (heq ▸ hop).fresh
        · cases hid
      refine ⟨pairwise_append.mpr ⟨?_, hrest, fun id hid other hother ↦ ?_⟩, fun id hid ↦ ?_⟩
      · unfold issuedId
        split
        · exact pairwise_singleton _ _
        · exact .nil
      · have hnext := hle other hother
        rw [(hfirst id hid).2] at hnext
        exact hnext
      · rcases mem_append.mp hid with hid | hid
        · exact Nat.le_of_eq (hfirst id hid).1.symm
        · exact (hop.later h).nextId_le.trans (hle id hid)

/-- A flag that is set after some operations was set before or is asked for by one of them. -/
theorem runOperations_flagged (h : inner.Consistent) (ops : List RegistryOperation)
    (hget : (runOperations inner ops).tasks.get? id = some record) (hflag : record.cancelled = true) :
    (∃ op ∈ ops, op.Cancels id) ∨ ∃ old, inner.tasks.get? id = some old ∧ old.cancelled = true := by
  induction ops generalizing inner with
  | nil => exact .inr ⟨record, hget, hflag⟩
  | cons op rest ih =>
      have hop := perform_outcome h op
      rcases ih (hop.consistent h) hget with ⟨later, hlater, hcancels⟩ | ⟨old, hold, hset⟩
      · exact .inl ⟨later, mem_cons_of_mem op hlater, hcancels⟩
      · exact (hop.flagged h hold hset).imp_left fun hcancels ↦ ⟨op, mem_cons_self, hcancels⟩

/-- What holds of a registry after some operations. -/
structure SoundRun (start : RegistryInner) (ops : List RegistryOperation) : Prop where
  consistent : (runOperations start ops).Consistent
  bounded : (runOperations start ops).tasks.size ≤ start.maxRetained
  increasing : (issuedIds start ops).Pairwise (· < ·)
  requested : ∀ id record, (runOperations start ops).tasks.get? id = some record →
    record.cancelled = true → ∃ op ∈ ops, op.Cancels id
  later : ∀ more, Later (runOperations start ops) (runOperations start (ops ++ more))

/-- What one operation does: a registered task is a new one, and only tasks that have ended go,
the oldest of them first when room is made. -/
structure SoundStep (inner : RegistryInner) (op : RegistryOperation) : Prop where
  fresh : ∀ id, (op.perform inner).1 = .ok (.registered id) →
    id ∉ inner.order ∧ ∀ other ∈ inner.order, other < id
  removed : ∀ id ∈ inner.order, id ∉ (op.perform inner).2.order →
    inner.Ended id ∧ (op ≠ .clearFinished → ∀ other, inner.Ended other → id ≤ other)

theorem soundRun {start : RegistryInner} (hstart : start.Consistent)
    (hflag : ∀ id record, start.tasks.get? id = some record → record.cancelled = false)
    (ops : List RegistryOperation) : SoundRun start ops := by
  have h := runOperations_consistent hstart ops
  refine ⟨h, ?_, (issuedIds_increasing hstart ops).1, fun id record hget hset ↦ ?_, fun more ↦ ?_⟩
  · rw [h.size_eq, ← (runOperations_later hstart ops).maxRetained_eq]
    exact h.bounded
  · refine (runOperations_flagged hstart ops hget hset).resolve_right ?_
    rintro ⟨old, hold, hcancelled⟩
    rw [hflag id old hold] at hcancelled
    cases hcancelled
  · rw [runOperations_append]
    exact runOperations_later h more

theorem soundStep (h : inner.Consistent) (op : RegistryOperation) : SoundStep inner op := by
  have hop := perform_outcome h op
  refine ⟨fun id hid ↦ ?_, fun id hid hgone ↦ hop.removed h hid hgone⟩
  rw [hid] at hop
  rw [hop.fresh.1]
  exact ⟨fun hmem ↦ Nat.lt_irrefl _ (h.old _ hmem), h.old⟩

/-- The registry keeps its indices and rules over every run, and an operation that fails leaves it
unchanged exactly when it is not a registration that comes with the identifiers used up. -/
theorem task_registry {maxRetained : Nat} {start : RegistryInner}
    (hnew : RegistryInner.new maxRetained = .ok start) (ops : List RegistryOperation)
    (op : RegistryOperation) :
    (SoundRun start ops ∧ SoundStep (runOperations start ops) op ∧
        FailsCleanly (runOperations start ops) op) ↔
      ¬CounterExhausted (runOperations start ops) op := by
  have hstart := consistent_new hnew
  have h := runOperations_consistent hstart ops
  have hempty : ∀ id record, start.tasks.get? id = some record → record.cancelled = false := by
    intro id record hget
    obtain ⟨-, heq⟩ := check_bind_eq_ok.mp hnew
    cases heq
    cases hget
  rw [← failsCleanly_iff h op]
  exact ⟨fun hsound ↦ hsound.2.2, fun hclean ↦ ⟨soundRun hstart hempty ops, soundStep h op, hclean⟩⟩

/-- A task is registered and cancelled. -/
def registerAndCancel (id : Nat) : List RegistryOperation :=
  [.register .uploadFile "a" "b", .markCancelled id]

/-- The registry of one task that holds a task in some state. -/
def single (id : Nat) (state : TransferTaskState) (cancelled : Bool) : RegistryInner where
  nextId := id + 1
  maxRetained := 1
  tasks := empty.insert id
    ⟨⟨id, .uploadFile, "a", "b", state, cancelled, none, none, none, none⟩, cancelled⟩
  order := [id]

theorem get?_single (id other : Nat) (state : TransferTaskState) (cancelled : Bool) :
    (single id state cancelled).tasks.get? other = if other = id then
      some ⟨⟨id, .uploadFile, "a", "b", state, cancelled, none, none, none, none⟩, cancelled⟩
      else none :=
  get?_insert _ _ _ _

/-- The registry of one task that holds none. -/
def vacant (nextId : Nat) : RegistryInner := ⟨nextId, 1, .empty, []⟩

theorem evict_single (id : Nat) (state : TransferTaskState) (cancelled : Bool) :
    (single id state cancelled).evict id = vacant (id + 1) := by
  rw [evict, single, vacant]
  dsimp only
  rw [erase_insert_of_get?_none _ (get?_empty id), erase_cons_head]

theorem makeCapacity_vacant (nextId : Nat) :
    (vacant nextId).makeCapacity = (.ok (), vacant nextId) := by
  rw [makeCapacity, if_pos]
  exact Nat.one_pos

theorem find?_single (id : Nat) :
    (single id .cancelled true).order.find? (single id .cancelled true).evictable = some id := by
  have hended : (single id .cancelled true).evictable id = true := by
    rw [evictable, get?_single, if_pos rfl]
    rfl
  exact List.find?_cons_of_pos hended

theorem makeCapacity_single (id : Nat) :
    (single id .cancelled true).makeCapacity = (.ok (), vacant (id + 1)) := by
  have hfull : ¬(single id .cancelled true).tasks.size < (single id .cancelled true).maxRetained :=
    Nat.lt_irrefl 1
  rw [makeCapacity, if_neg hfull]
  split
  · next hnone =>
    rw [find?_single] at hnone
    cases hnone
  · next first hsome =>
    rw [find?_single] at hsome
    cases hsome
    rw [evict_single, makeCapacity_vacant]

/-- What registering the task answers when there is room. -/
theorem perform_register_of {inner : RegistryInner} {nextId : Nat}
    (hconflict : inner.conflict .upload "b" = false)
    (hroom : inner.makeCapacity = (.ok (), vacant nextId)) :
    (RegistryOperation.register .uploadFile "a" "b").perform inner =
      if nextId + 1 < 2 ^ 64 then (.ok (.registered nextId), single nextId .queued false)
      else (bail "transfer task id counter overflow", vacant nextId) := by
  have hrequest : (RegistryOperation.register .uploadFile "a" "b").registration inner =
      some ⟨.uploadFile, "a", "b", none⟩ := by
    rw [RegistryOperation.registration, if_pos (by decide)]
  rw [registration_perform hrequest, registerLocked]
  have hno : ¬inner.conflict .upload "b" = true := by
    rw [hconflict]
    exact Bool.false_ne_true
  rw [if_neg (show ¬inner.conflict (TransferTaskKind.direction .uploadFile) "b" = true from hno),
    hroom]
  rfl

theorem perform_markCancelled_single (id : Nat) :
    ((RegistryOperation.markCancelled id).perform (single id .queued false)).2 =
      single id .cancelled true := by
  rw [RegistryOperation.perform, markCancelled, withTask, get?_single, if_pos rfl]
  show RegistryInner.mk (id + 1) 1 (insert (insert .empty id _) id _) [id] = _
  rw [insert_insert]
  rfl

/-- After some tasks have been registered and cancelled, the last one is left. -/
theorem runOperations_registerAndCancel {count : Nat} (hcount : count + 2 < 2 ^ 64) :
    runOperations (vacant 1) ((List.range (count + 1)).flatMap fun i ↦ registerAndCancel (i + 1)) =
      single (count + 1) .cancelled true := by
  have hround : ∀ {inner : RegistryInner} {nextId : Nat}, nextId + 1 < 2 ^ 64 →
      inner.conflict .upload "b" = false → inner.makeCapacity = (.ok (), vacant nextId) →
      runOperations inner (registerAndCancel nextId) = single nextId .cancelled true := by
    intro inner nextId hlt hconflict hroom
    rw [registerAndCancel, runOperations, foldl_cons, perform_register_of hconflict hroom,
      if_pos hlt, foldl_cons, perform_markCancelled_single]
    rfl
  induction count with
  | zero => exact hround (by decide) rfl (makeCapacity_vacant 1)
  | succ count ih =>
      rw [range_succ, flatMap_append, runOperations_append, ih (Nat.lt_of_succ_lt hcount),
        flatMap_singleton]
      exact hround hcount rfl (makeCapacity_single _)

/-- In a registry of one task a task is registered, cancelled and retried: it goes to make room for
its retry. -/
theorem task_registry_retried :
    RegistryInner.new 1 = .ok (vacant 1) ∧
      ((RegistryOperation.registerRetry 1).perform
        (runOperations (vacant 1) (registerAndCancel 1))).1 = .ok (.registered 2) ∧
      SoundRun (vacant 1) (registerAndCancel 1) ∧
      SoundStep (runOperations (vacant 1) (registerAndCancel 1)) (.registerRetry 1) ∧
      FailsCleanly (runOperations (vacant 1) (registerAndCancel 1)) (.registerRetry 1) := by
  have hrun : runOperations (vacant 1) (registerAndCancel 1) = single 1 .cancelled true :=
    runOperations_registerAndCancel (show 0 + 2 < 2 ^ 64 by decide)
  refine ⟨rfl, ?_, (task_registry (show RegistryInner.new 1 = .ok (vacant 1) from rfl)
    (registerAndCancel 1) (.registerRetry 1)).mpr ?_⟩
  · rw [hrun, RegistryOperation.perform, Transfer.registerRetry, get?_single, if_pos rfl]
    dsimp only
    rw [if_pos (.inl rfl), registerLocked, if_neg (by decide), makeCapacity_single]
    rfl
  · rintro ⟨_, _, _, hlast, _⟩
    rw [hrun] at hlast
    exact absurd hlast (by decide)

/-- A registry of one task, after the task has been registered and cancelled 2 ^ 64 - 2 times: the
registration that follows fails, and the last task is gone. -/
theorem exhausted_registration_loses_task :
    RegistryInner.new 1 = .ok (vacant 1) ∧
      ¬FailsCleanly (runOperations (vacant 1)
        ((List.range (2 ^ 64 - 3 + 1)).flatMap fun i ↦ registerAndCancel (i + 1)))
        (.register .uploadFile "a" "b") := by
  refine ⟨rfl, fun hclean ↦ ?_⟩
  rw [runOperations_registerAndCancel (by decide)] at hclean
  have hperform := perform_register_of rfl (makeCapacity_single (2 ^ 64 - 3 + 1))
  rw [if_neg (by decide)] at hperform
  have hsame := hclean _ (by rw [hperform]; rfl)
  rw [hperform] at hsame
  exact absurd (congrArg RegistryInner.order hsame) (cons_ne_nil _ _).symm

end KaduoxSsh.Transfer
