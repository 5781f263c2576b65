import KaduoxSsh.Lib.SortedMap
import KaduoxSsh.Lib.Text
import KaduoxSsh.Transfer.Options

/-!
# The registry of transfer tasks

`transfer_task.rs`: the tasks that a frontend can look at, cancel and retry. The
registry lies behind one lock, so that an operation is a function of what the lock
guards, and returns it also when it fails. A frontend's cancellation token is
shared with the registry: `cancelled` is the token's flag.

Every change of an operation is one of those of `Change`. What holds of every run
follows from that, except that a failing operation leaves the registry as it was:
a registration makes room first and takes its identifier afterwards, so that the
oldest finished task is lost when there is no identifier left (`CounterExhausted`).
-/

namespace KaduoxSsh.Transfer

open Result

def maxTransferTaskRetention : Nat := 1024
def maxTransferTaskTextBytes : Nat := 16 * 1024

inductive TransferTaskKind where
  | uploadFile
  | uploadDirectory
  | downloadFile
  | downloadDirectory
deriving DecidableEq, Repr

def TransferTaskKind.direction : TransferTaskKind → TransferDirection
  | .uploadFile | .uploadDirectory => .upload
  | .downloadFile | .downloadDirectory => .download

inductive TransferTaskState where
  | queued
  | running
  | completed
  | cancelled
  | failed
deriving DecidableEq, Repr

namespace TransferTaskState

def isTerminal : TransferTaskState → Bool
  | .completed | .cancelled | .failed => true
  | .queued | .running => false

/-- How a state is told in a message. -/
def name : TransferTaskState → String
  | .queued => "Queued"
  | .running => "Running"
  | .completed => "Completed"
  | .cancelled => "Cancelled"
  | .failed => "Failed"

end TransferTaskState

structure TransferTaskProgress where
  path : String
  bytesTransferred : Nat
  totalBytes : Option Nat
  completed : Bool
deriving DecidableEq, Repr

structure TransferTaskSnapshot where
  id : Nat
  kind : TransferTaskKind
  source : String
  destination : String
  state : TransferTaskState
  cancelRequested : Bool
  progress : Option TransferTaskProgress
  summary : Option TransferSummary
  error : Option String
  retryOf : Option Nat
deriving DecidableEq, Repr

structure TaskRecord where
  snapshot : TransferTaskSnapshot
  cancelled : Bool
deriving DecidableEq, Repr

/-- What the lock guards. -/
structure RegistryInner where
  nextId : Nat
  maxRetained : Nat
  tasks : SortedMap Nat TaskRecord
  order : List Nat

/-- What an operation answers. -/
inductive RegistryReply where
  | registered (id : Nat)
  | done
  | cancelRequested (changed : Bool)
  | cleared (count : Nat)
deriving DecidableEq, Repr

/-- The outcome of an operation and what the lock guards after it. -/
abbrev Locked := RegistryInner → Result RegistryReply × RegistryInner

/-! ## Texts -/

def validateRetention (maxRetained : Nat) : Result Unit := do
  bailIf (maxRetained = 0) "transfer task retention must be greater than zero"
  bailIf (maxRetained > maxTransferTaskRetention)
    s!"transfer task retention must be <= {maxTransferTaskRetention}"

def validateTaskText (label value : String) : Result Unit := do
  bailIf (value = "") s!"transfer task {label} must not be empty"
  bailIf (value.utf8ByteSize > maxTransferTaskTextBytes)
    s!"transfer task {label} exceeds {maxTransferTaskTextBytes} UTF-8 bytes"

/-- The longest beginning of a text that takes no more than some bytes. -/
def takeBytes : Nat → List Char → List Char
  | _, [] => []
  | budget, c :: rest =>
      if c.utf8Size ≤ budget then c :: takeBytes (budget - c.utf8Size) rest else []

def boundedText (value : String) : String :=
  if value.utf8ByteSize ≤ maxTransferTaskTextBytes then value
  else String.ofList (takeBytes maxTransferTaskTextBytes value.toList) ++ "..."

/-! ## Registration -/

namespace RegistryInner

/-- The registry that `TransferTaskRegistry::new` makes. -/
def new (maxRetained : Nat) : Result RegistryInner := do
  validateRetention maxRetained
  return ⟨1, maxRetained, .empty, []⟩

variable (inner : RegistryInner)

/-- A task may go to make room: it has ended. -/
def evictable (id : Nat) : Bool :=
  match inner.tasks.get? id with
  | none => true
  | some record => record.snapshot.state.isTerminal

def evict (id : Nat) : RegistryInner :=
  { inner with tasks := inner.tasks.erase id, order := inner.order.erase id }

theorem length_evict {id : Nat} (h : inner.order.find? inner.evictable = some id) :
    (inner.evict id).order.length < inner.order.length := by
  have hmem := List.mem_of_find?_eq_some h
  rw [evict, List.length_erase_of_mem hmem]
  exact Nat.sub_lt (List.length_pos_of_mem hmem) Nat.one_pos

/-- `make_capacity`. The task that goes is the first of the order that may. -/
def makeCapacity (inner : RegistryInner) : Result Unit × RegistryInner :=
  if inner.tasks.size < inner.maxRetained then (.ok (), inner)
  else match _h : inner.order.find? inner.evictable with
    | none => (bail
        s!"transfer task registry is full with {inner.tasks.size} non-terminal tasks", inner)
    | some id => makeCapacity (inner.evict id)
termination_by inner.order.length
decreasing_by exact inner.length_evict ‹_›

/-- A task that has not ended writes to the destination. -/
def conflict (direction : TransferDirection) (destination : String) : Bool :=
  inner.tasks.values.any fun record ↦
    !record.snapshot.state.isTerminal && decide (record.snapshot.kind.direction = direction) &&
      decide (record.snapshot.destination = destination)

def conflictText (direction : TransferDirection) (destination : String) : String :=
  let activity := match direction with
    | .upload => "上传"
    | .download => "下载"
  s!"已有一个{activity}任务正在写入相同目标，拒绝并发重复: {destination}"

/-- The record of a task that has just been registered. -/
def queuedRecord (id : Nat) (kind : TransferTaskKind) (source destination : String)
    (retryOf : Option Nat) : TaskRecord where
  snapshot := ⟨id, kind, source, destination, .queued, false, none, none, none, retryOf⟩
  cancelled := false

/-- A task takes the next identifier. -/
def push (kind : TransferTaskKind) (source destination : String) (retryOf : Option Nat) :
    RegistryInner :=
  { inner with
    nextId := inner.nextId + 1
    tasks := inner.tasks.insert inner.nextId
      (queuedRecord inner.nextId kind source destination retryOf)
    order := inner.order ++ [inner.nextId] }

end RegistryInner

open RegistryInner

/-- `register_locked`. -/
def registerLocked (kind : TransferTaskKind) (source destination : String)
    (retryOf : Option Nat) : Locked := fun inner ↦
  if inner.conflict kind.direction destination then
    (bail (conflictText kind.direction destination), inner)
  else match inner.makeCapacity with
    | (.error e, inner) => (.error e, inner)
    | (.ok _, inner) =>
        if inner.nextId + 1 < 2 ^ 64 then
          (.ok (.registered inner.nextId), inner.push kind source destination retryOf)
        else (bail "transfer task id counter overflow", inner)

def register (kind : TransferTaskKind) (source destination : String) : Locked := fun inner ↦
  match (do validateTaskText "source" source; validateTaskText "destination" destination) with
  | .error e => (.error e, inner)
  | .ok _ => registerLocked kind source destination none inner

def unknownTask (id : Nat) : String := s!"unknown transfer task id {id}"

def registerRetry (previous : Nat) : Locked := fun inner ↦
  match inner.tasks.get? previous with
  | none => (bail (unknownTask previous), inner)
  | some record =>
      let snapshot := record.snapshot
      if snapshot.state = .cancelled ∨ snapshot.state = .failed then
        registerLocked snapshot.kind snapshot.source snapshot.destination (some previous) inner
      else (bail
        s!"transfer task {previous} can only be retried after cancellation or failure", inner)

/-! ## The life of a task -/

/-- An operation on one task through `task_mut`. -/
def withTask (id : Nat) (f : TaskRecord → Result (RegistryReply × TaskRecord)) : Locked :=
  fun inner ↦ match inner.tasks.get? id with
  | none => (bail (unknownTask id), inner)
  | some record => match f record with
    | .error e => (.error e, inner)
    | .ok (reply, record') => (.ok reply, { inner with tasks := inner.tasks.insert id record' })

def markRunning (id : Nat) : Locked := withTask id fun record ↦ do
  let state := record.snapshot.state.name
  bailIf (record.snapshot.state ≠ .queued)
    s!"transfer task {id} cannot enter running state from {state}"
  return (.done, { record with snapshot := { record.snapshot with state := .running } })

def recordProgress (id : Nat) (event : TransferEvent) : Locked := withTask id fun record ↦ do
  let state := record.snapshot.state.name
  bailIf (record.snapshot.state ≠ .running)
    s!"transfer task {id} cannot record progress while {state}"
  bailIf (event.direction ≠ record.snapshot.kind.direction)
    s!"transfer task {id} progress direction does not match task kind"
  return (.done, { record with snapshot := { record.snapshot with
    progress := some ⟨boundedText event.path, event.bytesTransferred, event.totalBytes,
      event.completed⟩ } })

def requestCancel (id : Nat) : Locked := withTask id fun record ↦
  if record.snapshot.state.isTerminal ∨ record.snapshot.cancelRequested then
    .ok (.cancelRequested false, record)
  else .ok (.cancelRequested true,
    { snapshot := { record.snapshot with cancelRequested := true }, cancelled := true })

def ensureRunning (id : Nat) (state : TransferTaskState) : Result Unit :=
  let name := state.name
  bailIf (state ≠ .running) s!"transfer task {id} cannot finish from {name}"

def complete (id : Nat) (summary : TransferSummary) : Locked := withTask id fun record ↦ do
  ensureRunning id record.snapshot.state
  return (.done, { record with snapshot := { record.snapshot with
    state := .completed, summary := some summary, error := none } })

def markCancelled (id : Nat) : Locked := withTask id fun record ↦ do
  let state := record.snapshot.state.name
  bailIf (¬(record.snapshot.state = .queued ∨ record.snapshot.state = .running))
    s!"transfer task {id} cannot be cancelled from {state}"
  return (.done, { cancelled := true, snapshot := { record.snapshot with
    state := .cancelled, cancelRequested := true } })

def fail (id : Nat) (error : String) : Locked := withTask id fun record ↦ do
  ensureRunning id record.snapshot.state
  return (.done, { record with snapshot := { record.snapshot with
    state := .failed, error := some (boundedText error) } })

/-- The tasks that have ended, in the order of their registration. -/
def RegistryInner.finished (inner : RegistryInner) : List Nat :=
  inner.order.filter fun id ↦
    (inner.tasks.get? id).any fun record ↦ record.snapshot.state.isTerminal

def clearFinished : Locked := fun inner ↦
  (.ok (.cleared inner.finished.length),
    { inner with
      tasks := inner.finished.foldl SortedMap.erase inner.tasks
      order := inner.order.filter fun id ↦ id ∉ inner.finished })

/-- The operations of the registry. -/
inductive RegistryOperation where
  | register (kind : TransferTaskKind) (source destination : String)
  | registerRetry (previous : Nat)
  | markRunning (id : Nat)
  | recordProgress (id : Nat) (event : TransferEvent)
  | requestCancel (id : Nat)
  | complete (id : Nat) (summary : TransferSummary)
  | markCancelled (id : Nat)
  | fail (id : Nat) (error : String)
  | clearFinished
deriving DecidableEq

def RegistryOperation.perform : RegistryOperation → Locked
  | .register kind source destination => Transfer.register kind source destination
  | .registerRetry previous => Transfer.registerRetry previous
  | .markRunning id => Transfer.markRunning id
  | .recordProgress id event => Transfer.recordProgress id event
  | .requestCancel id => Transfer.requestCancel id
  | .complete id summary => Transfer.complete id summary
  | .markCancelled id => Transfer.markCancelled id
  | .fail id error => Transfer.fail id error
  | .clearFinished => Transfer.clearFinished

end KaduoxSsh.Transfer
