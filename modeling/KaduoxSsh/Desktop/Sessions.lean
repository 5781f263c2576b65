import KaduoxSsh.Core.Config
import KaduoxSsh.Core.ConnectionManager
import KaduoxSsh.Lib.SortedMap

/-!
# The sessions of the desktop program

`state.rs` and the commands that put something into its tables or take it out again:
`connect_host` and `disconnect_host`, `start_terminal`, `start_forward`, and every command
that leases a session, which reconnects when the session's transport has died. Many of
them are under way at a time. Each goes on step by step, where a step is what is done
under one lock, or between two of them.

The connection manager is a component: an operation calls it and waits for the call to
end. What else happens with transports and leases is left to the events of the manager,
and what the host file, the credential store, the clock of the calendar and the server
answer is left to the events of the step.

The lock for a name is made when it is first asked for, and `disconnect_host` throws it
away when it is done. Who waits for it then gets it all the same, while the next one
that asks is given another.
-/

namespace KaduoxSsh.Desktop.Sessions

open KaduoxSsh.Core Hosts Result

/-! ## What is kept -/

/-- The details of a session, as far as a later step reads or changes them. -/
structure SessionDto where
  authMethod : String
  warning : Option String
deriving DecidableEq, Repr

structure SessionEntry where
  /-- The connection that is leased. -/
  lease : Nat
  details : SessionDto
deriving DecidableEq, Repr

structure TerminalControl where
  id : Nat
  hostAlias : String
deriving DecidableEq, Repr

structure ForwardControl where
  id : Nat
  hostAlias : String
  lease : Nat
deriving DecidableEq, Repr

/-! ## Operations -/

/-- The operations, each with the alias that it is given. -/
inductive Operation where
  | connectHost (hostAlias : String)
  /-- A command that only needs the lease. -/
  | sessionLease (hostAlias : String)
  | startTerminal (hostAlias : String) (columns rows : Nat)
  /-- With what the checks of the request say. -/
  | startForward (hostAlias : String) (checks : Result Unit)
  | disconnectHost (hostAlias : String)
deriving DecidableEq

/-- What an operation does first. -/
inductive Routine where
  | connect
  | lease
  | disconnect
deriving DecidableEq, Repr

def trimmed (s : String) : String := String.ofList (trim s.toList)

namespace Operation

def hostAlias : Operation → String
  | connectHost hostAlias | sessionLease hostAlias | startTerminal hostAlias _ _
  | startForward hostAlias _ | disconnectHost hostAlias => hostAlias

/-- The name of the session: every operation trims the alias for it. -/
def name (operation : Operation) : String := trimmed operation.hostAlias

def routine : Operation → Routine
  | connectHost _ => .connect
  | sessionLease _ | startTerminal _ _ _ | startForward _ _ => .lease
  | disconnectHost _ => .disconnect

end Operation

def MIN_COLUMNS : Nat := 10

def MAX_COLUMNS : Nat := 1000

def MIN_ROWS : Nat := 3

def MAX_ROWS : Nat := 500

def validateSize (columns rows : Nat) : Result Unit :=
  if ¬(MIN_COLUMNS ≤ columns ∧ columns ≤ MAX_COLUMNS) then
    bail s!"终端列数必须在 {MIN_COLUMNS}..={MAX_COLUMNS} 之间"
  else if ¬(MIN_ROWS ≤ rows ∧ rows ≤ MAX_ROWS) then
    bail s!"终端行数必须在 {MIN_ROWS}..={MAX_ROWS} 之间"
  else .ok ()

inductive Phase where
  /-- Is there a session that is alive? -/
  | probe
  /-- Is there a session at all? -/
  | known
  | takeLock
  | lock (lock : Nat)
  /-- The session may have been healed while the lock was waited for. -/
  | recheck
  | cooldown
  | readGeneration
  | previous
  /-- The host and the credentials are looked up. -/
  | resolve
  | noteGeneration
  | clearCooldown
  | stopTerminals
  | stopForwards
  | removeSession
  | removeTransport
  | removing (call : Nat)
  | connect
  | connecting (call : Nat)
  | leasing (call : Nat)
  /-- The server is asked for details, and what has to be saved is saved. -/
  | record (lease : Nat)
  | insertSession (lease : Nat) (details : SessionDto)
  | confirm
  | clearFailure (lease : Nat)
  | compareGeneration (lease : Nat)
  | discardSession
  | discardTransport
  | discarding (call : Nat)
  /-- The session whose transport could not be replaced is put back. -/
  | reinsert (error : AnyError)
  | noteFailure (error : AnyError)
  /-- The operation has its lease. -/
  | leased (lease : Nat)
  | insertForward (lease : Nat)
  | dropLock
  | finished (result : Result Unit)
deriving DecidableEq

def Phase.isFinished : Phase → Bool
  | finished _ => true
  | _ => false

structure Task where
  operation : Operation
  phase : Phase
  /-- The lock that is held. -/
  guard : Option Nat
  /-- The number of disconnections before the attempt to reconnect. -/
  generation : Nat
  /-- The details of the session that is to be replaced. -/
  previous : SessionDto
  /-- The session that has been taken out. -/
  removed : Option SessionEntry
  plan : Option (ConnectionConfig × Authentication)
  /-- The number for what is put into a table. -/
  id : Nat
  /-- The operations that had ended when this one began. -/
  settled : List Nat

namespace Task

def name (task : Task) : String := task.operation.name

def routine (task : Task) : Routine := task.operation.routine

end Task

structure DesktopState where
  manager : Manager ConnectionConfig
  sessions : SortedMap String SessionEntry
  terminals : List TerminalControl
  forwards : List ForwardControl
  /-- The lock for a name. -/
  reconnectLocks : SortedMap String Nat
  /-- The locks so far, each with the operation that holds it. -/
  locks : List (Option Nat)
  disconnectGenerations : SortedMap String Nat
  /-- When reconnecting has failed last, and how often in a row. -/
  healFailures : SortedMap String (Nat × Nat)
  ids : Nat
  tasks : List Task

/-- The first step of an operation. -/
def Operation.begin : Operation → Phase
  | connectHost hostAlias =>
      if trimmed hostAlias = "" then .finished (bail "主机别名不能为空") else .probe
  | sessionLease _ => .probe
  | startTerminal _ columns rows =>
      match validateSize columns rows with
      | .ok () => .probe
      | .error e => .finished (.error e)
  | startForward _ checks =>
      match checks with
      | .ok () => .probe
      | .error e => .finished (.error e)
  | disconnectHost _ => .takeLock

/-- A second of the clock of the connection manager. -/
def SECOND : Nat := 1000000000

/-- How long after its failures a session is not reconnected again. -/
def cooldownOf (attempts : Nat) : Nat := 5 * SECOND * 2 ^ min attempts 4

namespace DesktopState

def new (maxConnections idleTimeout : Nat) : DesktopState where
  manager := .new ConnectionConfig maxConnections idleTimeout
  sessions := .empty
  terminals := []
  forwards := []
  reconnectLocks := .empty
  locks := []
  disconnectGenerations := .empty
  healFailures := .empty
  ids := 1
  tasks := []

variable (s : DesktopState)

def generation (name : String) : Nat := (s.disconnectGenerations.get? name).getD 0

/-- The lease of a session that is alive. -/
def liveSessionLease (name : String) : Option Nat :=
  match s.sessions.get? name with
  | some entry => if s.manager.alive entry.lease then some entry.lease else none
  | none => none

def setTask (t : Nat) (task : Task) : DesktopState := { s with tasks := s.tasks.set t task }

def call (call : Call ConnectionConfig) : DesktopState :=
  { s with manager := { s.manager with tasks := s.manager.tasks ++ [.new call] } }

/-! ## The steps of an operation -/

section

variable (t : Nat) (task : Task)

def goOn (phase : Phase) : DesktopState := s.setTask t { task with phase }

/-- The lock that is held is given back. -/
def unlock : DesktopState :=
  { s with locks := task.guard.elim s.locks fun lock ↦ s.locks.set lock none }

def finish (result : Result Unit) : DesktopState :=
  (s.unlock task).setTask t { task with phase := .finished result, guard := none }

/-- The lease is there: a session has been found alive, or has been healed. -/
def leaseFound (lease : Nat) : DesktopState :=
  (s.unlock task).setTask t { task with phase := .leased lease, guard := none }

def probe : Option DesktopState :=
  match task.routine, s.liveSessionLease task.name with
  | .connect, some _ => some (s.finish t task (.ok ()))
  | .lease, some lease => some (s.leaseFound t task lease)
  | .disconnect, some _ => none
  | _, none => some (s.goOn t task .known)

def known : DesktopState :=
  match task.routine, s.sessions.contains task.name with
  | .connect, true => s.goOn t task .stopTerminals
  | .connect, false => s.goOn t task .resolve
  | _, true => s.goOn t task .takeLock
  | _, false => s.finish t task (bail s!"主机 {task.name} 尚未连接")

def takeLock : DesktopState :=
  match s.reconnectLocks.get? task.name with
  | some lock => s.goOn t task (.lock lock)
  | none =>
      { s with
        locks := s.locks ++ [none]
        reconnectLocks := s.reconnectLocks.insert task.name s.locks.length
        tasks := s.tasks.set t { task with phase := .lock s.locks.length } }

/-- Of those that wait any one may get the lock. -/
def lock (lock : Nat) : Option DesktopState :=
  if s.locks[lock]? = some none then
    some { s with
      locks := s.locks.set lock (some t)
      tasks := s.tasks.set t { task with
        guard := some lock
        phase := if task.routine = .disconnect then .noteGeneration else .recheck } }
  else none

def recheck : Option DesktopState :=
  match task.routine, s.liveSessionLease task.name with
  | .lease, some lease => some (s.leaseFound t task lease)
  | .lease, none => some (s.goOn t task .cooldown)
  | _, _ => none

def cooldown : DesktopState :=
  match s.healFailures.get? task.name with
  | some (lastFailed, attempts) =>
      let elapsed := s.manager.now - lastFailed
      if elapsed < cooldownOf attempts then
        s.finish t task (bail (s!"主机 {task.name} 自动重连冷却中（" ++
          s!"{cooldownOf attempts / SECOND - elapsed / SECOND} 秒后可重试）"))
      else s.goOn t task .readGeneration
  | none => s.goOn t task .readGeneration

def readGeneration : DesktopState :=
  s.setTask t { task with generation := s.generation task.name, phase := .previous }

def previous : DesktopState :=
  match s.sessions.get? task.name with
  | some entry => s.setTask t { task with previous := entry.details, phase := .resolve }
  | none => s.goOn t task (.noteFailure ⟨[⟨"会话在重连前已被移除", none⟩]⟩)

def noteGeneration : DesktopState :=
  { s with
    disconnectGenerations :=
      s.disconnectGenerations.insert task.name (s.generation task.name + 1)
    tasks := s.tasks.set t { task with phase := .clearCooldown } }

def clearCooldown : DesktopState :=
  { s with
    healFailures := s.healFailures.erase task.name
    tasks := s.tasks.set t { task with phase := .stopTerminals } }

/-- The terminals that are kept under the name are stopped. -/
def stopTerminals : DesktopState :=
  { s with
    terminals := s.terminals.filter (·.hostAlias ≠ task.name)
    tasks := s.tasks.set t { task with phase := .stopForwards } }

def stopForwards : DesktopState :=
  { s with
    forwards := s.forwards.filter (·.hostAlias ≠ task.name)
    tasks := s.tasks.set t { task with phase := .removeSession } }

def removeSession : DesktopState :=
  { s with
    sessions := s.sessions.erase task.name
    tasks := s.tasks.set t
      { task with removed := s.sessions.get? task.name, phase := .removeTransport } }

def removeTransport : DesktopState :=
  (s.call (.remove task.name)).goOn t task (.removing s.manager.tasks.length)

/-- The transport has been removed, or there was none. -/
def removed : DesktopState :=
  match task.routine with
  | .connect => s.goOn t task .resolve
  | .lease => s.goOn t task .connect
  | .disconnect => s.goOn t task .dropLock

/-- No transport could be established. -/
def connectFailed (error : AnyError) : Option DesktopState :=
  match task.routine with
  | .connect =>
      some (s.finish t task (context s!"连接 {task.name} 失败" (.error error)))
  | .lease => some (s.goOn t task (.reinsert error))
  | .disconnect => none

def connect : Option DesktopState :=
  match task.plan with
  | some (config, authentication) =>
      if config.jumpHosts.length ≤ 5 then
        some ((s.call (.connect task.name config authentication .connectWithJumpAuth)).goOn t task
          (.connecting s.manager.tasks.length))
      else s.connectFailed t task ⟨[⟨"桌面客户端最多支持 5 层跳板", none⟩]⟩
  | none => none

def connected : Outcome → Option DesktopState
  | .transport _ _ =>
      some ((s.call (.get task.name true)).goOn t task (.leasing s.manager.tasks.length))
  | .failed error => s.connectFailed t task error
  | _ => none

def gotLease : Outcome → Option DesktopState
  | .transport lease _ => some (s.goOn t task (.record lease))
  | .absent => s.connectFailed t task ⟨[⟨"连接建立后无法取得传输", none⟩]⟩
  | _ => none

def insertSession (lease : Nat) (details : SessionDto) : Option DesktopState :=
  let s' := { s with sessions := s.sessions.insert task.name ⟨lease, details⟩ }
  match task.routine with
  | .connect => some (s'.finish t task (.ok ()))
  | .lease => some (s'.goOn t task .confirm)
  | .disconnect => none

def confirm : DesktopState :=
  match s.liveSessionLease task.name with
  | some lease => s.goOn t task (.clearFailure lease)
  | none => s.goOn t task (.noteFailure ⟨[⟨"重连后会话不可用", none⟩]⟩)

def clearFailure (lease : Nat) : DesktopState :=
  { s with
    healFailures := s.healFailures.erase task.name
    tasks := s.tasks.set t { task with phase := .compareGeneration lease } }

/-- The host has been disconnected in the meantime when the number of its disconnections is
another. -/
def compareGeneration (lease : Nat) : DesktopState :=
  if s.generation task.name ≠ task.generation then s.goOn t task .discardSession
  else s.leaseFound t task lease

def discardSession : DesktopState :=
  { s with
    sessions := s.sessions.erase task.name
    tasks := s.tasks.set t { task with phase := .discardTransport } }

def discardTransport : DesktopState :=
  (s.call (.remove task.name)).goOn t task (.discarding s.manager.tasks.length)

def reinsert (error : AnyError) : DesktopState :=
  let phase := .noteFailure ⟨⟨"无法重新建立 SSH 连接", none⟩ :: error.chain⟩
  match task.removed with
  | some entry =>
      let warning := "自动重连失败，会话已断开；下次操作将在冷却后重试"
      { s with
        sessions := s.sessions.insert task.name
          { entry with details := { entry.details with warning := some warning } }
        tasks := s.tasks.set t { task with phase } }
  | none => s.goOn t task phase

def noteFailure (error : AnyError) : DesktopState :=
  let attempts := ((s.healFailures.get? task.name).map Prod.snd).getD 0 + 1
  { s with healFailures := s.healFailures.insert task.name (s.manager.now, attempts) }.finish t task
    (bail s!"主机 {task.name} 连接已断开，自动重连失败：{error.alternate}")

/-- What is done with the lease. A forward is opened first. -/
def leased : Option DesktopState :=
  match task.operation with
  | .sessionLease _ => some (s.finish t task (.ok ()))
  | .startTerminal hostAlias _ _ =>
      some ({ s with
        terminals := ⟨s.ids, hostAlias⟩ :: s.terminals
        ids := s.ids + 1 }.finish t task (.ok ()))
  | _ => none

def insertForward (lease : Nat) : Option DesktopState :=
  match task.operation with
  | .startForward hostAlias _ =>
      some ({ s with forwards := ⟨task.id, hostAlias, lease⟩ :: s.forwards }.finish t task (.ok ()))
  | _ => none

/-- The lock for the name is thrown away. It is still held until the operation ends. -/
def dropLock : DesktopState :=
  { s with reconnectLocks := s.reconnectLocks.erase task.name }.finish t task (.ok ())

/-- The next step of an operation; none while it waits, or when the step needs an answer. -/
def advance : Option DesktopState :=
  match task.phase with
  | .probe => s.probe t task
  | .known => some (s.known t task)
  | .takeLock => some (s.takeLock t task)
  | .lock lock => s.lock t task lock
  | .recheck => s.recheck t task
  | .cooldown => some (s.cooldown t task)
  | .readGeneration => some (s.readGeneration t task)
  | .previous => some (s.previous t task)
  | .noteGeneration => some (s.noteGeneration t task)
  | .clearCooldown => some (s.clearCooldown t task)
  | .stopTerminals => some (s.stopTerminals t task)
  | .stopForwards => some (s.stopForwards t task)
  | .removeSession => some (s.removeSession t task)
  | .removeTransport => some (s.removeTransport t task)
  | .removing call => (s.manager.answer call).map fun _ ↦ s.removed t task
  | .connect => s.connect t task
  | .connecting call => (s.manager.answer call).bind (s.connected t task)
  | .leasing call => (s.manager.answer call).bind (s.gotLease t task)
  | .insertSession lease details => s.insertSession t task lease details
  | .confirm => some (s.confirm t task)
  | .clearFailure lease => some (s.clearFailure t task lease)
  | .compareGeneration lease => some (s.compareGeneration t task lease)
  | .discardSession => some (s.discardSession t task)
  | .discardTransport => some (s.discardTransport t task)
  | .discarding call =>
      (s.manager.answer call).map fun _ ↦ s.finish t task (bail s!"主机 {task.name} 已断开")
  | .reinsert error => some (s.reinsert t task error)
  | .noteFailure error => some (s.noteFailure t task error)
  | .leased _ => s.leased t task
  | .insertForward lease => s.insertForward t task lease
  | .dropLock => some (s.dropLock t task)
  | .resolve | .record _ | .finished _ => none

/-! ## Answers from outside -/

/-- The host file and the credentials are there. -/
def resolved (result : Result (ConnectionConfig × Authentication)) : Option DesktopState :=
  match task.phase, task.routine, result with
  | .resolve, .connect, .ok plan => some (s.setTask t { task with plan, phase := .connect })
  | .resolve, .lease, .ok plan => some (s.setTask t { task with plan, phase := .stopTerminals })
  | .resolve, .connect, .error e => some (s.finish t task (.error e))
  | .resolve, .lease, .error e => some (s.goOn t task (.noteFailure e))
  | _, _, _ => none

/-- What is known of the new session; a session that is reconnected keeps what was known. -/
def recorded (result : Result SessionDto) : Option DesktopState :=
  match task.phase, task.routine, result with
  | .record lease, .connect, .ok details => some (s.goOn t task (.insertSession lease details))
  | .record lease, .lease, .ok _ =>
      some (s.goOn t task (.insertSession lease { task.previous with warning := none }))
  | .record _, .connect, .error e => some (s.finish t task (.error e))
  | .record _, .lease, .error e => some (s.goOn t task (.noteFailure e))
  | _, _, _ => none

/-- The server forwards, or does not. -/
def opened (result : Result Unit) : Option DesktopState :=
  match task.phase, task.operation, result with
  | .leased lease, .startForward _ _, .ok () => some (s.goOn t task (.insertForward lease))
  | .leased _, .startForward _ _, .error e => some (s.finish t task (.error e))
  | _, _, _ => none

/-- The transport has been taken out, but its client could not be closed. Only `disconnect_host`
minds. -/
def closeFailed (error : AnyError) : Option DesktopState :=
  match task.phase with
  | .removing call =>
      if s.manager.answer call = some .completed ∧ task.routine = .disconnect then
        some (s.finish t task (.error error))
      else none
  | _ => none

end

end DesktopState

/-! ## The system -/

inductive Event where
  | begin (operation : Operation)
  | advance (t : Nat)
  | resolved (t : Nat) (result : Result (ConnectionConfig × Authentication))
  | recorded (t : Nat) (result : Result SessionDto)
  | opened (t : Nat) (result : Result Unit)
  | closeFailed (t : Nat) (error : AnyError)
  | manager (e : ManagerEvent ConnectionConfig)
  | closeTerminal (id : Nat)
  | stopForward (id : Nat)

/-- Calls are made by operations, which are not cancelled. -/
def ownCall : ManagerEvent ConnectionConfig → Bool
  | .spawn _ | .cancel _ => true
  | _ => false

namespace DesktopState

/-- The operations that have ended. -/
def settled (s : DesktopState) : List Nat :=
  (List.range s.tasks.length).filter fun t ↦ s.tasks[t]?.any (·.phase.isFinished)

/-- An operation begins. A forward has its number from the start. -/
def begin (s : DesktopState) (operation : Operation) : DesktopState :=
  { s with
    ids := match operation with
      | .startForward _ _ => s.ids + 1
      | _ => s.ids
    tasks := s.tasks ++ [{
      operation
      phase := operation.begin
      guard := none
      generation := 0
      previous := ⟨"", none⟩
      removed := none
      plan := none
      id := s.ids
      settled := s.settled }] }

def step (s : DesktopState) : Event → Option DesktopState
  | .begin operation => some (s.begin operation)
  | .advance t => do s.advance t (← s.tasks[t]?)
  | .resolved t result => do s.resolved t (← s.tasks[t]?) result
  | .recorded t result => do s.recorded t (← s.tasks[t]?) result
  | .opened t result => do s.opened t (← s.tasks[t]?) result
  | .closeFailed t error => do s.closeFailed t (← s.tasks[t]?) error
  | .manager e =>
      if ownCall e then none else (s.manager.step e).map fun manager ↦ { s with manager }
  | .closeTerminal id => some { s with terminals := s.terminals.filter (·.id ≠ id) }
  | .stopForward id => some { s with forwards := s.forwards.filter (·.id ≠ id) }

end DesktopState

end KaduoxSsh.Desktop.Sessions
