import KaduoxSsh.Lib.Result
import KaduoxSsh.Lib.Run
import KaduoxSsh.Lib.Text
import Mathlib.Algebra.BigOperators.Group.List.Basic
import Mathlib.Algebra.GroupWithZero.Nat
import Mathlib.Logic.Function.Basic

/-!
# The connection manager

`manager.rs` and `manager/jump.rs`: named connections that are shared by their
callers, one attempt to connect at a time for each name, and a bounded number of
connections. A state holds the manager and the calls on it that are under way; each
call goes on step by step, where a step is what is done under one lock, and between
two steps any other call may go on. A call can be cancelled where it waits, and
drops then what it owns, one thing after the other, in the order of the source.

A managed connection is owned through counted references, by the pool, by leases and
by calls that have one at hand. References are not counted in the state but there
are so many as there are owners (`strongCount`). The fields `attempt` and `met` are
for the record: nothing is decided by them.
-/

namespace KaduoxSsh.Core

/-! ## Authentication -/

inductive Authentication where
  | password (password : String)
  | keyboardInteractive (password : String)
  | privateKey (path : PathBuf) (passphrase : Option String)
  | agent
  | auto (identityFiles : List PathBuf) (passphrase : Option String)
deriving DecidableEq, Repr

/-- What is known of an authentication without its secrets. -/
inductive AuthenticationReuseKey where
  | privateKey (path : PathBuf)
  | agent
  | auto (identityFiles : List PathBuf)
  | nonReusable
deriving DecidableEq, Repr

def AuthenticationReuseKey.canReuseWith : AuthenticationReuseKey → AuthenticationReuseKey → Bool
  | .privateKey existing, .privateKey requested => existing = requested
  | .agent, .agent => true
  | .auto existing, .auto requested => existing = requested
  | _, _ => false

def Authentication.reuseKey : Authentication → AuthenticationReuseKey
  | .password _ | .keyboardInteractive _ => .nonReusable
  | .privateKey path passphrase => if passphrase.isSome then .nonReusable else .privateKey path
  | .agent => .agent
  | .auto identityFiles passphrase =>
      if passphrase.isSome ∨ identityFiles = [] then .nonReusable else .auto identityFiles

/-! ## Calls -/

/-- The functions that connect. -/
inductive ConnectEntry where
  | connect
  | connectLease
  | connectWithJumpAuth
deriving DecidableEq, Repr

inductive Call (Config : Type) where
  | connect (name : String) (config : Config) (authentication : Authentication)
      (entry : ConnectEntry)
  | get (name : String) (lease : Bool)
  | remove (name : String)
  | pruneIdle
  | closeAll
deriving DecidableEq, Repr

/-- The place of a look-up in its call. -/
inductive Lookup where
  | optimistic
  /-- After another call's attempt has ended. -/
  | follower
  /-- With the lead for the name. -/
  | leader
  /-- By a call that does not connect. -/
  | plain
deriving DecidableEq, Repr

/-- Where a connection that answers a call comes from. -/
inductive Source where
  | established
  | found (lookup : Lookup)
  /-- It was put into the pool while the call's own attempt went on. -/
  | winner
deriving DecidableEq, Repr

inductive Outcome where
  | transport (id : Nat) (source : Source)
  | absent
  | completed
  | failed (error : AnyError)
  | cancelled
deriving DecidableEq, Repr

/-- What follows when references have been dropped. -/
inductive Next where
  | missed (lookup : Lookup)
  | acquire
  | inserted (id : Nat)
  | closing (existing : Nat) (compatibility : Result Unit)
deriving DecidableEq

inductive Phase where
  | lookup (lookup : Lookup)
  /-- A look-up has found a connection that has died. -/
  | evict (lookup : Lookup) (observed : Nat)
  | dropping (next : Next)
  | claim
  | wait (signal : Nat)
  | prune
  | acquire
  | connecting
  | insert (id : Nat)
  /-- The own connection is closed because another one is in the pool. -/
  | closing (existing : Nat) (compatibility : Result Unit)
  | returning (id : Nat) (source : Source)
  | handoff (id : Nat) (source : Source)
  | remove
  | closeAll
  | close
  /-- All that is still owned is dropped. -/
  | unwind (outcome : Outcome)
  | finished (outcome : Outcome)
deriving DecidableEq

/-- A call that is under way, with what it owns. -/
structure Task (Config : Type) where
  call : Call Config
  phase : Phase
  /-- References to managed connections. -/
  held : List Nat
  /-- References that are about to be dropped. -/
  discarded : List Nat
  /-- The connection of which the client is at hand. -/
  candidate : Option Nat
  permit : Bool
  /-- The lead for the name, with its signal. -/
  leading : Option Nat
  /-- The connections met under the name, except after an attempt of another call. -/
  met : List Nat

structure ManagedConnection (Config : Type) where
  config : Config
  authentication : AuthenticationReuseKey
  lastUsed : Nat
  activeLeases : Nat
  /-- Whether its client is alive. -/
  alive : Bool
  /-- References to its client that callers have. -/
  clients : Nat
  /-- The leases that callers have. -/
  leases : Nat
  /-- The leases that are no longer counted and still have to be dropped. -/
  releasing : Nat
  /-- The call that has established it. -/
  attempt : Nat

structure Manager (Config : Type) where
  maxConnections : Nat
  idleTimeout : Nat
  /-- The permits that are left. -/
  available : Nat
  connections : List (String × Nat)
  /-- The signal of the call that leads for a name. -/
  connecting : String → Option Nat
  /-- The signals so far, and whether they have been given. -/
  signals : List Bool
  managed : List (ManagedConnection Config)
  tasks : List (Task Config)
  now : Nat

variable {Config : Type}

namespace Call

def name : Call Config → String
  | connect name _ _ _ | get name _ | remove name => name
  | pruneIdle | closeAll => ""

/-- The first step of a call. -/
def begin : Call Config → Phase
  | connect name _ _ _ =>
      if name = "" then .finished (.failed ⟨[⟨"connection name cannot be empty", none⟩]⟩)
      else .lookup .optimistic
  | get _ _ => .lookup .plain
  | remove _ => .remove
  | pruneIdle => .prune
  | closeAll => .closeAll

def isJump : Call Config → Bool
  | connect _ _ _ entry => entry = .connectWithJumpAuth
  | _ => false

def wantsLease : Call Config → Bool
  | connect _ _ _ entry => entry = .connectLease
  | get _ lease => lease
  | _ => false

end Call

/-- Where a call can be cancelled. -/
def Phase.awaits : Phase → Bool
  | lookup _ | evict _ _ | wait _ | prune | connecting | insert _ | closing _ _ | remove | closeAll
  | close => true
  | dropping _ | claim | acquire | returning _ _ | handoff _ _ | unwind _ | finished _ => false

/-- What follows a look-up that has found nothing. -/
def Lookup.afterMiss : Lookup → Phase
  | optimistic => .claim
  | follower => .lookup .optimistic
  | leader => .prune
  | plain => .unwind .absent

namespace Task

def new (call : Call Config) : Task Config where
  call := call
  phase := call.begin
  held := []
  discarded := []
  candidate := none
  permit := false
  leading := none
  met := []

/-- The references to a connection that the call owns. -/
def owned (task : Task Config) (id : Nat) : Nat := task.held.count id + task.discarded.count id

end Task

/-! ## Compatibility -/

section

variable [DecidableEq Config]

def ensureConfigMatches (name : String) (existingConfig requestedConfig : Config) : Result Unit :=
  Result.bailIf (existingConfig ≠ requestedConfig)
    (s!"connection name '{name}' is already bound to a different SSH configuration; remove it " ++
      "before reconnecting")

def ensureReusable (name : String) (existingConfig requestedConfig : Config)
    (existingAuthentication requestedAuthentication : AuthenticationReuseKey) : Result Unit := do
  Result.bailIf (existingConfig ≠ requestedConfig)
    (s!"connection name '{name}' is already bound to a different SSH configuration; remove it " ++
      "before reconnecting")
  Result.bailIf (!existingAuthentication.canReuseWith requestedAuthentication)
    (s!"connection name '{name}' is already bound to a different or non-reusable " ++
      "authentication source; use get()/get_lease() to lease it intentionally or remove it " ++
      "before reauthenticating")

/-- Whether a connection that is alive may answer a call to connect. -/
def checkReusable (name : String) (existing : ManagedConnection Config) (config : Config)
    (authentication : AuthenticationReuseKey) (allowNonReusablePair : Bool) : Result Unit :=
  if existing.authentication.canReuseWith authentication ||
      (allowNonReusablePair && existing.authentication = .nonReusable &&
        authentication = .nonReusable) then
    ensureConfigMatches name existing.config config
  else ensureReusable name existing.config config existing.authentication authentication

/-- Whether a connection that is alive may answer a look-up. -/
def Call.accepts (call : Call Config) (lookup : Lookup) (existing : ManagedConnection Config) :
    Result Unit :=
  match call with
  | .connect name config authentication _ =>
      checkReusable name existing config authentication.reuseKey (lookup = .follower)
  | _ => .ok ()

end

/-! ## The pool -/

namespace Manager

def new (Config : Type) (maxConnections idleTimeout : Nat) : Manager Config where
  maxConnections := maxConnections
  idleTimeout := idleTimeout
  available := maxConnections
  connections := []
  connecting _ := none
  signals := []
  managed := []
  tasks := []
  now := 0

variable (s : Manager Config)

def find (name : String) : Option Nat := s.connections.lookup name

/-- The answer of a call that has ended. -/
def answer (call : Nat) : Option Outcome :=
  match s.tasks[call]?.map Task.phase with
  | some (.finished outcome) => some outcome
  | _ => none

def alive (id : Nat) : Bool := s.managed[id]?.any (·.alive)

def setTask (t : Nat) (task : Task Config) : Manager Config :=
  { s with tasks := s.tasks.set t task }

def modify (id : Nat) (f : ManagedConnection Config → ManagedConnection Config) : Manager Config :=
  { s with managed := s.managed.modify id f }

def touch (id : Nat) : Manager Config := s.modify id fun c ↦ { c with lastUsed := s.now }

/-- The leases of a connection, with those that have ended and are not yet dropped. -/
def leased (id : Nat) : Nat := s.managed[id]?.elim 0 fun c ↦ c.leases + c.releasing

/-- The owners of a managed connection that are not calls. -/
def shared (id : Nat) : Nat := (s.connections.map Prod.snd).count id + s.leased id

/-- The owners of a managed connection. -/
def strongCount (id : Nat) : Nat := s.shared id + (s.tasks.map (·.owned id)).sum

/-- The owners of the client of a managed connection. -/
def clientCount (id : Nat) : Nat :=
  (if 0 < s.strongCount id then 1 else 0) + s.managed[id]?.elim 0 (·.clients) +
    (s.tasks.filter (·.candidate = some id)).length

/-- The permit of a connection goes back when its last owner has gone. -/
def reclaim (id : Nat) : Manager Config :=
  if s.strongCount id = 0 then { s with available := s.available + 1 } else s

/-- The entries of some kind leave the pool. -/
def unlink (p : String × Nat → Bool) : Manager Config :=
  { s with connections := s.connections.filter (!p ·) }

/-- The connections of the entries that leave the pool. -/
def unlinked (p : String × Nat → Bool) : List Nat := (s.connections.filter p).map Prod.snd

def link (name : String) (id : Nat) : Manager Config :=
  { s with connections := (name, id) :: s.connections.filter (·.1 ≠ name) }

/-- A connection that has been idle for too long and is the pool's alone. -/
def expired (entry : String × Nat) : Bool :=
  s.managed[entry.2]?.any fun c ↦ s.strongCount entry.2 = 1 && s.clientCount entry.2 = 1 &&
    c.activeLeases = 0 && s.idleTimeout ≤ s.now - c.lastUsed

/-- The lead for a name ends, and its signal is given. -/
def resign (name : String) (signal : Nat) : Manager Config :=
  if s.connecting name = some signal then
    { s with
      signals := s.signals.set signal true
      connecting := Function.update s.connecting name none }
  else s

/-! ## The steps of a call -/

section

variable (t : Nat) (task : Task Config)

def evict (lookup : Lookup) (observed : Nat) : Manager Config :=
  let dead : Bool := s.find task.call.name = some observed && !s.alive observed
  let p := fun entry : String × Nat ↦ dead && entry.1 = task.call.name
  (s.unlink p).setTask t { task with
    held := task.held.erase observed
    discarded := s.unlinked p ++ [observed]
    phase := .dropping (.missed lookup) }

def dropping (next : Next) : Manager Config :=
  match task.discarded with
  | id :: rest => (s.setTask t { task with discarded := rest }).reclaim id
  | [] =>
      match next with
      | .missed lookup => s.setTask t { task with phase := lookup.afterMiss }
      | .acquire => s.setTask t { task with phase := .acquire }
      | .inserted id =>
          s.setTask t { task with candidate := none, phase := .returning id .established }
      | .closing existing compatibility =>
          s.setTask t { task with phase := .closing existing compatibility }

def claim : Manager Config :=
  match s.connecting task.call.name with
  | some signal => s.setTask t { task with phase := .wait signal }
  | none =>
      { s with
        signals := s.signals ++ [false]
        connecting := Function.update s.connecting task.call.name (some s.signals.length)
        tasks := s.tasks.set t
          { task with leading := some s.signals.length, phase := .lookup .leader } }

def wait (signal : Nat) : Option (Manager Config) :=
  if s.signals[signal]? = some true then
    some (s.setTask t { task with
      phase := .lookup (if task.call.isJump then .optimistic else .follower) })
  else none

/-- The idle connections leave the pool, for a call that connects or for one that does only this. -/
def prune : Manager Config :=
  (s.unlink s.expired).setTask t { task with
    discarded := s.unlinked s.expired
    phase := match task.call with
      | .connect _ _ _ _ => .dropping .acquire
      | _ => .unwind .completed }

def acquire : Manager Config :=
  if 0 < s.available then
    { s with
      available := s.available - 1
      tasks := s.tasks.set t { task with permit := true, phase := .connecting } }
  else
    s.setTask t { task with phase := .unwind (.failed
      ⟨[⟨s!"connection manager capacity reached (max {s.maxConnections})", none⟩]⟩) }

/-- The attempt has succeeded. -/
def established (config : Config) (authentication : Authentication) : Manager Config :=
  let id := s.managed.length
  { s with
    managed := s.managed ++ [{
      config := config
      authentication := authentication.reuseKey
      lastUsed := s.now
      activeLeases := 0
      alive := true
      clients := 0
      leases := 0
      releasing := 0
      attempt := t }]
    tasks := s.tasks.set t { task with
      permit := false
      held := id :: task.held
      candidate := some id
      phase := .insert id } }

def closing (existing : Nat) : Result Unit → Manager Config
  | .ok () => (s.touch existing).setTask t
      { task with candidate := none, phase := .returning existing .winner }
  | .error e => s.setTask t { task with candidate := none, phase := .unwind (.failed e) }

/-- The call is about to answer: a lead ends here, except in `connect_with_jump_auth`, where the
client is taken before it ends. -/
def returning (id : Nat) (source : Source) : Manager Config :=
  if task.call.isJump then
    (s.modify id fun c ↦ { c with clients := c.clients + 1 }).setTask t
      { task with phase := .unwind (.transport id source) }
  else
    match task.leading with
    | some signal => (s.resign task.call.name signal).setTask t
        { task with leading := none, phase := .handoff id source }
    | none => s.setTask t { task with phase := .handoff id source }

def handoff (id : Nat) (source : Source) : Manager Config :=
  if task.call.wantsLease then
    (s.modify id fun c ↦ { c with
      leases := c.leases + 1
      activeLeases := c.activeLeases + 1
      lastUsed := s.now }).setTask t
      { task with held := task.held.erase id, phase := .unwind (.transport id source) }
  else
    (s.modify id fun c ↦ { c with clients := c.clients + 1 }).setTask t
      { task with phase := .unwind (.transport id source) }

def remove : Manager Config :=
  let p := fun entry : String × Nat ↦ entry.1 = task.call.name
  match s.find task.call.name with
  | none => s.setTask t { task with phase := .unwind .absent }
  | some _ => (s.unlink p).setTask t { task with held := s.unlinked p, phase := .close }

def closeAll : Manager Config :=
  (s.unlink fun _ ↦ true).setTask t
    { task with held := s.unlinked fun _ ↦ true, phase := .close }

/-- One more of the things that the call owns is dropped. -/
def unwind (outcome : Outcome) : Manager Config :=
  if task.permit then
    { s with
      available := s.available + 1
      tasks := s.tasks.set t { task with permit := false } }
  else
    match task.discarded, task.held, task.candidate, task.leading with
    | id :: rest, _, _, _ => (s.setTask t { task with discarded := rest }).reclaim id
    | [], id :: rest, _, _ => (s.setTask t { task with held := rest }).reclaim id
    | [], [], some _, _ => s.setTask t { task with candidate := none }
    | [], [], none, some signal =>
        (s.resign task.call.name signal).setTask t { task with leading := none }
    | [], [], none, none => s.setTask t { task with phase := .finished outcome }

variable [DecidableEq Config]

/-- A look-up of the name finds a connection. -/
def meet (place : Lookup) (id : Nat) (existing : ManagedConnection Config) : Manager Config :=
  let met := if place = .follower then task.met else id :: task.met
  let task := { task with met }
  if !existing.alive then
    s.setTask t { task with held := id :: task.held, phase := .evict place id }
  else
    match task.call.accepts place existing with
    | .error e => s.setTask t { task with phase := .unwind (.failed e) }
    | .ok () =>
        (s.touch id).setTask t
          { task with held := id :: task.held, phase := .returning id (.found place) }

def lookup (place : Lookup) : Option (Manager Config) :=
  match s.find task.call.name with
  | none => some (s.setTask t { task with phase := place.afterMiss })
  | some id => s.managed[id]?.map (s.meet t task place id)

/-- The new connection is put into the pool, unless one that may be used is there. -/
def insert (id : Nat) : Option (Manager Config) :=
  match s.find task.call.name with
  | none =>
      some ((s.link task.call.name id).setTask t { task with phase := .dropping (.inserted id) })
  | some current =>
      match s.managed[current]?, s.managed[id]? with
      | some existing, some own =>
          if task.call.isJump || existing.alive then
            some (s.setTask t { task with
              held := current :: task.held.erase id
              discarded := [id]
              phase := .dropping (.closing current (ensureReusable task.call.name existing.config
                own.config existing.authentication own.authentication)) })
          else
            some ((s.link task.call.name id).setTask t { task with
              discarded := s.unlinked (·.1 = task.call.name)
              phase := .dropping (.inserted id) })
      | _, _ => none

/-- The next step of a call; none while it waits. -/
def advance : Option (Manager Config) :=
  match task.phase with
  | .lookup place => s.lookup t task place
  | .evict lookup observed => some (s.evict t task lookup observed)
  | .dropping next => some (s.dropping t task next)
  | .claim => some (s.claim t task)
  | .wait signal => s.wait t task signal
  | .prune => some (s.prune t task)
  | .acquire => some (s.acquire t task)
  | .insert id => s.insert t task id
  | .closing existing compatibility => some (s.closing t task existing compatibility)
  | .returning id source => some (s.returning t task id source)
  | .handoff id source => some (s.handoff t task id source)
  | .remove => some (s.remove t task)
  | .closeAll => some (s.closeAll t task)
  | .close => some (s.setTask t { task with phase := .unwind .completed })
  | .unwind outcome => some (s.unwind t task outcome)
  | .connecting | .finished _ => none

end

end Manager

/-! ## The system -/

inductive ManagerEvent (Config : Type) where
  | spawn (call : Call Config)
  | advance (t : Nat)
  /-- The attempt to connect has ended. -/
  | connected (t : Nat) (result : Result Unit)
  | cancel (t : Nat)
  /-- A client is closed, by either side. -/
  | die (id : Nat)
  | cloneClient (id : Nat)
  | dropClient (id : Nat)
  | cloneLease (id : Nat)
  /-- A lease is counted no longer; then it is dropped. -/
  | releaseLease (id : Nat)
  | dropLease (id : Nat)
  | elapse (duration : Nat)
deriving DecidableEq

namespace Manager

variable [DecidableEq Config]

/-- One event. What callers do with clients and leases needs that they have one. -/
def step (s : Manager Config) : ManagerEvent Config → Option (Manager Config)
  | .spawn call => some { s with tasks := s.tasks ++ [.new call] }
  | .advance t => do s.advance t (← s.tasks[t]?)
  | .connected t result => do
      let task ← s.tasks[t]?
      match task.phase, task.call, result with
      | .connecting, .connect _ config authentication _, .ok () =>
          return s.established t task config authentication
      | .connecting, .connect _ _ _ _, .error e =>
          return s.setTask t { task with phase := .unwind (.failed e) }
      | _, _, _ => none
  | .cancel t => do
      let task ← s.tasks[t]?
      if task.phase.awaits then return s.setTask t { task with phase := .unwind .cancelled }
      else none
  | .die id => some (s.modify id fun c ↦ { c with alive := false })
  | .cloneClient id => do
      let c ← s.managed[id]?
      if 0 < c.clients + c.leases then return s.modify id ({ · with clients := c.clients + 1 })
      else none
  | .dropClient id => do
      let c ← s.managed[id]?
      if 0 < c.clients then return s.modify id ({ · with clients := c.clients - 1 }) else none
  | .cloneLease id => do
      let c ← s.managed[id]?
      if 0 < c.leases then
        return s.modify id ({ · with
          leases := c.leases + 1, activeLeases := c.activeLeases + 1, lastUsed := s.now })
      else none
  | .releaseLease id => do
      let c ← s.managed[id]?
      if 0 < c.leases then
        return s.modify id ({ · with
          leases := c.leases - 1, releasing := c.releasing + 1
          activeLeases := c.activeLeases - 1, lastUsed := s.now })
      else none
  | .dropLease id => do
      let c ← s.managed[id]?
      if 0 < c.releasing then
        return (s.modify id ({ · with releasing := c.releasing - 1 })).reclaim id
      else none
  | .elapse duration => some { s with now := s.now + duration }

end Manager

end KaduoxSsh.Core
