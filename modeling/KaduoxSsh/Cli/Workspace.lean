import KaduoxSsh.Desktop.Sessions
import KaduoxSsh.Lib.Run
import KaduoxSsh.OpenSsh.Target

/-!
# The sessions of the terminal program

`tui_workspace.rs` and `tui_group_open.rs`: sessions are opened, one at a time or all those
of a group of the inventory, and closed. One thing is done at a time. The connection
manager is a component: it is called, and the call is waited for. Meanwhile transports may
die, and what runs in a session may take the client of the session or give it back.

What is only shown of a session is left out but for the key of its server, and so is the
end of the program.
-/

namespace KaduoxSsh.Cli

open KaduoxSsh.Core OpenSsh

/-! ## Targets -/

structure TuiCli where
  port : Option UInt16
  user : Option String
  identity : Option PathBuf
  askKeyPassphrase : Bool
  password : Bool
  keyboardInteractive : Bool
  hostKey : Option HostKeyPolicy
  jump : Option String
  proxyCommand : Option String

section

variable (config : ConnectionConfig)

/-- The jump hosts of the command line take the place of the configured route. -/
def withJump (home : HomeConfig) : Option String → Result ConnectionConfig
  | some jump => do
      let jumpHosts ← resolveJumpHostsInternal home jump true
      return { config with jumpHosts, proxyCommand := none }
  | none => .ok config

def withProxyCommand : Option String → ConnectionConfig
  | some proxyCommand => { config with proxyCommand := some proxyCommand, jumpHosts := [] }
  | none => config

/-- The host key policy of the command line is that of the jump hosts too. -/
def withHostKeyPolicy : Option HostKeyPolicy → ConnectionConfig
  | some policy =>
      { config with
        hostKeyPolicy := policy
        jumpHosts := config.jumpHosts.map fun jump ↦ { jump with hostKeyPolicy := policy } }
  | none => config

end

/-- The name for the connection manager, and the configuration. -/
def buildConnectionConfig (home : HomeConfig) (cli : TuiCli) (host : String) :
    Result (String × ConnectionConfig) := do
  let target ← ConnectionTarget.parse host
  let targetUser := cli.user.or target.username
  let config ← ConnectionConfig.fromOpenssh home target.host targetUser cli.port
  let config := { config with
    port := cli.port.getD config.port
    username := cli.user.getD config.username }
  let config ← withJump config home cli.jump
  return (host, withHostKeyPolicy (withProxyCommand config cli.proxyCommand) cli.hostKey)

/-- With what is typed when it is asked for. -/
def resolveAuthentication (cli : TuiCli) (config : ConnectionConfig) (typed : Result String) :
    Result Authentication :=
  if cli.password then typed.map .password
  else if cli.keyboardInteractive then typed.map .keyboardInteractive
  else
    match cli.identity with
    | some path =>
        if cli.askKeyPassphrase then typed.map fun passphrase ↦ .privateKey path (some passphrase)
        else .ok (.privateKey path none)
    | none => .ok (.auto config.identityFiles none)

/-! ## Sessions -/

structure PreparedSession where
  managerName : String
  label : String
  config : ConnectionConfig

structure WorkspaceSession where
  managerName : String
  label : String
  /-- The connection that is leased. -/
  lease : Nat
  hostKey : String
deriving DecidableEq

def PreparedSession.session (prepared : PreparedSession) (lease : Nat) (hostKey : String) :
    WorkspaceSession :=
  ⟨prepared.managerName, prepared.label, lease, hostKey⟩

/-- The targets of a group that are not yet open. -/
def prepareTargets (home : HomeConfig) (cli : TuiCli) (group : String) (alreadyOpen : List String) :
    List String → Result (List PreparedSession)
  | [] => .ok []
  | label :: targets =>
      if label ∈ alreadyOpen then prepareTargets home cli group alreadyOpen targets
      else
        match buildConnectionConfig home cli label with
        | .error error =>
            Result.bail (s!"inventory group {group} target {label} failed connection preflight: " ++
              error.alternate)
        | .ok (managerName, config) => do
            let prepared ← prepareTargets home cli group alreadyOpen targets
            return ⟨managerName, label, config⟩ :: prepared

/-- `open_group` until the first target is connected. -/
def prepareGroup (home : HomeConfig) (cli : TuiCli) (group : String) (alreadyOpen : List String)
    (availableCapacity : Nat) (targets : List String) : Result (List PreparedSession) := do
  let prepared ← prepareTargets home cli group alreadyOpen targets
  Result.bailIf (prepared.length > availableCapacity)
    (s!"inventory group {group} needs {prepared.length} new sessions but the manager has only " ++
      s!"{availableCapacity} connection slots available")
  return prepared

/-- What `open_group` returns when a target could not be opened. -/
def groupFailure (group label : String) (error : AnyError) (rollbackErrors : List String) :
    Result (List WorkspaceSession) :=
  if rollbackErrors = [] then
    Result.bail (s!"inventory group {group} failed while opening {label}: {error.alternate}; all " ++
      "sessions opened by this group action were rolled back")
  else
    Result.bail (s!"inventory group {group} failed while opening {label}: {error.alternate}; " ++
      "rollback also reported: " ++ "; ".intercalate rollbackErrors)

/-! ## The program -/

/-- What the program is at, with the call to the manager that it waits for. -/
inductive Doing where
  | idle
  | openSession (prepared : PreparedSession) (call : Nat)
  | closeSession (call : Nat)
  /-- The first of the targets that remain is next, or is being connected. -/
  | openGroup (group : String) (remaining : List PreparedSession) (opened : List WorkspaceSession)
      (call : Option Nat)
  /-- The first of the names is next to be removed, or is being removed. -/
  | rollback (group label : String) (error : AnyError) (names errors : List String)
      (call : Option Nat)

namespace Doing

def isIdle : Doing → Bool
  | idle => true
  | _ => false

def awaits : Doing → Option Nat
  | idle => none
  | openSession _ call | closeSession call => some call
  | openGroup _ _ _ call | rollback _ _ _ _ _ call => call

end Doing

structure Workspace where
  manager : Manager ConnectionConfig
  sessions : List WorkspaceSession
  doing : Doing
  /-- What `open_group` has returned last. -/
  groupResult : Option (Result (List WorkspaceSession))

inductive WorkspaceEvent where
  | openSession (host : String) (typed : Result String)
  | openGroup (group : String) (targets : List String)
  | closeSession (selected : Nat)
  /-- The next target of a group, or the next connection that is removed. -/
  | proceed (typed : Result String)
  | manager (event : ManagerEvent ConnectionConfig)
  /-- A call to the manager has ended. The key of the server is asked for if there is a session, and
  a connection that has been removed is closed. -/
  | answered (hostKey : String) (closed : Result Unit)

/-- The leases of sessions end, one after the other. -/
def dropLeases (manager : Manager ConnectionConfig) (sessions : List WorkspaceSession) :
    Option (Manager ConnectionConfig) :=
  sessions.foldlM (fun manager session ↦ do
    (← manager.step (.releaseLease session.lease)).step (.dropLease session.lease)) manager

namespace Workspace

/-- With a `ConnectionManager::default()`. -/
def new : Workspace := ⟨.new ConnectionConfig 64 (15 * 60), [], .idle, none⟩

section

variable (s : Workspace)

def call (call : Call ConnectionConfig) (doing : Nat → Doing) : Workspace :=
  { s with
    manager := { s.manager with tasks := s.manager.tasks ++ [.new call] }
    doing := doing s.manager.tasks.length }

def connectLease (prepared : PreparedSession) (authentication : Authentication)
    (doing : Nat → Doing) : Workspace :=
  s.call (.connect prepared.managerName prepared.config authentication .connectLease) doing

/-- A target of a group could not be opened. -/
def rollbackOpened (group label : String) (opened : List WorkspaceSession) (error : AnyError) :
    Option Workspace := do
  let manager ← dropLeases s.manager opened
  let names := opened.map WorkspaceSession.managerName
  return { s with manager, doing := .rollback group label error names.reverse [] none }

def closeSession (selected : Nat) : Option Workspace := do
  let session ← s.sessions[selected]?
  let manager ← dropLeases s.manager [session]
  return { s with manager, sessions := s.sessions.eraseIdx selected }.call
    (.remove session.managerName) .closeSession

/-- The manager goes on with the call that is waited for. Connections die, time passes, and clients
are taken and given back. -/
def admits : ManagerEvent ConnectionConfig → Bool
  | .advance call | .connected call _ => s.doing.awaits = some call
  | .die _ | .cloneClient _ | .dropClient _ | .elapse _ => true
  | .spawn _ | .cancel _ | .cloneLease _ | .releaseLease _ | .dropLease _ => false

/-- The call that was waited for has given an outcome. -/
def answered (hostKey : String) (closed : Result Unit) (outcome : Outcome) : Option Workspace :=
  match s.doing, outcome with
  | .openSession prepared _, .transport lease _ =>
      some { s with
        sessions := s.sessions ++ [prepared.session lease hostKey]
        doing := .idle }
  | .openSession _ _, .failed _ => some { s with doing := .idle }
  | .closeSession _, .absent | .closeSession _, .completed => some { s with doing := .idle }
  | .openGroup group (prepared :: remaining) opened _, .transport lease _ =>
      some { s with
        doing := .openGroup group remaining (opened ++ [prepared.session lease hostKey]) none }
  | .openGroup group (prepared :: _) opened _, .failed error =>
      s.rollbackOpened group prepared.label opened error
  | .rollback group label error (_ :: names) errors _, .absent =>
      some { s with doing := .rollback group label error names errors none }
  | .rollback group label error (name :: names) errors _, .completed =>
      let errors := match closed with
        | .ok () => errors
        | .error closeError => errors ++ [s!"{name}: {closeError.alternate}"]
      some { s with doing := .rollback group label error names errors none }
  | _, _ => none

variable (home : HomeConfig) (cli : TuiCli)

/-- A host that is open already is only selected. -/
def openSession (host : String) (typed : Result String) : Workspace :=
  if s.sessions.any (·.label = host) then s
  else
    let request : Result (PreparedSession × Authentication) := do
      let (managerName, config) ← buildConnectionConfig home cli host
      return (⟨managerName, host, config⟩, ← resolveAuthentication cli config typed)
    match request with
    | .ok (prepared, authentication) =>
        s.connectLease prepared authentication (.openSession prepared)
    | .error _ => s

def openGroup (group : String) (targets : List String) : Workspace :=
  let alreadyOpen := s.sessions.map WorkspaceSession.label
  match prepareGroup home cli group alreadyOpen s.manager.available targets with
  | .ok prepared => { s with doing := .openGroup group prepared [] none, groupResult := none }
  | .error error => { s with groupResult := some (.error error) }

def proceed (typed : Result String) : Option Workspace :=
  match s.doing with
  | .openGroup _ [] opened none =>
      some { s with
        sessions := s.sessions ++ opened
        doing := .idle
        groupResult := some (.ok opened) }
  | .openGroup group (prepared :: remaining) opened none =>
      match resolveAuthentication cli prepared.config typed with
      | .ok authentication =>
          some (s.connectLease prepared authentication fun call ↦
            .openGroup group (prepared :: remaining) opened (some call))
      | .error error => s.rollbackOpened group prepared.label opened error
  | .rollback group label error [] errors none =>
      some { s with doing := .idle, groupResult := some (groupFailure group label error errors) }
  | .rollback group label error (name :: names) errors none =>
      some (s.call (.remove name) fun call ↦
        .rollback group label error (name :: names) errors (some call))
  | _ => none

def step : WorkspaceEvent → Option Workspace
  | .openSession host typed =>
      if s.doing.isIdle then some (s.openSession home cli host typed) else none
  | .openGroup group targets =>
      if s.doing.isIdle then some (s.openGroup home cli group targets) else none
  | .closeSession selected => if s.doing.isIdle then s.closeSession selected else none
  | .proceed typed => s.proceed cli typed
  | .manager event =>
      if s.admits event then (s.manager.step event).map fun manager ↦ { s with manager } else none
  | .answered hostKey closed => do
      let outcome ← s.manager.answer (← s.doing.awaits)
      s.answered hostKey closed outcome

end

end Workspace

end KaduoxSsh.Cli
