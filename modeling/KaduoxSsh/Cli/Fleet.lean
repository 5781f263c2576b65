import KaduoxSsh.Core.Config
import KaduoxSsh.Core.Credentials
import KaduoxSsh.Lib.Run
import KaduoxSsh.OpenSsh.Inventory

/-!
# One command on many hosts

`fleet_main.rs` and `fleet_targets.rs`. The targets are selected and prepared before
anything is run. A number of tasks is started, and whenever one is over it is reported
and the next target is taken in its place. Tasks go on in any order, and what they get
from their hosts comes in any pieces.

What is not read here of a target's configuration, the command and the secrets is left
out, and so is the mode that prints a plan. `started` and `received` are not kept by the
program: they say which targets have been started, and what has come over each stream.
-/

namespace KaduoxSsh.Cli

open KaduoxSsh.Core OpenSsh Result

def MAX_JOBS : Nat := 64
def MAX_OUTPUT_LIMIT : Nat := 16 * 1024 * 1024
def MAX_OUTPUT_WINDOW : Nat := 512 * 1024 * 1024
def MAX_TARGETS : Nat := 1024

/-! ## Targets -/

/-- What is in the list is in the set beside it too. -/
def pushUnique (targets : List String) (target : String) : List String :=
  if target ∈ targets then targets else targets ++ [target]

structure FleetCli where
  hosts : List String
  groups : List String
  inventory : Option PathBuf
  jobs : Nat
  outputLimit : Nat

/-- What the program is given: the inventories, the configurations, and whether the command and the
secrets are fit for a run. -/
structure FleetWorld where
  loadSelectedInventory : Option PathBuf → Result HostInventory
  buildCommandSpec : Result Unit
  buildConnectionConfig : String → Result ConnectionConfig
  resolveAuthTemplate : Result Unit

structure PreparedTarget where
  ordinal : Nat
  label : String
  config : ConnectionConfig
deriving DecidableEq

structure FleetPlan where
  jobs : Nat
  outputLimit : Nat
  targets : List PreparedTarget

def validateLimits (cli : FleetCli) (targetCount : Nat) : Result Unit := do
  bailIf (targetCount = 0) "fleet requires at least one --host or --group target"
  bailIf (targetCount > MAX_TARGETS) s!"fleet target count cannot exceed {MAX_TARGETS}"
  bailIf (cli.jobs = 0 ∨ cli.jobs > MAX_JOBS) s!"--jobs must be between 1 and {MAX_JOBS}"
  bailIf (cli.outputLimit = 0 ∨ cli.outputLimit > MAX_OUTPUT_LIMIT)
    s!"--output-limit must be between 1 and {MAX_OUTPUT_LIMIT} bytes"
  bailIf (cli.jobs * cli.outputLimit * 2 ≥ 2 ^ 64) "fleet output window overflow"
  bailIf (cli.jobs * cli.outputLimit * 2 > MAX_OUTPUT_WINDOW)
    s!"jobs × output-limit × 2 must stay at or below {MAX_OUTPUT_WINDOW} bytes"

namespace FleetWorld

variable (world : FleetWorld)

def resolveTargetLabels (directHosts groups : List String) (inventoryPath : Option PathBuf) :
    Result (List String) := do
  let targets := directHosts.foldl pushUnique []
  if inventoryPath.isSome ∨ groups ≠ [] then
    let inventory ← world.loadSelectedInventory inventoryPath
    groups.foldlM (fun targets group ↦ do
      let expanded ← (inventory.expandGroup group).context
        s!"failed to expand fleet inventory group {group}"
      return expanded.foldl pushUnique targets) targets
  else return targets

/-- The targets from an ordinal on. -/
def prepareTargets (ordinal : Nat) : List String → Result (List PreparedTarget)
  | [] => .ok []
  | label :: labels => do
      let config ← (world.buildConnectionConfig label).context
        s!"failed to resolve fleet target {label}"
      let targets ← prepareTargets (ordinal + 1) labels
      return ⟨ordinal, label, config⟩ :: targets

/-- `main` until the first target is started. -/
def prepare (cli : FleetCli) : Result FleetPlan := do
  let labels ← world.resolveTargetLabels cli.hosts cli.groups cli.inventory
  validateLimits cli labels.length
  world.buildCommandSpec
  let targets ← world.prepareTargets 0 labels
  world.resolveAuthTemplate
  return ⟨cli.jobs, cli.outputLimit, targets⟩

end FleetWorld

/-! ## Output -/

structure CappedBuffer where
  bytes : List UInt8
  limit : Nat
  truncated : Bool
deriving DecidableEq

namespace CappedBuffer

def new (limit : Nat) : CappedBuffer := ⟨[], limit, false⟩

/-- `poll_write`, which always takes all of a piece. -/
def pollWrite (buffer : CappedBuffer) (buf : List UInt8) : CappedBuffer :=
  let remaining := buffer.limit - buffer.bytes.length
  let retain := min remaining buf.length
  { buffer with
    bytes := buffer.bytes ++ buf.take retain
    truncated := if retain < buf.length then true else buffer.truncated }

end CappedBuffer

/-! ## Tasks -/

inductive Stream where
  | stdout
  | stderr
deriving DecidableEq

structure FleetResult where
  ordinal : Nat
  label : String
  endpoint : String
  hostKey : Option String
  exitStatus : Option Nat
  stdout : CappedBuffer
  stderr : CappedBuffer
  error : Option String
deriving DecidableEq

def FleetResult.succeeded (result : FleetResult) : Bool :=
  result.error.isNone && result.exitStatus == some 0

/-- How far a task has come. Errors are told by their texts. -/
inductive TaskPhase where
  | connecting
  | executing
  | closing (executed : Except String (Option Nat))
  | finished (exitStatus : Option Nat) (error : Option String)
  | crashed (error : String)

structure FleetTask where
  target : PreparedTarget
  hostKey : Option String
  stdout : CappedBuffer
  stderr : CappedBuffer
  phase : TaskPhase

/-- What a task may come to next. -/
inductive TaskEvent where
  | connected (hostKey : Option String)
  | connectFailed (error : String)
  | output (stream : Stream) (chunk : List UInt8)
  | executed (result : Except String (Option Nat))
  | closed (result : Except String Unit)
  | crashed (error : String)

/-- The exit status and the error of a command that was run and then closed. -/
def execOutcome : Except String (Option Nat) → Except String Unit → Option Nat × Option String
  | .ok status, .ok () => (status, none)
  | .ok status, .error error =>
      (status, some s!"command completed but SSH disconnect failed: {error}")
  | .error error, .ok () => (none, some s!"remote command failed: {error}")
  | .error execError, .error closeError =>
      (none, some
        s!"remote command failed: {execError}; SSH disconnect also failed: {closeError}")

namespace FleetTask

def spawn (outputLimit : Nat) (target : PreparedTarget) : FleetTask :=
  ⟨target, none, .new outputLimit, .new outputLimit, .connecting⟩

variable (task : FleetTask)

/-- A piece of output is written. -/
def write (chunk : List UInt8) : Stream → FleetTask
  | .stdout => { task with stdout := task.stdout.pollWrite chunk }
  | .stderr => { task with stderr := task.stderr.pollWrite chunk }

/-- A task that is over does nothing more. -/
def isOver : Bool :=
  match task.phase with
  | .finished _ _ | .crashed _ => true
  | .connecting | .executing | .closing _ => false

/-- `run_target`, one step after the other. -/
def step (event : TaskEvent) : Option FleetTask :=
  match task.phase, event with
  | .connecting, .connected hostKey => some { task with hostKey := hostKey, phase := .executing }
  | .connecting, .connectFailed error =>
      some { task with
        phase := .finished none (some s!"connect/authentication failed: {error}") }
  | .executing, .output stream chunk => some (task.write chunk stream)
  | .executing, .executed result => some { task with phase := .closing result }
  | .closing executed, .closed result =>
      some { task with
        phase := .finished (execOutcome executed result).1 (execOutcome executed result).2 }
  | .connecting, .crashed error | .executing, .crashed error | .closing _, .crashed error =>
      some { task with phase := .crashed error }
  | _, _ => none

/-- What a task gives that has finished. -/
def result (exitStatus : Option Nat) (error : Option String) : FleetResult :=
  ⟨task.target.ordinal, task.target.label,
    endpoint task.target.config.host task.target.config.port, task.hostKey, exitStatus,
    task.stdout, task.stderr, error⟩

end FleetTask

/-! ## The run -/

/-- What is printed for a task that is over: its result, or how its worker failed. The latter does
not tell the target. -/
structure FleetReport where
  completed : Nat
  total : Nat
  body : Except String FleetResult
  target : PreparedTarget

def FleetReport.isFailure (report : FleetReport) : Bool :=
  match report.body with
  | .ok result => !result.succeeded
  | .error _ => true

structure FleetState where
  pending : List PreparedTarget
  tasks : List FleetTask
  completed : Nat
  failed : Nat
  reports : List FleetReport
  outcome : Option (Result Unit)
  started : List PreparedTarget
  received : Nat → Stream → List UInt8

inductive FleetEvent where
  | task (index : Nat) (event : TaskEvent)
  /-- The report of a task that is over is printed, or cannot be. -/
  | joined (index : Nat) (printed : Result Unit)
  | ended

/-- What has come over the streams when a task has taken a step. -/
def receive (received : Nat → Stream → List UInt8) (ordinal : Nat) :
    TaskEvent → Nat → Stream → List UInt8
  | .output stream chunk => Function.update received ordinal
      (Function.update (received ordinal) stream (received ordinal stream ++ chunk))
  | _ => received

namespace FleetPlan

variable (plan : FleetPlan)

/-- The next target is taken, if there is one. -/
def refill (state : FleetState) : FleetState :=
  match state.pending with
  | [] => state
  | target :: pending =>
      { state with
        pending := pending
        tasks := state.tasks ++ [.spawn plan.outputLimit target]
        started := state.started ++ [target] }

def total : Nat := plan.targets.length

/-- The first tasks are started. -/
def start : FleetState :=
  plan.refill^[min plan.jobs plan.total]
    ⟨plan.targets, [], 0, 0, [], none, [], fun _ _ ↦ []⟩

/-- A task that is over is taken out and reported. -/
def join (state : FleetState) (index : Nat) (task : FleetTask) (printed : Result Unit)
    (body : Except String FleetResult) : FleetState :=
  let report : FleetReport := ⟨state.completed + 1, plan.total, body, task.target⟩
  let state := { state with
    tasks := state.tasks.eraseIdx index
    completed := state.completed + 1
    failed := if report.isFailure then state.failed + 1 else state.failed }
  match printed with
  | .ok () => plan.refill { state with reports := state.reports ++ [report] }
  | .error error => { state with tasks := [], outcome := some (.error error) }

def step (state : FleetState) (event : FleetEvent) : Option FleetState :=
  if state.outcome.isSome then none
  else
    match event with
    | .task index event => do
        let task ← state.tasks[index]?
        let next ← task.step event
        return { state with
          tasks := state.tasks.set index next
          received := receive state.received task.target.ordinal event }
    | .joined index printed => do
        let task ← state.tasks[index]?
        match task.phase with
        | .finished exitStatus error =>
            return plan.join state index task printed (.ok (task.result exitStatus error))
        | .crashed error => return plan.join state index task printed (.error error)
        | .connecting | .executing | .closing _ => none
    | .ended =>
        if state.tasks = [] then
          some { state with outcome := some (bailIf (state.failed ≠ 0)
            s!"fleet command failed on {state.failed} of {plan.total} targets") }
        else none

end FleetPlan

end KaduoxSsh.Cli
