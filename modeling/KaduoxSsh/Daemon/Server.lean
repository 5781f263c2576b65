import KaduoxSsh.Daemon.Framing
import KaduoxSsh.Lib.Dialogue

/-!
# The server's side of a connection

`server.rs` from the first frame of a client to the end of its connection. The
steps that reach beyond the daemon (the host store, the resolution of an alias,
the connection pool, the SSH session, the tasks that carry output) enter with
their outcomes, in the record `Outcomes`. The handlers decide, from a request and
these outcomes, which frames are sent and how the handler ends. They are
computations that send frames; the client's end of the stream, which may stop to
take bytes at any point, comes in with `Conversation`.
-/

namespace KaduoxSsh.Daemon

open Text

/-- A computation of the server: it sends frames and may fail. -/
abbrev Serving := ExceptT AnyError (Dialogue ServerFrame (Result Unit))

namespace Serving

variable {α : Type}

def ofResult (x : Result α) : Serving α := ExceptT.mk (pure x)

def bail (text : String) : Serving α := ofResult (Result.bail text)

end Serving

def sendFrame (frame : ServerFrame) : Serving Unit := ExceptT.mk (Dialogue.tell frame)

/-! ## Outcomes of the steps beyond the daemon -/

/-- A piece of output, as it is read off a pipe: something, and no more than the buffer holds. -/
abbrev OutputChunk :=
  { bytes : List UInt8 // bytes ≠ [] ∧ bytes.length ≤ OUTPUT_CHUNK_BYTES }

/-- What is asked of the client when a jump host wants credentials. -/
structure JumpAuthRequest where
  index : UInt64
  total : UInt64
  attempt : UInt64
  hostAlias : String
  host : String
  port : UInt16
  previousFailed : Bool

/-- One authentication of a jump host, and what the client is read to reply to a challenge. -/
structure JumpRound where
  request : JumpAuthRequest
  reply : Result (Option ClientFrame)

/-- What happens during a shell before its task ends. -/
inductive ShellStep where
  /-- The output task takes a piece of output off its pipe. -/
  | output (chunk : OutputChunk)
  /-- A frame of the client is read; `piped` is the outcome of passing input on to the shell. -/
  | received (frame : Result (Option ClientFrame)) (piped : Result Unit)

/-- The outcomes of all the steps, whichever of them a request comes to. -/
structure Outcomes where
  /-- The counters of the pool. -/
  totalConnections : UInt64
  inUseConnections : UInt64
  activeLeases : UInt64
  maxConnections : UInt64
  availableCapacity : UInt64
  /-- Taking a connection out of the pool and closing it. -/
  removed : Result Bool
  storeOpened : Result Unit
  resolved : Result Unit
  /-- The pooled connection: none, or whether it has the configuration that was resolved. -/
  pooled : Option Bool
  /-- The update of the host's statistics, for a host that is stored. -/
  recorded : Option (Result Unit)
  jumps : List JumpRound
  /-- The connection, once every jump host has its credentials. -/
  connected : Result Unit
  /-- The pieces of output of a command, those of its error stream marked, as they are taken. -/
  printed : List (Bool × OutputChunk)
  stdoutJoined : Result Unit
  stderrJoined : Result Unit
  executed : Result (Option UInt32)
  steps : List ShellStep
  /-- The task of the shell: its end as a task, and the outcome of the shell. -/
  shellJoined : Result (Result (Option UInt32))
  /-- What the output task still finds in its pipe after the last of the steps. -/
  remaining : List OutputChunk
  outputJoined : Result Unit

/-! ## The handlers -/

def JumpAuthRequest.challenge (request : JumpAuthRequest) : ServerFrame :=
  .jumpAuthChallenge request.index request.total request.attempt request.hostAlias request.host
    request.port request.previousFailed

/-- The credentials for a jump host. The first attempt uses the default ones; for a later one the
client is asked. -/
def authentication (round : JumpRound) : Serving (Option AuthRequest) := do
  if round.request.attempt = 1 then return some .auto
  else do
    sendFrame round.request.challenge
    match ← Serving.ofResult round.reply with
    | none => return none
    | some (.jumpAuthResponse auth) => return auth
    | some _ => Serving.bail "expected JumpAuthResponse while authenticating jump host"

/-- Without credentials the connection is given up. -/
def authenticateJump (round : JumpRound) : Serving Unit := do
  let request := round.request
  let hop := s!"jump {request.index + 1}/{request.total} {request.hostAlias} " ++
    s!"({request.host}:{request.port})"
  match ← authentication round with
  | some _ => return ()
  | none =>
      if request.previousFailed then
        Serving.bail s!"{hop}: authentication failed; credential provider declined retry"
      else
        Serving.bail s!"{hop}: authentication cancelled before attempt {request.attempt}"

def authenticateJumps : List JumpRound → Serving Unit
  | [] => return ()
  | round :: rounds => do
      authenticateJump round
      authenticateJumps rounds

/-- A failure to update the statistics is only reported on the console of the daemon. -/
def recordStoreUse (recorded : Option (Result Unit)) : Result Unit :=
  match recorded with
  | none => .ok ()
  | some (.error _) => .ok ()
  | some (.ok ()) => .ok ()

/-- Whether the connection was there before; none when there is none and no credentials came with
the request. -/
def acquireClient (outcomes : Outcomes) (hostAlias : String) (auth : Option AuthRequest) :
    Serving (Option Bool) := do
  Serving.ofResult outcomes.storeOpened
  Serving.ofResult
    (outcomes.resolved.context s!"failed to resolve daemon target {debug hostAlias}")
  match outcomes.pooled with
  | some false =>
      Serving.bail (s!"cached connection {debug hostAlias} no longer matches the current " ++
        "host/OpenSSH configuration; disconnect it before reconnecting")
  | some true => do
      Serving.ofResult (recordStoreUse outcomes.recorded)
      return some true
  | none =>
      match auth with
      | none => return none
      | some _ => do
          authenticateJumps outcomes.jumps
          Serving.ofResult (outcomes.connected.context
            s!"daemon failed to establish SSH connection {debug hostAlias}")
          Serving.ofResult (recordStoreUse outcomes.recorded)
          return some false

/-- One piece of output goes to the client, unless the task has failed before. The new state of the
task is returned. -/
def forwardOutput (stderr : Bool) (chunk : OutputChunk) (task : Result Unit) :
    Dialogue ServerFrame (Result Unit) (Result Unit) :=
  match task with
  | .error e => return .error e
  | .ok () => Dialogue.tell (if stderr then .stderr chunk.val else .stdout chunk.val)

/-- The two tasks that carry the output of a command, until both pipes are closed. -/
def forwardPrinted : List (Bool × OutputChunk) → Result Unit × Result Unit →
    Dialogue ServerFrame (Result Unit) (Result Unit × Result Unit)
  | [], tasks => return tasks
  | (true, chunk) :: printed, (stdoutTask, stderrTask) => do
      let stderrTask ← forwardOutput true chunk stderrTask
      forwardPrinted printed (stdoutTask, stderrTask)
  | (false, chunk) :: printed, (stdoutTask, stderrTask) => do
      let stdoutTask ← forwardOutput false chunk stdoutTask
      forwardPrinted printed (stdoutTask, stderrTask)

/-- The frame that ends a command or a shell. -/
def resultFrame : Result (Option UInt32) → ServerFrame
  | .ok status => .exit status
  | .error error => .error error.alternate

def handleExec (outcomes : Outcomes) (hostAlias : String) (auth : Option AuthRequest) :
    Serving Unit := do
  match ← acquireClient outcomes hostAlias auth with
  | none => sendFrame .authRequired
  | some reused => do
      sendFrame (.cache reused)
      let (stdoutTask, stderrTask) ←
        ExceptT.lift (forwardPrinted outcomes.printed (.ok (), .ok ()))
      Serving.ofResult (outcomes.stdoutJoined.context "daemon stdout bridge task failed")
      Serving.ofResult stdoutTask
      Serving.ofResult (outcomes.stderrJoined.context "daemon stderr bridge task failed")
      Serving.ofResult stderrTask
      sendFrame (resultFrame outcomes.executed)

/-- How the loop of a shell is left: the shell has ended, or the handler returns. -/
inductive ShellExit where
  | finished (result : Result (Option UInt32))
  | returned (result : Result Unit)

/-- The loop of a shell, with the state of the task that carries the output. -/
def shellLoop (shellJoined : Result (Result (Option UInt32))) : List ShellStep → Result Unit →
    Dialogue ServerFrame (Result Unit) (ShellExit × Result Unit)
  | [], task =>
      match shellJoined.context "daemon shell task failed" with
      | .error e => return (.returned (.error e), task)
      | .ok result => return (.finished result, task)
  | .output chunk :: steps, task => do
      let task ← forwardOutput false chunk task
      shellLoop shellJoined steps task
  | .received (.error e) _ :: _, task => return (.returned (.error e), task)
  | .received (.ok none) _ :: _, task => return (.returned (.ok ()), task)
  | .received (.ok (some frame)) piped :: steps, task =>
      match frame with
      | .input _ | .eof =>
          match piped with
          | .error e => return (.returned (.error e), task)
          | .ok () => shellLoop shellJoined steps task
      | .resize _ _ => shellLoop shellJoined steps task
      | .ping | .status | .disconnect _ | .exec .. | .shell .. | .shutdown
      | .jumpAuthResponse _ => do
          let sent ← Dialogue.tell (.error "invalid control frame during daemon shell")
          return (.returned sent, task)

/-- What is left in the pipe of the output task. -/
def forwardRemaining : List OutputChunk → Result Unit →
    Dialogue ServerFrame (Result Unit) (Result Unit)
  | [], task => return task
  | chunk :: remaining, task => do
      let task ← forwardOutput false chunk task
      forwardRemaining remaining task

def handleShell (outcomes : Outcomes) (hostAlias : String) (auth : Option AuthRequest) :
    Serving Unit := do
  match ← acquireClient outcomes hostAlias auth with
  | none => sendFrame .authRequired
  | some reused => do
      sendFrame (.cache reused)
      let (exit, task) ← ExceptT.lift (shellLoop outcomes.shellJoined outcomes.steps (.ok ()))
      -- Also when the handler has returned, the output task goes on with what it finds.
      let task ← ExceptT.lift (forwardRemaining outcomes.remaining task)
      match exit with
      | .returned result => Serving.ofResult result
      | .finished result => do
          Serving.ofResult (outcomes.outputJoined.context "daemon shell output bridge task failed")
          Serving.ofResult task
          sendFrame (resultFrame result)

def handleRequest (outcomes : Outcomes) : ClientFrame → Serving Unit
  | .ping => sendFrame .ok
  | .status =>
      sendFrame (.status outcomes.totalConnections outcomes.inUseConnections outcomes.activeLeases
        outcomes.maxConnections outcomes.availableCapacity)
  | .disconnect hostAlias => do
      if ← Serving.ofResult outcomes.removed then sendFrame .ok
      else sendFrame (.error s!"no cached connection named {debug hostAlias}")
  | .exec hostAlias auth _ _ => handleExec outcomes hostAlias auth
  | .shell hostAlias auth _ _ _ _ => handleShell outcomes hostAlias auth
  | .shutdown => sendFrame .ok
  | .input _ | .resize _ _ | .eof | .jumpAuthResponse _ =>
      sendFrame (.error "stream/control frame received before an operation")

/-- A connection from what its first read gives. -/
def handleConnection (outcomes : Outcomes) (first : Result (Option ClientFrame)) :
    Serving Unit := do
  match ← Serving.ofResult first with
  | none => return ()
  | some frame => handleRequest outcomes frame

end KaduoxSsh.Daemon
