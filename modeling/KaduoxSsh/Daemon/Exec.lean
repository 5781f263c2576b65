import KaduoxSsh.Daemon.Framing

/-!
# Running one command through the daemon

`kssh exec` first asks the daemon and, when it takes the daemon for unavailable,
runs the command over a connection of its own. All that decides the course of an
invocation from outside is in `Invocation`: whether the endpoint can be reached,
which bytes the daemon sends and how its stream ends, where a stream that is
written to begins to fail, and what the user answers.

The daemon may start the command once it has the whole request. So an invocation
runs the command at most once only if it never falls back after that.
-/

namespace KaduoxSsh.Daemon

open Result

structure JumpAuthChallenge where
  index : UInt64
  total : UInt64
  attempt : UInt64
  hostAlias : String
  host : String
  port : UInt16
  previousFailed : Bool
deriving DecidableEq, Repr

/-- Who is asked for the credentials of a jump host. -/
abbrev JumpAuthProvider := JumpAuthChallenge → Result (Option AuthRequest)

/-- The answer to a challenge; without a provider there are no credentials. -/
def jumpAuthentication (jumpAuth : Option JumpAuthProvider) (challenge : JumpAuthChallenge) :
    Result (Option AuthRequest) :=
  match jumpAuth with
  | some provider => provider challenge
  | none => .ok none

/-! ## The exchange with the daemon -/

inductive ExecOutcome where
  | authRequired
  | completed (exitStatus : Option UInt32) (reused : Bool)
deriving DecidableEq, Repr

/-- The streams of an exchange: to and from the daemon, and the two local ones. -/
structure Exchange where
  reader : Reader UInt8
  writer : Writer UInt8
  stdout : Writer UInt8
  stderr : Writer UInt8

/-- A request to run a command. -/
structure ExecRequest where
  hostAlias : String
  auth : Option AuthRequest
  command : String
  asUser : Option String
deriving DecidableEq, Repr

def ExecRequest.frame (request : ExecRequest) : ClientFrame :=
  .exec request.hostAlias request.auth request.command request.asUser

/-- What the loop does after a frame. -/
inductive Next where
  | go (reused : Bool)
  | done (result : Result ExecOutcome)

/-- The outcome of a write to a local stream. -/
def written (outcome : Except IoErrorKind Unit) (reused : Bool) : Next :=
  match outcome with
  | .ok () => .go reused
  | .error kind => .done (io kind kind.description)

/-- The streams are flushed one after the other before the command counts as completed. -/
def completed (exchange : Exchange) (exitStatus : Option UInt32) (reused : Bool) : Next :=
  match exchange.stdout.flush.1 with
  | .error kind => .done (io kind kind.description)
  | .ok () =>
      match exchange.stderr.flush.1 with
      | .error kind => .done (io kind kind.description)
      | .ok () => .done (.ok (.completed exitStatus reused))

/-- Process one frame; no frame is the end of the stream. -/
def execFrame (jumpAuth : Option JumpAuthProvider) (reused : Bool) (exchange : Exchange) :
    Option ServerFrame → Next × Exchange
  | some .authRequired => (.done (.ok .authRequired), exchange)
  | some (.cache value) => (.go value, exchange)
  | some (.jumpAuthChallenge index total attempt hostAlias host port previousFailed) =>
      match jumpAuthentication jumpAuth
          ⟨index, total, attempt, hostAlias, host, port, previousFailed⟩ with
      | .error e => (.done (.error e), exchange)
      | .ok response =>
          match (writeClientFrame (.jumpAuthResponse response)).run exchange.writer with
          | (.ok (), writer) => (.go reused, { exchange with writer })
          | (.error e, writer) => (.done (.error e), { exchange with writer })
  | some (.stdout bytes) =>
      (written (exchange.stdout.writeAll bytes).1 reused,
        { exchange with stdout := (exchange.stdout.writeAll bytes).2 })
  | some (.stderr bytes) =>
      (written (exchange.stderr.writeAll bytes).1 reused,
        { exchange with stderr := (exchange.stderr.writeAll bytes).2 })
  | some (.exit exitStatus) => (completed exchange exitStatus reused, exchange)
  | some (.error error) => (.done (bail s!"daemon exec failed: {error}"), exchange)
  | some .ok => (.go reused, exchange)
  | some (.status ..) =>
      (.done (bail "unexpected daemon status frame during exec"), exchange)
  | none => (.done (bail "daemon closed IPC before exec completed"), exchange)

/-- Read and process frames. There is no result while the daemon stays silent; the fuel bounds the
number of frames. -/
def execLoop (jumpAuth : Option JumpAuthProvider) :
    Nat → Bool → Exchange → Option (Result ExecOutcome) × Exchange
  | 0, _, exchange => (none, exchange)
  | fuel + 1, reused, exchange =>
      match (readServerFrame exchange.reader).run with
      | none => (none, exchange)
      | some (.error e) => (some (.error e), exchange)
      | some (.ok (frame, reader)) =>
          match execFrame jumpAuth reused { exchange with reader } frame with
          | (.go reused, exchange) => execLoop jumpAuth fuel reused exchange
          | (.done result, exchange) => (some result, exchange)

/-- A fresh connection to the daemon: what comes from it, and where writing to it fails. -/
structure Link where
  reader : Reader UInt8
  limit : Option (Nat × IoErrorKind)
  flushFault : Option IoErrorKind

/-- Nothing has gone out to the daemon at the beginning. -/
def Link.writer (link : Link) : Writer UInt8 := ⟨[], link.limit, link.flushFault⟩

/-- Every frame takes bytes off the stream, so that this is fuel enough. -/
def Link.fuel (link : Link) : Nat := link.reader.symbols.length + 1

/-- The request of one attempt, sent over a connection that stands. -/
def execOver (link : Link) (request : ExecRequest) (stdout stderr : Writer UInt8)
    (jumpAuth : Option JumpAuthProvider) : Option (Result ExecOutcome) × Exchange :=
  match (writeClientFrame request.frame).run link.writer with
  | (.error e, writer) => (some (.error e), ⟨link.reader, writer, stdout, stderr⟩)
  | (.ok (), writer) => execLoop jumpAuth link.fuel false ⟨link.reader, writer, stdout, stderr⟩

/-- What an attempt leads to: its result, what it sent, and the local streams after it. -/
structure Attempt where
  result : Option (Result ExecOutcome)
  sent : List UInt8
  stdout : Writer UInt8
  stderr : Writer UInt8

def execWithJumpAuth (connection : Result Link) (request : ExecRequest)
    (stdout stderr : Writer UInt8) (jumpAuth : Option JumpAuthProvider) : Attempt :=
  match connection with
  | .error e => ⟨some (.error e), [], stdout, stderr⟩
  | .ok link =>
      let (result, exchange) := execOver link request stdout stderr jumpAuth
      ⟨result, exchange.writer.written, exchange.stdout, exchange.stderr⟩

def exec (connection : Result Link) (request : ExecRequest) (stdout stderr : Writer UInt8) :
    Attempt :=
  execWithJumpAuth connection request stdout stderr none

/-! ## The command line -/

def isEndpointUnavailable (error : AnyError) : Bool :=
  error.chain.any fun cause ↦
    match cause.ioKind with
    | some .notFound | some .connectionRefused | some .connectionReset | some .brokenPipe => true
    | _ => false

/-- Everything outside the program that an invocation of `kssh exec` meets. -/
structure Invocation where
  host : String
  command : String
  asUser : Option String
  /-- Whether the options leave the invocation to the daemon at all. -/
  eligible : Bool
  /-- Connecting to the endpoint, the first time and the second. -/
  first : Result Link
  second : Result Link
  /-- The credentials that the host library and the user give when the daemon asks for them. -/
  authentication : Result AuthRequest
  jumpAuth : JumpAuthProvider
  stdout : Writer UInt8
  stderr : Writer UInt8

namespace Invocation

variable (invocation : Invocation)

/-- The request of the first attempt has no credentials. -/
def firstRequest : ExecRequest :=
  ⟨invocation.host, none, invocation.command, invocation.asUser⟩

def firstAttempt : Attempt :=
  exec invocation.first invocation.firstRequest invocation.stdout invocation.stderr

def secondRequest (auth : AuthRequest) : ExecRequest :=
  { invocation.firstRequest with auth := some auth }

def secondAttempt (auth : AuthRequest) : Attempt :=
  execWithJumpAuth invocation.second (invocation.secondRequest auth)
    invocation.firstAttempt.stdout invocation.firstAttempt.stderr (some invocation.jumpAuth)

/-- What the exit of the command means for the invocation. -/
def conclude : ExecOutcome → Result Bool
  | .authRequired =>
      bail s!"daemon requested authentication twice for {Text.debug invocation.host}"
  | .completed (some 0) _ => .ok true
  | .completed (some status) _ => bail s!"remote command exited with status {status}"
  | .completed none _ => bail "remote command closed without an SSH exit status"

/-- Whether the daemon saw to the command; `false` is the fallback to a direct connection. -/
def runExec : Option (Result Bool) :=
  match invocation.firstAttempt.result with
  | none => none
  | some (.error e) =>
      if isEndpointUnavailable e then some (.ok false)
      else some (context "daemon exec request failed" (.error e))
  | some (.ok (.completed exitStatus reused)) =>
      some (invocation.conclude (.completed exitStatus reused))
  | some (.ok .authRequired) =>
      match invocation.authentication with
      | .error e => some (.error e)
      | .ok auth =>
          match (invocation.secondAttempt auth).result with
          | none => none
          | some (.error e) => some (.error e)
          | some (.ok outcome) => some (invocation.conclude outcome)

def tryRun : Option (Result Bool) :=
  if invocation.eligible then invocation.runExec else some (.ok false)

end Invocation

/-! ## Who may start the command -/

/-- Whether the whole request is among the bytes that went out. -/
def ExecRequest.Delivered (request : ExecRequest) (sent : List UInt8) : Prop :=
  ∃ payload, encodeClient request.frame = .ok payload ∧ framed payload <+: sent

/-- Whether the daemon may have started the command in an attempt: it has the whole request and
has not answered that it needs credentials. -/
def Attempt.MayStart (attempt : Attempt) (request : ExecRequest) : Prop :=
  request.Delivered attempt.sent ∧ attempt.result ≠ some (.ok .authRequired)

/-- The three ways in which an invocation can get the command started. -/
inductive Starter where
  | first
  | second
  | direct

namespace Invocation

variable (invocation : Invocation)

def MayStart : Starter → Prop
  | .first =>
      invocation.eligible = true ∧ invocation.firstAttempt.MayStart invocation.firstRequest
  | .second =>
      invocation.eligible = true ∧ invocation.firstAttempt.result = some (.ok .authRequired) ∧
        ∃ auth, invocation.authentication = .ok auth ∧
          (invocation.secondAttempt auth).MayStart (invocation.secondRequest auth)
  | .direct => invocation.tryRun = some (.ok false)

/-- The command is started in one way at most, and an eligible invocation falls back only when the
daemon cannot have the request. -/
structure AtMostOnce : Prop where
  unique : ∀ a b, invocation.MayStart a → invocation.MayStart b → a = b
  fallback : invocation.eligible = true → invocation.tryRun = some (.ok false) →
    ¬invocation.firstRequest.Delivered invocation.firstAttempt.sent

end Invocation

/-! ## How an exchange breaks off -/

def ioError (kind : IoErrorKind) : AnyError := ⟨[⟨kind.description, some kind⟩]⟩

/-- A frame that an exchange without a provider goes on after, and the streams after it. -/
inductive Quiet : Exchange → ServerFrame → Exchange → Prop
  | ok (x : Exchange) : Quiet x .ok x
  | cache (x : Exchange) (reused : Bool) : Quiet x (.cache reused) x
  | stdout {x : Exchange} {bytes : List UInt8} (h : (x.stdout.writeAll bytes).1 = .ok ()) :
      Quiet x (.stdout bytes) { x with stdout := (x.stdout.writeAll bytes).2 }
  | stderr {x : Exchange} {bytes : List UInt8} (h : (x.stderr.writeAll bytes).1 = .ok ()) :
      Quiet x (.stderr bytes) { x with stderr := (x.stderr.writeAll bytes).2 }
  | challenge {x : Exchange} {index total attempt : UInt64} {hostAlias host : String}
      {port : UInt16} {previousFailed : Bool} {writer : Writer UInt8}
      (h : (writeClientFrame (.jumpAuthResponse none)).run x.writer = (.ok (), writer)) :
      Quiet x (.jumpAuthChallenge index total attempt hostAlias host port previousFailed)
        { x with writer }

/-- A frame on which a stream that is written to fails. -/
inductive Refused : Exchange → ServerFrame → AnyError → Prop
  | stdout {x : Exchange} {bytes : List UInt8} {kind : IoErrorKind}
      (h : (x.stdout.writeAll bytes).1 = .error kind) : Refused x (.stdout bytes) (ioError kind)
  | stderr {x : Exchange} {bytes : List UInt8} {kind : IoErrorKind}
      (h : (x.stderr.writeAll bytes).1 = .error kind) : Refused x (.stderr bytes) (ioError kind)
  | flushStdout {x : Exchange} {status : Option UInt32} {kind : IoErrorKind}
      (h : x.stdout.flush.1 = .error kind) : Refused x (.exit status) (ioError kind)
  | flushStderr {x : Exchange} {status : Option UInt32} {kind : IoErrorKind}
      (hout : x.stdout.flush.1 = .ok ()) (h : x.stderr.flush.1 = .error kind) :
      Refused x (.exit status) (ioError kind)
  | challenge {x : Exchange} {index total attempt : UInt64} {hostAlias host : String}
      {port : UInt16} {previousFailed : Bool} {writer : Writer UInt8} {e : AnyError}
      (h : (writeClientFrame (.jumpAuthResponse none)).run x.writer = (.error e, writer)) :
      Refused x (.jumpAuthChallenge index total attempt hostAlias host port previousFailed) e

/-- After some quiet frames the stream from the daemon or a stream that is written to fails. -/
inductive Interrupted : Exchange → AnyError → Prop
  | read {x : Exchange} {e : AnyError} (h : (readServerFrame x.reader).run = some (.error e)) :
      Interrupted x e
  | refused {x : Exchange} {frame : ServerFrame} {reader : Reader UInt8} {e : AnyError}
      (hread : (readServerFrame x.reader).run = some (.ok (some frame, reader)))
      (h : Refused { x with reader } frame e) : Interrupted x e
  | next {x y : Exchange} {frame : ServerFrame} {reader : Reader UInt8} {e : AnyError}
      (hread : (readServerFrame x.reader).run = some (.ok (some frame, reader)))
      (hquiet : Quiet { x with reader } frame y) (h : Interrupted y e) : Interrupted x e

/-- The connection takes the whole request, and then flushing it or the exchange fails. -/
inductive Link.BreaksOff (link : Link) (request : ExecRequest) (stdout stderr : Writer UInt8) :
    AnyError → Prop
  | flush {payload : List UInt8} {kind : IoErrorKind}
      (hencode : encodeClient request.frame = .ok payload)
      (htakes : link.writer.Takes (framed payload).length) (h : link.flushFault = some kind) :
      link.BreaksOff request stdout stderr (flushError kind)
  | interrupted {payload : List UInt8} {e : AnyError}
      (hencode : encodeClient request.frame = .ok payload)
      (htakes : link.writer.Takes (framed payload).length) (hflush : link.flushFault = none)
      (h : Interrupted ⟨link.reader, link.writer.push (framed payload), stdout, stderr⟩ e) :
      link.BreaksOff request stdout stderr e

/-- The endpoint is reached and takes the whole request, and then the exchange breaks off with an
error that has one of the kinds by which the daemon counts as unavailable. -/
def Invocation.BreaksOffUnavailable (invocation : Invocation) : Prop :=
  ∃ link e, invocation.first = .ok link ∧
    link.BreaksOff invocation.firstRequest invocation.stdout invocation.stderr e ∧
    isEndpointUnavailable e = true

/-! ## The exchange fails exactly as it breaks off -/

variable {x y : Exchange} {frame : Option ServerFrame} {reused : Bool}

theorem Quiet.execFrame {frame : ServerFrame} (h : Quiet x frame y) (reused : Bool) :
    ∃ reused', Daemon.execFrame none reused x (some frame) = (.go reused', y) := by
  cases h with
  | ok => exact ⟨reused, rfl⟩
  | cache reused' => exact ⟨reused', rfl⟩
  | stdout h => exact ⟨reused, by rw [Daemon.execFrame, h, written]⟩
  | stderr h => exact ⟨reused, by rw [Daemon.execFrame, h, written]⟩
  | challenge h => exact ⟨reused, by simp only [Daemon.execFrame, jumpAuthentication, h]⟩

theorem Refused.execFrame {x : Exchange} {frame : ServerFrame} {e : AnyError}
    (h : Refused x frame e) (reused : Bool) :
    ∃ y, Daemon.execFrame none reused x (some frame) = (.done (.error e), y) := by
  cases h with
  | stdout h => exact ⟨_, by rw [Daemon.execFrame, h]; rfl⟩
  | stderr h => exact ⟨_, by rw [Daemon.execFrame, h]; rfl⟩
  | flushStdout h => exact ⟨_, by rw [Daemon.execFrame, completed, h]; rfl⟩
  | flushStderr hout h => exact ⟨_, by rw [Daemon.execFrame, completed, hout, h]; rfl⟩
  | challenge h => exact ⟨_, by simp only [Daemon.execFrame, jumpAuthentication, h]; rfl⟩

/-- The loop goes on after quiet frames only. -/
theorem quiet_of_execFrame {reused reused' : Bool}
    (h : execFrame none reused x frame = (.go reused', y)) : ∃ f, frame = some f ∧ Quiet x f y := by
  cases frame with
  | none => cases h
  | some frame =>
      refine ⟨frame, rfl, ?_⟩
      cases frame with
      | ok =>
          cases h
          exact .ok x
      | cache value =>
          cases h
          exact .cache x _
      | stdout bytes =>
          rw [execFrame] at h
          cases hwrite : (x.stdout.writeAll bytes).1 with
          | error kind =>
              rw [hwrite] at h
              cases h
          | ok =>
              rw [hwrite] at h
              cases h
              exact .stdout hwrite
      | stderr bytes =>
          rw [execFrame] at h
          cases hwrite : (x.stderr.writeAll bytes).1 with
          | error kind =>
              rw [hwrite] at h
              cases h
          | ok =>
              rw [hwrite] at h
              cases h
              exact .stderr hwrite
      | exit status =>
          rw [execFrame, completed] at h
          cases hout : x.stdout.flush.1 with
          | error kind =>
              rw [hout] at h
              cases h
          | ok =>
              cases herr : x.stderr.flush.1 with
              | error kind =>
                  rw [hout, herr] at h
                  cases h
              | ok =>
                  rw [hout, herr] at h
                  cases h
      | jumpAuthChallenge index total attempt hostAlias host port previousFailed =>
          simp only [execFrame, jumpAuthentication] at h
          split at h
          · rename_i hwrite
            cases h
            exact .challenge hwrite
          · cases h
      | error | authRequired | status => cases h

/-- A failure with which the daemon counts as unavailable is that of a stream. -/
theorem refused_of_execFrame {e : AnyError}
    (h : execFrame none reused x frame = (.done (.error e), y))
    (hunavailable : isEndpointUnavailable e = true) : ∃ f, frame = some f ∧ Refused x f e := by
  cases frame with
  | none =>
      cases h
      cases hunavailable
  | some frame =>
      refine ⟨frame, rfl, ?_⟩
      cases frame with
      | ok | cache | authRequired => cases h
      | error | status =>
          -- A message is not the failure of a stream.
          cases h
          cases hunavailable
      | stdout bytes =>
          rw [execFrame] at h
          cases hwrite : (x.stdout.writeAll bytes).1 with
          | ok =>
              rw [hwrite] at h
              cases h
          | error kind =>
              rw [hwrite] at h
              cases h
              exact .stdout hwrite
      | stderr bytes =>
          rw [execFrame] at h
          cases hwrite : (x.stderr.writeAll bytes).1 with
          | ok =>
              rw [hwrite] at h
              cases h
          | error kind =>
              rw [hwrite] at h
              cases h
              exact .stderr hwrite
      | exit status =>
          rw [execFrame, completed] at h
          cases hout : x.stdout.flush.1 with
          | error kind =>
              rw [hout] at h
              cases h
              exact .flushStdout hout
          | ok =>
              cases herr : x.stderr.flush.1 with
              | error kind =>
                  rw [hout, herr] at h
                  cases h
                  exact .flushStderr hout herr
              | ok =>
                  rw [hout, herr] at h
                  cases h
      | jumpAuthChallenge index total attempt hostAlias host port previousFailed =>
          simp only [execFrame, jumpAuthentication] at h
          split at h
          · cases h
          · rename_i hwrite
            cases h
            exact .challenge hwrite

theorem Quiet.reader {frame : ServerFrame} (h : Quiet x frame y) : y.reader = x.reader := by
  cases h <;> rfl

/-- An exchange that is interrupted fails, with the error of the interruption. -/
theorem Interrupted.execLoop {x : Exchange} {e : AnyError} (h : Interrupted x e) {fuel : Nat}
    (hfuel : x.reader.symbols.length < fuel) (reused : Bool) :
    (Daemon.execLoop none fuel reused x).1 = some (.error e) := by
  induction h generalizing fuel reused with
  | read hread =>
      obtain ⟨fuel, rfl⟩ := Nat.exists_eq_succ_of_ne_zero (Nat.ne_zero_of_lt hfuel)
      simp only [Daemon.execLoop, hread]
  | refused hread hrefused =>
      obtain ⟨fuel, rfl⟩ := Nat.exists_eq_succ_of_ne_zero (Nat.ne_zero_of_lt hfuel)
      obtain ⟨y, hframe⟩ := hrefused.execFrame reused
      simp only [Daemon.execLoop, hread, hframe]
  | next hread hquiet _ ih =>
      obtain ⟨fuel, rfl⟩ := Nat.exists_eq_succ_of_ne_zero (Nat.ne_zero_of_lt hfuel)
      obtain ⟨reused', hframe⟩ := hquiet.execFrame reused
      have hlt := readServerFrame_lt hread
      simp only [Daemon.execLoop, hread, hframe]
      apply ih
      rw [hquiet.reader]
      show _ < fuel
      exact Nat.lt_of_lt_of_le hlt (Nat.le_of_lt_succ hfuel)

/-- An exchange that fails with an error by which the daemon counts as unavailable was
interrupted. -/
theorem interrupted_of_execLoop {fuel : Nat} {x : Exchange} {e : AnyError}
    (h : (execLoop none fuel reused x).1 = some (.error e))
    (hunavailable : isEndpointUnavailable e = true) : Interrupted x e := by
  induction fuel generalizing reused x with
  | zero => cases h
  | succ fuel ih =>
      rw [execLoop] at h
      cases hread : (readServerFrame x.reader).run with
      | none =>
          rw [hread] at h
          cases h
      | some outcome =>
          rw [hread] at h
          cases outcome with
          | error e' =>
              cases h
              exact .read hread
          | ok value =>
              obtain ⟨frame, reader⟩ := value
              dsimp only at h
              split at h
              · rename_i hgo
                obtain ⟨f, rfl, hquiet⟩ := quiet_of_execFrame hgo
                exact .next hread hquiet (ih h)
              · rename_i hdone
                cases h
                obtain ⟨f, rfl, hrefused⟩ := refused_of_execFrame hdone hunavailable
                exact .refused hread hrefused

/-! ## What has been sent -/

theorem execFrame_sends {jumpAuth : Option JumpAuthProvider} {next : Next}
    (h : execFrame jumpAuth reused x frame = (next, y)) :
    x.writer.written <+: y.writer.written := by
  unfold execFrame at h
  split at h
  case h_3 =>
    split at h
    · cases h
      exact List.prefix_refl _
    · rename_i response _
      have hsent := writeClientFrame_sends (.jumpAuthResponse response) x.writer
      split at h
      · rename_i hwrite
        rw [hwrite] at hsent
        cases h
        exact hsent
      · rename_i hwrite
        rw [hwrite] at hsent
        cases h
        exact hsent
  all_goals
    cases h
    exact List.prefix_refl _

/-- What has gone out before the loop stays out. -/
theorem execLoop_sends (jumpAuth : Option JumpAuthProvider) (fuel : Nat) (reused : Bool)
    (x : Exchange) :
    x.writer.written <+: (execLoop jumpAuth fuel reused x).2.writer.written := by
  induction fuel generalizing reused x with
  | zero => exact List.prefix_refl _
  | succ fuel ih =>
      rw [execLoop]
      split
      · exact List.prefix_refl _
      · exact List.prefix_refl _
      · split
        · rename_i hframe
          exact (execFrame_sends hframe).trans (ih _ _)
        · rename_i hframe
          have hsent := execFrame_sends hframe
          exact hsent

section execOver

variable {link : Link} {request : ExecRequest} {stdout stderr : Writer UInt8}
  {jumpAuth : Option JumpAuthProvider} {payload : List UInt8} {e : AnyError}

/-- Sending the request over a connection that takes it. -/
theorem execOver_of_takes (hencode : encodeClient request.frame = .ok payload)
    (htakes : link.writer.Takes (framed payload).length) :
    execOver link request stdout stderr jumpAuth =
      match link.flushFault with
      | some kind => (some (.error (flushError kind)),
          ⟨link.reader, link.writer.push (framed payload), stdout, stderr⟩)
      | none => execLoop jumpAuth link.fuel false
          ⟨link.reader, link.writer.push (framed payload), stdout, stderr⟩ := by
  rw [execOver, writeClientFrame_run hencode,
    writePayload_of_takes (length_encodeClient hencode) htakes]
  rw [show link.writer.flushFault = link.flushFault from rfl]
  cases link.flushFault <;> rfl

/-- The daemon has the whole request exactly when the connection took all of it. -/
theorem execOver_delivered_iff :
    request.Delivered (execOver link request stdout stderr jumpAuth).2.writer.written ↔
      ∃ payload, encodeClient request.frame = .ok payload ∧
        link.writer.Takes (framed payload).length := by
  constructor
  · rintro ⟨payload, hencode, hsent⟩
    refine ⟨payload, hencode, ?_⟩
    by_contra htakes
    obtain ⟨e, writer, hwrite, -, hlt⟩ :=
      writePayload_of_not_takes (length_encodeClient hencode) htakes
    rw [execOver, writeClientFrame_run hencode, hwrite] at hsent
    have hle := hsent.length_le
    rw [show link.writer.written.length = 0 from rfl, Nat.zero_add] at hlt
    exact absurd hle (Nat.not_le.mpr hlt)
  · rintro ⟨payload, hencode, htakes⟩
    refine ⟨payload, hencode, ?_⟩
    rw [execOver_of_takes hencode htakes]
    cases link.flushFault with
    | some kind => exact List.prefix_refl _
    | none =>
        exact execLoop_sends jumpAuth link.fuel false
          ⟨link.reader, link.writer.push (framed payload), stdout, stderr⟩

theorem Link.BreaksOff.delivered (h : link.BreaksOff request stdout stderr e) :
    request.Delivered (execOver link request stdout stderr jumpAuth).2.writer.written := by
  cases h with
  | flush hencode htakes _ => exact execOver_delivered_iff.mpr ⟨_, hencode, htakes⟩
  | interrupted hencode htakes _ _ => exact execOver_delivered_iff.mpr ⟨_, hencode, htakes⟩

theorem Link.BreaksOff.execOver (h : link.BreaksOff request stdout stderr e) :
    (Daemon.execOver link request stdout stderr none).1 = some (.error e) := by
  cases h with
  | flush hencode htakes hflush => rw [execOver_of_takes hencode htakes, hflush]
  | interrupted hencode htakes hflush hinterrupted =>
      rw [execOver_of_takes hencode htakes, hflush]
      exact hinterrupted.execLoop (Nat.lt_succ_self _) false

theorem breaksOff_of_execOver (h : (execOver link request stdout stderr none).1 = some (.error e))
    (hunavailable : isEndpointUnavailable e = true)
    (hdelivered :
      request.Delivered (execOver link request stdout stderr none).2.writer.written) :
    link.BreaksOff request stdout stderr e := by
  obtain ⟨payload, hencode, htakes⟩ := execOver_delivered_iff.mp hdelivered
  rw [execOver_of_takes hencode htakes] at h
  cases hflush : link.flushFault with
  | some kind =>
      rw [hflush] at h
      cases h
      exact .flush hencode htakes hflush
  | none =>
      rw [hflush] at h
      exact .interrupted hencode htakes hflush (interrupted_of_execLoop h hunavailable)

end execOver

/-! ## When the command is started at most once -/

namespace Invocation

variable {invocation : Invocation}

/-- The first attempt over a connection that stands. -/
theorem firstAttempt_of_ok {link : Link} (h : invocation.first = .ok link) :
    invocation.firstAttempt.result =
        (execOver link invocation.firstRequest invocation.stdout invocation.stderr none).1 ∧
      invocation.firstAttempt.sent = (execOver link invocation.firstRequest invocation.stdout
        invocation.stderr none).2.writer.written := by
  rw [firstAttempt, exec, h]
  exact ⟨rfl, rfl⟩

/-- The verdict on a finished command is never the fallback. -/
theorem conclude_ne_false (outcome : ExecOutcome) : invocation.conclude outcome ≠ .ok false := by
  unfold conclude
  split <;> simp

/-- An eligible invocation falls back exactly when its first attempt fails with an error by which
the daemon counts as unavailable. -/
theorem runExec_fallback_iff :
    invocation.runExec = some (.ok false) ↔
      ∃ e, invocation.firstAttempt.result = some (.error e) ∧ isEndpointUnavailable e = true := by
  rw [runExec]
  constructor
  · intro h
    split at h
    · cases h
    · rename_i e he
      split at h
      · exact ⟨e, he, ‹_›⟩
      · cases h
    · exact absurd (Option.some_inj.mp h) (conclude_ne_false _)
    · split at h
      · cases h
      · split at h
        · cases h
        · cases h
        · exact absurd (Option.some_inj.mp h) (conclude_ne_false _)
  · rintro ⟨e, he, hunavailable⟩
    rw [he]
    exact if_pos hunavailable

/-- A first attempt that breaks off after the request falls back although the daemon has it. -/
theorem fallback_of_breaksOff (heligible : invocation.eligible = true)
    (h : invocation.BreaksOffUnavailable) :
    invocation.tryRun = some (.ok false) ∧
      invocation.firstRequest.Delivered invocation.firstAttempt.sent := by
  obtain ⟨link, e, hfirst, hbreaks, hunavailable⟩ := h
  obtain ⟨hresult, hsent⟩ := firstAttempt_of_ok hfirst
  refine ⟨?_, ?_⟩
  · rw [tryRun, if_pos heligible]
    exact runExec_fallback_iff.mpr ⟨e, hresult.trans hbreaks.execOver, hunavailable⟩
  · rw [hsent]
    exact hbreaks.delivered

/-- A fallback although the daemon has the request comes from a first attempt that breaks off. -/
theorem breaksOff_of_fallback (h : invocation.runExec = some (.ok false))
    (hdelivered : invocation.firstRequest.Delivered invocation.firstAttempt.sent) :
    invocation.BreaksOffUnavailable := by
  obtain ⟨e, hresult, hunavailable⟩ := runExec_fallback_iff.mp h
  cases hfirst : invocation.first with
  | error e' =>
      -- Over no connection nothing goes out.
      rw [firstAttempt, exec, hfirst] at hdelivered
      obtain ⟨payload, -, hsent⟩ := hdelivered
      have hlength := hsent.length_le
      rw [length_framed] at hlength
      exact absurd hlength (by simp [execWithJumpAuth])
  | ok link =>
      obtain ⟨hlinkResult, hsent⟩ := firstAttempt_of_ok hfirst
      rw [hlinkResult] at hresult
      rw [hsent] at hdelivered
      exact ⟨link, e, hfirst, breaksOff_of_execOver hresult hunavailable hdelivered, hunavailable⟩

/-- An invocation starts its command at most once exactly when it is not eligible for the daemon or
its first exchange does not break off, after the whole request, with an error by which the daemon
counts as unavailable. -/
theorem atMostOnce_iff (invocation : Invocation) :
    invocation.AtMostOnce ↔
      ¬(invocation.eligible = true ∧ invocation.BreaksOffUnavailable) := by
  constructor
  · rintro honce ⟨heligible, hbreaks⟩
    obtain ⟨hfallback, hdelivered⟩ := fallback_of_breaksOff heligible hbreaks
    exact honce.fallback heligible hfallback hdelivered
  · intro hnever
    have hfallback : invocation.eligible = true → invocation.tryRun = some (.ok false) →
        ¬invocation.firstRequest.Delivered invocation.firstAttempt.sent := by
      intro heligible hdirect hdelivered
      rw [tryRun, if_pos heligible] at hdirect
      exact hnever ⟨heligible, breaksOff_of_fallback hdirect hdelivered⟩
    refine ⟨?_, hfallback⟩
    -- The first attempt and the direct connection exclude each other by the fallback, and the
    -- second attempt is made only after an answer that is neither a start nor an error.
    have hfirstSecond : ¬(invocation.MayStart .first ∧ invocation.MayStart .second) := by
      rintro ⟨⟨-, hstart⟩, -, hauth, -⟩
      exact hstart.2 hauth
    have hfirstDirect : ¬(invocation.MayStart .first ∧ invocation.MayStart .direct) := by
      rintro ⟨⟨heligible, hstart⟩, hdirect⟩
      exact hfallback heligible hdirect hstart.1
    have hsecondDirect : ¬(invocation.MayStart .second ∧ invocation.MayStart .direct) := by
      rintro ⟨⟨heligible, hauth, -⟩, hdirect⟩
      rw [MayStart, tryRun, if_pos heligible] at hdirect
      obtain ⟨e, he, -⟩ := runExec_fallback_iff.mp hdirect
      cases hauth.symm.trans he
    rintro (_ | _ | _) (_ | _ | _) ha hb
    · rfl
    · exact absurd ⟨ha, hb⟩ hfirstSecond
    · exact absurd ⟨ha, hb⟩ hfirstDirect
    · exact absurd ⟨hb, ha⟩ hfirstSecond
    · rfl
    · exact absurd ⟨ha, hb⟩ hsecondDirect
    · exact absurd ⟨hb, ha⟩ hfirstDirect
    · exact absurd ⟨hb, ha⟩ hsecondDirect
    · rfl

/-- The daemon has the request, sends a first byte of output, and its stream is reset. -/
def resetInvocation : Invocation where
  host := "h"
  command := "c"
  asUser := none
  eligible := true
  first := .ok ⟨.ofSymbols [0, 0, 0, 6, 67, 0, 0, 0, 1, 42] (.failed .connectionReset), none, none⟩
  second := bail ""
  authentication := bail ""
  jumpAuth := fun _ ↦ .ok none
  stdout := ⟨[], none, none⟩
  stderr := ⟨[], none, none⟩

/-- The reset sends the command to a direct connection although the daemon runs it. -/
theorem reset_runs_twice :
    resetInvocation.firstAttempt.stdout.written = [42] ∧
      resetInvocation.tryRun = some (.ok false) ∧ ¬resetInvocation.AtMostOnce := by
  have hdirect : resetInvocation.tryRun = some (.ok false) := by decide
  refine ⟨by decide, hdirect, fun honce ↦ ?_⟩
  apply honce.fallback rfl hdirect
  exact ⟨[4, 0, 0, 0, 1, 104, 0, 0, 0, 0, 1, 99, 0], by decide, by decide⟩

end Invocation

end KaduoxSsh.Daemon
