import KaduoxSsh.Daemon.Exec
import KaduoxSsh.Lib.Run

/-!
# The shell client

A shell begins with a setup, in which the client only reads frames, and goes on
with a loop that waits for three things at once: local input, a change of the
window's size, and the next frame of the server. Whichever is ready first wins
and the two other waits are dropped. The wait for a frame may have taken bytes
off the socket by then, and these are dropped with it.

A state keeps these bytes apart (`held`) from those that have arrived and were
not taken (`available`) and those still under way (`inflight`). The socket and
the terminal accept what is written to them.
-/

namespace KaduoxSsh.Daemon

open Result List

inductive ShellOutcome where
  | authRequired
  | completed (exitStatus : Option UInt32) (reused : Bool)
deriving DecidableEq, Repr

inductive Phase where
  | setup
  | streaming (reused : Bool)
  | finished (result : Result ShellOutcome)
deriving DecidableEq

structure ShellClient where
  phase : Phase
  inputClosed : Bool
  /-- What has been written to the terminal. -/
  output : List UInt8
  /-- The frames that have been sent since the request. -/
  sent : List ClientFrame
deriving DecidableEq

namespace ShellClient

def start : ShellClient := ⟨.setup, false, [], []⟩

def finish (client : ShellClient) (result : Result ShellOutcome) : ShellClient :=
  { client with phase := .finished result }

/-- Send a frame; one that cannot be encoded ends the shell. -/
def send (client : ShellClient) (frame : ClientFrame) : ShellClient :=
  match encodeClient frame with
  | .ok _ => { client with sent := client.sent ++ [frame] }
  | .error e => client.finish (.error e)

/-- Ask for the credentials of a jump host and send the answer. -/
def answer (jumpAuth : Option JumpAuthProvider) (client : ShellClient)
    (challenge : JumpAuthChallenge) : ShellClient :=
  match jumpAuthentication jumpAuth challenge with
  | .ok auth => client.send (.jumpAuthResponse auth)
  | .error e => client.finish (.error e)

/-- The frames that the setup does not expect, as its message shows them. -/
def unexpected : ServerFrame → String
  | .stdout bytes => s!"Stdout({bytes})"
  | .stderr bytes => s!"Stderr({bytes})"
  | .exit (some status) => s!"Exit(Some({status}))"
  | .exit none => "Exit(None)"
  | .status totalConnections inUseConnections activeLeases maxConnections availableCapacity =>
      "Status \x7b " ++ s!"total_connections: {totalConnections}, " ++
        s!"in_use_connections: {inUseConnections}, active_leases: {activeLeases}, " ++
        s!"max_connections: {maxConnections}, available_capacity: {availableCapacity}" ++ " \x7d"
  | _ => ""

/-- A frame during the setup; no frame is the end of the stream. -/
def onSetup (jumpAuth : Option JumpAuthProvider) (client : ShellClient) :
    Option ServerFrame → ShellClient
  | some .authRequired => client.finish (.ok .authRequired)
  | some (.cache reused) => { client with phase := .streaming reused }
  | some (.jumpAuthChallenge index total attempt hostAlias host port previousFailed) =>
      client.answer jumpAuth ⟨index, total, attempt, hostAlias, host, port, previousFailed⟩
  | some (.error error) => client.finish (bail s!"daemon shell failed: {error}")
  | some .ok => client
  | some other =>
      client.finish (bail s!"unexpected daemon shell setup response: {unexpected other}")
  | none => client.finish (bail "daemon closed IPC before shell started")

/-- A frame during the streaming. -/
def onStreaming (client : ShellClient) (reused : Bool) : Option ServerFrame → ShellClient
  | some (.stdout bytes) | some (.stderr bytes) => { client with output := client.output ++ bytes }
  | some (.exit exitStatus) => client.finish (.ok (.completed exitStatus reused))
  | some (.error error) => client.finish (bail s!"daemon shell failed: {error}")
  | some (.cache value) => { client with phase := .streaming value }
  | some .ok => client
  | some .authRequired =>
      client.finish (bail "daemon requested authentication after shell streaming started")
  | some (.jumpAuthChallenge ..) =>
      client.finish
        (bail "daemon requested jump authentication after shell streaming started")
  | some (.status ..) => client.finish (bail "unexpected daemon status frame during shell")
  | none => client.finish (bail "daemon closed IPC before shell completed")

def onFrame (jumpAuth : Option JumpAuthProvider) (client : ShellClient)
    (frame : Option ServerFrame) : ShellClient :=
  match client.phase with
  | .setup => client.onSetup jumpAuth frame
  | .streaming reused => client.onStreaming reused frame
  | .finished _ => client

end ShellClient

structure ShellState where
  client : ShellClient
  /-- The bytes that the pending read of a frame has taken. -/
  held : List UInt8
  /-- The bytes that have arrived and were not taken. -/
  available : List UInt8
  /-- The bytes that are still to arrive. -/
  inflight : List UInt8
  /-- Whether the server has closed the stream behind them. -/
  closed : Bool
  /-- The frames that the client has processed. -/
  received : List ServerFrame
deriving DecidableEq

namespace ShellState

/-- A server that is going to send these bytes. -/
def start (bytes : List UInt8) : ShellState := ⟨.start, [], [], bytes, false, []⟩

end ShellState

inductive ShellEvent where
  /-- So many more bytes arrive at the socket. -/
  | arrive (count : Nat)
  /-- The server closes the stream. -/
  | close
  /-- The read of a frame is polled and gets at most so many of the bytes there are. -/
  | poll (count : Nat)
  /-- Local input wins; no bytes are its end. -/
  | input (bytes : List UInt8)
  /-- Reading the local input fails. -/
  | inputFailed (kind : IoErrorKind)
  /-- A change of the window's size wins. -/
  | resize (columns rows : UInt32)
deriving DecidableEq

namespace ShellState

/-- The stream as the pending read sees it when it is polled. -/
def polled (s : ShellState) (count : Nat) : Reader UInt8 :=
  Reader.ofSymbols (s.held ++ s.available.take count)
    (if s.closed ∧ s.available.drop count = [] then .eof else .pending)

/-- Poll the read of a frame. While it waits for more it keeps what it took. -/
def poll (jumpAuth : Option JumpAuthProvider) (s : ShellState) (count : Nat) : ShellState :=
  match (readServerFrame (s.polled count)).run with
  | none =>
      { s with held := s.held ++ s.available.take count, available := s.available.drop count }
  | some (.error e) =>
      { s with client := s.client.finish (.error e), held := [], available := s.available.drop count }
  | some (.ok (frame, reader)) =>
      { s with
        client := s.client.onFrame jumpAuth frame
        held := []
        available := reader.symbols ++ s.available.drop count
        received := s.received ++ frame.toList }

/-- A branch of the loop other than the frame's wins: the read is dropped with what it took. -/
def preempt (s : ShellState) (client : ShellClient) : ShellState :=
  { s with client, held := [] }

/-- One event. The streaming loop alone listens to local events. -/
def step (jumpAuth : Option JumpAuthProvider) (s : ShellState) : ShellEvent → Option ShellState
  | .arrive count =>
      some { s with
        available := s.available ++ s.inflight.take count
        inflight := s.inflight.drop count }
  | .close => if s.inflight = [] then some { s with closed := true } else none
  | .poll count =>
      match s.client.phase with
      | .finished _ => none
      | _ => some (s.poll jumpAuth count)
  | .input bytes =>
      match s.client.phase with
      | .streaming _ =>
          if s.client.inputClosed ∨ bytes.length > OUTPUT_CHUNK_BYTES then none
          else if bytes = [] then
            some (s.preempt ({ s.client with inputClosed := true }.send .eof))
          else some (s.preempt (s.client.send (.input bytes)))
      | _ => none
  | .inputFailed kind =>
      match s.client.phase with
      | .streaming _ =>
          if s.client.inputClosed then none
          else some (s.preempt (s.client.finish (io kind kind.description)))
      | _ => none
  | .resize columns rows =>
      match s.client.phase with
      | .streaming _ => some (s.preempt (s.client.send (.resize columns rows)))
      | _ => none

end ShellState

/-! ## What the server sends and what the client should make of it -/

/-- The bytes of some frames, sent one after the other. -/
def encodeFrames : List ServerFrame → Result (List UInt8)
  | [] => .ok []
  | frame :: frames => do
      return framed (← encodeServer frame) ++ (← encodeFrames frames)

variable {bytes : List UInt8}

theorem encodeFrames_cons {frame : ServerFrame} {frames : List ServerFrame} :
    encodeFrames (frame :: frames) = .ok bytes ↔
      ∃ payload, encodeServer frame = .ok payload ∧
        ∃ rest, encodeFrames frames = .ok rest ∧ bytes = framed payload ++ rest := by
  rw [encodeFrames, bind_eq_ok]
  simp only [bind_eq_ok, pure_eq_ok, Except.ok.injEq, eq_comm (b := bytes)]

/-- What a frame says to the terminal. -/
def ServerFrame.output : ServerFrame → List UInt8
  | .stdout bytes | .stderr bytes => bytes
  | _ => []

/-- The client that is handed some frames, one after the other. -/
def ShellClient.replay (jumpAuth : Option JumpAuthProvider) (frames : List ServerFrame) :
    ShellClient :=
  frames.foldl (fun client frame ↦ client.onFrame jumpAuth (some frame)) .start

/-- The client has processed the frames that were sent and nothing else: those it processed are
the first of them, in order; all of them, once every byte was taken; the terminal shows what they
say; a shell that completed did so on an exit frame and with its status; and a shell that failed did
so on a frame, on the end of the stream after the last frame, or on the local input. -/
structure StreamIntact (jumpAuth : Option JumpAuthProvider) (frames : List ServerFrame)
    (s : ShellState) : Prop where
  inOrder : s.received <+: frames
  complete : s.available = [] → s.inflight = [] → (∀ r, s.client.phase ≠ .finished r) →
    s.received = frames
  output : (∀ e, s.client.phase ≠ .finished (.error e)) →
    s.client.output = s.received.flatMap ServerFrame.output
  exit : ∀ status reused, s.client.phase = .finished (.ok (.completed status reused)) →
    ∃ earlier, s.received = earlier ++ [.exit status]
  failure : ∀ e, s.client.phase = .finished (.error e) →
    (ShellClient.replay jumpAuth s.received).phase = .finished (.error e) ∨
      (s.closed = true ∧ s.received = frames) ∨
      ∃ kind, io kind kind.description = (.error e : Result Unit)

/-- Input and changes of the window's size win only while the pending read has taken no byte of
the next frame. -/
def BetweenFrames (s : ShellState) : ShellEvent → Prop
  | .input _ | .resize _ _ => s.held = []
  | _ => True

/-! ## What one frame does -/

namespace ShellClient

variable {jumpAuth : Option JumpAuthProvider} {client : ShellClient} {other : ShellClient}

theorem send_phase {frame : ClientFrame} {payload : List UInt8}
    (h : encodeClient frame = .ok payload) : (client.send frame).phase = client.phase := by
  rw [send, h]

/-- Sending writes nothing to the terminal and does not go on to another phase. -/
theorem send_spec (frame : ClientFrame) : (client.send frame).output = client.output ∧
    ((client.send frame).phase = client.phase ∨
      ∃ e, (client.send frame).phase = .finished (.error e)) := by
  rw [send]
  split
  · exact ⟨rfl, .inl rfl⟩
  · exact ⟨rfl, .inr ⟨_, rfl⟩⟩

theorem answer_spec (jumpAuth : Option JumpAuthProvider) (client : ShellClient)
    (challenge : JumpAuthChallenge) :
    (client.answer jumpAuth challenge).output = client.output ∧
      ((client.answer jumpAuth challenge).phase = client.phase ∨
        ∃ e, (client.answer jumpAuth challenge).phase = .finished (.error e)) := by
  rw [answer]
  split
  · exact send_spec _
  · exact ⟨rfl, .inr ⟨_, rfl⟩⟩

theorem send_phase_congr (h : client.phase = other.phase) (frame : ClientFrame) :
    (client.send frame).phase = (other.send frame).phase := by
  rw [send, send]
  split
  · exact h
  · rfl

theorem answer_phase_congr (h : client.phase = other.phase) (challenge : JumpAuthChallenge) :
    (client.answer jumpAuth challenge).phase = (other.answer jumpAuth challenge).phase := by
  rw [answer, answer]
  split
  · exact send_phase_congr h _
  · rfl

/-- What becomes of the phase depends on the phase and the frame alone. -/
theorem onFrame_phase_congr (h : client.phase = other.phase) (frame : Option ServerFrame) :
    (client.onFrame jumpAuth frame).phase = (other.onFrame jumpAuth frame).phase := by
  rw [onFrame, onFrame, ← h]
  split
  · unfold onSetup
    split <;> first | rfl | exact answer_phase_congr h _ | exact h
  · unfold onStreaming
    split <;> first | rfl | exact h
  · exact h

/-- A frame that does not make the shell fail shows what it says. -/
theorem onFrame_output {frame : ServerFrame} (hrunning : ∀ r, client.phase ≠ .finished r)
    (h : ∀ e, (client.onFrame jumpAuth (some frame)).phase ≠ .finished (.error e)) :
    (client.onFrame jumpAuth (some frame)).output = client.output ++ frame.output := by
  rw [onFrame] at h ⊢
  split at h
  · cases frame with
    | ok | authRequired | cache => exact (append_nil _).symm
    | jumpAuthChallenge => exact (answer_spec _ _ _).1.trans (append_nil _).symm
    | error | stdout | stderr | exit | status => exact absurd rfl (h _)
  · cases frame with
    | ok | exit | cache => exact (append_nil _).symm
    | stdout | stderr => rfl
    | error | authRequired | status | jumpAuthChallenge => exact absurd rfl (h _)
  · exact absurd ‹_› (hrunning _)

/-- A shell completes on an exit frame, with its status. -/
theorem onFrame_exit {frame : ServerFrame} {status : Option UInt32} {reused : Bool}
    (hrunning : ∀ r, client.phase ≠ .finished r)
    (h : (client.onFrame jumpAuth (some frame)).phase = .finished (.ok (.completed status reused))) :
    frame = .exit status := by
  rw [onFrame] at h
  split at h
  · cases frame with
    | ok => exact absurd h (hrunning _)
    | jumpAuthChallenge index total attempt hostAlias host port previousFailed =>
        rcases (answer_spec jumpAuth client
          ⟨index, total, attempt, hostAlias, host, port, previousFailed⟩).2 with hsame | ⟨e, he⟩
        · exact absurd (hsame.symm.trans h) (hrunning _)
        · cases he.symm.trans h
    | _ => cases h
  · cases frame with
    | exit status' =>
        cases h
        rfl
    | ok | stdout | stderr => exact absurd h (hrunning _)
    | _ => cases h
  · exact absurd ‹_› (hrunning _)

/-- At the end of the stream a shell that still runs fails. -/
theorem onFrame_none (jumpAuth : Option JumpAuthProvider)
    (hrunning : ∀ r, client.phase ≠ .finished r) :
    ∃ e, (client.onFrame jumpAuth none).phase = .finished (.error e) := by
  rw [onFrame]
  split
  · exact ⟨_, rfl⟩
  · exact ⟨_, rfl⟩
  · exact absurd ‹_› (hrunning _)

end ShellClient

/-- Whatever one read of the local input gives can be sent. -/
theorem encodeClient_input (h : bytes.length ≤ OUTPUT_CHUNK_BYTES) :
    ∃ payload, encodeClient (.input bytes) = .ok payload := by
  have hlt : bytes.length < 2 ^ 32 := Nat.lt_of_le_of_lt h (by decide)
  have hput := putBytes_eq_ok.mpr
    ⟨h, UInt32.ofNat bytes.length, UInt32.toNat_ofNat_of_lt hlt, rfl⟩
  exact ⟨_, bind_eq_ok.mpr ⟨_, hput, rfl⟩⟩

/-! ## The invariant of the loop -/

variable {jumpAuth : Option JumpAuthProvider} {frames : List ServerFrame} {s : ShellState}

/-- Whether the shell goes on. -/
def ShellState.Running (s : ShellState) : Prop := ∀ r, s.client.phase ≠ .finished r

/-- While the shell runs, the bytes not yet processed are those of the frames not yet processed,
and the pending read holds less than a frame. -/
structure ShellInvariant (jumpAuth : Option JumpAuthProvider) (frames : List ServerFrame)
    (s : ShellState) : Prop where
  bytes : ∃ remaining, frames = s.received ++ remaining ∧
    (s.Running → encodeFrames remaining = .ok (s.held ++ s.available ++ s.inflight))
  held : s.Running → ∀ frame rest payload, frames = s.received ++ frame :: rest →
    encodeServer frame = .ok payload → s.held.length < (framed payload).length
  closed : s.closed = true → s.inflight = []
  output : (∀ e, s.client.phase ≠ .finished (.error e)) →
    s.client.output = s.received.flatMap ServerFrame.output
  exit : ∀ status reused, s.client.phase = .finished (.ok (.completed status reused)) →
    ∃ earlier, s.received = earlier ++ [.exit status]
  phase : s.client.phase = (ShellClient.replay jumpAuth s.received).phase ∨
    ∃ e, s.client.phase = .finished (.error e) ∧ ((s.closed = true ∧ s.received = frames) ∨
      ∃ kind, io kind kind.description = (.error e : Result Unit))

namespace ShellInvariant

theorem start {bytes : List UInt8} (h : encodeFrames frames = .ok bytes) :
    ShellInvariant jumpAuth frames (.start bytes) where
  bytes := ⟨frames, rfl, fun _ ↦ h⟩
  held := by
    intro _ frame rest payload _ _
    rw [length_framed]
    show 0 < 4 + payload.length
    omega
  closed := nofun
  output _ := rfl
  exit := nofun
  phase := .inl rfl

section

variable (h : ShellInvariant jumpAuth frames s)

include h

/-- The invariant says that the stream is intact. -/
theorem intact : StreamIntact jumpAuth frames s where
  inOrder := by
    obtain ⟨remaining, hframes, -⟩ := h.bytes
    exact ⟨remaining, hframes.symm⟩
  complete := by
    intro havailable hinflight hrunning
    obtain ⟨remaining, hframes, hbytes⟩ := h.bytes
    cases remaining with
    | nil => rw [hframes, append_nil]
    | cons frame rest =>
        -- All bytes of the next frame would be held, which is more than the read can hold.
        obtain ⟨payload, hpayload, bytes, -, hsplit⟩ := encodeFrames_cons.mp (hbytes hrunning)
        have hlt := h.held hrunning frame rest payload hframes hpayload
        rw [havailable, hinflight, append_nil, append_nil] at hsplit
        rw [hsplit, length_append] at hlt
        omega
  output := h.output
  exit := h.exit
  failure := by
    intro e he
    rcases h.phase with hphase | ⟨e', he', hcause⟩
    · exact .inl (hphase.symm.trans he)
    · cases he.symm.trans he'
      exact .inr hcause

/-- The invariant is about the bytes and not about where they are, as long as the read does not
hold a whole frame. -/
theorem regroup {held available inflight : List UInt8}
    (hsame : held ++ available ++ inflight = s.held ++ s.available ++ s.inflight)
    (hheld : s.Running → ∀ frame rest payload, frames = s.received ++ frame :: rest →
      encodeServer frame = .ok payload → held.length < (framed payload).length)
    (hclosed : s.closed = true → inflight = []) :
    ShellInvariant jumpAuth frames { s with held, available, inflight } where
  bytes := by
    obtain ⟨remaining, hframes, hbytes⟩ := h.bytes
    exact ⟨remaining, hframes, fun hrunning ↦ (hbytes hrunning).trans (congrArg _ hsame.symm)⟩
  held := hheld
  closed := hclosed
  output := h.output
  exit := h.exit
  phase := h.phase

theorem arrive (count : Nat) :
    ShellInvariant jumpAuth frames
      { s with available := s.available ++ s.inflight.take count, inflight := s.inflight.drop count } := by
  refine h.regroup ?_ h.held ?_
  · simp only [append_assoc, take_append_drop]
  · intro hclosed
    rw [h.closed hclosed, drop_nil]

theorem close (hinflight : s.inflight = []) :
    ShellInvariant jumpAuth frames { s with closed := true } where
  bytes := h.bytes
  held := h.held
  closed _ := hinflight
  output := h.output
  exit := h.exit
  phase := by
    rcases h.phase with hphase | ⟨e, he, ⟨_, hall⟩ | hlocal⟩
    · exact .inl hphase
    · exact .inr ⟨e, he, .inl ⟨rfl, hall⟩⟩
    · exact .inr ⟨e, he, .inr hlocal⟩

/-- A local event drops nothing when the read holds nothing. -/
theorem preempt (hheld : s.held = []) {client : ShellClient}
    (hphase : client.phase = s.client.phase) (houtput : client.output = s.client.output) :
    ShellInvariant jumpAuth frames (s.preempt client) := by
  have hrunning : (s.preempt client).Running ↔ s.Running := by
    simp only [ShellState.Running, ShellState.preempt, hphase]
  refine ⟨?_, ?_, h.closed, ?_, ?_, ?_⟩
  · obtain ⟨remaining, hframes, hbytes⟩ := h.bytes
    refine ⟨remaining, hframes, fun hr ↦ ?_⟩
    rw [hbytes (hrunning.mp hr), hheld]
    rfl
  · intro hr frame rest payload hframes hpayload
    have hlt := h.held (hrunning.mp hr) frame rest payload hframes hpayload
    rw [hheld] at hlt
    exact hlt
  · rw [ShellState.preempt, hphase, houtput]
    exact h.output
  · rw [ShellState.preempt, hphase]
    exact h.exit
  · rw [ShellState.preempt, hphase]
    exact h.phase

/-- A shell that has failed keeps to the frames that it processed. -/
theorem failed {t : ShellState} {e : AnyError} (he : t.client.phase = .finished (.error e))
    (hreceived : t.received = s.received) (hclosed : t.closed = s.closed)
    (hinflight : t.inflight = s.inflight)
    (hcause : (s.closed = true ∧ s.received = frames) ∨
      ∃ kind, io kind kind.description = (.error e : Result Unit)) :
    ShellInvariant jumpAuth frames t where
  bytes := by
    obtain ⟨remaining, hframes, -⟩ := h.bytes
    exact ⟨remaining, hreceived ▸ hframes, fun hrunning ↦ absurd he (hrunning _)⟩
  held hrunning := absurd he (hrunning _)
  closed := by
    rw [hclosed, hinflight]
    exact h.closed
  output hok := absurd he (hok _)
  exit status reused hexit := by cases he.symm.trans hexit
  phase := by
    rw [hreceived, hclosed]
    exact .inr ⟨e, he, hcause⟩

/-- The next frame is processed. -/
theorem frame (hrunning : s.Running) {frame : ServerFrame} {rest : List ServerFrame}
    (hframes : frames = s.received ++ frame :: rest) {available : List UInt8}
    (hrest : encodeFrames rest = .ok (available ++ s.inflight)) :
    ShellInvariant jumpAuth frames
      { s with
        client := s.client.onFrame jumpAuth (some frame)
        held := []
        available
        received := s.received ++ [frame] } where
  bytes := ⟨rest, by rw [hframes, append_assoc]; rfl, fun _ ↦ hrest⟩
  held := by
    intro _ frame' rest' payload _ _
    rw [length_framed]
    show 0 < 4 + payload.length
    omega
  closed := h.closed
  output := by
    intro hok
    have hbefore : ∀ e, s.client.phase ≠ .finished (.error e) := fun e ↦ hrunning _
    rw [ShellClient.onFrame_output hrunning hok, h.output hbefore, flatMap_append,
      flatMap_singleton]
  exit status reused hexit := ⟨s.received, by rw [ShellClient.onFrame_exit hrunning hexit]⟩
  phase := by
    rcases h.phase with hphase | ⟨e, he, -⟩
    · left
      rw [ShellClient.replay, foldl_append]
      exact ShellClient.onFrame_phase_congr hphase _
    · exact absurd he (hrunning _)

/-- A poll of the read takes less than the next frame and waits, processes that frame, or finds the
end of the stream behind the last frame. -/
theorem poll (hrunning : s.Running) (count : Nat) :
    ShellInvariant jumpAuth frames (s.poll jumpAuth count) := by
  obtain ⟨remaining, hframes, hbytes⟩ := h.bytes
  have hencode := hbytes hrunning
  have hsymbols : (s.polled count).symbols = s.held ++ s.available.take count :=
    Reader.symbols_ofSymbols _ _
  have htotal : s.held ++ s.available.take count ++ s.available.drop count ++ s.inflight =
      s.held ++ s.available ++ s.inflight := by
    rw [append_assoc s.held, take_append_drop]
  have hwait (hnone : (readServerFrame (s.polled count)).run = none)
      (hshort : ∀ frame rest payload, frames = s.received ++ frame :: rest →
        encodeServer frame = .ok payload →
          (s.polled count).symbols.length < (framed payload).length) :
      ShellInvariant jumpAuth frames (s.poll jumpAuth count) := by
    rw [ShellState.poll, hnone]
    rw [hsymbols] at hshort
    exact h.regroup htotal (fun _ ↦ hshort) h.closed
  cases remaining with
  | nil =>
      rw [append_nil] at hframes
      obtain ⟨hheld, havailable, -⟩ : s.held = [] ∧ s.available = [] ∧ s.inflight = [] := by
        simpa [encodeFrames] using hencode
      have hnil : (s.polled count).symbols = [] := by
        rw [hsymbols, hheld, havailable, take_nil, append_nil]
      by_cases hend : s.closed = true ∧ s.available.drop count = []
      · have htail : (s.polled count).tail = .eof := by
          rw [ShellState.polled, Reader.tail_ofSymbols, if_pos hend]
        obtain ⟨e, he⟩ := ShellClient.onFrame_none jumpAuth hrunning
        rw [ShellState.poll, (readServerFrame_nil hnil).2 htail]
        exact h.failed he (append_nil _) rfl rfl (.inl ⟨hend.1, hframes.symm⟩)
      · have htail : (s.polled count).tail = .pending := by
          rw [ShellState.polled, Reader.tail_ofSymbols, if_neg hend]
        apply hwait ((readServerFrame_nil hnil).1 htail)
        intro frame rest payload hcons _
        rw [hframes] at hcons
        exact absurd hcons (by simp)
  | cons frame rest =>
      obtain ⟨payload, hpayload, bytes, hrest, hsplit⟩ := encodeFrames_cons.mp hencode
      rw [← htotal, ← hsymbols, append_assoc] at hsplit
      have hleft : (s.polled count).symbols <+: framed payload ++ bytes := ⟨_, hsplit⟩
      have hright : framed payload <+: framed payload ++ bytes := prefix_append _ _
      rcases Nat.lt_or_ge (s.polled count).symbols.length (framed payload).length with hlt | hle
      · obtain ⟨missing, hmissing⟩ := prefix_of_prefix_length_le hleft hright hlt.le
        have hne : missing ≠ [] := by
          rintro rfl
          rw [← hmissing, append_nil] at hlt
          exact absurd hlt (Nat.lt_irrefl _)
        have htail : (s.polled count).tail = .pending := by
          rw [ShellState.polled, Reader.tail_ofSymbols, if_neg]
          -- At the end of the stream the frame would be there as a whole.
          rintro ⟨hclosed, hdrop⟩
          rw [hdrop, h.closed hclosed, append_nil, append_nil] at hsplit
          rw [hsplit, length_append] at hlt
          omega
        apply hwait (readServerFrame_pending hpayload htail hne hmissing)
        intro frame' rest' payload' hcons hpayload'
        obtain ⟨rfl, -⟩ := List.cons.inj (append_cancel_left (hframes.symm.trans hcons))
        cases hpayload.symm.trans hpayload'
        exact hlt
      · obtain ⟨more, hmore⟩ := prefix_of_prefix_length_le hright hleft hle
        obtain ⟨reader, hread, hreader⟩ := readServerFrame_framed hpayload hmore.symm
        rw [← hmore, append_assoc] at hsplit
        have hbytes' := append_cancel_left hsplit
        rw [ShellState.poll, hread]
        apply h.frame hrunning hframes
        rw [hrest, ← hbytes', hreader, append_assoc]

/-- One event keeps the invariant, if it does not preempt the read of a frame in the middle. -/
theorem step {event : ShellEvent} {t : ShellState} (hbetween : BetweenFrames s event)
    (hstep : s.step jumpAuth event = some t) : ShellInvariant jumpAuth frames t := by
  cases event with
  | arrive count =>
      cases hstep
      exact h.arrive count
  | close =>
      rw [ShellState.step] at hstep
      split at hstep
      · cases hstep
        exact h.close ‹_›
      · cases hstep
  | poll count =>
      rw [ShellState.step] at hstep
      split at hstep
      · cases hstep
      · rename_i hrunning
        cases hstep
        exact h.poll hrunning count
  | input bytes =>
      rw [ShellState.step] at hstep
      split at hstep
      · split at hstep
        · cases hstep
        · rename_i hallowed
          split at hstep
          · cases hstep
            exact h.preempt hbetween (ShellClient.send_phase rfl) (ShellClient.send_spec _).1
          · cases hstep
            obtain ⟨payload, hpayload⟩ :=
              encodeClient_input (Nat.le_of_not_lt fun hlong ↦ hallowed (.inr hlong))
            exact h.preempt hbetween (ShellClient.send_phase hpayload) (ShellClient.send_spec _).1
      · cases hstep
  | inputFailed kind =>
      rw [ShellState.step] at hstep
      split at hstep
      · split at hstep
        · cases hstep
        · cases hstep
          exact h.failed rfl rfl rfl rfl (.inr ⟨kind, rfl⟩)
      · cases hstep
  | resize columns rows =>
      rw [ShellState.step] at hstep
      split at hstep
      · cases hstep
        exact h.preempt hbetween (ShellClient.send_phase rfl) (ShellClient.send_spec _).1
      · cases hstep

end

end ShellInvariant

/-! ## Whole runs -/

/-- In every run in which local events find the read of a frame between two frames, the client
processes exactly the frames that were sent. -/
theorem shell_stream_intact (jumpAuth : Option JumpAuthProvider) {frames : List ServerFrame}
    (hbytes : encodeFrames frames = .ok bytes) {s : ShellState}
    (hrun : Reaches (ShellState.step jumpAuth) BetweenFrames (.start bytes) s) :
    StreamIntact jumpAuth frames s := by
  have hinvariant : ShellInvariant jumpAuth frames s := by
    refine hrun.invariant (ShellInvariant.start hbytes) ?_
    intro t event u h hbetween hstep
    exact h.step hbetween hstep
  exact hinvariant.intact

/-- A server that accepts a shell, shows two bytes and exits. -/
def sampleFrames : List ServerFrame := [.cache true, .stdout [104, 105], .exit (some 7)]

def sampleBytes : List UInt8 :=
  [0, 0, 0, 2, 71, 1, 0, 0, 0, 7, 67, 0, 0, 0, 2, 104, 105, 0, 0, 0, 6, 69, 1, 0, 0, 0, 7]

/-- Input between two frames: the terminal shows what the server sent. -/
theorem shell_stream_intact_sample :
    ∃ s, runEvents (ShellState.step none) (.start sampleBytes)
        [.arrive 9, .poll 6, .input [97], .poll 2, .arrive 18, .poll 9, .poll 10] = some s ∧
      s.client.phase = .finished (.ok (.completed (some 7) true)) ∧
      s.client.output = [104, 105] ∧ StreamIntact none sampleFrames s := by
  have hstart : Reaches (ShellState.step none) BetweenFrames (.start sampleBytes) _ := .start
  have hrun := hstart.next (e := ShellEvent.arrive 9) trivial rfl
    |>.next (e := ShellEvent.poll 6) trivial rfl
    |>.next (e := ShellEvent.input [97]) rfl rfl
    |>.next (e := ShellEvent.poll 2) trivial rfl
    |>.next (e := ShellEvent.arrive 18) trivial rfl
    |>.next (e := ShellEvent.poll 9) trivial rfl
    |>.next (e := ShellEvent.poll 10) trivial rfl
  exact ⟨_, rfl, by decide, by decide, shell_stream_intact none (by decide) hrun⟩

/-- One byte of a frame has been taken when input wins: the frames that follow are never
processed, though all their bytes arrive. -/
theorem shell_stream_broken :
    encodeFrames sampleFrames = .ok sampleBytes ∧
    ∃ s, Reaches (ShellState.step none) (fun _ _ ↦ True) (.start sampleBytes) s ∧
      ¬StreamIntact none sampleFrames s := by
  have hrun : runEvents (ShellState.step none) (.start sampleBytes)
      [.arrive 7, .poll 6, .poll 1, .input [97], .arrive 20, .poll 20] =
      some ⟨⟨.streaming true, false, [], [.input [97]]⟩, sampleBytes.drop 7, [], [], false,
        [.cache true]⟩ := by
    decide
  refine ⟨by decide, _, Reaches.start.runEvents _ hrun, ?_⟩
  intro hintact
  exact absurd (hintact.complete rfl rfl nofun) (by decide)

end KaduoxSsh.Daemon
