import KaduoxSsh.Daemon.Cursor

/-!
# The frames between a client and the daemon

A payload is a tag and then the fields of the frame with that tag. Decoding is
exact for encoding, so that a frame has one payload and a payload one frame
(`decodeClient_iff`, `decodeServer_iff`).
-/

namespace KaduoxSsh.Daemon

open Codec Result List

def MAX_FRAME_BYTES : Nat := 1024 * 1024
def MAX_ALIAS_BYTES : Nat := 128
def MAX_COMMAND_BYTES : Nat := 256 * 1024
def OUTPUT_CHUNK_BYTES : Nat := 16 * 1024

@[match_pattern] def TAG_PING : UInt8 := 1
@[match_pattern] def TAG_STATUS : UInt8 := 2
@[match_pattern] def TAG_DISCONNECT : UInt8 := 3
@[match_pattern] def TAG_EXEC : UInt8 := 4
@[match_pattern] def TAG_SHELL : UInt8 := 5
@[match_pattern] def TAG_INPUT : UInt8 := 6
@[match_pattern] def TAG_RESIZE : UInt8 := 7
@[match_pattern] def TAG_EOF : UInt8 := 8
@[match_pattern] def TAG_SHUTDOWN : UInt8 := 9
@[match_pattern] def TAG_JUMP_AUTH_RESPONSE : UInt8 := 10

@[match_pattern] def TAG_OK : UInt8 := 64
@[match_pattern] def TAG_ERROR : UInt8 := 65
@[match_pattern] def TAG_AUTH_REQUIRED : UInt8 := 66
@[match_pattern] def TAG_STDOUT : UInt8 := 67
@[match_pattern] def TAG_STDERR : UInt8 := 68
@[match_pattern] def TAG_EXIT : UInt8 := 69
@[match_pattern] def TAG_STATUS_RESPONSE : UInt8 := 70
@[match_pattern] def TAG_CACHE : UInt8 := 71
@[match_pattern] def TAG_JUMP_AUTH_CHALLENGE : UInt8 := 72

inductive ClientFrame where
  | ping
  | status
  | disconnect (hostAlias : String)
  | exec (hostAlias : String) (auth : Option AuthRequest) (command : String) (asUser : Option String)
  | shell (hostAlias : String) (auth : Option AuthRequest) (term : String) (columns rows : UInt32)
      (asUser : Option String)
  | input (bytes : List UInt8)
  | resize (columns rows : UInt32)
  | eof
  | shutdown
  | jumpAuthResponse (auth : Option AuthRequest)
deriving DecidableEq, Repr

/-- The counters of a status and the place in a jump chain are words of the machine. -/
inductive ServerFrame where
  | ok
  | error (message : String)
  | authRequired
  | stdout (bytes : List UInt8)
  | stderr (bytes : List UInt8)
  | exit (status : Option UInt32)
  | status (totalConnections inUseConnections activeLeases maxConnections availableCapacity : UInt64)
  | cache (reused : Bool)
  | jumpAuthChallenge (index total attempt : UInt64) (hostAlias host : String) (port : UInt16)
      (previousFailed : Bool)
deriving DecidableEq, Repr

/-! ## Frames of the client -/

def encodeClient (frame : ClientFrame) : Result (List UInt8) :=
  match frame with
  | .ping => .ok [TAG_PING]
  | .status => .ok [TAG_STATUS]
  | .disconnect hostAlias => do
      return TAG_DISCONNECT :: (← putString hostAlias MAX_ALIAS_BYTES)
  | .exec hostAlias auth command asUser => do
      return TAG_EXEC :: ((← putString hostAlias MAX_ALIAS_BYTES) ++ (← putAuth auth) ++
        (← putString command MAX_COMMAND_BYTES) ++ (← putOptionalString asUser MAX_ALIAS_BYTES))
  | .shell hostAlias auth term columns rows asUser => do
      return TAG_SHELL :: ((← putString hostAlias MAX_ALIAS_BYTES) ++ (← putAuth auth) ++
        (← putString term 256) ++ putU32 columns ++ putU32 rows ++
        (← putOptionalString asUser MAX_ALIAS_BYTES))
  | .input bytes => do
      return TAG_INPUT :: (← putBytes bytes OUTPUT_CHUNK_BYTES)
  | .resize columns rows => .ok (TAG_RESIZE :: (putU32 columns ++ putU32 rows))
  | .eof => .ok [TAG_EOF]
  | .shutdown => .ok [TAG_SHUTDOWN]
  | .jumpAuthResponse auth => do
      return TAG_JUMP_AUTH_RESPONSE :: (← putAuth auth)

/-- The fields that follow a tag. -/
def clientFields (tag : UInt8) : Decoder ClientFrame :=
  match tag with
  | TAG_PING => return .ping
  | TAG_STATUS => return .status
  | TAG_DISCONNECT => do
      return .disconnect (← Cursor.string MAX_ALIAS_BYTES)
  | TAG_EXEC => do
      return .exec (← Cursor.string MAX_ALIAS_BYTES) (← Cursor.auth)
        (← Cursor.string MAX_COMMAND_BYTES) (← Cursor.optionalString MAX_ALIAS_BYTES)
  | TAG_SHELL => do
      return .shell (← Cursor.string MAX_ALIAS_BYTES) (← Cursor.auth)
        (← Cursor.string 256) (← Cursor.u32) (← Cursor.u32)
        (← Cursor.optionalString MAX_ALIAS_BYTES)
  | TAG_INPUT => do
      return .input (← Cursor.byteString OUTPUT_CHUNK_BYTES)
  | TAG_RESIZE => do
      return .resize (← Cursor.u32) (← Cursor.u32)
  | TAG_EOF => return .eof
  | TAG_SHUTDOWN => return .shutdown
  | TAG_JUMP_AUTH_RESPONSE => do
      return .jumpAuthResponse (← Cursor.auth)
  | tag => Decoder.bail s!"unknown daemon client frame tag {tag}"

def decodeClient (payload : List UInt8) : Result ClientFrame :=
  Cursor.whole (Cursor.u8 >>= clientFields) payload

/-! ## Frames of the server -/

def encodeServer (frame : ServerFrame) : Result (List UInt8) :=
  match frame with
  | .ok => .ok [TAG_OK]
  | .error message => do
      return TAG_ERROR :: (← putString message MAX_COMMAND_BYTES)
  | .authRequired => .ok [TAG_AUTH_REQUIRED]
  | .stdout bytes => do
      return TAG_STDOUT :: (← putBytes bytes OUTPUT_CHUNK_BYTES)
  | .stderr bytes => do
      return TAG_STDERR :: (← putBytes bytes OUTPUT_CHUNK_BYTES)
  | .exit status =>
      match status with
      | some status => .ok (TAG_EXIT :: 1 :: putU32 status)
      | none => .ok [TAG_EXIT, 0]
  | .status totalConnections inUseConnections activeLeases maxConnections availableCapacity =>
      .ok (TAG_STATUS_RESPONSE :: [totalConnections, inUseConnections, activeLeases,
        maxConnections, availableCapacity].flatMap putU64)
  | .cache reused => .ok (TAG_CACHE :: putBool reused)
  | .jumpAuthChallenge index total attempt hostAlias host port previousFailed => do
      return TAG_JUMP_AUTH_CHALLENGE :: ((← putUsizeU32 index "jump index") ++
        (← putUsizeU32 total "jump count") ++ (← putUsizeU32 attempt "jump auth attempt") ++
        (← putString hostAlias MAX_ALIAS_BYTES) ++ (← putString host 4096) ++ putU16 port ++
        putBool previousFailed)

/-- A counter of a status response. -/
def statusCounter : Decoder UInt64 := do
  StateT.lift (usizeFromU64 (← Cursor.u64))

/-- A position in the jump chain. -/
def chainPosition : Decoder UInt64 := do
  return usizeFromU32 (← Cursor.u32)

/-- The presence flag of an exit status, and the status. -/
def exitStatus : Decoder (Option UInt32) := do
  match ← Cursor.u8 with
  | 0 => return none
  | 1 => return some (← Cursor.u32)
  | present => Decoder.bail s!"invalid daemon exit-status presence flag {present}"

def serverFields (tag : UInt8) : Decoder ServerFrame :=
  match tag with
  | TAG_OK => return .ok
  | TAG_ERROR => do
      return .error (← Cursor.string MAX_COMMAND_BYTES)
  | TAG_AUTH_REQUIRED => return .authRequired
  | TAG_STDOUT => do
      return .stdout (← Cursor.byteString OUTPUT_CHUNK_BYTES)
  | TAG_STDERR => do
      return .stderr (← Cursor.byteString OUTPUT_CHUNK_BYTES)
  | TAG_EXIT => do
      return .exit (← exitStatus)
  | TAG_STATUS_RESPONSE => do
      return .status (← statusCounter) (← statusCounter) (← statusCounter)
        (← statusCounter) (← statusCounter)
  | TAG_CACHE => do
      return .cache (← Cursor.bool)
  | TAG_JUMP_AUTH_CHALLENGE => do
      return .jumpAuthChallenge (← chainPosition) (← chainPosition)
        (← chainPosition) (← Cursor.string MAX_ALIAS_BYTES) (← Cursor.string 4096) (← Cursor.u16)
        (← Cursor.bool)
  | tag => Decoder.bail s!"unknown daemon server frame tag {tag}"

def decodeServer (payload : List UInt8) : Result ServerFrame :=
  Cursor.whole (Cursor.u8 >>= serverFields) payload

/-! ## Exactness of the frames -/

open Cursor

/-- Fields that are read behind a tag are those of the frame that is read. -/
theorem client_word {tag : UInt8} {pre rest : List UInt8} {frame : ClientFrame} {s : Cursor}
    (h : (clientFields tag).run (between (pre ++ [tag]) rest) = .ok (frame, s)) :
    ∃ word after, encodeClient frame = .ok word ∧ [tag] ++ rest = word ++ after ∧
      s = between (pre ++ word) after := by
  unfold clientFields at h
  split at h
  · cases h
    exact ⟨[TAG_PING], rest, rfl, rfl, rfl⟩
  · cases h
    exact ⟨[TAG_STATUS], rest, rfl, rfl, rfl⟩
  · obtain ⟨hostAlias, word, rest, hput, rfl, hret⟩ := (string_exact _).bind.mp h
    cases hret
    exact ⟨TAG_DISCONNECT :: word, rest, bind_eq_ok.mpr ⟨word, hput, rfl⟩, rfl,
      by simp [TAG_DISCONNECT]⟩
  · simp only [(string_exact _).bind, auth_exact.bind, (optionalString_exact _).bind] at h
    obtain ⟨hostAlias, w₁, _, h₁, rfl, auth, w₂, _, h₂, rfl, command, w₃, _, h₃, rfl,
      asUser, w₄, rest, h₄, rfl, hret⟩ := h
    cases hret
    exact ⟨TAG_EXEC :: (w₁ ++ w₂ ++ w₃ ++ w₄), rest, by simp [encodeClient, h₁, h₂, h₃, h₄],
      by simp [TAG_EXEC], by simp [TAG_EXEC]⟩
  · simp only [(string_exact _).bind, auth_exact.bind, u32_exact.bind,
      (optionalString_exact _).bind] at h
    obtain ⟨hostAlias, w₁, _, h₁, rfl, auth, w₂, _, h₂, rfl, term, w₃, _, h₃, rfl,
      columns, _, _, ⟨⟩, rfl, rows, _, _, ⟨⟩, rfl, asUser, w₄, rest, h₄, rfl, hret⟩ := h
    cases hret
    exact ⟨TAG_SHELL :: (w₁ ++ w₂ ++ w₃ ++ putU32 columns ++ putU32 rows ++ w₄), rest,
      by simp [encodeClient, h₁, h₂, h₃, h₄], by simp [TAG_SHELL], by simp [TAG_SHELL]⟩
  · obtain ⟨bytes, word, rest, hput, rfl, hret⟩ := (byteString_exact _).bind.mp h
    cases hret
    exact ⟨TAG_INPUT :: word, rest, bind_eq_ok.mpr ⟨word, hput, rfl⟩, rfl, by simp [TAG_INPUT]⟩
  · simp only [u32_exact.bind] at h
    obtain ⟨columns, _, _, ⟨⟩, rfl, rows, _, rest, ⟨⟩, rfl, hret⟩ := h
    cases hret
    exact ⟨TAG_RESIZE :: (putU32 columns ++ putU32 rows), rest, rfl, by simp [TAG_RESIZE],
      by simp [TAG_RESIZE]⟩
  · cases h
    exact ⟨[TAG_EOF], rest, rfl, rfl, rfl⟩
  · cases h
    exact ⟨[TAG_SHUTDOWN], rest, rfl, rfl, rfl⟩
  · obtain ⟨auth, word, rest, hput, rfl, hret⟩ := auth_exact.bind.mp h
    cases hret
    exact ⟨TAG_JUMP_AUTH_RESPONSE :: word, rest, bind_eq_ok.mpr ⟨word, hput, rfl⟩, rfl,
      by simp [TAG_JUMP_AUTH_RESPONSE]⟩
  · cases h

/-- The encoding of a frame is read back. -/
theorem client_run {frame : ClientFrame} {word : List UInt8} (hput : encodeClient frame = .ok word)
    (pre rest : List UInt8) : (u8 >>= clientFields).run (between pre (word ++ rest)) =
      .ok (frame, between (pre ++ word) rest) := by
  rw [u8_exact.bind]
  cases frame with
  | ping =>
      cases hput
      exact ⟨TAG_PING, _, rest, rfl, rfl, rfl⟩
  | status =>
      cases hput
      exact ⟨TAG_STATUS, _, rest, rfl, rfl, rfl⟩
  | disconnect hostAlias =>
      obtain ⟨word, hword, hret⟩ := bind_eq_ok.mp hput
      cases hret
      refine ⟨TAG_DISCONNECT, _, word ++ rest, rfl, rfl, ?_⟩
      exact (string_exact _).bind.mpr ⟨hostAlias, word, rest, hword, rfl, by simp⟩
  | exec hostAlias auth command asUser =>
      simp only [encodeClient, bind_eq_ok] at hput
      obtain ⟨w₁, h₁, w₂, h₂, w₃, h₃, w₄, h₄, ⟨⟩⟩ := hput
      refine ⟨TAG_EXEC, _, w₁ ++ (w₂ ++ (w₃ ++ (w₄ ++ rest))), rfl, by simp, ?_⟩
      refine (string_exact _).bind.mpr ⟨hostAlias, w₁, _, h₁, rfl, ?_⟩
      refine auth_exact.bind.mpr ⟨auth, w₂, _, h₂, rfl, ?_⟩
      refine (string_exact _).bind.mpr ⟨command, w₃, _, h₃, rfl, ?_⟩
      exact (optionalString_exact _).bind.mpr ⟨asUser, w₄, rest, h₄, rfl, by simp⟩
  | shell hostAlias auth term columns rows asUser =>
      simp only [encodeClient, bind_eq_ok] at hput
      obtain ⟨w₁, h₁, w₂, h₂, w₃, h₃, w₄, h₄, ⟨⟩⟩ := hput
      refine ⟨TAG_SHELL, _, w₁ ++ (w₂ ++ (w₃ ++ (putU32 columns ++ (putU32 rows ++
        (w₄ ++ rest))))), rfl, by simp, ?_⟩
      refine (string_exact _).bind.mpr ⟨hostAlias, w₁, _, h₁, rfl, ?_⟩
      refine auth_exact.bind.mpr ⟨auth, w₂, _, h₂, rfl, ?_⟩
      refine (string_exact _).bind.mpr ⟨term, w₃, _, h₃, rfl, ?_⟩
      refine u32_exact.bind.mpr ⟨columns, _, _, rfl, rfl, ?_⟩
      refine u32_exact.bind.mpr ⟨rows, _, _, rfl, rfl, ?_⟩
      exact (optionalString_exact _).bind.mpr ⟨asUser, w₄, rest, h₄, rfl, by simp⟩
  | input bytes =>
      obtain ⟨word, hword, hret⟩ := bind_eq_ok.mp hput
      cases hret
      refine ⟨TAG_INPUT, _, word ++ rest, rfl, rfl, ?_⟩
      exact (byteString_exact _).bind.mpr ⟨bytes, word, rest, hword, rfl, by simp⟩
  | resize columns rows =>
      cases hput
      refine ⟨TAG_RESIZE, _, putU32 columns ++ (putU32 rows ++ rest), rfl, by simp, ?_⟩
      refine u32_exact.bind.mpr ⟨columns, _, _, rfl, rfl, ?_⟩
      exact u32_exact.bind.mpr ⟨rows, _, rest, rfl, rfl, by simp⟩
  | eof =>
      cases hput
      exact ⟨TAG_EOF, _, rest, rfl, rfl, rfl⟩
  | shutdown =>
      cases hput
      exact ⟨TAG_SHUTDOWN, _, rest, rfl, rfl, rfl⟩
  | jumpAuthResponse auth =>
      obtain ⟨word, hword, hret⟩ := bind_eq_ok.mp hput
      cases hret
      refine ⟨TAG_JUMP_AUTH_RESPONSE, _, word ++ rest, rfl, rfl, ?_⟩
      exact auth_exact.bind.mpr ⟨auth, word, rest, hword, rfl, by simp⟩

theorem client_exact : Exact between encodeClient (u8 >>= clientFields) := by
  intro pre input frame s
  constructor
  · intro h
    obtain ⟨tag, _, rest, ⟨⟩, rfl, hfields⟩ := u8_exact.bind.mp h
    exact client_word hfields
  · rintro ⟨word, rest, hput, rfl, rfl⟩
    exact client_run hput pre rest

variable {payload : List UInt8} {word : List UInt8} {max : Nat}

/-- A payload is decoded to a frame exactly when it is the encoding of that frame. -/
theorem decodeClient_iff {frame : ClientFrame} :
    decodeClient payload = .ok frame ↔ encodeClient frame = .ok payload :=
  whole_iff client_exact

/-! ### Frames of the server -/

theorem statusCounter_exact : Exact between (fun v ↦ .ok (putU64 v)) statusCounter :=
  u64_exact.mapM (f := usizeFromU64) (g := .ok) fun v w ↦ by
    rw [usizeFromU64, Except.ok.injEq, Except.ok.injEq, eq_comm]

theorem chainPosition_exact (label : String) :
    Exact between (putUsizeU32 · label) chainPosition :=
  usizeU32_exact label

/-- The exit status as `encodeServer` writes it after the tag. -/
def putExitStatus : Option UInt32 → List UInt8
  | some status => 1 :: putU32 status
  | none => [0]

theorem exitStatus_exact : Exact between (fun v ↦ .ok (putExitStatus v)) exitStatus := by
  intro pre input status s
  rw [exitStatus, u8_exact.bind]
  constructor
  · rintro ⟨flag, _, rest, ⟨⟩, rfl, h⟩
    split at h
    · cases h
      exact ⟨[0], rest, rfl, rfl, rfl⟩
    · obtain ⟨status, _, rest, ⟨⟩, rfl, hret⟩ := u32_exact.bind.mp h
      cases hret
      exact ⟨1 :: putU32 status, rest, rfl, rfl, by simp⟩
    · cases h
  · rintro ⟨_, rest, ⟨⟩, rfl, rfl⟩
    cases status with
    | none => exact ⟨0, _, rest, rfl, rfl, rfl⟩
    | some status =>
        refine ⟨1, _, putU32 status ++ rest, rfl, rfl, ?_⟩
        exact u32_exact.bind.mpr ⟨status, _, rest, rfl, rfl, by simp [putExitStatus]⟩

/-- Fields that are read behind a tag are those of the frame that is read. -/
theorem server_word {tag : UInt8} {pre rest : List UInt8} {frame : ServerFrame} {s : Cursor}
    (h : (serverFields tag).run (between (pre ++ [tag]) rest) = .ok (frame, s)) :
    ∃ word after, encodeServer frame = .ok word ∧ [tag] ++ rest = word ++ after ∧
      s = between (pre ++ word) after := by
  unfold serverFields at h
  split at h
  · cases h
    exact ⟨[TAG_OK], rest, rfl, rfl, rfl⟩
  · obtain ⟨message, word, rest, hput, rfl, hret⟩ := (string_exact _).bind.mp h
    cases hret
    exact ⟨TAG_ERROR :: word, rest, bind_eq_ok.mpr ⟨word, hput, rfl⟩, rfl,
      by simp [TAG_ERROR]⟩
  · cases h
    exact ⟨[TAG_AUTH_REQUIRED], rest, rfl, rfl, rfl⟩
  · obtain ⟨bytes, word, rest, hput, rfl, hret⟩ := (byteString_exact _).bind.mp h
    cases hret
    exact ⟨TAG_STDOUT :: word, rest, bind_eq_ok.mpr ⟨word, hput, rfl⟩, rfl,
      by simp [TAG_STDOUT]⟩
  · obtain ⟨bytes, word, rest, hput, rfl, hret⟩ := (byteString_exact _).bind.mp h
    cases hret
    exact ⟨TAG_STDERR :: word, rest, bind_eq_ok.mpr ⟨word, hput, rfl⟩, rfl,
      by simp [TAG_STDERR]⟩
  · obtain ⟨status, _, rest, ⟨⟩, rfl, hret⟩ := exitStatus_exact.bind.mp h
    cases hret
    refine ⟨TAG_EXIT :: putExitStatus status, rest, ?_, rfl, by simp [TAG_EXIT]⟩
    cases status <;> rfl
  · simp only [statusCounter_exact.bind] at h
    obtain ⟨n₁, _, _, ⟨⟩, rfl, n₂, _, _, ⟨⟩, rfl, n₃, _, _, ⟨⟩, rfl, n₄, _, _, ⟨⟩, rfl,
      n₅, _, rest, ⟨⟩, rfl, hret⟩ := h
    cases hret
    exact ⟨TAG_STATUS_RESPONSE :: [n₁, n₂, n₃, n₄, n₅].flatMap putU64, rest, rfl,
      by simp [TAG_STATUS_RESPONSE], by simp [TAG_STATUS_RESPONSE]⟩
  · obtain ⟨reused, _, rest, ⟨⟩, rfl, hret⟩ := bool_exact.bind.mp h
    cases hret
    exact ⟨TAG_CACHE :: putBool reused, rest, rfl, rfl, by simp [TAG_CACHE]⟩
  · rw [(chainPosition_exact "jump index").bind] at h
    obtain ⟨index, w₁, _, h₁, rfl, h⟩ := h
    rw [(chainPosition_exact "jump count").bind] at h
    obtain ⟨total, w₂, _, h₂, rfl, h⟩ := h
    rw [(chainPosition_exact "jump auth attempt").bind] at h
    simp only [(string_exact _).bind, u16_exact.bind, bool_exact.bind] at h
    obtain ⟨attempt, w₃, _, h₃, rfl, hostAlias, w₄, _, h₄, rfl, host, w₅, _, h₅, rfl,
      port, _, _, ⟨⟩, rfl, previousFailed, _, rest, ⟨⟩, rfl, hret⟩ := h
    cases hret
    exact ⟨TAG_JUMP_AUTH_CHALLENGE :: (w₁ ++ w₂ ++ w₃ ++ w₄ ++ w₅ ++ putU16 port ++
      putBool previousFailed), rest, by simp [encodeServer, h₁, h₂, h₃, h₄, h₅],
      by simp [TAG_JUMP_AUTH_CHALLENGE], by simp [TAG_JUMP_AUTH_CHALLENGE]⟩
  · cases h

/-- The encoding of a frame is read back. -/
theorem server_run {frame : ServerFrame} {word : List UInt8} (hput : encodeServer frame = .ok word)
    (pre rest : List UInt8) : (u8 >>= serverFields).run (between pre (word ++ rest)) =
      .ok (frame, between (pre ++ word) rest) := by
  rw [u8_exact.bind]
  cases frame with
  | ok =>
      cases hput
      exact ⟨TAG_OK, _, rest, rfl, rfl, rfl⟩
  | error message =>
      obtain ⟨word, hword, hret⟩ := bind_eq_ok.mp hput
      cases hret
      refine ⟨TAG_ERROR, _, word ++ rest, rfl, rfl, ?_⟩
      exact (string_exact _).bind.mpr ⟨message, word, rest, hword, rfl, by simp⟩
  | authRequired =>
      cases hput
      exact ⟨TAG_AUTH_REQUIRED, _, rest, rfl, rfl, rfl⟩
  | stdout bytes =>
      obtain ⟨word, hword, hret⟩ := bind_eq_ok.mp hput
      cases hret
      refine ⟨TAG_STDOUT, _, word ++ rest, rfl, rfl, ?_⟩
      exact (byteString_exact _).bind.mpr ⟨bytes, word, rest, hword, rfl, by simp⟩
  | stderr bytes =>
      obtain ⟨word, hword, hret⟩ := bind_eq_ok.mp hput
      cases hret
      refine ⟨TAG_STDERR, _, word ++ rest, rfl, rfl, ?_⟩
      exact (byteString_exact _).bind.mpr ⟨bytes, word, rest, hword, rfl, by simp⟩
  | exit status =>
      have hword : encodeServer (.exit status) = .ok (TAG_EXIT :: putExitStatus status) := by
        cases status <;> rfl
      cases hword.symm.trans hput
      refine ⟨TAG_EXIT, _, putExitStatus status ++ rest, rfl, rfl, ?_⟩
      exact exitStatus_exact.bind.mpr ⟨status, _, rest, rfl, rfl, by simp⟩
  | status n₁ n₂ n₃ n₄ n₅ =>
      cases hput
      refine ⟨TAG_STATUS_RESPONSE, _, putU64 n₁ ++ (putU64 n₂ ++ (putU64 n₃ ++ (putU64 n₄ ++
        (putU64 n₅ ++ rest)))), rfl, by simp, ?_⟩
      refine statusCounter_exact.bind.mpr ⟨n₁, _, _, rfl, rfl, ?_⟩
      refine statusCounter_exact.bind.mpr ⟨n₂, _, _, rfl, rfl, ?_⟩
      refine statusCounter_exact.bind.mpr ⟨n₃, _, _, rfl, rfl, ?_⟩
      refine statusCounter_exact.bind.mpr ⟨n₄, _, _, rfl, rfl, ?_⟩
      exact statusCounter_exact.bind.mpr ⟨n₅, _, rest, rfl, rfl, by simp⟩
  | cache reused =>
      cases hput
      refine ⟨TAG_CACHE, _, putBool reused ++ rest, rfl, rfl, ?_⟩
      exact bool_exact.bind.mpr ⟨reused, _, rest, rfl, rfl, by simp⟩
  | jumpAuthChallenge index total attempt hostAlias host port previousFailed =>
      simp only [encodeServer, bind_eq_ok] at hput
      obtain ⟨w₁, h₁, w₂, h₂, w₃, h₃, w₄, h₄, w₅, h₅, ⟨⟩⟩ := hput
      refine ⟨TAG_JUMP_AUTH_CHALLENGE, _, w₁ ++ (w₂ ++ (w₃ ++ (w₄ ++ (w₅ ++ (putU16 port ++
        (putBool previousFailed ++ rest)))))), rfl, by simp, ?_⟩
      refine (chainPosition_exact _).bind.mpr ⟨index, w₁, _, h₁, rfl, ?_⟩
      refine (chainPosition_exact _).bind.mpr ⟨total, w₂, _, h₂, rfl, ?_⟩
      refine (chainPosition_exact _).bind.mpr ⟨attempt, w₃, _, h₃, rfl, ?_⟩
      refine (string_exact _).bind.mpr ⟨hostAlias, w₄, _, h₄, rfl, ?_⟩
      refine (string_exact _).bind.mpr ⟨host, w₅, _, h₅, rfl, ?_⟩
      refine u16_exact.bind.mpr ⟨port, _, _, rfl, rfl, ?_⟩
      exact bool_exact.bind.mpr ⟨previousFailed, _, rest, rfl, rfl, by simp⟩

theorem server_exact : Exact between encodeServer (u8 >>= serverFields) := by
  intro pre input frame s
  constructor
  · intro h
    obtain ⟨tag, _, rest, ⟨⟩, rfl, hfields⟩ := u8_exact.bind.mp h
    exact server_word hfields
  · rintro ⟨word, rest, hput, rfl, rfl⟩
    exact server_run hput pre rest

/-- A payload is decoded to a frame exactly when it is the encoding of that frame. -/
theorem decodeServer_iff {frame : ServerFrame} :
    decodeServer payload = .ok frame ↔ encodeServer frame = .ok payload :=
  whole_iff server_exact

/-! ## Fields within their limits -/

/-- A text has at most the bytes its field may have. -/
def Fits (value : String) (max : Nat) : Prop := (Text.utf8 value).length ≤ max

theorem exists_putString {value : String} (hmax : max < 2 ^ 32) :
    (∃ word, putString value max = .ok word) ↔ Fits value max := by
  constructor
  · rintro ⟨word, h⟩
    exact (putBytes_eq_ok.mp h).1
  · intro h
    have hlt : (Text.utf8 value).length < 2 ^ 32 := lt_of_le_of_lt h hmax
    exact ⟨_, putBytes_eq_ok.mpr ⟨h, UInt32.ofNat (Text.utf8 value).length,
      UInt32.toNat_ofNat_of_lt hlt, rfl⟩⟩

theorem exists_putOptionalString {value : Option String} (hmax : max < 2 ^ 32)
    (h : ∀ text, value = some text → Fits text max) :
    ∃ word, putOptionalString value max = .ok word := by
  cases value with
  | none => exact ⟨_, rfl⟩
  | some text =>
      obtain ⟨word, hword⟩ := (exists_putString hmax).mpr (h text rfl)
      exact ⟨_, bind_eq_ok.mpr ⟨word, hword, rfl⟩⟩

theorem exists_putUsizeU32 {value : UInt64} (label : String) (h : value.toNat < 2 ^ 32) :
    ∃ word, putUsizeU32 value label = .ok word := by
  have htry : u32TryFrom value.toNat = .ok (UInt32.ofNat value.toNat) :=
    u32TryFrom_eq_ok.mpr (UInt32.toNat_ofNat_of_lt h)
  exact ⟨_, bind_eq_ok.mpr ⟨_, context_eq_ok.mpr htry, rfl⟩⟩

/-! ## How long a payload can be -/

theorem length_putBytes {bytes word : List UInt8} (h : putBytes bytes max = .ok word) :
    word.length ≤ 4 + max := by
  obtain ⟨hmax, length, -, rfl⟩ := putBytes_eq_ok.mp h
  rw [length_append, putU32, length_bigEndian]
  omega

theorem length_putString {value : String} (h : putString value max = .ok word) :
    word.length ≤ 4 + max :=
  length_putBytes h

theorem length_putOptionalString {value : Option String}
    (h : putOptionalString value max = .ok word) : word.length ≤ 5 + max := by
  cases value with
  | none =>
      cases h
      rw [length_singleton]
      omega
  | some value =>
      obtain ⟨text, htext, hret⟩ := bind_eq_ok.mp h
      cases hret
      have := length_putString htext
      rw [length_cons]
      omega

theorem length_putAuth {auth : Option AuthRequest} (h : putAuth auth = .ok word) :
    word.length ≤ 70000 := by
  rcases auth with _ | _ | _ | secret | secret | ⟨path, passphrase⟩
  · cases h
    decide
  · cases h
    decide
  · cases h
    decide
  · obtain ⟨text, htext, hret⟩ := bind_eq_ok.mp h
    cases hret
    have := length_putString htext
    simp only [length_cons, MAX_SECRET_BYTES] at *
    omega
  · obtain ⟨text, htext, hret⟩ := bind_eq_ok.mp h
    cases hret
    have := length_putString htext
    simp only [length_cons, MAX_SECRET_BYTES] at *
    omega
  · obtain ⟨name, -, h⟩ := bind_eq_ok.mp h
    obtain ⟨text, htext, h⟩ := bind_eq_ok.mp h
    obtain ⟨pass, hpass, hret⟩ := bind_eq_ok.mp h
    cases hret
    have := length_putString htext
    have := length_putOptionalString hpass
    simp only [length_cons, length_append, MAX_SECRET_BYTES] at *
    omega

theorem length_putUsizeU32 {value : UInt64} {label : String}
    (h : putUsizeU32 value label = .ok word) : word.length = 4 := by
  obtain ⟨v, -, hret⟩ := bind_eq_ok.mp h
  cases hret
  exact length_bigEndian 4 _

/-- The limits of the fields keep every payload of a client within the limit of a frame. -/
theorem length_encodeClient {frame : ClientFrame} (h : encodeClient frame = .ok payload) :
    1 ≤ payload.length ∧ payload.length ≤ MAX_FRAME_BYTES := by
  cases frame with
  | ping | status | eof | shutdown =>
      cases h
      decide
  | disconnect hostAlias =>
      obtain ⟨w, hw, hret⟩ := bind_eq_ok.mp h
      cases hret
      have := length_putString hw
      simp only [length_cons, MAX_ALIAS_BYTES, MAX_FRAME_BYTES] at *
      omega
  | exec hostAlias auth command asUser =>
      simp only [encodeClient, bind_eq_ok] at h
      obtain ⟨w₁, h₁, w₂, h₂, w₃, h₃, w₄, h₄, ⟨⟩⟩ := h
      have := length_putString h₁
      have := length_putAuth h₂
      have := length_putString h₃
      have := length_putOptionalString h₄
      simp only [length_cons, length_append, MAX_ALIAS_BYTES, MAX_COMMAND_BYTES,
        MAX_FRAME_BYTES] at *
      omega
  | shell hostAlias auth term columns rows asUser =>
      simp only [encodeClient, bind_eq_ok] at h
      obtain ⟨w₁, h₁, w₂, h₂, w₃, h₃, w₄, h₄, ⟨⟩⟩ := h
      have := length_putString h₁
      have := length_putAuth h₂
      have := length_putString h₃
      have := length_putOptionalString h₄
      simp only [length_cons, length_append, putU32, length_bigEndian, MAX_ALIAS_BYTES,
        MAX_FRAME_BYTES] at *
      omega
  | input bytes =>
      obtain ⟨w, hw, hret⟩ := bind_eq_ok.mp h
      cases hret
      have := length_putBytes hw
      simp only [length_cons, OUTPUT_CHUNK_BYTES, MAX_FRAME_BYTES] at *
      omega
  | resize columns rows =>
      cases h
      simp [putU32, MAX_FRAME_BYTES]
  | jumpAuthResponse auth =>
      obtain ⟨w, hw, hret⟩ := bind_eq_ok.mp h
      cases hret
      have := length_putAuth hw
      simp only [length_cons, MAX_FRAME_BYTES] at *
      omega

/-- The limits of the fields keep every payload of the server within the limit of a frame. -/
theorem length_encodeServer {frame : ServerFrame} (h : encodeServer frame = .ok payload) :
    1 ≤ payload.length ∧ payload.length ≤ MAX_FRAME_BYTES := by
  cases frame with
  | ok | authRequired =>
      cases h
      decide
  | error message =>
      obtain ⟨w, hw, hret⟩ := bind_eq_ok.mp h
      cases hret
      have := length_putString hw
      simp only [length_cons, MAX_COMMAND_BYTES, MAX_FRAME_BYTES] at *
      omega
  | stdout bytes | stderr bytes =>
      obtain ⟨w, hw, hret⟩ := bind_eq_ok.mp h
      cases hret
      have := length_putBytes hw
      simp only [length_cons, OUTPUT_CHUNK_BYTES, MAX_FRAME_BYTES] at *
      omega
  | exit status =>
      cases status with
      | none =>
          cases h
          decide
      | some status =>
          cases h
          simp [putU32, MAX_FRAME_BYTES]
  | status n₁ n₂ n₃ n₄ n₅ =>
      cases h
      simp [putU64, MAX_FRAME_BYTES]
  | cache reused =>
      cases h
      simp [putBool, MAX_FRAME_BYTES]
  | jumpAuthChallenge index total attempt hostAlias host port previousFailed =>
      simp only [encodeServer, bind_eq_ok] at h
      obtain ⟨w₁, h₁, w₂, h₂, w₃, h₃, w₄, h₄, w₅, h₅, ⟨⟩⟩ := h
      have := length_putUsizeU32 h₁
      have := length_putUsizeU32 h₂
      have := length_putUsizeU32 h₃
      have := length_putString h₄
      have := length_putString h₅
      simp only [length_cons, length_append, length_nil, putU16, putBool,
        length_bigEndian, MAX_ALIAS_BYTES, MAX_FRAME_BYTES] at *
      omega

end KaduoxSsh.Daemon
