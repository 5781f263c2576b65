import KaduoxSsh.Daemon.Protocol
import KaduoxSsh.Lib.Stateful
import KaduoxSsh.Lib.Stream

/-!
# Frames on the byte stream

A payload goes over the local socket behind its length in four bytes.
`readPayload` takes the next payload off a stream and `writePayload` sends one.
A read whose bytes have not all arrived has no result yet.

What was sent is read back payload by payload, however the stream is cut into
pieces on its way, and with the exactness of the decoders this carries over to
frames.
-/

namespace KaduoxSsh.Daemon

open Codec List

/-- An operation on a stream: no result yet, a failure, or a value. -/
abbrev Async := ExceptT AnyError Option

/-- A failure of the stream, as the operation on it reports the failure. -/
def ioContext {α : Type} (text : String) : Except IoErrorKind α → Result α
  | .ok a => .ok a
  | .error kind => (Result.io kind kind.description).context text

def Async.ofResult {α : Type} (x : Result α) : Async α := ExceptT.mk (some x)

def reading {α : Type} (text : String) (read : Option (Except IoErrorKind α)) : Async α :=
  ExceptT.mk (read.map (ioContext text))

/-! ## Reading and writing a payload -/

def readPayload (reader : Reader UInt8) : Async (Option (List UInt8) × Reader UInt8) := do
  match ← ExceptT.lift (reader.readExact 1) with
  | .error .unexpectedEof => return (none, reader)
  | .error kind => reading "failed to read daemon IPC frame length" (some (.error kind))
  | .ok (first, reader) => do
      let (rest, reader) ← reading "daemon IPC frame length was truncated" (reader.readExact 3)
      let length := ofBigEndian (first ++ rest)
      if length = 0 ∨ length > MAX_FRAME_BYTES then
        Async.ofResult (Result.bail
          s!"daemon IPC frame length {length} is outside 1..={MAX_FRAME_BYTES}")
      else do
        let (payload, reader) ←
          reading "failed to read daemon IPC frame payload" (reader.readExact length)
        return (some payload, reader)

/-- Sending returns its outcome with the stream after it, so that what went out before a failure
is known. -/
abbrev Sending := ExceptT AnyError (StateM (Writer UInt8))

def Sending.ofResult {α : Type} (x : Result α) : Sending α := ExceptT.mk (pure x)

def writeAll (text : String) (bytes : List UInt8) : Sending Unit := fun writer ↦
  let (outcome, writer) := writer.writeAll bytes
  (ioContext text outcome, writer)

def flush (text : String) : Sending Unit := fun writer ↦
  let (outcome, writer) := writer.flush
  (ioContext text outcome, writer)

def writePayload (payload : List UInt8) : Sending Unit := do
  if payload = [] ∨ payload.length > MAX_FRAME_BYTES then
    Sending.ofResult (Result.bail
      s!"daemon IPC payload size {payload.length} is outside 1..={MAX_FRAME_BYTES}")
  else do
    let length ← Sending.ofResult ((u32TryFrom payload.length).context "daemon IPC frame is too large")
    writeAll "failed to write daemon IPC frame length" (putU32 length)
    writeAll "failed to write daemon IPC frame payload" payload
    flush "failed to flush daemon IPC frame"

def readServerFrame (reader : Reader UInt8) : Async (Option ServerFrame × Reader UInt8) := do
  match ← readPayload reader with
  | (none, reader) => return (none, reader)
  | (some payload, reader) => return (some (← Async.ofResult (decodeServer payload)), reader)

def writeClientFrame (frame : ClientFrame) : Sending Unit := do
  let payload ← Sending.ofResult (encodeClient frame)
  writePayload payload

def writeServerFrame (frame : ServerFrame) : Sending Unit := do
  let payload ← Sending.ofResult (encodeServer frame)
  writePayload payload

/-! ## The bytes of a payload on the stream -/

/-- A payload behind its length. -/
def framed (payload : List UInt8) : List UInt8 := bigEndian 4 payload.length ++ payload

/-- The lengths of a payload that may be sent and received. -/
def Admissible (payload : List UInt8) : Prop :=
  1 ≤ payload.length ∧ payload.length ≤ MAX_FRAME_BYTES

theorem length_framed (payload : List UInt8) : (framed payload).length = 4 + payload.length := by
  rw [framed, length_append, length_bigEndian]

variable {payload : List UInt8} {reader : Reader UInt8} {frame : ServerFrame}

/-- An admissible length passes the check of both ends. -/
theorem Admissible.not_outside (h : Admissible payload) :
    ¬(payload.length = 0 ∨ payload.length > MAX_FRAME_BYTES) := by
  rintro (hzero | hlarge)
  · exact absurd h.1 (by omega)
  · exact absurd h.2 (by omega)

theorem Admissible.ofBigEndian (h : Admissible payload) :
    Codec.ofBigEndian (bigEndian 4 payload.length) = payload.length :=
  ofBigEndian_bigEndian (Nat.lt_of_le_of_lt h.2 (by decide))

section Async

variable {α γ : Type}

theorem lift_bind_some (a : α) (f : α → Async γ) : (ExceptT.lift (some a) : Async α) >>= f = f a :=
  rfl

theorem reading_bind_ok (text : String) (a : α) (f : α → Async γ) :
    reading text (some (.ok a)) >>= f = f a :=
  rfl

/-- A sequence of stream operations gives a value exactly when each of them does. -/
theorem async_bind_eq_ok {x : Async α} {f : α → Async γ} {c : γ} :
    (x >>= f).run = some (.ok c) ↔ ∃ a, x.run = some (.ok a) ∧ (f a).run = some (.ok c) := by
  rcases x with _ | e | a
  · exact ⟨nofun, nofun⟩
  · exact ⟨nofun, nofun⟩
  · exact ⟨fun h ↦ ⟨a, rfl, h⟩, fun ⟨_, ha, h⟩ ↦ by cases ha; exact h⟩

theorem reading_eq_ok {text : String} {read : Option (Except IoErrorKind α)} {a : α} :
    (reading text read).run = some (.ok a) ↔ read = some (.ok a) := by
  rcases read with _ | kind | a'
  · exact ⟨nofun, nofun⟩
  · exact ⟨nofun, nofun⟩
  · exact ⟨fun h ↦ by cases h; rfl, fun h ↦ by cases h; rfl⟩

end Async

/-- A payload in front of the stream is read, however the stream is cut. -/
theorem readPayload_framed {payload rest : List UInt8} (hadm : Admissible payload)
    (hsymbols : reader.symbols = framed payload ++ rest) :
    ∃ reader', (readPayload reader).run = some (.ok (some payload, reader')) ∧
      reader'.symbols = rest ∧ reader'.tail = reader.tail := by
  -- The four bytes of the length are read in two goes, of one byte and of three.
  obtain ⟨b, bs, hhead, hbs⟩ : ∃ b bs, bigEndian 4 payload.length = b :: bs ∧ bs.length = 3 :=
    ⟨_, _, rfl, length_bigEndian 3 _⟩
  have hsplit : reader.symbols = [b] ++ (bs ++ (payload ++ rest)) := by
    rw [hsymbols, framed, hhead]
    simp
  obtain ⟨r₁, hread₁, hsym₁, htail₁⟩ := Reader.readExact_append hsplit
  obtain ⟨r₂, hread₂, hsym₂, htail₂⟩ := Reader.readExact_append hsym₁
  obtain ⟨r₃, hread₃, hsym₃, htail₃⟩ := Reader.readExact_append hsym₂
  have hlength : Codec.ofBigEndian ([b] ++ bs) = payload.length := by
    rw [singleton_append, ← hhead, hadm.ofBigEndian]
  refine ⟨r₃, ?_, hsym₃, by rw [htail₃, htail₂, htail₁]⟩
  rw [length_singleton] at hread₁
  rw [hbs] at hread₂
  rw [readPayload, hread₁, lift_bind_some]
  show (reading _ (r₁.readExact 3) >>= _).run = _
  rw [hread₂, reading_bind_ok]
  simp only [hlength, if_neg hadm.not_outside, hread₃, reading_bind_ok]
  rfl

/-- A payload that is read stood in front of the stream behind its length. -/
theorem readPayload_eq_some {reader reader' : Reader UInt8}
    (h : (readPayload reader).run = some (.ok (some payload, reader'))) :
    Admissible payload ∧ reader.symbols = framed payload ++ reader'.symbols ∧
      reader'.tail = reader.tail := by
  obtain ⟨first, hfirst, h⟩ := async_bind_eq_ok.mp h
  rcases first with kind | ⟨first, r₁⟩
  · cases kind <;> cases h
  · have hread₁ : reader.readExact 1 = some (.ok (first, r₁)) := by
      cases hr : reader.readExact 1 with
      | none => rw [hr] at hfirst; cases hfirst
      | some x => rw [hr] at hfirst; cases hfirst; rfl
    obtain ⟨⟨rest, r₂⟩, hread₂, h⟩ := async_bind_eq_ok.mp h
    rw [reading_eq_ok] at hread₂
    obtain ⟨hlen₁, hsym₁, htail₁⟩ := Reader.readExact_eq_ok hread₁
    obtain ⟨hlen₂, hsym₂, htail₂⟩ := Reader.readExact_eq_ok hread₂
    dsimp only at h
    split at h
    · cases h
    · rename_i hrange
      obtain ⟨⟨payload, r₃⟩, hread₃, h⟩ := async_bind_eq_ok.mp h
      change some (Except.ok (some payload, r₃)) = _ at h
      cases h
      rw [reading_eq_ok] at hread₃
      obtain ⟨hlen₃, hsym₃, htail₃⟩ := Reader.readExact_eq_ok hread₃
      have hhead : bigEndian 4 payload.length = first ++ rest := by
        have hlen : (first ++ rest).length = 4 := by rw [length_append, hlen₁, hlen₂]
        rw [hlen₃, ← hlen, bigEndian_ofBigEndian]
      refine ⟨⟨by omega, by omega⟩, ?_, by rw [htail₃, htail₂, htail₁]⟩
      rw [framed, hhead, hsym₁, hsym₂, hsym₃]
      simp only [append_assoc]

/-- While a part of the next payload has not arrived, the read goes on. -/
theorem readPayload_pending {payload rest : List UInt8} (hadm : Admissible payload)
    (htail : reader.tail = .pending) (hrest : rest ≠ [])
    (hsymbols : reader.symbols ++ rest = framed payload) : (readPayload reader).run = none := by
  have htotal : reader.symbols.length + rest.length = 4 + payload.length := by
    rw [← length_append, hsymbols, length_framed]
  have hpos : 0 < rest.length := length_pos_of_ne_nil hrest
  rcases Nat.lt_or_ge reader.symbols.length 1 with hlt | hle
  · rw [readPayload, Reader.readExact_of_lt hlt, htail]
    rfl
  · obtain ⟨r₁, hread₁, hsym₁, htail₁⟩ := Reader.readExact_of_le hle
    rw [readPayload, hread₁, lift_bind_some]
    show (reading _ (r₁.readExact 3) >>= _).run = _
    have hlen₁ : r₁.symbols.length = reader.symbols.length - 1 := by
      rw [hsym₁, length_drop]
    rcases Nat.lt_or_ge r₁.symbols.length 3 with hlt | hle
    · rw [Reader.readExact_of_lt hlt, htail₁, htail]
      rfl
    · obtain ⟨r₂, hread₂, hsym₂, htail₂⟩ := Reader.readExact_of_le hle
      have hlen₂ : r₂.symbols.length = reader.symbols.length - 4 := by
        rw [hsym₂, length_drop, hlen₁]
        omega
      have hhead : reader.symbols.take 1 ++ r₁.symbols.take 3 = bigEndian 4 payload.length := by
        have hfour : reader.symbols.take 4 = bigEndian 4 payload.length := by
          rw [← take_append_of_le_length (by omega), hsymbols, framed,
            take_left' (length_bigEndian 4 _)]
        rw [hsym₁, ← take_add, ← hfour]
      rw [hread₂, reading_bind_ok]
      simp only [hhead, hadm.ofBigEndian, if_neg hadm.not_outside]
      rw [Reader.readExact_of_lt (by omega), htail₂, htail₁, htail]
      rfl

/-- At the end of the stream there is no further payload. -/
theorem readPayload_eof (htail : reader.tail = .eof) (hsymbols : reader.symbols = []) :
    (readPayload reader).run = some (.ok (none, reader)) := by
  have hread : reader.readExact 1 = some (.error .unexpectedEof) := by
    rw [Reader.readExact_of_lt (by simp [hsymbols]), htail]
    rfl
  rw [readPayload, hread]
  rfl

/-! ### Frames of the server on the stream -/

theorem async_ofResult_eq_ok {α : Type} {x : Result α} {a : α} :
    (Async.ofResult x).run = some (.ok a) ↔ x = .ok a :=
  Option.some_inj

/-- A frame in front of the stream is read, however the stream is cut. -/
theorem readServerFrame_framed {payload rest : List UInt8}
    (hencode : encodeServer frame = .ok payload)
    (hsymbols : reader.symbols = framed payload ++ rest) :
    ∃ reader', (readServerFrame reader).run = some (.ok (some frame, reader')) ∧
      reader'.symbols = rest := by
  obtain ⟨reader', hread, hrest, -⟩ :=
    readPayload_framed (length_encodeServer hencode) hsymbols
  refine ⟨reader', async_bind_eq_ok.mpr ⟨_, hread, ?_⟩, hrest⟩
  exact async_bind_eq_ok.mpr
    ⟨frame, async_ofResult_eq_ok.mpr (decodeServer_iff.mpr hencode), rfl⟩

/-- While a part of the next frame has not arrived, the read goes on. -/
theorem readServerFrame_pending {payload rest : List UInt8}
    (hencode : encodeServer frame = .ok payload) (htail : reader.tail = .pending)
    (hrest : rest ≠ []) (hsymbols : reader.symbols ++ rest = framed payload) :
    (readServerFrame reader).run = none := by
  have hread := readPayload_pending (length_encodeServer hencode) htail hrest hsymbols
  show (readPayload reader >>= _).run = none
  rw [show readPayload reader = ExceptT.mk none from hread]
  rfl

/-- With nothing there, the read goes on or finds the end of the stream. -/
theorem readServerFrame_nil (hsymbols : reader.symbols = []) :
    (reader.tail = .pending → (readServerFrame reader).run = none) ∧
      (reader.tail = .eof → (readServerFrame reader).run = some (.ok (none, reader))) := by
  constructor
  · intro htail
    have hread : reader.readExact 1 = none := by
      rw [Reader.readExact_of_lt (by simp [hsymbols]), htail]
      rfl
    rw [readServerFrame, readPayload, hread]
    rfl
  · intro htail
    exact async_bind_eq_ok.mpr ⟨_, readPayload_eof htail hsymbols, rfl⟩

section Sending

variable {α γ : Type} {writer writer' : Writer UInt8} {text : String}

theorem sending_ofResult_eq_ok {x : Result α} {a : α} :
    (Sending.ofResult x).run writer = (.ok a, writer') ↔ x = .ok a ∧ writer' = writer := by
  show (x, writer) = (.ok a, writer') ↔ _
  rw [Prod.mk.injEq, eq_comm (a := writer)]

theorem ioContext_eq_ok {x : Except IoErrorKind α} {a : α} :
    ioContext text x = .ok a ↔ x = .ok a := by
  cases x with
  | error kind => exact ⟨nofun, nofun⟩
  | ok a => rw [ioContext, Except.ok.injEq, Except.ok.injEq]

theorem writeAll_ok {bytes : List UInt8}
    (h : (writeAll text bytes).run writer = (.ok (), writer')) :
    writer'.written = writer.written ++ bytes := by
  obtain ⟨houtcome, rfl⟩ := Prod.mk.inj h
  exact Writer.written_of_writeAll_ok (ioContext_eq_ok.mp houtcome)

theorem flush_ok (h : (flush text).run writer = (.ok (), writer')) :
    writer'.written = writer.written := by
  obtain ⟨-, rfl⟩ := Prod.mk.inj h
  show writer.flush.2.written = writer.written
  rw [Writer.flush]
  split <;> rfl

end Sending

/-- What a successful write sends. -/
theorem writePayload_ok {writer writer' : Writer UInt8}
    (h : (writePayload payload).run writer = (.ok (), writer')) :
    Admissible payload ∧ writer'.written = writer.written ++ framed payload := by
  rw [writePayload] at h
  split at h
  · cases h
  · rename_i hrange
    obtain ⟨hempty, hlarge⟩ := not_or.mp hrange
    obtain ⟨length, w₁, hchecked, h⟩ := Stateful.bind_eq_ok.mp h
    obtain ⟨⟨⟩, w₂, hhead, h⟩ := Stateful.bind_eq_ok.mp h
    obtain ⟨⟨⟩, w₃, hbody, hflush⟩ := Stateful.bind_eq_ok.mp h
    obtain ⟨hlength, rfl⟩ := sending_ofResult_eq_ok.mp hchecked
    rw [Result.context_eq_ok, u32TryFrom_eq_ok] at hlength
    refine ⟨⟨length_pos_of_ne_nil hempty, Nat.le_of_not_lt hlarge⟩, ?_⟩
    rw [flush_ok hflush, writeAll_ok hbody, writeAll_ok hhead, putU32, hlength, framed,
      append_assoc]

/-! ### What goes out when a write fails -/

/-- The failure of the last flush. -/
def flushError (kind : IoErrorKind) : AnyError :=
  ⟨[⟨"failed to flush daemon IPC frame", none⟩, ⟨kind.description, some kind⟩]⟩

/-- An admissible payload is written as its length, then itself, then a flush. -/
theorem writePayload_run (hadm : Admissible payload) (writer : Writer UInt8) :
    (writePayload payload).run writer =
      (do
        writeAll "failed to write daemon IPC frame length" (bigEndian 4 payload.length)
        writeAll "failed to write daemon IPC frame payload" payload
        flush "failed to flush daemon IPC frame" : Sending Unit).run writer := by
  have hlt : payload.length < 2 ^ 32 := Nat.lt_of_le_of_lt hadm.2 (by decide)
  have hnonempty : payload ≠ [] := ne_nil_of_length_pos hadm.1
  have hrange : ¬(payload = [] ∨ payload.length > MAX_FRAME_BYTES) :=
    not_or.mpr ⟨hnonempty, Nat.not_lt.mpr hadm.2⟩
  have hto : (UInt32.ofNat payload.length).toNat = payload.length := UInt32.toNat_ofNat_of_lt hlt
  have hput : putU32 (UInt32.ofNat payload.length) = bigEndian 4 payload.length := by
    rw [putU32, hto]
  rw [writePayload, if_neg hrange, u32TryFrom, if_pos hlt, ← hput]
  rfl

/-- What follows a write goes on where the word went out, and not at all where it did not. -/
theorem writeAll_bind {α : Type} (text : String) (bytes : List UInt8) (f : Unit → Sending α)
    (writer : Writer UInt8) :
    (writeAll text bytes >>= f).run writer =
      match writer.writeAll bytes with
      | (.ok (), writer₁) => (f ()).run writer₁
      | (.error kind, writer₁) =>
          (.error ⟨[⟨text, none⟩, ⟨kind.description, some kind⟩]⟩, writer₁) := by
  have hrun : (writeAll text bytes).run writer =
      (ioContext text (writer.writeAll bytes).1, (writer.writeAll bytes).2) := rfl
  rw [Stateful.run_bind, hrun]
  rcases writer.writeAll bytes with ⟨kind | _, writer₁⟩ <;> rfl

/-- A payload for which there is room goes out whole, also when the flush fails after it. -/
theorem writePayload_of_takes {writer : Writer UInt8} (hadm : Admissible payload)
    (htakes : writer.Takes (framed payload).length) :
    (writePayload payload).run writer =
      match writer.flushFault with
      | none => (.ok (), writer.push (framed payload))
      | some kind => (.error (flushError kind), writer.push (framed payload)) := by
  have hhead : writer.Takes (bigEndian 4 payload.length).length := by
    intro room kind hlimit
    have hle := htakes room kind hlimit
    rw [framed, length_append] at hle
    omega
  have hbody : (writer.push (bigEndian 4 payload.length)).Takes payload.length := by
    rw [Writer.takes_push hhead, ← length_append]
    exact htakes
  rw [writePayload_run hadm, writeAll_bind, Writer.writeAll_of_takes hhead]
  dsimp only
  rw [writeAll_bind, Writer.writeAll_of_takes hbody, Writer.push_push]
  show (ioContext _ (writer.push (framed payload)).flush.1,
    (writer.push (framed payload)).flush.2) = _
  rw [Writer.flush, show (writer.push (framed payload)).flushFault = writer.flushFault from rfl]
  cases writer.flushFault <;> rfl

/-- Of a payload for which there is no room, a part goes out. -/
theorem writePayload_of_not_takes {writer : Writer UInt8} (hadm : Admissible payload)
    (htakes : ¬writer.Takes (framed payload).length) :
    ∃ e writer', (writePayload payload).run writer = (.error e, writer') ∧
      writer.written <+: writer'.written ∧
      writer'.written.length < writer.written.length + (framed payload).length := by
  rw [writePayload_run hadm, writeAll_bind]
  by_cases hhead : writer.Takes (bigEndian 4 payload.length).length
  · have hbody : ¬(writer.push (bigEndian 4 payload.length)).Takes payload.length := by
      rw [Writer.takes_push hhead, ← length_append]
      exact htakes
    obtain ⟨kind, writer', hwrite, hsent, hlt⟩ := Writer.writeAll_of_not_takes hbody
    rw [Writer.writeAll_of_takes hhead]
    dsimp only
    rw [writeAll_bind, hwrite]
    refine ⟨_, writer', rfl, (prefix_append _ _).trans hsent, ?_⟩
    rw [framed, length_append, ← Nat.add_assoc, ← length_append]
    exact hlt
  · obtain ⟨kind, writer', hwrite, hsent, hlt⟩ := Writer.writeAll_of_not_takes hhead
    rw [hwrite]
    refine ⟨_, writer', rfl, hsent, ?_⟩
    rw [framed, length_append]
    omega

theorem writeClientFrame_run {frame : ClientFrame} (h : encodeClient frame = .ok payload)
    (writer : Writer UInt8) :
    (writeClientFrame frame).run writer = (writePayload payload).run writer := by
  rw [writeClientFrame, h]
  rfl

/-- What has gone out stays out. -/
theorem writeClientFrame_sends (frame : ClientFrame) (writer : Writer UInt8) :
    writer.written <+: ((writeClientFrame frame).run writer).2.written := by
  cases hencode : encodeClient frame with
  | error e =>
      rw [writeClientFrame, hencode]
      exact prefix_refl _
  | ok payload =>
      have hadm : Admissible payload := length_encodeClient hencode
      rw [writeClientFrame_run hencode]
      by_cases htakes : writer.Takes (framed payload).length
      · rw [writePayload_of_takes hadm htakes]
        cases writer.flushFault with
        | none => exact prefix_append _ _
        | some kind => exact prefix_append _ _
      · obtain ⟨e, writer', hwrite, hsent, -⟩ := writePayload_of_not_takes hadm htakes
        rw [hwrite]
        exact hsent

/-- A frame that is read takes bytes off the stream. -/
theorem readServerFrame_lt {reader reader' : Reader UInt8}
    (h : (readServerFrame reader).run = some (.ok (some frame, reader'))) :
    reader'.symbols.length < reader.symbols.length := by
  obtain ⟨⟨payload, reader₁⟩, hread, h⟩ := async_bind_eq_ok.mp h
  cases payload with
  | none => cases h
  | some payload =>
      obtain ⟨frame', -, h⟩ := async_bind_eq_ok.mp h
      change some (Except.ok (some frame', reader₁)) = _ at h
      cases h
      obtain ⟨-, hsymbols, -⟩ := readPayload_eq_some hread
      rw [hsymbols, length_append, length_framed]
      omega

/-! ## Runs of payloads -/

/-- Send payloads one after the other. -/
def writePayloads (payloads : List (List UInt8)) : Sending Unit := payloads.forM writePayload

/-- Read up to so many payloads, to the end of the stream at most. -/
def readPayloads : Nat → Reader UInt8 → Async (List (List UInt8) × Reader UInt8)
  | 0, reader => return ([], reader)
  | count + 1, reader => do
      match ← readPayload reader with
      | (none, reader) => return ([], reader)
      | (some payload, reader) =>
          let (payloads, reader) ← readPayloads count reader
          return (payload :: payloads, reader)

/-- What a successful run of writes sends. -/
theorem writePayloads_ok {payloads : List (List UInt8)} {writer writer' : Writer UInt8}
    (h : (writePayloads payloads).run writer = (.ok (), writer')) :
    (∀ payload ∈ payloads, Admissible payload) ∧
      writer'.written = writer.written ++ payloads.flatMap framed := by
  induction payloads generalizing writer with
  | nil =>
      cases h
      simp
  | cons payload payloads ih =>
      obtain ⟨⟨⟩, writer₁, hfirst, hrest⟩ := Stateful.bind_eq_ok.mp h
      obtain ⟨hadm, hwritten⟩ := writePayload_ok hfirst
      obtain ⟨hadms, hwrittens⟩ := ih hrest
      refine ⟨forall_mem_cons.mpr ⟨hadm, hadms⟩, ?_⟩
      rw [hwrittens, hwritten, flatMap_cons, append_assoc]

/-- Payloads in front of a stream are read one by one, however the stream is cut. -/
theorem readPayloads_framed {payloads : List (List UInt8)} {rest : List UInt8}
    (hadm : ∀ payload ∈ payloads, Admissible payload)
    (hsymbols : reader.symbols = payloads.flatMap framed ++ rest) :
    ∃ reader', (readPayloads payloads.length reader).run = some (.ok (payloads, reader')) ∧
      reader'.symbols = rest ∧ reader'.tail = reader.tail := by
  induction payloads generalizing reader with
  | nil => exact ⟨reader, rfl, hsymbols, rfl⟩
  | cons payload payloads ih =>
      obtain ⟨hfirst, hothers⟩ := forall_mem_cons.mp hadm
      rw [flatMap_cons, append_assoc] at hsymbols
      obtain ⟨r₁, hread, hsym₁, htail₁⟩ := readPayload_framed hfirst hsymbols
      obtain ⟨r₂, hreads, hsym₂, htail₂⟩ := ih hothers hsym₁
      refine ⟨r₂, ?_, hsym₂, htail₂.trans htail₁⟩
      exact async_bind_eq_ok.mpr ⟨_, hread, async_bind_eq_ok.mpr ⟨_, hreads, rfl⟩⟩

/-! ## The format, both ways -/

/-- A frame and its payload determine each other on both sides of the socket, no accepted payload
is empty or over the limit, and payloads that were sent are read back one by one to the end of the
stream, in whatever pieces it arrives. -/
theorem frame_format :
    (∀ frame payload, encodeClient frame = .ok payload → decodeClient payload = .ok frame) ∧
    (∀ payload frame, decodeClient payload = .ok frame → encodeClient frame = .ok payload) ∧
    (∀ frame payload, encodeServer frame = .ok payload → decodeServer payload = .ok frame) ∧
    (∀ payload frame, decodeServer payload = .ok frame → encodeServer frame = .ok payload) ∧
    (∀ payload frame, decodeClient payload = .ok frame → Admissible payload) ∧
    (∀ payload frame, decodeServer payload = .ok frame → Admissible payload) ∧
    (∀ payload reader reader', (readPayload reader).run = some (.ok (some payload, reader')) →
      Admissible payload) ∧
    (∀ payload writer writer', (writePayload payload).run writer = (.ok (), writer') →
      Admissible payload) ∧
    (∀ payloads writer writer', writer.written = [] →
      (writePayloads payloads).run writer = (.ok (), writer') →
      ∀ reader : Reader UInt8, reader.symbols = writer'.written → reader.tail = .eof →
        ∃ reader', (readPayloads payloads.length reader).run = some (.ok (payloads, reader')) ∧
          (readPayload reader').run = some (.ok (none, reader'))) := by
  refine ⟨fun _ _ h ↦ decodeClient_iff.mpr h, fun _ _ h ↦ decodeClient_iff.mp h,
    fun _ _ h ↦ decodeServer_iff.mpr h, fun _ _ h ↦ decodeServer_iff.mp h,
    fun _ _ h ↦ length_encodeClient (decodeClient_iff.mp h),
    fun _ _ h ↦ length_encodeServer (decodeServer_iff.mp h),
    fun _ _ _ h ↦ (readPayload_eq_some h).1, fun _ _ _ h ↦ (writePayload_ok h).1, ?_⟩
  intro payloads writer writer' hempty hwrite reader hsymbols htail
  obtain ⟨hadm, hwritten⟩ := writePayloads_ok hwrite
  rw [hwritten, hempty, nil_append, ← append_nil (payloads.flatMap framed)] at hsymbols
  obtain ⟨reader', hread, hend, htail'⟩ := readPayloads_framed hadm hsymbols
  exact ⟨reader', hread, readPayload_eof (htail'.trans htail) hend⟩

/-- Two frames that arrive in three pieces, none of which ends where a frame does. -/
theorem frame_format_two_frames :
    decodeServer [69, 1, 0, 0, 0, 7] = .ok (.exit (some 7)) ∧
    ∃ reader', (readPayloads 2 ⟨[⟨[0, 0], by decide⟩, ⟨[0, 1, 64, 0, 0, 0], by decide⟩,
        ⟨[6, 69, 1, 0, 0, 0, 7], by decide⟩], .eof⟩).run =
      some (.ok ([[64], [69, 1, 0, 0, 0, 7]], reader')) ∧
      (readPayload reader').run = some (.ok (none, reader')) :=
  ⟨frame_format.2.2.1 (.exit (some 7)) _ (by decide),
    frame_format.2.2.2.2.2.2.2.2 [[64], [69, 1, 0, 0, 0, 7]] ⟨[], none, none⟩ _ rfl rfl _
      (by decide) rfl⟩

end KaduoxSsh.Daemon
