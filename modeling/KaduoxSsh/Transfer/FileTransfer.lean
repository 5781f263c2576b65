import KaduoxSsh.Lib.Resume
import KaduoxSsh.Lib.Run
import KaduoxSsh.Lib.SortedMap
import KaduoxSsh.Transfer.Options
import Mathlib.Algebra.GroupWithZero.Nat

/-!
# One file, request by request

`upload_file` and `download_file` of `transfer.rs`, `upload_file_atomic` of
`transfer_policy.rs` and `download_file_atomic` of `transfer_download_policy.rs`. Each
moves one file by a sequence of requests to the file system that it writes to. The
first two write to the destination itself, the other two to a staging file that is
published in the end: an upload renames it and then stamps it with the times of the
source, a download stamps it, links the destination to it and removes it.

A request that fails changes nothing and ends the transfer: here it is no step. So the
runs are those of a transfer that is broken off at any point, by an error or by
cancellation. Only a download that does not resume cleans up after an error
(`abandon`).

The writes of an upload are an exception: the SFTP session sends further ones before
those under way are answered, up to `sftp_write_concurrency` of them, and asks for the
answers only when it flushes. The server carries them out in the order in which they
were sent. It may refuse one, after a part of it or none, and carry out those behind it,
before the upload has seen the refusal; the gap reads as zeros then. What is still under
way when a transfer is broken off is carried out before the next one looks, or never.

Paths are of any type. A download that is not atomic asks only whether its destination is
a link: here the destination is a file then, or absent, since the length of a directory
and what a device does with bytes are the system's.
-/

namespace KaduoxSsh.Transfer

open Resume

abbrev Bytes := List UInt8

/-- Where to continue a file of some length. -/
def resumeOffset (workLen : Option Nat) (total : Nat) (resume : Bool) : Nat :=
  if !resume then 0
  else match workLen with
    | some len => if len ≤ total then len else 0
    | none => 0

/-! ## Files -/

inductive Kind where
  | regular (bytes : Bytes)
  | directory
  | symlink
  | other
deriving DecidableEq, Repr

structure Object where
  kind : Kind
  mtime : Option Nat
  mode : Option Nat
deriving DecidableEq, Repr

def Object.bytes? (object : Object) : Option Bytes :=
  match object.kind with
  | .regular bytes => some bytes
  | _ => none

abbrev Files (P : Type) [LinearOrder P] := SortedMap P Object

/-- A file that is read, with what a transfer takes over of its metadata. -/
structure SourceFile where
  bytes : Bytes
  mtime : Option Nat
  mode : Option Nat
deriving DecidableEq, Repr

/-- The permissions that a transfer takes over: a download leaves them to the system. -/
def SourceFile.sentMode (source : SourceFile) : TransferDirection → Option Nat
  | .upload => source.mode
  | .download => none

/-- What a transfer is given: its paths, the bytes of its source, and what it takes over of the
metadata. -/
structure FileTransfer (P : Type) where
  direction : TransferDirection
  path : P
  /-- The staging file of an atomic transfer. -/
  work : P
  source : Bytes
  mtime : Option Nat
  mode : Option Nat
deriving DecidableEq, Repr

/-- The writes of a copy. -/
structure Window where
  /-- Up to here the writes have been carried out or refused. -/
  answered : Nat
  /-- The lengths of the writes that are under way. -/
  outstanding : List Nat
  /-- Where the first bytes belong that the server has refused. -/
  refused : Option Nat
deriving DecidableEq, Repr

namespace Window

/-- The window of a copy that begins at an offset. -/
def start (offset : Nat) : Window := ⟨offset, [], none⟩

/-- Up to here the bytes have been handed over. -/
def sent (w : Window) : Nat := w.answered + w.outstanding.sum

/-- Up to here everything has been written. -/
def reached (w : Window) : Nat := w.refused.getD w.answered

end Window

/-- How far a transfer has come. -/
inductive FilePhase where
  | waiting
  | inspected (offset : Nat) (existing : Bool)
  | writing (w : Window)
  | closed
  /-- The staging file of a download has its times. -/
  | stamped
  /-- The destination is there. -/
  | published
  | done
  | failed
deriving DecidableEq, Repr

/-- The requests of a transfer, and what becomes of its writes. The system chooses times, and the
mode of a new file. -/
inductive FileRequest where
  | inspect
  | skip
  | create (now mode : Option Nat)
  | send (count : Nat)
  /-- The server carries out the first of the writes under way. -/
  | write (now : Option Nat)
  /-- The server refuses the rest of the first of them. -/
  | refuse (done : Nat) (now : Option Nat)
  | close
  | stamp
  | publish
  | cleanUp
  | abandon
deriving DecidableEq, Repr

namespace FileTransfer

variable {P : Type} [LinearOrder P] (o : TransferOptions) (job : FileTransfer P)

def total : Nat := job.source.length

/-- The file that is written to. -/
def target : P := if o.atomic then job.work else job.path

/-- The look-ups before anything is written. -/
def inspect (t : Files P) : Option FilePhase :=
  if o.atomic then
    if t.get? job.path ≠ none then none
    else match t.get? job.work with
      | none => some (.inspected 0 false)
      | some object => match object.kind with
          | .regular bytes =>
              if !o.resume then none
              else if bytes.length > job.total then none
              else some (.inspected bytes.length true)
          | _ => none
  else match t.get? job.path with
    | none => some (.inspected (resumeOffset none job.total o.resume) false)
    | some object => match object.kind with
        | .regular bytes =>
            some (.inspected (resumeOffset (some bytes.length) job.total o.resume) true)
        | _ => none

/-- What follows when everything is there already. -/
def skipped : FilePhase :=
  if o.atomic then .closed
  else match job.direction with
    | .upload => .done
    | .download => .closed

/-- The file is opened. A staging file is created or opened as it is; another file is emptied when
it is written from the start. -/
def create (t : Files P) (offset : Nat) (existing : Bool) (now mode : Option Nat) :
    Option (Files P) :=
  match t.get? (job.target o) with
  | none =>
      if o.atomic ∧ existing then none
      else some (t.insert (job.target o) ⟨.regular [], now, mode⟩)
  | some object => match object.kind with
      | .regular _ =>
          if o.atomic then if existing then some t else none
          else if offset = 0 then
            some (t.insert (job.target o) { object with kind := .regular [], mtime := now })
          else some t
      | _ => none

/-- How many writes may be under way. A local file takes one after the other. -/
def maxConcurrentWrites : Nat :=
  match job.direction with
  | .upload => o.sftpWriteConcurrency
  | .download => 1

/-- The next bytes are handed over. Whoever writes a local file knows when it was refused. -/
def send (w : Window) (count : Nat) : Option Window :=
  if 0 < count ∧ w.sent + count ≤ job.total ∧ w.outstanding.length < job.maxConcurrentWrites o ∧
      (w.refused = none ∨ job.direction = .upload) then
    some { w with outstanding := w.outstanding ++ [count] }
  else none

def write (t : Files P) (pos count : Nat) (now : Option Nat) : Option (Files P) :=
  match t.get? (job.target o) with
  | some object => match object.kind with
      | .regular bytes =>
          let bytes := overwrite 0 bytes pos ((job.source.drop pos).take count)
          some (t.insert (job.target o) { object with kind := .regular bytes, mtime := now })
      | _ => none
  | none => none

/-- The first of the writes under way is carried out. -/
def carryOut (t : Files P) (w : Window) (now : Option Nat) : Option (Files P × Window) :=
  match w.outstanding with
  | [] => none
  | count :: rest => (job.write o t w.answered count now).map fun t' ↦
      (t', { w with answered := w.answered + count, outstanding := rest })

/-- The first of the writes under way is refused, after some of its bytes. -/
def refuse (t : Files P) (w : Window) (done : Nat) (now : Option Nat) :
    Option (Files P × Window) :=
  match w.outstanding with
  | [] => none
  | count :: rest =>
      if done ≤ count then
        (if done = 0 then some t else job.write o t w.answered done now).map fun t' ↦
          (t', ⟨w.answered + count, rest, some (w.refused.getD (w.answered + done))⟩)
      else none

/-- `preserve_remote_mtime` and `preserve_local_mtime`, which take what is at the path as it is. -/
def stampAt (t : Files P) (p : P) : Option (Files P) :=
  if job.mtime = none ∧ job.mode = none then some t
  else (t.get? p).map fun object ↦
    t.insert p { object with mtime := job.mtime <|> object.mtime, mode := job.mode <|> object.mode }

/-- `finish_remote_atomic` and `finish_local_atomic` up to the removal of the staging file. Neither
a renaming nor a new link replaces what is there. -/
def publish (t : Files P) : Option (Files P) :=
  if t.get? job.path ≠ none then none
  else match job.direction, t.get? job.work with
    | _, none => none
    | .upload, some object => some ((t.erase job.work).insert job.path object)
    | .download, some object => match object.kind with
        | .regular _ => some (t.insert job.path object)
        | _ => none

/-- One request of a transfer. -/
def request (t : Files P) : FilePhase → FileRequest → Option (Files P × FilePhase)
  | .waiting, .inspect => (job.inspect o t).map fun phase ↦ (t, phase)
  | .inspected offset _, .skip =>
      if offset = job.total ∧ job.total ≠ 0 then some (t, job.skipped o) else none
  | .inspected offset existing, .create now mode =>
      if offset = job.total ∧ job.total ≠ 0 then none
      else (job.create o t offset existing now mode).map fun t' ↦ (t', .writing (.start offset))
  | .writing w, .send count => (job.send o w count).map fun w' ↦ (t, .writing w')
  | .writing w, .write now => (job.carryOut o t w now).map fun next ↦ (next.1, .writing next.2)
  | .writing w, .refuse done now =>
      (job.refuse o t w done now).map fun next ↦ (next.1, .writing next.2)
  | .writing w, .close =>
      if w.outstanding = [] ∧ w.refused = none ∧ w.answered = job.total then some (t, .closed)
      else none
  | .closed, .stamp =>
      if o.atomic then match job.direction with
        | .upload => none
        | .download => (job.stampAt t job.work).map fun t' ↦ (t', .stamped)
      else (job.stampAt t job.path).map fun t' ↦ (t', .done)
  | .closed, .publish =>
      if o.atomic ∧ job.direction = .upload then (job.publish t).map fun t' ↦ (t', .published)
      else none
  | .stamped, .publish => (job.publish t).map fun t' ↦ (t', .published)
  | .published, .stamp =>
      match job.direction with
      | .upload => (job.stampAt t job.path).map fun t' ↦ (t', .done)
      | .download => none
  | .published, .cleanUp =>
      if job.direction = .download ∧ t.get? job.work ≠ none then some (t.erase job.work, .done)
      else none
  | .writing _, .abandon | .stamped, .abandon | .published, .abandon =>
      if job.direction = .download ∧ o.atomic ∧ !o.resume then some (t.erase job.work, .failed)
      else none
  | _, _ => none

/-- The paths of an atomic transfer are two. -/
def WellPlaced : Prop := o.atomic = true → job.work ≠ job.path

end FileTransfer

end KaduoxSsh.Transfer
