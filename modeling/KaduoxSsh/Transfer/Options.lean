import KaduoxSsh.Lib.Result

/-!
# Transfer options

`transfer.rs`: the knobs of a transfer and the limits they are checked against
before anything is opened.  Cancellation and the progress channel are not data of
the transfer: the first is a failure a step may have, the second is advisory.
-/

namespace KaduoxSsh.Transfer

open Result

def maxFileConcurrency : Nat := 128
def maxSftpWriteConcurrency : Nat := 128
def maxSftpPacketSize : Nat := 4 * 1024 * 1024
def maxEstimatedInFlightWriteBytes : Nat := 512 * 1024 * 1024

/-- `TransferOptions`. -/
structure TransferOptions where
  resume : Bool
  atomic : Bool
  fileConcurrency : Nat
  sftpWriteConcurrency : Nat
  sftpPacketSize : Nat
  requestTimeoutSecs : Nat
deriving DecidableEq, Repr

namespace TransferOptions

/-- `TransferOptions::default`. -/
def default : TransferOptions where
  resume := false
  atomic := true
  fileConcurrency := 4
  sftpWriteConcurrency := 16
  sftpPacketSize := 256 * 1024
  requestTimeoutSecs := 30

/-- The bytes that may be in flight at once under these options. -/
def estimatedInFlight (o : TransferOptions) : Nat :=
  o.fileConcurrency * o.sftpWriteConcurrency * o.sftpPacketSize

/-- `TransferOptions::validated`. -/
def validated (o : TransferOptions) : Result Unit :=
  if o.fileConcurrency = 0 then
    bail "file concurrency must be greater than zero"
  else if o.fileConcurrency > maxFileConcurrency then
    bail s!"file concurrency must be <= {maxFileConcurrency}"
  else if o.sftpWriteConcurrency = 0 then
    bail "SFTP write concurrency must be greater than zero"
  else if o.sftpWriteConcurrency > maxSftpWriteConcurrency then
    bail s!"SFTP write concurrency must be <= {maxSftpWriteConcurrency}"
  else if o.sftpPacketSize < 4096 then
    bail "SFTP packet size must be at least 4096 bytes"
  else if o.sftpPacketSize > maxSftpPacketSize then
    bail s!"SFTP packet size must be <= {maxSftpPacketSize} bytes"
  else if o.requestTimeoutSecs = 0 then
    bail "SFTP request timeout must be greater than zero"
  else if o.estimatedInFlight > maxEstimatedInFlightWriteBytes then
    bail (s!"transfer concurrency/window settings estimate {o.estimatedInFlight} " ++
      s!"in-flight write bytes, exceeding the {maxEstimatedInFlightWriteBytes}-byte safety budget")
  else .ok ()

/-- The defaults are within every limit they are checked against. -/
theorem validated_default : validated default = .ok () := by decide

end TransferOptions

/-! ## What a transfer tells -/

inductive TransferDirection where
  | upload
  | download
deriving DecidableEq, Repr

/-- `TransferEvent`: the progress of a transfer. -/
structure TransferEvent where
  direction : TransferDirection
  path : String
  bytesTransferred : Nat
  totalBytes : Option Nat
  completed : Bool
deriving DecidableEq, Repr

structure TransferSummary where
  files : Nat
  directories : Nat
  bytes : Nat
  skipped : Nat
deriving DecidableEq, Repr

/-- `SyncOptions`. -/
structure SyncOptions where
  /-- Delete remote entries that are not present locally and allow replacing a
  file by a directory or the other way round. -/
  delete : Bool
  /-- Compare regular files by size only, not by size and modification time. -/
  sizeOnly : Bool
  transfer : TransferOptions
deriving DecidableEq, Repr

end KaduoxSsh.Transfer
