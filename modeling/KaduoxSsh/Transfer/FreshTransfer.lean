import KaduoxSsh.Lib.Faults
import KaduoxSsh.Transfer.FileTransferRuns

/-!
# Atomic transfers that fail

`upload_file_atomic` of `transfer_policy.rs` and `download_file_atomic` of
`transfer_download_policy.rs` without `resume`, with everything that follows an error. Each
request to a file system is a step with a name of its own, and the environment chooses which
of them fail. A request that fails changes nothing, but a chunk may be written in part.

Nobody else uses the paths of a transfer. What its source gives is a list of chunks, which
nobody compares with the length that was looked up, and the directories above the
destination are given as the text of its path names them: a name that is refused stands as
its error. Progress events are left out.
-/

namespace KaduoxSsh.Transfer

open Result

/-- The steps of a fresh atomic transfer. Looks and chunks are counted. -/
inductive FailurePoint where
  | start
  | statSource
  | statParent (index : Nat)
  | createParent (index : Nat)
  | statDestination
  | statStaging
  | openSource
  | openStaging
  | cancel (index : Nat)
  | read (index : Nat)
  | write (index : Nat)
  | flush
  | shutdown
  | sync
  | stampStaging
  | statParentAgain (index : Nat)
  | createParentAgain (index : Nat)
  | statStagingAgain
  | linkTask
  | link
  | removeStaging
  | abandon
  | statDestinationAgain
  | rename
  | statOccupied
  | stampDestination
deriving DecidableEq, Repr

def transferBufferSize : Nat := 255 * 1024

/-- What a fresh atomic transfer is given. -/
structure FreshTransfer (P : Type) [LinearOrder P] where
  path : P
  work : P
  /-- The directories above the destination, up to a name that is refused. -/
  parents : List (Result P)
  source : Option Object
  chunks : List Bytes
  /-- What the system gives a new file. -/
  now : Option Nat
  mode : Option Nat
  text : P → String
  sourceText : String
  apart : work ≠ path
  above : ∀ p, .ok p ∈ parents → p ≠ path ∧ p ≠ work
  distinct : parents.Nodup
  sized : ∀ chunk ∈ chunks, chunk ≠ [] ∧ chunk.length ≤ transferBufferSize

/-- Requests of a transfer, and what it does with files. -/
abbrev Filing (P : Type) [LinearOrder P] (α : Type) : Type := Faulty FailurePoint (Files P) α

namespace FreshTransfer

variable {P : Type} [LinearOrder P] (job : FreshTransfer P)

/-! ## What the requests do -/

def refuse {α : Type} (text : String) : Filing P α := Faulty.ofResult (bail text)

/-- `with_context`, where there is one. -/
def explained {α : Type} (text : Option String) (x : Filing P α) : Filing P α :=
  match text with
  | some text => x.context text
  | none => x

def createDirectory (p : P) (t : Files P) : Result (Files P) :=
  if t.get? p = none then .ok (t.insert p ⟨.directory, none, none⟩)
  else io .alreadyExists "File exists"

/-- A file is created that must not be there. -/
def createNew (t : Files P) : Result (Files P) :=
  if t.get? job.work = none then .ok (t.insert job.work ⟨.regular [], job.now, job.mode⟩)
  else io .alreadyExists "File exists"

/-- What is written to the staging file comes behind what it has. -/
def append (bytes : Bytes) (t : Files P) : Files P :=
  match t.get? job.work with
  | none => t
  | some object => match object.kind with
      | .regular old =>
          t.insert job.work { object with kind := .regular (old ++ bytes), mtime := job.now }
      | _ => t

def writeAll (index : Nat) (chunk : Bytes) : Filing P Unit :=
  Faulty.step (.write index) (fun done ↦ job.append (chunk.take done))
    fun t ↦ .ok ((), job.append chunk t)

def renameStaging (t : Files P) : Result (Files P) :=
  match t.get? job.work with
  | none => io .notFound "No such file"
  | some object =>
      if t.get? job.path = none then .ok ((t.erase job.work).insert job.path object)
      else bail "Failure"

def hardLink (t : Files P) : Result (Files P) :=
  match t.get? job.work with
  | none => io .notFound "No such file or directory"
  | some object =>
      if t.get? job.path = none then .ok (t.insert job.path object)
      else io .alreadyExists "File exists"

def removeFile (t : Files P) : Result (Files P) :=
  if t.get? job.work = none then io .notFound "No such file or directory"
  else .ok (t.erase job.work)

/-- Times and permissions are set, as far as they are known. -/
def setMetadata (p : P) (mtime mode : Option Nat) (t : Files P) : Result (Files P) :=
  match t.get? p with
  | none => io .notFound "No such file or directory"
  | some object =>
      .ok (t.insert p { object with mtime := mtime <|> object.mtime, mode := mode <|> object.mode })

/-! ## What both directions share -/

/-- The texts of a direction. -/
structure Texts (P : Type) where
  statSource : String
  sourceLink : String
  sourceKind : String
  statDestination : Option String
  destinationLink : String
  destinationThere : String
  statStaging : Option String
  stagingThere : String
  openStaging : String

/-- The texts of a walk by directories. -/
structure DirectoryTexts (P : Type) where
  stat : P → Option String
  link : P → String
  other : P → String
  create : P → Option String

def checkCancelled (point : FailurePoint) : Filing P Unit :=
  (Faulty.pass point).tryCatch fun _ ↦ refuse "transfer cancelled"

/-- One directory on the way is looked at, or made. -/
def ensureDirectory (texts : DirectoryTexts P) (stat create : FailurePoint) (p : P) :
    Filing P Unit := do
  let found ← explained (texts.stat p) (Faulty.look stat fun t ↦ t.get? p)
  match found.map Object.kind with
  | none => explained (texts.create p) (Faulty.change create (createDirectory p))
  | some .directory => return
  | some .symlink => refuse (texts.link p)
  | some (.regular _) | some .other => refuse (texts.other p)

/-- `ensure_remote_dir` and `ensure_local_directory_no_links`. -/
def ensureDirectories (texts : DirectoryTexts P) (stat create : Nat → FailurePoint) :
    Nat → List (Result P) → Filing P Unit
  | _, [] => return
  | index, entry :: rest => do
      let p ← Faulty.ofResult entry
      ensureDirectory texts (stat index) (create index) p
      ensureDirectories texts stat create (index + 1) rest

/-- `ensure_remote_atomic_destination_absent` and `ensure_atomic_destination_absent`. -/
def ensureDestinationAbsent (texts : Texts P) (point : FailurePoint) : Filing P Unit := do
  let found ← explained texts.statDestination (Faulty.look point fun t ↦ t.get? job.path)
  match found.map Object.kind with
  | none => return
  | some .symlink => refuse texts.destinationLink
  | some _ => refuse texts.destinationThere

/-- What comes before anything is opened. -/
def prepare (texts : Texts P) (directories : DirectoryTexts P) : Filing P Object := do
  checkCancelled .start
  (Faulty.pass .statSource).context texts.statSource
  let metadata ← (Faulty.ofResult (match job.source with
    | some object => .ok object
    | none => io .notFound "No such file or directory")).context texts.statSource
  match metadata.kind with
  | .symlink => refuse texts.sourceLink
  | .directory | .other => refuse texts.sourceKind
  | .regular _ =>
      ensureDirectories directories .statParent .createParent 0 job.parents
      job.ensureDestinationAbsent texts .statDestination
      let staged ← explained texts.statStaging (Faulty.look .statStaging fun t ↦ t.get? job.work)
      if staged.isSome then refuse texts.stagingThere else return metadata

def createStaging (texts : Texts P) : Filing P Unit :=
  (Faulty.change .openStaging job.createNew).context texts.openStaging

def openSource (text : String) : Filing P Unit := (Faulty.pass .openSource).context text

/-- `copy_with_progress`. -/
def copyWithProgress : Nat → Nat → List Bytes → Filing P Nat
  | index, copied, [] => do
      checkCancelled (.cancel index)
      Faulty.pass (.read index)
      return copied
  | index, copied, chunk :: rest => do
      checkCancelled (.cancel index)
      Faulty.pass (.read index)
      job.writeAll index chunk
      copyWithProgress (index + 1) (copied + chunk.length) rest

/-! ## The upload -/

def remoteDirectoryTexts : DirectoryTexts P where
  stat _ := none
  link p := s!"refusing to follow remote symbolic-link directory component: {job.text p}"
  other p := s!"remote path component is not a directory: {job.text p}"
  create _ := none

def uploadTexts : Texts P where
  statSource := s!"failed to stat {job.sourceText}"
  sourceLink := s!"refusing to follow local symbolic link during upload: {job.sourceText}"
  sourceKind := s!"{job.sourceText} is not a regular file"
  statDestination := none
  destinationLink :=
    s!"refusing atomic upload replacement of remote symbolic link: {job.text job.path}"
  destinationThere := "atomic overwrite of existing remote destination is unavailable with the " ++
    s!"current SFTP v3 API: {job.text job.path}; use atomic=false (CLI: --no-atomic) only if a " ++
    "non-atomic replacement is acceptable"
  statStaging := none
  stagingThere := "fresh atomic upload staging path already exists; refusing to reuse it: " ++
    job.text job.work
  openStaging := s!"failed to exclusively create remote atomic staging file {job.text job.work}"

/-- `finish_remote_atomic`. -/
def finishRemoteAtomic : Filing P Unit := do
  job.ensureDestinationAbsent job.uploadTexts .statDestinationAgain
  (Faulty.change .rename job.renameStaging).tryCatch fun e ↦ do
    let occupied ← Faulty.look .statOccupied fun t ↦ (t.get? job.path).isSome
    if occupied then
      refuse ("remote atomic destination became occupied before rename; refusing " ++
        s!"delete-then-rename fallback: {job.text job.path}")
    else Faulty.throw e

/-- `preserve_remote_mtime`. -/
def preserveRemoteMtime (metadata : Object) : Filing P Unit :=
  if metadata.mtime.isSome || metadata.mode.isSome then
    Faulty.change .stampDestination (setMetadata job.path metadata.mtime metadata.mode)
  else return

/-- What comes before the staging file is there, and its creation. -/
def beginUpload : Filing P Object := do
  let metadata ← job.prepare job.uploadTexts job.remoteDirectoryTexts
  job.createStaging job.uploadTexts
  return metadata

def completeUpload (metadata : Object) : Filing P Nat := do
  openSource s!"failed to open {job.sourceText}"
  let copied ← job.copyWithProgress 0 0 job.chunks
  Faulty.pass .flush
  Faulty.pass .shutdown
  job.finishRemoteAtomic
  job.preserveRemoteMtime metadata
  return copied

/-- `upload_file_atomic` without `resume`. -/
def uploadFileAtomic : Filing P Nat := do
  let metadata ← job.beginUpload
  job.completeUpload metadata

/-! ## The download -/

def localDirectoryTexts (role : String) : DirectoryTexts P where
  stat p := some s!"failed to inspect {role} {job.text p}"
  link p := s!"refusing to follow symbolic-link/reparse component in {role}: {job.text p}"
  other p := s!"{role} component is not a directory: {job.text p}"
  create p := some s!"failed to create {role} {job.text p}"

def downloadTexts : Texts P where
  statSource := s!"failed to stat remote file {job.sourceText}"
  sourceLink := s!"refusing to follow remote symbolic link during download: {job.sourceText}"
  sourceKind := s!"remote path {job.sourceText} is not a regular file"
  statDestination := some s!"failed to inspect atomic download destination {job.text job.path}"
  destinationLink := "refusing atomic download replacement of symbolic link/reparse point: " ++
    job.text job.path
  destinationThere := "atomic overwrite of existing local destination is disabled for portable " ++
    s!"safety: {job.text job.path}; use atomic=false (CLI: --no-atomic) only if non-atomic " ++
    "replacement is acceptable"
  statStaging := some s!"failed to inspect local staging {job.text job.work}"
  stagingThere := "fresh atomic download staging path already exists; refusing to reuse it: " ++
    job.text job.work
  openStaging := s!"failed to exclusively create atomic download staging file {job.text job.work}"

/-- `preserve_local_mtime` of the staging file. -/
def preserveLocalMtime (metadata : Object) : Filing P Unit :=
  if metadata.mtime.isSome then
    Faulty.change .stampStaging (setMetadata job.work metadata.mtime none)
  else return

/-- The link of the destination, and what its errors are told as. -/
def publishLink : Filing P Unit :=
  (Faulty.change .link job.hardLink).tryCatch fun e ↦
    if e.chain.head?.bind Cause.ioKind = some .alreadyExists then
      refuse ("atomic download destination became occupied before publish; existing destination " ++
        s!"was not replaced: {job.text job.path}")
    else Faulty.throw ⟨⟨"portable atomic download publish requires same-filesystem hard-link " ++
      s!"support for {job.text job.path}; use --no-atomic only if non-atomic replacement is " ++
      "acceptable", none⟩ :: e.chain⟩

/-- `finish_local_atomic` up to the hard link. -/
def linkDestination : Filing P Unit := do
  ensureDirectories (job.localDirectoryTexts "atomic download destination parent")
    .statParentAgain .createParentAgain 0 job.parents
  let staging ← (Faulty.look .statStagingAgain fun t ↦ t.get? job.work).context
    s!"failed to inspect atomic download staging {job.text job.work}"
  match staging.map Object.kind with
  | some (.regular _) =>
      (Faulty.pass .linkTask).context "atomic download hard-link task failed"
      job.publishLink
  | some _ =>
      refuse s!"atomic download staging path is no longer a regular file: {job.text job.work}"
  | none =>
      (Faulty.ofResult (io .notFound "No such file or directory")).context
        s!"failed to inspect atomic download staging {job.text job.work}"

/-- `finish_local_atomic`. -/
def finishLocalAtomic : Filing P Unit := do
  job.linkDestination
  (Faulty.change .removeStaging job.removeFile).tryCatch fun e ↦
    let error := (e.chain.head?.map Cause.text).getD ""
    refuse (s!"atomic download committed to {job.text job.path} but staging cleanup failed for " ++
      s!"{job.text job.work}: {error}")

/-- The removal after an error. -/
def abandon : Filing P Unit := Faulty.change .abandon job.removeFile

def beginDownload : Filing P Object := do
  let metadata ← job.prepare job.downloadTexts
    (job.localDirectoryTexts "atomic download parent directory")
  openSource s!"failed to open remote file {job.sourceText}"
  job.createStaging job.downloadTexts
  return metadata

def completeDownload (metadata : Object) : Filing P Nat := do
  let copied ← (job.copyWithProgress 0 0 job.chunks).cleaningUp job.abandon
  Faulty.pass .flush
  Faulty.pass .sync
  job.preserveLocalMtime metadata
  job.finishLocalAtomic.cleaningUp job.abandon
  return copied

/-- `download_file_atomic` without `resume`. -/
def downloadFileAtomic : Filing P Nat := do
  let metadata ← job.beginDownload
  job.completeDownload metadata

/-- A transfer in a direction. -/
def transferFileAtomic : TransferDirection → Filing P Nat
  | .upload => job.uploadFileAtomic
  | .download => job.downloadFileAtomic

end FreshTransfer

end KaduoxSsh.Transfer
