import KaduoxSsh.Lib.Hierarchy
import KaduoxSsh.Lib.Run
import KaduoxSsh.Transfer.DeletePlan
import KaduoxSsh.Transfer.FileTransferRuns

/-!
# Atomic synchronization

`apply_sync_to_remote` with the checks of `sync/source_preflight.rs` and
`sync/preflight.rs`. A plan may come from anywhere. Its actions are checked first, then
the local files, then the server, as far as that can be told before anything is changed.
Then the removals and the new directories come in the order of the plan, and then all
uploads at the same time.

What lies on the server are objects of the kinds of `FileTransfer`, and so is what lies
below the local root. A path is a list of names below the directory that the remote root
starts at: the one that the server's paths start at, or the one that a session does. The
counters of the summary are left out.
-/

namespace KaduoxSsh.Transfer

open Text Hierarchy Result

/-! ## The server -/

abbrev ServerFiles := Files (List String)

def IsDirectoryObject (object : Object) : Prop := object.kind = .directory

/-- What the server finds at a path may lie behind symbolic links. A path that leads out of the
files has no place in them. -/
structure PathResolution where
  resolve : ServerFiles → List String → Option (List String)
  real : ∀ t path, (∀ dir, dir <+: path → dir ≠ path → DirectoryAt IsDirectoryObject t dir) →
    resolve t path = some path

def hasDirectory (t : ServerFiles) (path : List String) : Bool :=
  decide (path = []) || (t.get? path).any fun object ↦ decide (object.kind = .directory)

def createDir (t : ServerFiles) (path : List String) : Result ServerFiles :=
  if path ≠ [] ∧ t.get? path = none ∧ hasDirectory t path.dropLast = true then
    .ok (t.insert path ⟨.directory, none, none⟩)
  else Server.failure

section

variable (paths : PathResolution) (t : ServerFiles)

def removeFile (path : List String) : Result ServerFiles :=
  match paths.resolve t path with
  | none => .ok t
  | some place => match t.get? place with
      | none => Server.noSuchFile
      | some object => if object.kind = .directory then Server.failure else .ok (t.erase place)

def removeDir (path : List String) : Result ServerFiles :=
  match paths.resolve t path with
  | none => .ok t
  | some place => match t.get? place with
      | none => Server.noSuchFile
      | some object =>
          if object.kind = .directory ∧ ∀ path ∈ t.keys, path.dropLast ≠ place then
            .ok (t.erase place)
          else Server.failure

end

inductive RemoteNodeKind where
  | directory
  | symlink
  | other
deriving DecidableEq, Repr

def remoteNodeKind (object : Object) : RemoteNodeKind :=
  match object.kind with
  | .symlink => .symlink
  | .directory => .directory
  | .regular _ | .other => .other

/-- `remote_node_kind_if_exists`. -/
def remoteNodeKindIfExists (t : ServerFiles) (path : String) : Option RemoteNodeKind :=
  (t.get? (remoteComponents path)).map remoteNodeKind

/-- `join_remote` and `join_remote_component`. -/
def joinRemoteComponent (parent child : String) : String := leading parent ++ child

/-- The loop of `ensure_remote_dir`. -/
def ensureSegments (path : String) : ServerFiles → String → List String → Result ServerFiles
  | t, _, [] => .ok t
  | t, current, segment :: rest =>
      if segment = "." then ensureSegments path t current rest
      else if segment = ".." then
        bail s!"remote directory traversal with '..' is not supported: {path}"
      else
        let here := joinRemoteComponent current segment
        match remoteNodeKindIfExists t here with
        | some .symlink =>
            bail s!"refusing to follow remote symbolic-link directory component: {here}"
        | some .other => bail s!"remote path component is not a directory: {here}"
        | some .directory => ensureSegments path t here rest
        | none => do
            let t ← createDir t (remoteComponents here)
            ensureSegments path t here rest

/-- The segments that a path is walked by, and what the walk starts with. -/
def segments (path : String) : List String := (splitPath path).filter fun segment ↦ segment ≠ ""

def walkStart (path : String) : String := if isAbsolute path then "/" else ""

/-- `ensure_remote_dir`. -/
def ensureRemoteDir (t : ServerFiles) (path : String) : Result ServerFiles :=
  if path = "" ∨ path = "." ∨ path = "/" then .ok t
  else ensureSegments path t (walkStart path) (segments path)

/-! ## The actions -/

/-- How an action is told. -/
def SyncActionKind.debug : SyncActionKind → String
  | .deleteRemoteFile => "DeleteRemoteFile"
  | .deleteRemoteDirectory => "DeleteRemoteDirectory"
  | .createRemoteDirectory => "CreateRemoteDirectory"
  | .uploadFile => "UploadFile"

/-- The actions of a plan with their numbers. -/
def SyncPlan.numbered (plan : SyncPlan) : List (SyncAction × Nat) := plan.actions.zipIdx

/-- The files that a plan uploads. -/
def SyncPlan.uploads (plan : SyncPlan) : List SyncAction :=
  plan.actions.filter fun action ↦ action.kind = .uploadFile

/-- `validate_sync_plan`. -/
def validateSyncPlan (platform : Platform) (plan : SyncPlan) : Result Unit :=
  plan.numbered.forM fun e ↦ do
    (validateRemoteRelativePath e.1.path).context
      s!"invalid sync plan action #{e.2} ({e.1.kind.debug}) path"
    let _ ← (localPathFromRemoteRelative platform e.1.path).context
      s!"sync plan action #{e.2} ({e.1.kind.debug}) is unsafe on this platform"
    return

/-! ## The local files -/

/-- The directory that is synchronized: its text, and what `symlink_metadata` finds below it. -/
structure SyncSource where
  text : String
  lookup : List String → Option Object

namespace SyncSource

variable (source : SyncSource)

def display (path : List String) : String :=
  path.foldl (fun parent name ↦ parent ++ "/" ++ name) source.text

def symlinkMetadata (path : List String) : Result Object :=
  match source.lookup path with
  | some object => .ok object
  | none => io .notFound "No such file or directory"

/-- The loop of `preflight_local_sync_source`. -/
def preflightComponents (expectedLen : Nat) : List String → LocalPath → Result Unit
  | _, [] => .ok ()
  | current, .normal name :: rest => do
      let here := current ++ [name]
      let metadata ← (source.symlinkMetadata here).context
        s!"failed to stat sync upload source {source.display here}"
      match metadata.kind with
      | .symlink => bail ("refusing to follow symbolic-link/reparse component in sync " ++
          s!"upload source: {source.display here}")
      | .regular bytes =>
          if rest ≠ [] then
            bail s!"sync upload source parent is no longer a directory: {source.display here}"
          else if bytes.length ≠ expectedLen then
            bail (s!"sync plan is stale: upload source size changed from {expectedLen} to " ++
              s!"{bytes.length} bytes: {source.display here}")
          else .ok ()
      | .directory =>
          if rest = [] then
            bail s!"sync upload source is no longer a regular file: {source.display here}"
          else preflightComponents expectedLen here rest
      | .other =>
          if rest = [] then
            bail s!"sync upload source is no longer a regular file: {source.display here}"
          else
            bail s!"sync upload source parent is no longer a directory: {source.display here}"
  | _, _ :: _ => bail "sync upload source contains a non-normal local path component"

/-- `preflight_local_sync_source`. -/
def preflightLocalSyncSource (relative : LocalPath) (expectedLen : Nat) : Result Unit :=
  if relative = [] then
    bail "sync upload source cannot be the synchronization root itself"
  else source.preflightComponents expectedLen [] relative

def preflightRoot : Result Unit := do
  let metadata ← (source.symlinkMetadata []).context s!"failed to stat sync source root {source.text}"
  match metadata.kind with
  | .symlink => bail s!"refusing symbolic-link/reparse sync source root: {source.text}"
  | .directory => .ok ()
  | .regular _ | .other =>
      bail s!"sync source root is no longer a directory: {source.text}"

/-- `preflight_local_sync_sources`. -/
def preflightLocalSyncSources (platform : Platform) (plan : SyncPlan) : Result Unit := do
  source.preflightRoot
  plan.numbered.forM fun e ↦
    if e.1.kind ≠ .uploadFile then .ok ()
    else do
      let relative ← (localPathFromRemoteRelative platform e.1.path).context
        s!"sync upload action #{e.2} has an unsafe local path"
      (source.preflightLocalSyncSource relative e.1.bytes).context
        s!"sync upload action #{e.2} source preflight failed for {e.1.path}"

end SyncSource


/-! ## The server before anything is changed -/

/-- The numbers of the actions that change a path. -/
structure PlannedMutation where
  deleteFile : Option Nat
  deleteDirectory : Option Nat
  createDirectory : Option Nat
deriving DecidableEq, Repr

namespace PlannedMutation

def default : PlannedMutation := ⟨none, none, none⟩

variable (mutation : PlannedMutation)

def hasDelete : Bool := mutation.deleteFile.isSome || mutation.deleteDirectory.isSome

def deletesFile : Bool := mutation.deleteFile.isSome

def deletesDirectory : Bool := mutation.deleteDirectory.isSome

def createsDirectory : Bool := mutation.createDirectory.isSome

end PlannedMutation

abbrev Mutations := SortedMap String PlannedMutation

/-- `mutation_for`. -/
def mutationFor (mutations : Mutations) (path : String) : PlannedMutation :=
  (mutations.get? path).getD .default

def duplicateMutation {α : Type} (action : SyncAction) : Result α :=
  bail s!"sync plan contains duplicate {action.kind.debug} mutation for {action.path}"

/-- The first loop of `collect_planned_mutations`. -/
def collectMutation (mutations : Mutations) (e : SyncAction × Nat) : Result Mutations :=
  let mutation := mutationFor mutations e.1.path
  match e.1.kind with
  | .uploadFile => .ok (mutations.insert e.1.path mutation)
  | .deleteRemoteFile =>
      if mutation.deletesFile then duplicateMutation e.1
      else .ok (mutations.insert e.1.path { mutation with deleteFile := some e.2 })
  | .deleteRemoteDirectory =>
      if mutation.deletesDirectory then duplicateMutation e.1
      else .ok (mutations.insert e.1.path { mutation with deleteDirectory := some e.2 })
  | .createRemoteDirectory =>
      if mutation.createsDirectory then duplicateMutation e.1
      else .ok (mutations.insert e.1.path { mutation with createDirectory := some e.2 })

/-- The second loop of `collect_planned_mutations`. -/
def checkMutation (e : String × PlannedMutation) : Result Unit :=
  if e.2.deletesFile && e.2.deletesDirectory then
    bail s!"sync plan contains contradictory file/directory delete mutations for {e.1}"
  else match e.2.createDirectory, e.2.deleteFile <|> e.2.deleteDirectory with
    | some createIndex, some deleteIndex =>
        bailIf (deleteIndex ≥ createIndex) (s!"sync plan must delete {e.1} before recreating " ++
          s!"it as a directory; delete action #{deleteIndex}, create action #{createIndex}")
    | _, _ => .ok ()

/-- `collect_planned_mutations`. -/
def collectPlannedMutations (plan : SyncPlan) : Result Mutations := do
  let mutations ← plan.numbered.foldlM collectMutation .empty
  mutations.entries.forM checkMutation
  return mutations

def validateParentBeneathFreshAncestor (path : String) (mutation : PlannedMutation) : Result Unit :=
  bailIf mutation.hasDelete (s!"atomic sync plan is stale: {path} will be beneath a freshly " ++
    "created parent but also has a delete mutation")

def createAndUpload {α : Type} (path : String) : Result α :=
  bail ("sync plan cannot create a directory and upload a regular file at the same path: " ++
    path)

def validateUploadBeneathFreshAncestor (path : String) (mutation : PlannedMutation) : Result Unit :=
  if mutation.hasDelete then
    bail (s!"atomic sync plan is stale: upload destination {path} will be absent after " ++
      "parent creation but also has a delete mutation")
  else if mutation.createsDirectory then createAndUpload path
  else .ok ()

def rejectAtomicOverwrite (path : String) : Result Unit :=
  bail (s!"atomic sync upload would replace existing remote destination {path}, but " ++
    "overwrite-atomic rename is unavailable with the current SFTP v3 API; rerun with --no-atomic " ++
    "only if a non-atomic replacement is acceptable")

def validateFinalUploadDestination (remotePath : String) (current : Option RemoteNodeKind)
    (mutation : PlannedMutation) : Result Unit :=
  if mutation.createsDirectory then createAndUpload remotePath
  else match current with
    | none => bailIf mutation.hasDelete (s!"atomic sync plan is stale: upload destination " ++
        s!"{remotePath} is absent but the plan also deletes it")
    | some .directory =>
        if mutation.deletesDirectory && !mutation.deletesFile then .ok ()
        else if mutation.deletesFile then
          bail (s!"atomic sync plan expects to delete a file at {remotePath}, but the " ++
            "current destination is a directory")
        else rejectAtomicOverwrite remotePath
    | some .symlink | some .other =>
        if mutation.deletesFile && !mutation.deletesDirectory then .ok ()
        else if mutation.deletesDirectory then
          bail (s!"atomic sync plan expects to delete a directory at {remotePath}, but the " ++
            "current destination is not a directory")
        else rejectAtomicOverwrite remotePath

/-- The loop of `preflight_atomic_upload_path`. -/
def preflightUploadComponents (t : ServerFiles) (root : String) (mutations : Mutations) :
    String → Bool → List String → Result Unit
  | _, _, [] => .ok ()
  | above, ancestorWillBeFresh, component :: rest =>
      let here := joinRelative above component
      let mutation := mutationFor mutations here
      if ancestorWillBeFresh then
        if rest = [] then validateUploadBeneathFreshAncestor here mutation
        else do
          validateParentBeneathFreshAncestor here mutation
          preflightUploadComponents t root mutations here true rest
      else do
        let remotePath ← joinRemoteUnderRoot root here
        let current := remoteNodeKindIfExists t remotePath
        if rest = [] then validateFinalUploadDestination remotePath current mutation
        else match current with
          | some .directory =>
              if mutation.hasDelete then
                bail (s!"atomic sync plan would delete existing parent directory " ++
                  s!"{remotePath} before uploading beneath it; refusing ambiguous parent replacement")
              else preflightUploadComponents t root mutations here false rest
          | some .symlink | some .other =>
              if mutation.deletesFile && !mutation.deletesDirectory && mutation.createsDirectory then
                preflightUploadComponents t root mutations here true rest
              else
                bail (s!"refusing atomic sync preflight through non-directory or " ++
                  s!"symbolic-link parent {remotePath}; the plan must replace that parent with an " ++
                  "explicit delete-file + create-directory pair before uploads")
          | none =>
              if mutation.hasDelete then
                bail (s!"atomic sync plan is stale: parent {remotePath} is absent but the " ++
                  "plan contains a delete mutation")
              else preflightUploadComponents t root mutations here true rest

/-- `preflight_atomic_upload_path`. -/
def preflightAtomicUploadPath (t : ServerFiles) (root relative : String) (mutations : Mutations) :
    Result Unit := do
  validateRemoteRelativePath relative
  preflightUploadComponents t root mutations "" false (splitPath relative)

/-- The loop of `remote_root_exists_without_symlinks`. -/
def rootSegmentsExist (t : ServerFiles) (root : String) : String → List String → Result Bool
  | _, [] => .ok true
  | current, segment :: rest =>
      if segment = "." then rootSegmentsExist t root current rest
      else if segment = ".." then
        bail s!"remote sync root traversal with '..' is not supported: {root}"
      else
        let here := joinRemoteComponent current segment
        match remoteNodeKindIfExists t here with
        | some .directory => rootSegmentsExist t root here rest
        | some .symlink => bail ("refusing to follow symbolic-link component in remote sync " ++
            s!"destination root: {here}")
        | some .other => bail
            s!"remote sync destination root component is not a directory: {here}"
        | none => .ok false

/-- `remote_root_exists_without_symlinks`. -/
def remoteRootExistsWithoutSymlinks (t : ServerFiles) (root : String) : Result Bool :=
  if root = "" ∨ root = "." ∨ root = "/" then .ok true
  else if '\x00' ∈ root.toList then bail "remote sync root cannot contain NUL bytes"
  else rootSegmentsExist t root (walkStart root) (segments root)

def isDeletion (action : SyncAction) : Bool :=
  decide (action.kind = .deleteRemoteFile ∨ action.kind = .deleteRemoteDirectory)

/-- `preflight_atomic_sync`. -/
def preflightAtomicSync (t : ServerFiles) (root : String) (plan : SyncPlan) : Result Unit := do
  let mutations ← collectPlannedMutations plan
  let rootExists ← remoteRootExistsWithoutSymlinks t root
  if rootExists then
    plan.uploads.forM fun action ↦ preflightAtomicUploadPath t root action.path mutations
  else match plan.actions.find? isDeletion with
    | some action => bail (s!"atomic sync plan is stale: remote root {debug root} is absent " ++
        s!"but the plan still deletes {action.kind.debug} at {action.path}; refusing mutation " ++
        "before upload preflight completes")
    | none => plan.uploads.forM fun action ↦
        validateUploadBeneathFreshAncestor action.path (mutationFor mutations action.path)

/-! ## Removals and new directories -/

/-- What is done with an action before the uploads. -/
def applySyncAction (paths : PathResolution) (root : String) (t : ServerFiles) (action : SyncAction) :
    Result ServerFiles := do
  let remotePath ← joinRemoteUnderRoot root action.path
  match action.kind with
  | .deleteRemoteFile => removeFile paths t (remoteComponents remotePath)
  | .deleteRemoteDirectory => removeDir paths t (remoteComponents remotePath)
  | .createRemoteDirectory => ensureRemoteDir t remotePath
  | .uploadFile => .ok t

/-- What `apply_sync_to_remote` does before the uploads. -/
def applyStructure (paths : PathResolution) (root : String) (plan : SyncPlan) (t : ServerFiles) :
    Result ServerFiles := do
  let t ← ensureRemoteDir t root
  plan.actions.foldlM (applySyncAction paths root) t

/-! ## The uploads -/

def hexadecimal (n : Nat) : String := String.ofList (Nat.toDigits 16 n)

/-- What makes the staging files of one process differ: its number, the time of each upload, and
the number that it draws. -/
structure StagingNames where
  process : Nat
  stamp : Nat → Nat
  serial : Nat → Nat
  distinct : Function.Injective serial

def stableRemoteStagingPath (path : String) : String := path ++ ".kaduox.part"

def StagingNames.uniqueRemoteStagingPath (names : StagingNames) (index : Nat) (path : String) :
    String :=
  path ++ (".kaduox.part." ++ hexadecimal names.process ++ "." ++ hexadecimal (names.stamp index) ++
    "." ++ hexadecimal (names.serial index))

/-- A synchronization: its options, its roots, and its plan. -/
structure SyncRun where
  options : TransferOptions
  names : StagingNames
  source : SyncSource
  root : String
  plan : SyncPlan

/-- How far an upload has come: it looks at the directories above its destination, makes one that
it has not found, or transfers the file. -/
inductive UploadProgress where
  | looking (todo : List (List String))
  | creating (path : List String) (todo : List (List String))
  | transferring (phase : FilePhase)

inductive UploadRequest where
  | look
  | createDirectory
  | request (r : FileRequest)

namespace SyncRun

variable (run : SyncRun)

abbrev Index := Fin run.plan.uploads.length

def action (i : run.Index) : SyncAction := run.plan.uploads.get i

/-- The text of a destination, as `join_remote_under_root` makes it of a checked path. -/
def remotePath (i : run.Index) : String := leading run.root ++ (run.action i).path

def workPath (i : run.Index) : String :=
  if run.options.resume then stableRemoteStagingPath (run.remotePath i)
  else run.names.uniqueRemoteStagingPath i (run.remotePath i)

/-- `upload_file_atomic` of an action. -/
def job (i : run.Index) : FileTransfer (List String) where
  direction := .upload
  path := remoteComponents (run.remotePath i)
  work := remoteComponents (run.workPath i)
  source := ((run.source.lookup (splitPath (run.action i).path)).bind Object.bytes?).getD []
  mtime := (run.source.lookup (splitPath (run.action i).path)).bind Object.mtime
  mode := (run.source.lookup (splitPath (run.action i).path)).bind Object.mode

/-- The directories that `ensure_remote_parent` looks at. -/
def parents (i : run.Index) : List (List String) := (run.job i).path.dropLast.inits.tail

/-- The server, and how far each upload has come. -/
structure State where
  files : ServerFiles
  progress : run.Index → UploadProgress

def start (t : ServerFiles) : run.State := ⟨t, fun i ↦ .looking (run.parents i)⟩

/-- One request of an upload. A request that is refused is no step. -/
def advance (i : run.Index) (t : ServerFiles) :
    UploadProgress → UploadRequest → Option (ServerFiles × UploadProgress)
  | .looking [], .look => some (t, .transferring .waiting)
  | .looking (path :: todo), .look =>
      match (t.get? path).map remoteNodeKind with
      | some .directory => some (t, .looking todo)
      | some .symlink | some .other => none
      | none => some (t, .creating path todo)
  | .creating path todo, .createDirectory =>
      match createDir t path with
      | .ok t' => some (t', .looking todo)
      | .error _ => none
  | .transferring phase, .request r =>
      ((run.job i).request run.options t phase r).map fun next ↦ (next.1, .transferring next.2)
  | _, _ => none

def step (s : run.State) (e : run.Index × UploadRequest) : Option run.State :=
  (run.advance e.1 s.files (s.progress e.1) e.2).map fun next ↦
    ⟨next.1, Function.update s.progress e.1 next.2⟩

/-! ## What the preflight is for -/

/-- A destination is free, and it lies in a directory. -/
def Free (t : ServerFiles) (path : List String) : Prop :=
  t.get? path = none ∧ DirectoryAt IsDirectoryObject t path.dropLast

/-- What an upload finds, when it asks for its parents, for its destination before it begins, and
for its destination when it publishes: then the server takes it. -/
def Finds (i : run.Index) (t : ServerFiles) : UploadProgress → Prop
  | .looking (path :: _) => ¬Blocked IsDirectoryObject t path
  | .transferring .waiting => Free t (run.job i).path
  | .transferring .closed => Free t (run.job i).path ∧ (run.job i).publish t ≠ none
  | _ => True

/-- No upload comes upon anything at its destination, or upon anything but a directory above it. -/
def Sound (s : run.State) : Prop := ∀ i, run.Finds i s.files (s.progress i)

end SyncRun

end KaduoxSsh.Transfer
