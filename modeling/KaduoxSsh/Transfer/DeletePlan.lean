import KaduoxSsh.Lib.DirTree
import KaduoxSsh.Transfer.PathContainment
import KaduoxSsh.Transfer.SyncPlan

/-!
# Recursive deletion on the server

`remote_mutation.rs` with the listings of `remote_fs.rs`. A deletion is planned by a
walk over the tree, and executed in the reverse order after the walk has been made
once more and has come to the same plan.

The server holds a tree of directories. A request names an entry by a text, and the
texts of a deletion start with the root's: `place` is where the root lies, with the
symbolic links above it followed. The order in which the server lists a directory is
its own (`readDir`), and so is what it tells of where a symbolic link leads, or that it
does not tell it (`linkTarget`).
-/

namespace KaduoxSsh.Transfer

open Text Result

/-! ## The server -/

/-- What is not a directory. -/
inductive Leaf (β : Type) where
  | regular (content : β)
  | symlink
  | other
deriving DecidableEq, Repr

abbrev RemoteFs (β : Type) := DirTree String (Leaf β)

inductive RemoteFileType where
  | directory
  | file
  | symlink
  | other
deriving DecidableEq, Repr

/-- `map_file_type`. -/
def fileTypeOf {β : Type} : Node (Leaf β) → RemoteFileType
  | .dir => .directory
  | .file (.regular _) => .file
  | .file .symlink => .symlink
  | .file .other => .other

/-- A listing of the server: names and types, in some order. -/
abbrev Listing := List (String × RemoteFileType)

/-- Where a text that starts with the root's leads to. -/
def locate (root : String) (place : List String) (path : String) : Option (List String) :=
  if path = root then some place
  else if (root ++ "/").toList <+: path.toList then
    some (place ++ splitPath (String.ofList (path.toList.drop (root ++ "/").length)))
  else none

/-- What a server has and how it lists it. -/
structure Server (β : Type) where
  root : String
  place : List String
  readDir : RemoteFs β → List String → Listing
  linkTarget : RemoteFs β → List String → Result String

namespace Server

variable {β : Type} (server : Server β) (t : RemoteFs β)

def noSuchFile {α : Type} : Result α := io .notFound "No such file"

def failure {α : Type} : Result α := io .other "Failure"

/-- `symlink_metadata`. -/
def symlinkMetadata (path : String) : Result RemoteFileType :=
  match (locate server.root server.place path).bind t.get? with
  | some n => .ok (fileTypeOf n)
  | none => noSuchFile

def readLink (path : String) : Result String :=
  match locate server.root server.place path with
  | some key => match t.get? key with
      | some (.file .symlink) => server.linkTarget t key
      | some _ => failure
      | none => noSuchFile
  | none => noSuchFile

def list (path : String) : Result Listing :=
  match locate server.root server.place path with
  | some key => match t.get? key with
      | some .dir => .ok (server.readDir t key)
      | some _ => failure
      | none => noSuchFile
  | none => noSuchFile

def removeFile (path : String) : Result (RemoteFs β) :=
  match locate server.root server.place path with
  | some key => match FileTree.unlink t key with
      | .ok t' => .ok t'
      | .error _ => failure
  | none => noSuchFile

def removeDir (path : String) : Result (RemoteFs β) :=
  match locate server.root server.place path with
  | some key => match FileTree.rmdir DirTree.parentDir t key with
      | .ok t' => .ok t'
      | .error _ => failure
  | none => noSuchFile

end Server

/-! ## Listings -/

structure RemoteDirEntry where
  name : String
  path : String
  fileType : RemoteFileType
deriving DecidableEq, Repr

structure RemoteFileStat where
  path : String
  fileType : RemoteFileType
  symlinkTarget : Option String
deriving DecidableEq, Repr

def validateRemoteEntryName (name : String) : Result Unit := do
  bailIf (name = "" ∨ name = "." ∨ name = "..")
    "remote directory returned an invalid entry name"
  bailIf ('/' ∈ name.toList ∨ '\x00' ∈ name.toList)
    s!"remote directory returned a path-bearing entry name: {debug name}"

def joinRemoteChild (parent name : String) : String :=
  if parent = "/" then "/" ++ name
  else if parent.toList.getLast? = some '/' then parent ++ name
  else parent ++ "/" ++ name

section

variable {β : Type} (server : Server β) (t : RemoteFs β)

def listDirectory (path : String) : Result (List RemoteDirEntry) := do
  let directory ← (server.list t path).context s!"failed to list remote directory {path}"
  let directory := directory.filter fun e ↦ e.1 ≠ "." ∧ e.1 ≠ ".."
  directory.forM fun e ↦ validateRemoteEntryName e.1
  return (directory.map fun e ↦ ⟨e.1, joinRemoteChild path e.1, e.2⟩).insertionSort
    fun left right ↦ left.name ≤ right.name

/-- Where a symbolic link leads, for a stat of it. -/
def symlinkTarget (path : String) : RemoteFileType → Result (Option String)
  | .symlink => ((server.readLink t path).context s!"failed to read remote symlink {path}").map some
  | _ => .ok none

def statPath (path : String) : Result RemoteFileStat := do
  let fileType ← (server.symlinkMetadata t path).context s!"failed to stat remote path {path}"
  let target ← symlinkTarget server t path fileType
  return ⟨path, fileType, target⟩

end

/-! ## Planning -/

def maxRemoteDeleteMaxEntries : Nat := 100000

structure RemoteDeleteOptions where
  maxEntries : Nat
deriving DecidableEq, Repr

def RemoteDeleteOptions.validated (options : RemoteDeleteOptions) : Result RemoteDeleteOptions := do
  bailIf (options.maxEntries = 0)
    "remote recursive deletion max_entries must be greater than zero"
  bailIf (options.maxEntries > maxRemoteDeleteMaxEntries)
    s!"remote recursive deletion max_entries must be <= {maxRemoteDeleteMaxEntries}"
  return options

structure RemoteDeleteEntry where
  path : String
  fileType : RemoteFileType
deriving DecidableEq, Repr

structure RemoteDeletePlan where
  root : String
  files : Nat
  directories : Nat
  symlinks : Nat
  entries : List RemoteDeleteEntry
deriving DecidableEq, Repr

structure RemoteDeleteSummary where
  files : Nat
  directories : Nat
  symlinks : Nat
deriving DecidableEq, Repr

def ensureDeletePlanBudget (plan : RemoteDeletePlan) (options : RemoteDeleteOptions) :
    Result Unit :=
  bailIf (plan.entries.length > options.maxEntries)
    (s!"remote recursive deletion plan exceeds max_entries {options.maxEntries} while scanning " ++
      plan.root)

def checkedIncrement (value : Nat) (label : String) : Result Nat :=
  ofOption s!"{label} overflow" (checkedAdd value 1)

/-- The counters of a plan after one more entry. -/
def countEntry (plan : RemoteDeletePlan) (entry : RemoteDirEntry) : Result RemoteDeletePlan :=
  match entry.fileType with
  | .directory => (checkedIncrement plan.directories "recursive remote delete directory counter").map
      fun directories ↦ { plan with directories := directories }
  | .file => (checkedIncrement plan.files "recursive remote delete file counter").map
      fun files ↦ { plan with files := files }
  | .symlink => (checkedIncrement plan.symlinks "recursive remote delete symlink counter").map
      fun symlinks ↦ { plan with symlinks := symlinks }
  | .other => bail
      ("refusing recursive remote deletion because unsupported entry type was found: " ++ entry.path)

/-- One entry of a listing goes into the plan. -/
def planEntry (options : RemoteDeleteOptions) (plan : RemoteDeletePlan) (entry : RemoteDirEntry) :
    Result RemoteDeletePlan := do
  let plan ← countEntry plan entry
  let plan := { plan with entries := plan.entries ++ [⟨entry.path, entry.fileType⟩] }
  ensureDeletePlanBudget plan options
  return plan

section

variable {β : Type} (server : Server β) (t : RemoteFs β)

/-- One round of the loop: a directory is listed, and the directories in it are pushed. -/
def planDirectory (options : RemoteDeleteOptions) (plan : RemoteDeletePlan) (directory : String) :
    Result (RemoteDeletePlan × List String) := do
  let entries ← (listDirectory server t directory).context
    s!"failed to scan remote directory for deletion: {directory}"
  let plan ← entries.foldlM (planEntry options) plan
  return (plan, (entries.filter fun entry ↦ entry.fileType = .directory).map RemoteDirEntry.path)

def buildDeletePlan (root : String) (options : RemoteDeleteOptions) : Result RemoteDeletePlan := do
  let rootStat ← (statPath server t root).context
    s!"failed to stat recursive remote delete root {root}"
  bailIf (rootStat.fileType ≠ .directory)
    s!"recursive remote deletion root must be a real directory: {root}"
  let plan : RemoteDeletePlan := ⟨root, 0, 1, 0, [⟨root, .directory⟩]⟩
  ensureDeletePlanBudget plan options
  Worklist.walk (planDirectory server t options) (t.entries.length + 1) plan [root]

/-! ## Execution -/

/-- One planned entry is looked at once more and removed. -/
def executeDeleteEntry (entry : RemoteDeleteEntry) : Result (RemoteFs β) := do
  let stat ← (statPath server t entry.path).context
    s!"failed to revalidate remote delete entry {entry.path}"
  bailIf (stat.fileType ≠ entry.fileType)
    s!"remote delete entry type changed after planning: {entry.path}"
  match entry.fileType with
  | .file | .symlink =>
      (server.removeFile t entry.path).context s!"failed to remove remote path {entry.path}"
  | .directory => do
      let remaining ← (listDirectory server t entry.path).context
        ("failed to verify remote directory is empty during recursive deletion: " ++ entry.path)
      bailIf (remaining ≠ [])
        ("remote directory changed during recursive deletion and is not empty: " ++ entry.path)
      (server.removeDir t entry.path).context s!"failed to remove remote directory {entry.path}"
  | .other => bail s!"refusing to remove unsupported remote file type: {entry.path}"

/-- The removals, one after the other, and the tree that they leave. -/
def executeDeleteEntries : RemoteFs β → List RemoteDeleteEntry → Result Unit × RemoteFs β
  | t, [] => (.ok (), t)
  | t, entry :: rest => match executeDeleteEntry server t entry with
      | .error e => (.error e, t)
      | .ok t' => executeDeleteEntries t' rest

def executeDeletePlan (approved : RemoteDeletePlan) (options : RemoteDeleteOptions) :
    Result RemoteDeleteSummary × RemoteFs β :=
  match buildDeletePlan server t approved.root options with
  | .error e => (.error e, t)
  | .ok current =>
      if current ≠ approved then
        (bail ("remote directory tree changed after deletion planning; " ++
          "create and approve a new plan before deleting"), t)
      else match executeDeleteEntries server t approved.entries.reverse with
        | (.error e, t') => (.error e, t')
        | (.ok _, t') => (.ok ⟨approved.files, approved.directories, approved.symlinks⟩, t')

end

/-! ## The two requests of a caller -/

/-- The part of a path after what only says where it starts. -/
def mutationBody (path : List Char) : List Char :=
  match path with
  | '.' :: '/' :: rest => rest
  | '/' :: rest => rest
  | _ => path

def validateMutationPath (path : String) : Result Unit := do
  bailIf (path = "") "remote mutation path must not be empty"
  bailIf (path.toList.any isControl = true ∨ '\x00' ∈ path.toList)
    "remote mutation path must not contain control characters or NUL"
  bailIf (path = "/" ∨ path = ".")
    "refusing to mutate the remote root/current-directory path"
  let body := mutationBody path.toList
  bailIf (body = [] ∨ body.getLast? = some '/')
    "remote mutation path must name one concrete entry"
  (body.splitOn '/').forM fun component ↦
    bailIf (component = [] ∨ component = ['.'] ∨ component = ['.', '.'])
      "remote mutation path contains an ambiguous path component"

section

variable {β : Type} (server : Server β) (t : RemoteFs β)

/-- `plan_remote_tree_removal`. -/
def planRemoteTreeRemoval (options : RemoteDeleteOptions) : Result RemoteDeletePlan := do
  validateMutationPath server.root
  let options ← options.validated
  buildDeletePlan server t server.root options

/-- `remove_remote_tree`. -/
def removeRemoteTree (plan : RemoteDeletePlan) (options : RemoteDeleteOptions) :
    Result RemoteDeleteSummary × RemoteFs β :=
  match (do
    validateMutationPath plan.root
    let options ← options.validated
    let planned := plan.entries.length
    bailIf (plan.entries.length > options.maxEntries)
      (s!"approved remote delete plan contains {planned} entries, exceeding max_entries " ++
        toString options.maxEntries)
    return options) with
  | .error e => (.error e, t)
  | .ok options => executeDeletePlan server t plan options

end

end KaduoxSsh.Transfer
