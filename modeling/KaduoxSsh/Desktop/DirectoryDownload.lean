import KaduoxSsh.Transfer.Options
import KaduoxSsh.Transfer.TreeDownload

/-!
# Directories that the desktop downloads

`download_directory_recursive` of `files.rs`. A remote directory is what the server
lists for it and, in turn, for the directories in it: names that need not be safe or
different, in the order of the server. The local file system may take two names for one
(`identify`), and a file is one step in it. Requests and local operations may fail for
reasons of their own, which a parameter gives.

`visits` is what the download comes to, one entry after the other.
-/

namespace KaduoxSsh.Desktop

open KaduoxSsh.Transfer

def MAX_DIRECTORY_FILES : Nat := 10000
def MAX_DIRECTORY_BYTES : Nat := 8 * 1024 * 1024 * 1024
def MAX_DIRECTORY_DEPTH : Nat := 32

/-- What a name stands for in a remote listing. -/
inductive RemoteNode where
  | directory (listing : List (String × RemoteNode))
  | leaf (leaf : Leaf Bytes)

abbrev RemoteDirectory := List (String × RemoteNode)

structure DirectoryStats where
  files : Nat
  bytes : Nat
  skipped : Nat
deriving DecidableEq, Repr

/-- What a download has made: what there is at the names below the local root, and the counts. -/
structure DirectoryDownloaded where
  tree : LocalTree
  stats : DirectoryStats

/-- A download: its two roots, how the local file system takes names, and what fails for other
reasons than those below. -/
structure DirectoryDownload where
  remoteRoot : String
  localRoot : String
  identify : String → String
  openSftp : List String → Result Unit
  readDir : List String → Result Unit
  closeSftp : List String → Result Unit
  createDir : List String → Result Unit
  transfer : List String → Result Unit

/-- `transfer_options_for_destination`. -/
def transferOptionsForDestination (destinationExists : Bool) : TransferOptions :=
  { TransferOptions.default with atomic := !destinationExists }

/-- A file that is downloaded. -/
def downloadWithOptions (text : String) (tree : LocalTree) (path : List String) (content : Bytes)
    (options : TransferOptions) : Result LocalTree :=
  if options.atomic then
    (atomicDownloadFile options.resume text tree path content).map Prod.fst
  else (plainDownloadFile options.resume text tree path content).map Prod.fst

/-- `create_dir_all`, where the directories above are there. -/
def createDirAll (tree : LocalTree) (path : List String) : Result LocalTree :=
  match tree.get? path with
  | none => .ok (tree.insert path .dir)
  | some .dir => .ok tree
  | some (.file _) => Result.io .alreadyExists IoErrorKind.alreadyExists.description

namespace DirectoryDownload

variable (download : DirectoryDownload)

/-- Where a path leads to in the local file system. -/
def place (path : List String) : List String := path.map download.identify

def remotePath (dir : List String) : String := dir.foldl joinRemoteChild download.remoteRoot

def localPath (dir : List String) : String :=
  dir.foldl (fun parent name ↦ parent ++ "/" ++ name) download.localRoot

def listDirectory (dir : List String) (listing : RemoteDirectory) : Result RemoteDirectory := do
  (download.readDir dir).context s!"failed to list remote directory {download.remotePath dir}"
  let directory := listing.filter fun e ↦ e.1 ≠ "." ∧ e.1 ≠ ".."
  directory.forM fun e ↦ validateRemoteEntryName e.1
  return directory.insertionSort fun left right ↦ left.1 ≤ right.1

def listRemoteDirectory (dir : List String) (listing : RemoteDirectory) :
    Result RemoteDirectory := do
  download.openSftp dir
  let entries ← download.listDirectory dir listing
  download.closeSftp dir
  return entries

/-- A regular file is taken over, and counted. -/
def downloadEntry (done : DirectoryDownloaded) (path : List String) (content : Bytes) :
    Result DirectoryDownloaded := do
  let target := download.place path
  let options := transferOptionsForDestination (done.tree.get? target).isSome
  let tree ← (do
    download.transfer path
    downloadWithOptions (download.localPath path) done.tree target content options
    : Result LocalTree).context s!"下载 {download.remotePath path} 失败"
  let bytes := min (done.stats.bytes + content.length) (2 ^ 64 - 1)
  Result.bailIf (bytes > MAX_DIRECTORY_BYTES) "目录总大小超过 8 GiB，已中止"
  return ⟨tree, { done.stats with files := done.stats.files + 1, bytes := bytes }⟩

/-- An entry is passed over. -/
def skipEntry (done : DirectoryDownloaded) : DirectoryDownloaded :=
  { done with stats := { done.stats with skipped := done.stats.skipped + 1 } }

/-- The local directory for a remote one. -/
def createLocalDirectory (done : DirectoryDownloaded) (dir : List String) :
    Result DirectoryDownloaded := do
  let tree ← (do
    download.createDir dir
    createDirAll done.tree (download.place dir)
    : Result LocalTree).context s!"无法创建本地目录 {download.localPath dir}"
  return { done with tree := tree }

def checkFiles (done : DirectoryDownloaded) : Result Unit :=
  Result.bailIf (done.stats.files ≥ MAX_DIRECTORY_FILES)
    s!"目录文件数超过 {MAX_DIRECTORY_FILES}，已中止"

def downloadDirectoryRecursive (dir : List String) (listing : RemoteDirectory)
    (done : DirectoryDownloaded) (depth : Nat) : Result DirectoryDownloaded :=
  if depth > MAX_DIRECTORY_DEPTH then
    Result.bail s!"目录嵌套超过 {MAX_DIRECTORY_DEPTH} 层，已中止（可能存在符号链接环）"
  else do
    let entries ← (download.listRemoteDirectory dir listing).context
      s!"无法读取远程目录 {download.remotePath dir}"
    let done ← download.createLocalDirectory done dir
    entries.foldlM (fun done entry ↦ do
      checkFiles done
      if isDotName entry.1 then return done
      else
        match validateRemoteChildName entry.1 with
        | .error _ => return skipEntry done
        | .ok () =>
            match entry.2 with
            | .directory listing =>
                downloadDirectoryRecursive (dir ++ [entry.1]) listing done (depth + 1)
            | .leaf (.regular content) => download.downloadEntry done (dir ++ [entry.1]) content
            | .leaf _ => return skipEntry done) done
termination_by MAX_DIRECTORY_DEPTH + 1 - depth

/-- The local directory is not there, or there is nothing in it. -/
def fresh (present : Bool) : DirectoryDownloaded :=
  ⟨if present then SortedMap.empty.insert [] .dir else .empty, ⟨0, 0, 0⟩⟩

end DirectoryDownload

/-! ## What a download comes to -/

/-- An entry that a download comes to, or the directory that it starts with. -/
inductive Visit where
  | directory (path : List String) (listing : RemoteDirectory)
  | file (path : List String) (content : Bytes)
  | skipped (path : List String)

mutual

/-- An entry, and if it is a directory with a safe name the entries in it by their names. -/
def RemoteNode.visits (safe : Bool) (path : List String) : RemoteNode → List Visit
  | .directory listing =>
      if safe then
        .directory path listing ::
          ((blocks path listing).insertionSort fun left right ↦ left.1 ≤ right.1).flatMap Prod.snd
      else [.skipped path]
  | .leaf (.regular content) => if safe then [.file path content] else [.skipped path]
  | .leaf _ => [.skipped path]

/-- The entries of a listing, and what is visited for each. -/
def blocks (dir : List String) : RemoteDirectory → List (String × List Visit)
  | [] => []
  | (name, node) :: rest =>
      if name ≠ "." ∧ name ≠ ".." then
        (name, node.visits (validateRemoteChildName name).isOk (dir ++ [name])) :: blocks dir rest
      else blocks dir rest

end

end KaduoxSsh.Desktop
