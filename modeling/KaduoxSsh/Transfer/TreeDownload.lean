import KaduoxSsh.Transfer.TreeResume

/-!
# Recursive downloads

The two `download_tree`: the one of `transfer.rs` (`plainDownloadTree`) and the atomic
one of `transfer_download_policy.rs` (`atomicDownloadTree`), which looks at the whole
tree before it writes anything. Both walk over the server's tree with a stack and take
its files into a local directory that is fresh. With `resume` there is nothing to resume
there but what the download itself has made: a file under the name of the staging file of
another one.

A file is one step here: where nothing is in its way, either transfer ends with the bytes
of the source in its place. The files of a directory are transferred at the same time, so
that the order of these steps need not be that of the listing (`Reordered`). Paths are
lists of names below the two roots; a checked name is one component of either, and nobody
else has the unique staging name of a transfer that does not resume. The counters are
natural numbers, since neither walk comes to `2 ^ 64` entries or bytes. What `nfc` and
`to_lowercase` make of a name is a parameter.
-/

namespace KaduoxSsh.Transfer

open Resume Result

abbrev RemoteListing := List (String × Node (Leaf Bytes))

abbrev LocalTree := DirTree String Bytes

/-- A recursive download: its two roots, whether it resumes, what the server has at the remote root
and below it, and in which order it lists a directory. -/
structure RecursiveDownload where
  remoteRoot : String
  localRoot : String
  resume : Bool
  root : Node (Leaf Bytes)
  tree : RemoteFs Bytes
  readDir : List String → RemoteListing
  wellFormed : tree.WellFormed
  lists : ∀ dir, ((readDir dir).filter fun e ↦ e.1 ≠ "." ∧ e.1 ≠ "..").Perm (tree.children dir)

/-- How a remote directory is told in a message. -/
def RecursiveDownload.remoteText (download : RecursiveDownload) (dir : List String) : String :=
  dir.foldl (fun parent name ↦ leading parent ++ name) download.remoteRoot

def RecursiveDownload.localText (download : RecursiveDownload) (path : List String) : String :=
  path.foldl (fun parent name ↦ parent ++ "/" ++ name) download.localRoot

/-- What a download has made. -/
structure Downloaded where
  tree : LocalTree
  summary : TransferSummary

/-- What is downloaded at all. -/
def fetchable : Node (Leaf Bytes) → Option (Node Bytes)
  | .dir => some .dir
  | .file (.regular content) => some (.file content)
  | .file .symlink | .file .other => none

def isDotName (name : String) : Prop := name = "." ∨ name = ".."

instance decidableIsDotName (name : String) : Decidable (isDotName name) :=
  inferInstanceAs (Decidable (name = "." ∨ name = ".."))

/-! ## Local changes -/

/-- `ensure_local_directory_no_symlinks` and `ensure_local_directory_no_links`. -/
def ensureLocalDirectory (role text : String) (tree : LocalTree) (path : List String) :
    Result LocalTree :=
  match tree.get? path with
  | none => .ok (tree.insert path .dir)
  | some .dir => .ok tree
  | some (.file _) => bail s!"{role} component is not a directory: {text}"
/-- A file that is not atomic replaces another one, or is continued. The second component is what has
been copied. -/
def plainDownloadFile (resume : Bool) (text : String) (tree : LocalTree) (path : List String)
    (content : Bytes) : Result (LocalTree × Nat) :=
  match tree.get? path with
  | none => .ok (tree.insert path (.file content), content.length)
  | some .dir => (io .other "Is a directory").context s!"failed to open {text}"
  | some (.file there) =>
      let kept := there.take (resumeOffset (some there.length) content.length resume)
      .ok (tree.insert path (.file (completed kept content)), content.length - kept.length)

/-- `ensure_atomic_destination_absent`. -/
def ensureAtomicDestinationAbsent (text : String) (tree : LocalTree) (path : List String) :
    Result Unit :=
  bailIf (tree.get? path ≠ none) ("atomic overwrite of existing local destination is " ++
    s!"disabled for portable safety: {text}; use atomic=false (CLI: --no-atomic) only if " ++
    "non-atomic replacement is acceptable")

/-- `validate_resume_staging`, and what stands in the staging file. -/
def resumeStaging (text : String) (tree : LocalTree) (path : List String) (total : Nat) :
    Result Bytes :=
  match tree.get? path with
  | none => .ok []
  | some .dir => bail s!"download resume staging path is not a regular file: {text}"
  | some (.file staged) =>
      if staged.length > total then
        bail ("download resume staging file is larger than remote source " ++
          s!"({staged.length} > {total} bytes): {text}")
      else .ok staged

def atomicDownloadFile (resume : Bool) (text : String) (tree : LocalTree) (path : List String)
    (content : Bytes) : Result (LocalTree × Nat) := do
  ensureAtomicDestinationAbsent text tree path
  if resume then do
    let kept ← resumeStaging (stagingName text) tree (stagingPath path) content.length
    return ((tree.erase (stagingPath path)).insert path (.file (completed kept content)),
      content.length - kept.length)
  else return (tree.insert path (.file content), content.length)

namespace Downloaded

variable (role text : String)
  (downloadFile : String → LocalTree → List String → Bytes → Result (LocalTree × Nat))
  (done : Downloaded)

def skip : Downloaded :=
  { done with summary := { done.summary with skipped := done.summary.skipped + 1 } }

/-- An entry is taken over. -/
def fetch (path : List String) : Node Bytes → Result Downloaded
  | .dir => do
      let tree ← ensureLocalDirectory role text done.tree path
      return ⟨tree, { done.summary with directories := done.summary.directories + 1 }⟩
  | .file content => do
      let (tree, copied) ← downloadFile text done.tree path content
      return ⟨tree, { done.summary with
        files := done.summary.files + 1
        bytes := done.summary.bytes + copied }⟩

/-- Nothing but the local root. -/
def fresh : Downloaded := ⟨.empty, ⟨0, 1, 0, 0⟩⟩

/-- The root of a download is a file. -/
def single (content : Bytes) : Downloaded :=
  ⟨.insert .empty [] (.file content), ⟨1, 0, content.length, 0⟩⟩

end Downloaded

/-- The directories among what is pushed. -/
def pushDirectory (path : List String) : Node Bytes → List (List String)
  | .dir => [path]
  | .file _ => []

/-! ## The walk of the transfer engine -/

def maxDownloadDepth : Nat := 32

namespace RecursiveDownload

/-- The loop over the entries of a directory. -/
structure PlainLoop where
  done : Downloaded
  pushed : List (List String × Nat)
  seen : List String

variable (download : RecursiveDownload) (normalize : String → String)

def plainEntry (dir : List String) (depth : Nat) (loop : PlainLoop)
    (e : String × Node (Leaf Bytes)) : Result PlainLoop :=
  match fetchable e.2 with
  | none => .ok { loop with done := loop.done.skip }
  | some node =>
      if isDotName e.1 then .ok loop
      else do
        (validateRemoteChildName e.1).context
          s!"unsafe SFTP directory entry returned while downloading {download.remoteText dir}"
        if normalize e.1 ∈ loop.seen then return { loop with done := loop.done.skip }
        else do
          let path := dir ++ [e.1]
          let done ← loop.done.fetch "recursive download directory" (download.localText path)
            (plainDownloadFile download.resume) path node
          return {
            done := done
            pushed := loop.pushed ++ (pushDirectory path node).map (·, depth + 1)
            seen := normalize e.1 :: loop.seen }

def plainVisit (done : Downloaded) (item : List String × Nat) :
    Result (Downloaded × List (List String × Nat)) :=
  if item.2 ≥ maxDownloadDepth then
    bail (s!"recursive download exceeded {maxDownloadDepth} directory levels at " ++
      download.remoteText item.1)
  else do
    let loop ← (download.readDir item.1).foldlM (download.plainEntry normalize item.1 item.2)
      ⟨done, [], []⟩
    return (loop.done, loop.pushed)

/-- What either walk does with a root that is no directory. -/
def downloadLeaf : Leaf Bytes → Result Downloaded
  | .symlink => bail ("refusing to follow remote symbolic-link root during recursive " ++
      s!"download: {download.remoteRoot}")
  | .regular content => .ok (.single content)
  | .other => bail s!"remote path {download.remoteRoot} is not a regular file or directory"

/-- `download_tree` of the transfer engine. -/
def plainDownloadTree : Result Downloaded :=
  match download.root with
  | .file leaf => download.downloadLeaf leaf
  | .dir => Worklist.walk (download.plainVisit normalize) (download.tree.entries.length + 1) .fresh
      [([], 0)]

/-! ## The walks of the atomic policy -/

/-- `preflight_local_directory` and `preflight_atomic_file_destination`, where the directory that
they are in has passed already. -/
def preflightLocal (here : LocalTree) (path : List String) : Node Bytes → Result Unit
  | .dir => (ensureLocalDirectory "recursive atomic download destination directory"
      (download.localText path) here path).map fun _ ↦ ()
  | .file _ => ensureAtomicDestinationAbsent (download.localText path) here path

def preflightEntry (here : LocalTree) (dir : List String) (pushed : List (List String))
    (e : String × Node (Leaf Bytes)) : Result (List (List String)) :=
  match fetchable e.2 with
  | none => .ok pushed
  | some node =>
      if isDotName e.1 then .ok pushed
      else do
        (validateRemoteChildName e.1).context
          s!"unsafe SFTP directory entry returned while preflighting {download.remoteText dir}"
        download.preflightLocal here (dir ++ [e.1]) node
        return pushed ++ pushDirectory (dir ++ [e.1]) node

def preflightVisit (here : LocalTree) (_done : Unit) (dir : List String) :
    Result (Unit × List (List String)) :=
  ((download.readDir dir).foldlM (download.preflightEntry here dir) []).map fun pushed ↦ ((), pushed)
/-- `preflight_atomic_download_tree`. -/
def preflightAtomicDownloadTree (here : LocalTree) : Result Unit :=
  Worklist.walk (download.preflightVisit here) (download.tree.entries.length + 1) () [[]]

/-- The loop over the entries of a directory. -/
structure AtomicLoop where
  done : Downloaded
  pushed : List (List String)

def atomicEntry (dir : List String) (loop : AtomicLoop) (e : String × Node (Leaf Bytes)) :
    Result AtomicLoop :=
  match fetchable e.2 with
  | none => .ok { loop with done := loop.done.skip }
  | some node =>
      if isDotName e.1 then .ok loop
      else do
        (validateRemoteChildName e.1).context
          s!"unsafe SFTP directory entry returned while downloading {download.remoteText dir}"
        let path := dir ++ [e.1]
        let done ← loop.done.fetch "recursive atomic download directory" (download.localText path)
          (atomicDownloadFile download.resume) path node
        return ⟨done, loop.pushed ++ pushDirectory path node⟩

def atomicVisit (done : Downloaded) (dir : List String) :
    Result (Downloaded × List (List String)) := do
  let loop ← (download.readDir dir).foldlM (download.atomicEntry dir) ⟨done, []⟩
  return (loop.done, loop.pushed)

/-- `download_tree` of the atomic policy. -/
def atomicDownloadTree : Result Downloaded :=
  match download.root with
  | .file leaf => download.downloadLeaf leaf
  | .dir => do
      download.preflightAtomicDownloadTree Downloaded.fresh.tree
      Worklist.walk download.atomicVisit (download.tree.entries.length + 1) .fresh [[]]

end RecursiveDownload

/-! ## Agreement -/

/-- Both fail, or both make the same. -/
def Agree {α : Type} (r r' : Result α) : Prop :=
  r.isOk = false ∧ r'.isOk = false ∨ r.isOk = true ∧ r = r'

/-- The entries of a listing that are downloaded, if their names are safe. -/
def candidates (listing : RemoteListing) : List (String × Node Bytes) :=
  listing.filterMap fun e ↦
    if isDotName e.1 then none else (fetchable e.2).map fun node ↦ (e.1, node)

/-- The first entry of a listing with its normalised name. -/
def FirstOfName (normalize : String → String) (listing : RemoteListing) (name : String) : Prop :=
  ((candidates listing).find? fun e ↦ normalize e.1 = normalize name).map Prod.fst = some name

namespace RecursiveDownload

variable (download : RecursiveDownload) (normalize : String → String)

/-- The directories that the transfer engine comes to. -/
inductive PlainComesTo : List String → Prop
  | root : PlainComesTo []
  | entry {dir : List String} {name : String} (hdir : PlainComesTo dir)
      (hentry : (name, .dir) ∈ candidates (download.readDir dir))
      (hfirst : FirstOfName normalize (download.readDir dir) name) : PlainComesTo (dir ++ [name])

/-- The names of a directory are safe. -/
def SafeNames (dir : List String) : Prop :=
  ∀ e ∈ candidates (download.readDir dir), validateRemoteChildName e.1 = .ok ()

def IsDirectory (dir : List String) : Prop := dir = [] ∨ download.tree.get? dir = some .dir

/-- There is nothing in a tree that the two walks treat in different ways. -/
structure Ordinary : Prop where
  safe : ∀ dir, download.IsDirectory dir → download.SafeNames dir
  shallow : ∀ dir, download.IsDirectory dir → dir.length < maxDownloadDepth
  distinct : ∀ dir, download.IsDirectory dir →
    ((candidates (download.readDir dir)).map fun e ↦ normalize e.1).Nodup
  unstaged : download.resume = true → ∀ dir, download.IsDirectory dir →
    ∀ file ∈ candidates (download.readDir dir), file.2 ≠ .dir →
      ∀ e ∈ candidates (download.readDir dir), e.1 ≠ stagingName file.1

/-- The same download, with the transfers in each directory in another order. -/
structure Reordered (other : RecursiveDownload) : Prop where
  remoteRoot : other.remoteRoot = download.remoteRoot
  localRoot : other.localRoot = download.localRoot
  resume : other.resume = download.resume
  root : other.root = download.root
  tree : other.tree = download.tree
  readDir : ∀ dir, (other.readDir dir).Perm (download.readDir dir)

/-- The two downloads agree, in whatever order the transfers of the atomic one are carried out. -/
def DownloadsAgree : Prop :=
  ∀ other, download.Reordered other →
    Agree (download.plainDownloadTree normalize) other.atomicDownloadTree

end RecursiveDownload

end KaduoxSsh.Transfer
