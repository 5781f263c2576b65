import KaduoxSsh.Hosts.Codec
import KaduoxSsh.Lib.Run

/-!
# The store of the host library

`store.rs`: a database in memory, opened from a file, and the nine operations
that change it. An operation takes the store and gives a result together with the
store it leaves behind, also when it fails, so that a change made before a failure
is a change of the model too.

Every operation keeps the database valid. A failed one leaves it as it was, with
one exception: `recordSuccess` counts the connection before it asks the clock for
the time, and stops there when the clock is before the epoch.
-/

namespace KaduoxSsh.Hosts

open Text Result

structure HostStore where
  path : PathBuf
  database : HostDatabase
deriving DecidableEq

def MAX_STORE_BYTES : Nat := 4 * 1024 * 1024

/-! ## Opening -/

/-- What the file system says about the path of a store, and what reading it gives. -/
structure StoreEntry where
  isSymlink : Bool
  isFile : Bool
  /-- The permission bits. -/
  mode : Nat
  len : Nat
  openError : Option IoErrorKind
  readError : Option IoErrorKind
  bytes : List UInt8

/-- A number in octal, with three digits at least. -/
def octal (n : Nat) : String := String.ofList ((Nat.toDigits 8 n).leftpad 3 '0')

def validatePrivateFile (path : PathBuf) (entry : StoreEntry) : Result Unit :=
  bailIf (entry.mode &&& 0o077 ≠ 0)
    (s!"host database {path.toStringLossy} has unsafe mode {octal entry.mode}; " ++
      "expected 0600 (run chmod 600)")

def StoreEntry.readToString (path : PathBuf) (entry : StoreEntry) : Result String := do
  context s!"failed to open host database {path.toStringLossy}"
    (entry.openError.forM fun kind ↦ io kind kind.description)
  context s!"failed to read UTF-8 host database {path.toStringLossy}" do
    entry.readError.forM fun kind ↦ io kind kind.description
    ofOption "stream did not contain valid UTF-8" (fromUtf8 entry.bytes)

/-- The database of an entry that is there. -/
def loadDatabase [Unicode] (path : PathBuf) (entry : StoreEntry) : Result HostDatabase := do
  bailIf (entry.isSymlink = true)
    s!"host database {path.toStringLossy} must not be a symlink"
  validatePrivateFile path entry
  bailIf (entry.isFile = false)
    s!"host database {path.toStringLossy} is not a regular file"
  bailIf (entry.len > MAX_STORE_BYTES)
    s!"host database {path.toStringLossy} exceeds {MAX_STORE_BYTES} bytes"
  let input ← entry.readToString path
  context s!"failed to parse host database {path.toStringLossy}" (decode input)

def HostStore.open [Unicode] (path : PathBuf) (metadata : Except IoErrorKind StoreEntry) :
    Result HostStore :=
  match metadata with
  | .ok entry => do
      return ⟨path, ← loadDatabase path entry⟩
  | .error .notFound => .ok ⟨path, .default⟩
  | .error kind => context s!"failed to inspect host database {path.toStringLossy}"
      (io kind kind.description)

namespace HostStore

/-- Go on with the value of a fallible computation, or fail and leave the store as it is now. -/
def attempt {α β : Type} (store : HostStore) (x : Result α) (f : α → Result β × HostStore) :
    Result β × HostStore :=
  match x with
  | .ok a => f a
  | .error e => (.error e, store)

/-! ## Folders -/

/-- The names of all folders, in order: the explicit ones and the groups of the hosts. -/
def folders (store : HostStore) : List String :=
  let names := store.database.folders ++ store.database.jumpFolders ++
    store.database.hosts.values.flatMap HostRecord.groups
  (names.foldl (fun set name ↦ set.insert name ()) (SortedMap.empty : SortedMap String Unit)).keys

/-- The database with a folder under a new name. -/
def renameFolder (database : HostDatabase) (old name : String) : HostDatabase :=
  if old ≠ name then
    { database with hosts := database.hosts.mapVal fun host ↦
        { host with groups := host.groups.map fun folder ↦ if folder = old then name else folder } }
  else database

def withFolder (database : HostDatabase) (name : String) (originalName : Option String)
    (role : String) : HostDatabase :=
  let updated := (originalName.map (renameFolder database · name)).getD database
  -- A folder that only changes its role moves to the other list.
  let keep (folder : String) : Bool := folder ≠ name ∧ some folder ≠ originalName
  let updated := { updated with
    folders := updated.folders.filter keep
    jumpFolders := updated.jumpFolders.filter keep }
  if role = "jump" then { updated with jumpFolders := updated.jumpFolders ++ [name] }
  else { updated with folders := updated.folders ++ [name] }

def saveFolder [Unicode] (store : HostStore) (name : String) (originalName : Option String)
    (role : String) : Result Unit × HostStore :=
  store.attempt (validateLabel name "folder") fun _ ↦
  store.attempt (bailIf (role ≠ "target" ∧ role ≠ "jump")
    "文件夹区域必须是 target 或 jump") fun _ ↦
  store.attempt (bailIf (originalName.any (· ∉ store.folders)) "原文件夹不存在") fun _ ↦
  -- A new folder may take the name of a group; an existing one may not.
  let duplicate : Bool := match originalName with
    | some old => old ≠ name ∧ name ∈ store.folders
    | none => name ∈ store.database.folders ∨ name ∈ store.database.jumpFolders
  store.attempt (bailIf (duplicate = true) "文件夹已存在") fun _ ↦
  let updated := withFolder store.database name originalName role
  store.attempt updated.validate fun _ ↦ (.ok (), { store with database := updated })

/-- No chain has a hop that is this host. -/
def checkUnused (database : HostDatabase) (hostAlias : String) (text : JumpChain → String) :
    Result Unit :=
  database.chains.values.forM fun chain ↦
    bailIf (.host hostAlias ∈ chain.hops) (text chain)

def removeFolder [Unicode] (store : HostStore) (name : String) :
    Result (List String) × HostStore :=
  store.attempt (bailIf (name ∉ store.folders) "文件夹不存在") fun _ ↦
  let aliases := (store.database.hosts.values.filter fun host ↦
    host.groups.head? = some name).map HostRecord.hostAlias
  store.attempt (aliases.forM fun hostAlias ↦ checkUnused store.database hostAlias fun chain ↦
    s!"无法删除文件夹 {name}：主机 {hostAlias} 被跳板链 {chain.name} 引用，请先从链中移除") fun _ ↦
  let updated := { store.database with
    folders := store.database.folders.filter (· ≠ name)
    jumpFolders := store.database.jumpFolders.filter (· ≠ name)
    hosts := aliases.foldl SortedMap.erase store.database.hosts }
  store.attempt updated.validate fun _ ↦ (.ok aliases, { store with database := updated })

/-! ## Hosts -/

def setHosts (store : HostStore) (hosts : SortedMap String HostRecord) : HostStore :=
  { store with database.hosts := hosts }

def setChains (store : HostStore) (chains : SortedMap String JumpChain) : HostStore :=
  { store with database.chains := chains }

/-- A map as it was before an insertion that returned `previous`. -/
def undoInsert {ν : Type} (map : SortedMap String ν) (key : String) (previous : Option ν) :
    SortedMap String ν :=
  match previous with
  | some old => map.insert key old
  | none => map.erase key

def upsertHost [Unicode] (store : HostStore) (host : HostRecord) :
    Result (Option HostRecord) × HostStore :=
  store.attempt host.validate fun _ ↦
  store.attempt (host.jumpChain.forM fun chain ↦
    bailIf (¬store.database.chains.contains chain)
      s!"host {host.hostAlias} references missing jump chain {chain}") fun _ ↦
  let previous := store.database.hosts.get? host.hostAlias
  let changed := store.setHosts (store.database.hosts.insert host.hostAlias host)
  let restored := changed.setHosts (undoInsert changed.database.hosts host.hostAlias previous)
  restored.attempt changed.database.validate fun _ ↦ (.ok previous, changed)

def insertHost [Unicode] (store : HostStore) (host : HostRecord) : Result Unit × HostStore :=
  store.attempt (bailIf (store.database.hosts.contains host.hostAlias)
    s!"host alias {debug host.hostAlias} already exists") fun _ ↦
  store.attempt host.validate fun _ ↦
  let changed := store.setHosts (store.database.hosts.insert host.hostAlias host)
  let restored := changed.setHosts (changed.database.hosts.erase host.hostAlias)
  restored.attempt changed.database.validate fun _ ↦ (.ok (), changed)

def removeHost (store : HostStore) (hostAlias : String) : Result HostRecord × HostStore :=
  store.attempt (checkUnused store.database hostAlias fun chain ↦
    s!"cannot remove host {hostAlias}; jump chain {chain.name} references it") fun _ ↦
  (ofOption s!"host alias {debug hostAlias} does not exist"
      (store.database.hosts.get? hostAlias),
    store.setHosts (store.database.hosts.erase hostAlias))

/-! ## Chains -/

def upsertChain [Unicode] (store : HostStore) (chain : JumpChain) :
    Result (Option JumpChain) × HostStore :=
  store.attempt chain.validate fun _ ↦
  let previous := store.database.chains.get? chain.name
  let changed := store.setChains (store.database.chains.insert chain.name chain)
  let restored := changed.setChains (undoInsert changed.database.chains chain.name previous)
  restored.attempt changed.database.validate fun _ ↦ (.ok previous, changed)

def insertChain [Unicode] (store : HostStore) (chain : JumpChain) : Result Unit × HostStore :=
  store.attempt (bailIf (store.database.chains.contains chain.name)
    s!"jump chain {debug chain.name} already exists") fun _ ↦
  let changed := store.setChains (store.database.chains.insert chain.name chain)
  let restored := changed.setChains (changed.database.chains.erase chain.name)
  restored.attempt changed.database.validate fun _ ↦ (.ok (), changed)

def removeChain (store : HostStore) (name : String) : Result JumpChain × HostStore :=
  store.attempt ((store.database.hosts.values.find? fun host ↦ host.jumpChain = some name).forM
    fun host ↦ bail
      s!"cannot remove jump chain {name}; host {host.hostAlias} is bound to it") fun _ ↦
  (ofOption s!"jump chain {debug name} does not exist" (store.database.chains.get? name),
    store.setChains (store.database.chains.erase name))

/-! ## Statistics -/

/-- The time of a clock, which is in seconds from the epoch. -/
def nowUnix (clock : Int) : Result UInt64 :=
  if clock < 0 then
    context "system clock is before Unix epoch"
      (bail "second time provided was later than self")
  else .ok (UInt64.ofNat clock.toNat)

def checkedAdd (a b : UInt64) : Option UInt64 :=
  if a.toNat + b.toNat < 2 ^ 64 then some (a + b) else none

def recordSuccess (store : HostStore) (hostAlias : String) (method : StoredAuthMethod)
    (clock : Int) : Result Unit × HostStore :=
  store.attempt (ofOption s!"cannot update statistics for unknown host {debug hostAlias}"
    (store.database.hosts.get? hostAlias)) fun host ↦
  store.attempt (ofOption "host connection counter overflow"
    (checkedAdd host.stats.connectionCount 1)) fun count ↦
  let put (stats : HostStats) : HostStore :=
    store.setHosts (store.database.hosts.insert hostAlias { host with stats })
  -- The counter is in place when the clock is asked.
  let counted := put { host.stats with connectionCount := count }
  counted.attempt (nowUnix clock) fun now ↦
  (.ok (), put {
    connectionCount := count, lastConnectedUnix := some now, lastAuthMethod := some method })

end HostStore

end KaduoxSsh.Hosts
