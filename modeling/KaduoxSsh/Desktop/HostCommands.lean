import KaduoxSsh.Desktop.Sessions
import KaduoxSsh.Hosts.Resolver
import KaduoxSsh.Hosts.Sharing

/-!
# Saving hosts and chains from the desktop

The two commands of `commands/hosts.rs` that put what a user has entered into the host library.
Each opens the library, changes a copy of it with the operations of the store, and writes the
copy. An error before the writing leaves the file as it was. An error of the writing does so
too, unless it comes behind the renaming that puts the new file in place.

The results are the saved records, of which the program shows a view.
-/

namespace KaduoxSsh.Desktop

open Hosts Text Result
open KaduoxSsh.Core (ConnectionConfig HomeConfig)
open Sessions (trimmed)

/-! ## Requests -/

structure HostSaveRequest where
  password : Option String
  role : Option String
  originalAlias : Option String
  hostAlias : String
  address : String
  port : UInt16
  user : String
  identityFile : Option String
  groups : List String
  tags : List String
  note : Option String
  hostKeyPolicy : String
  jumpChain : Option String
  osType : Option String

structure JumpChainSaveRequest where
  originalName : Option String
  name : String
  hops : List String

def policyFromStr (value : String) : Result StoredHostKeyPolicy :=
  context "无效的主机密钥策略" (StoredHostKeyPolicy.parse value)

def cleanOptional (value : Option String) : Option String := (value.map trimmed).filter (· ≠ "")

/-- Labels without blanks around them, each once. -/
def cleanLabels (values : List String) : List String :=
  ((values.map trimmed).filter (· ≠ "")).eraseDups

/-! ## Writing -/

/-- What is around a command: the configuration of OpenSSH, how writing the file ends, and the
store of passwords. -/
structure HostSurroundings where
  home : HomeConfig
  writing : WriteOutcome
  writeError : AnyError
  savePassword : ConnectionConfig → String → Result Unit

/-- The store behind an operation that succeeds. -/
def behind {α : Type} (outcome : Result α × HostStore) : Result HostStore :=
  outcome.1.map fun _ ↦ outcome.2

/-- `save`, with the database that is in the file from then on. -/
def save [Unicode] (w : HostSurroundings) (store : HostStore) : Result Unit × Option HostDatabase :=
  match store.encoded with
  | .error e => (.error e, none)
  | .ok _ =>
      match w.writing with
      | .failed => (.error w.writeError, none)
      | .failedAfterRename => (.error w.writeError, some store.database)
      | .written => (.ok (), some store.database)

/-- A command that changes a store, saves it, and then goes on. -/
def saving [Unicode] {α : Type} (w : HostSurroundings) (updated : Result HostStore)
    (next : HostStore → Result α) : Result α × Option HostDatabase :=
  match updated with
  | .error e => (.error e, none)
  | .ok store => ((save w store).1.bind fun _ ↦ next store, (save w store).2)

/-! ## Hosts -/

namespace HostSaveRequest

variable (request : HostSaveRequest)

def name : String := trimmed request.hostAlias

def original : Option String := cleanOptional request.originalAlias

def storedRole (previous : Option HostRecord) : Result HostRole :=
  match request.role with
  | some role => HostRole.parse role
  | none => .ok (previous.elim .default HostRecord.role)

def storedOsType (previous : Option HostRecord) : Result StoredOsType :=
  match (request.osType.map trimmed).filter (· ≠ "") with
  | some osType => StoredOsType.parse osType
  | none => .ok (previous.elim .default HostRecord.osType)

/-- The record of a request. What it leaves open is taken from the record there was. -/
def record (previous : Option HostRecord) : Result HostRecord := do
  let role ← request.storedRole previous
  let hostKeyPolicy ← policyFromStr (trimmed request.hostKeyPolicy)
  let osType ← request.storedOsType previous
  let host := HostRecord.new request.name (trimmed request.address) (trimmed request.user)
  return { host with
    role
    port := request.port
    identityFile := (cleanOptional request.identityFile).map PathBuf.ofString
    groups := cleanLabels request.groups
    tags := cleanLabels request.tags
    note := cleanOptional request.note
    hostKeyPolicy
    jumpChain := cleanOptional request.jumpChain
    osType
    stats := previous.elim host.stats HostRecord.stats }

/-- The record that an edit starts from. -/
def previous (database : HostDatabase) : Option HostRecord :=
  (request.original.bind database.hosts.get?).or (database.hosts.get? request.name)

/-- The name that the host has no longer. -/
def oldName : Option String := request.original.filter (· ≠ request.name)

end HostSaveRequest

section

variable [Unicode]

/-- The library without a host that gets another name. -/
def removeOld (store : HostStore) : Option String → Result HostStore
  | some old => behind (store.removeHost old)
  | none => .ok store

/-- The library with the host of a request. -/
def updateHost (store : HostStore) (request : HostSaveRequest) : Result HostStore := do
  bailIf (request.oldName.isSome ∧ store.database.hosts.contains request.name)
    s!"主机别名 {debug request.name} 已存在"
  let host ← request.record (request.previous store.database)
  host.validate
  let updated ← removeOld store request.oldName
  behind (updated.upsertHost host)

def saveHostInner (w : HostSurroundings) (store : HostStore) (request : HostSaveRequest) :
    Result HostRecord × Option HostDatabase :=
  saving w (updateHost store request) fun updated ↦ do
    let saved ← ofOption "保存后无法重新读取主机"
      (updated.database.hosts.get? request.name)
    (request.password.filter (· ≠ "")).forM fun password ↦ do
      let resolved ← resolveHost w.home updated.database request.name none none
      context "主机已保存，但密码保存失败；请重试保存密码"
        (w.savePassword resolved.config password)
    return saved

/-! ## Chains -/

/-- The alias that a hop is shown with. -/
def hopAlias (store : HostStore) : JumpHop → String
  | .host hostAlias => (store.database.hosts.get? hostAlias).elim hostAlias HostRecord.hostAlias
  | .openSshAlias hostAlias => hostAlias
  | .inline jump => jump.hostAlias

namespace JumpChainSaveRequest

variable (request : JumpChainSaveRequest)

def newName : String := trimmed request.name

def original : Option String := cleanOptional request.originalName

/-- The hops of a request. One that the chain has already stays what it is. -/
def chainHops (store : HostStore) : List JumpHop :=
  request.hops.map fun hop ↦
    (((request.original.bind store.database.chains.get?).bind fun chain ↦
      chain.hops.find? fun old ↦ hopAlias store old = trimmed hop)).getD (.host (trimmed hop))

/-- The name that the chain has no longer. -/
def oldName : Option String := request.original.filter (· ≠ request.newName)

end JumpChainSaveRequest

/-- Bind hosts to a chain, one after the other. -/
def rebind (name : String) (store : HostStore) (hosts : List HostRecord) : Result HostStore :=
  hosts.foldlM (fun store host ↦ behind (store.upsertHost { host with jumpChain := some name }))
    store

/-- The library with the chain of a request. -/
def updateChain (store : HostStore) (request : JumpChainSaveRequest) : Result HostStore := do
  let name := request.newName
  bailIf (name = "") "跳板链名称不能为空"
  bailIf (request.hops = []) "跳板链至少需要一个节点"
  bailIf (request.hops.length > 5) "桌面客户端最多支持 5 层跳板（另加最终目标）"
  let chain := ⟨name, request.chainHops store⟩
  let renames := request.oldName.isSome
  let present := store.database.chains.contains name
  bailIf (¬renames ∧ ¬present ∧ request.original.isSome) "原跳板链不存在，无法更新"
  bailIf (renames ∧ present) s!"跳板链 {debug name} 已存在"
  bailIf (¬renames ∧ request.original.isNone ∧ present) s!"跳板链 {debug name} 已存在"
  match request.oldName with
  | some old => do
      let updated ← behind (store.upsertChain chain)
      let bound := updated.database.hosts.values.filter fun host ↦ host.jumpChain = some old
      let updated ← rebind name updated bound
      behind (updated.removeChain old)
  | none => behind (store.upsertChain chain)

def saveChainInner (w : HostSurroundings) (store : HostStore) (request : JumpChainSaveRequest) :
    Result JumpChain × Option HostDatabase :=
  saving w (updateChain store request) fun updated ↦
    ofOption "保存后无法重新读取跳板链" (updated.database.chains.get? request.newName)

end

end KaduoxSsh.Desktop
