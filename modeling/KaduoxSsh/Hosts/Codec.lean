import KaduoxSsh.Hosts.Document

/-!
# The codec of the host library

`encode` and `decode` of `codec.rs`. A valid database comes back from its text
unless a note has a control character for which the format has no escape: the
check of a note only refuses the character NUL, the writer copies the others into
the text, and the reader stops at them.
-/

namespace KaduoxSsh.Hosts

open Text Toml Result

/-! ## Writing -/

def encodeHost (host : HostRecord) : List Char :=
  "\n[[host]]\n".toList ++
  writeString "alias" host.hostAlias ++
  -- `both` is what a record of the old format, which has no role, means.
  (if host.role ≠ .both then writeString "role" host.role.asStr else []) ++
  writeString "address" host.address ++
  writeInteger "port" host.port.toNat ++
  writeString "user" host.user ++
  host.identityFile.elim [] (fun path ↦ writeString "identity_file" path.toStringLossy) ++
  writeStrings "groups" host.groups ++
  writeStrings "tags" host.tags ++
  host.note.elim [] (writeString "note") ++
  writeString "host_key_policy" host.hostKeyPolicy.asStr ++
  (if host.osType ≠ .auto then writeString "os_type" host.osType.asStr else []) ++
  host.jumpChain.elim [] (writeString "jump_chain") ++
  host.stats.lastConnectedUnix.elim [] (fun time ↦ writeInteger "last_connected_unix" time.toNat) ++
  writeInteger "connection_count" host.stats.connectionCount.toNat ++
  host.stats.lastAuthMethod.elim [] fun method ↦ writeString "last_auth_method" method.asStr

def encodeJump : JumpHop → List Char
  | .host hostAlias => writeString "kind" "host" ++ writeString "name" hostAlias
  | .openSshAlias hostAlias => writeString "kind" "openssh" ++ writeString "name" hostAlias
  | .inline jump =>
      writeString "kind" "inline" ++
      writeString "alias" jump.hostAlias ++
      writeString "host" jump.host ++
      writeInteger "port" jump.port.toNat ++
      writeString "user" jump.user ++
      jump.identityFile.elim [] (fun path ↦ writeString "identity_file" path.toStringLossy) ++
      writeString "host_key_policy" jump.hostKeyPolicy.asStr

def encodeHop (name : String) (hop : JumpHop × Nat) : List Char :=
  "\n[[hop]]\n".toList ++ writeString "chain" name ++ writeInteger "index" hop.2 ++
  encodeJump hop.1

def encodeChain (chain : JumpChain) : List Char :=
  "\n[[chain]]\n".toList ++ writeString "name" chain.name ++
  chain.hops.zipIdx.flatMap (encodeHop chain.name)

/-- The first line of the text. -/
def commentLine : List Char :=
  "# Kaduox-SSH host library. Secrets are intentionally not stored here.".toList

def encode [Unicode] (database : HostDatabase) : Result String := do
  database.validate
  return String.ofList
    (commentLine ++ ['\n'] ++
    writeInteger "version" database.version.toNat ++
    (if database.folders ≠ [] then writeStrings "folders" database.folders else []) ++
    (if database.jumpFolders ≠ [] then writeStrings "jump_folders" database.jumpFolders else []) ++
    database.hosts.values.flatMap encodeHost ++
    database.chains.values.flatMap encodeChain)

/-! ## Taking fields from a table -/

/-- Reading from the fields of a table. What is read is taken out. -/
abbrev Taking := StateT (SortedMap String Value) Result

/-- The value of a key, which has to be of the expected type. -/
def take {α : Type} (expected : String) (select : Value → Option α) (key : String) :
    Taking (Option α) := fun values ↦
  match values.get? key with
  | none => .ok (none, values.erase key)
  | some value =>
      match select value with
      | some selected => .ok (some selected, values.erase key)
      | none => bail s!"key {debug key} must be {expected}"

def takeString : String → Taking (Option String) :=
  take "a string" fun
    | .string value => some value
    | _ => none

def takeInteger : String → Taking (Option UInt64) :=
  take "an unsigned integer" fun
    | .integer value => some value
    | _ => none

def takeStrings : String → Taking (Option (List String)) :=
  take "an array of strings" fun
    | .strings values => some values
    | _ => none

def requiredString (key : String) (line : Nat) : Taking String := do
  ofOption s!"table at line {line} is missing {key}" (← takeString key)

/-- A string that stands for a value of another type. -/
def takeParsed {α : Type} (key : String) (parse : String → Result α) : Taking (Option α) := do
  match ← takeString key with
  | none => return none
  | some value => return some (← parse value)

/-- A port, which is 22 when it is not there. -/
def takePort (invalid : String) : Taking UInt16 := do
  let port := (← takeInteger "port").getD 22
  if port.toNat < 65536 ∧ port ≠ 0 then return port.toUInt16
  else bail invalid

def rejectUnknown (location : String) : Taking Unit := fun values ↦
  match values.keys with
  | key :: _ => bail s!"unknown key {debug key} in {location}"
  | [] => .ok ((), values)

/-! ## Reading -/

def decodeHost (line : Nat) : Taking HostRecord := do
  let hostAlias ← requiredString "alias" line
  let role := (← takeParsed "role" HostRole.parse).getD .default
  let address ← requiredString "address" line
  let user ← requiredString "user" line
  let port ← takePort s!"invalid SSH port in host table at line {line}"
  let identityFile := (← takeString "identity_file").map PathBuf.ofString
  let groups := (← takeStrings "groups").getD []
  let tags := (← takeStrings "tags").getD []
  let note ← takeString "note"
  let hostKeyPolicy := (← takeParsed "host_key_policy" StoredHostKeyPolicy.parse).getD .default
  let jumpChain ← takeString "jump_chain"
  let osType := (← takeParsed "os_type" StoredOsType.parse).getD .default
  let lastConnectedUnix ← takeInteger "last_connected_unix"
  let connectionCount := (← takeInteger "connection_count").getD 0
  let lastAuthMethod ← takeParsed "last_auth_method" StoredAuthMethod.parse
  rejectUnknown s!"host table at line {line}"
  return {
    hostAlias, role, address, port, user, identityFile, groups, tags, note, hostKeyPolicy,
    jumpChain, osType, stats := { lastConnectedUnix, connectionCount, lastAuthMethod } }

def decodeJump (kind : String) (line : Nat) : Taking JumpHop := do
  if kind = "host" then return .host (← requiredString "name" line)
  else if kind = "openssh" then return .openSshAlias (← requiredString "name" line)
  else if kind = "inline" then
    let hostAlias ← requiredString "alias" line
    let host ← requiredString "host" line
    let user ← requiredString "user" line
    let port ← takePort s!"invalid inline hop port at line {line}"
    let identityFile := (← takeString "identity_file").map PathBuf.ofString
    let hostKeyPolicy := (← takeParsed "host_key_policy" StoredHostKeyPolicy.parse).getD .default
    return .inline { hostAlias, host, port, user, identityFile, hostKeyPolicy }
  else bail s!"unknown hop kind {debug kind} at line {line}"

/-- A hop, with the chain it belongs to and its place there. On the platforms of the program every
`u64` is a `usize`. -/
def decodeHop (line : Nat) : Taking (String × Nat × JumpHop) := do
  let chain ← requiredString "chain" line
  let index : UInt64 ← ofOption "hop table is missing index" (← takeInteger "index")
  let kind ← requiredString "kind" line
  let hop ← decodeJump kind line
  rejectUnknown s!"hop table at line {line}"
  return (chain, index.toNat, hop)

def decodeChain (line : Nat) : Taking String := do
  let name ← requiredString "name" line
  rejectUnknown s!"chain table at line {line}"
  return name

/-- What has been read from the tables: the database, whose chains have no hops yet, and the hops
of each chain with their places. -/
structure Loading where
  database : HostDatabase
  rawHops : SortedMap String (List (Nat × JumpHop))
  seenChainNames : List String

namespace Loading

def start (folders jumpFolders : List String) : Loading :=
  ⟨{ HostDatabase.default with folders, jumpFolders }, .empty, []⟩

variable (loading : Loading)

def insertHost (host : HostRecord) : Loading :=
  { loading with database.hosts := loading.database.hosts.insert host.hostAlias host }

def insertChain (name : String) : Loading :=
  { loading with
    database.chains := loading.database.chains.insert name { name, hops := [] }
    seenChainNames := name :: loading.seenChainNames }

def pushHop (name : String) (index : Nat) (hop : JumpHop) : Loading :=
  { loading with
    rawHops := loading.rawHops.insert name ((loading.rawHops.get? name).getD [] ++ [(index, hop)]) }

def readTable [Unicode] (loading : Loading) (table : Table) : Result Loading :=
  match table.kind with
  | .host => do
      let (host, _) ← decodeHost table.line table.values
      host.validate
      if loading.database.hosts.contains host.hostAlias then
        bail s!"duplicate host alias {debug host.hostAlias}"
      else return loading.insertHost host
  | .chain => do
      let (name, _) ← decodeChain table.line table.values
      if name ∈ loading.seenChainNames then bail s!"duplicate jump chain {debug name}"
      else return loading.insertChain name
  | .hop => do
      let ((name, index, hop), _) ← decodeHop table.line table.values
      hop.validate
      return loading.pushHop name index hop

end Loading

/-- The hops of a chain, whose places have to be 0, 1 and so on. -/
def contiguous (name : String) : Nat → List (Nat × JumpHop) → Result (List JumpHop)
  | _, [] => .ok []
  | expected, (actual, hop) :: hops =>
      if actual ≠ expected then
        bail (s!"jump chain {name} hop indices must be contiguous from 0; " ++
          s!"expected {expected}, found {actual}")
      else do
        return hop :: (← contiguous name (expected + 1) hops)

/-- A chain of the database gets its hops. -/
def attachHops (chains : SortedMap String JumpChain) (entry : String × List (Nat × JumpHop)) :
    Result (SortedMap String JumpChain) := do
  let (name, hops) := entry
  let chain ← ofOption s!"hop references missing chain {debug name}" (chains.get? name)
  let hops ← contiguous name 0 (hops.insertionSort fun a b ↦ a.1 ≤ b.1)
  return chains.insert name { chain with hops := chain.hops ++ hops }

/-- The fields of the root: the folders, and the folders of jump hosts. -/
def decodeRoot : Taking (List String × List String) := do
  let version : UInt64 ←
    ofOption "host database is missing root version" (← takeInteger "version")
  if version ≠ DATABASE_VERSION.toUInt64 then
    bail s!"unsupported host database version {version}; expected {DATABASE_VERSION}"
  else
    let folders := (← takeStrings "folders").getD []
    let jumpFolders := (← takeStrings "jump_folders").getD []
    rejectUnknown "root"
    return (folders, jumpFolders)

/-- The largest text that is read. -/
def MAX_INPUT_BYTES : Nat := 4 * 1024 * 1024

def decode [Unicode] (input : String) : Result HostDatabase :=
  if (utf8 input).length > MAX_INPUT_BYTES then
    bail "host database exceeds the 4 MiB parser limit"
  else do
    let document ← Document.empty.readLines 1 (lines input.toList)
    let ((folders, jumpFolders), _) ← decodeRoot document.root
    let loading ← document.close.foldlM Loading.readTable (.start folders jumpFolders)
    let chains ← loading.rawHops.entries.foldlM attachHops loading.database.chains
    let database := { loading.database with chains }
    database.validate
    return database

end KaduoxSsh.Hosts
