import KaduoxSsh.Lib.Result
import KaduoxSsh.Lib.SortedMap
import KaduoxSsh.Lib.Text

/-!
# The host library

`model.rs`: hosts, jump chains and folders, and the checks they have to pass. A
database that passes `HostDatabase.validate` is one that is `Valid`, which says
the same without the order of the checks and without their messages.

The letters and digits of Unicode are those of the standard library. All that is
used of them is that none is a control character, so the class `Unicode` has this
as its only law.
-/

namespace KaduoxSsh.Hosts

open Text Result

/-- The letters and digits of Unicode. -/
class Unicode where
  isAlphanumeric : Char → Bool
  isControl_of_isAlphanumeric : ∀ c, isAlphanumeric c = true → isControl c = false

/-- The letters and digits of ASCII, which are those of Unicode on a text in ASCII. -/
@[reducible] def asciiLetters : Unicode where
  isAlphanumeric := Char.isAlphanum
  isControl_of_isAlphanumeric := by
    intro c h
    have hcode := toNat_of_isAlphanum h
    simp [isControl, UInt32.le_iff_toNat_le, UInt32.lt_iff_toNat_lt]
    omega

def DATABASE_VERSION : UInt32 := 1
def MAX_HOSTS : Nat := 4096
def MAX_CHAINS : Nat := 512
def MAX_CHAIN_HOPS : Nat := 8
def MAX_LABELS_PER_HOST : Nat := 64
def MAX_TEXT_BYTES : Nat := 4096

/-! ## Records -/

inductive StoredHostKeyPolicy where
  | strict
  | acceptNew
  | insecure
deriving DecidableEq, Repr

namespace StoredHostKeyPolicy

def default : StoredHostKeyPolicy := .acceptNew

def asStr : StoredHostKeyPolicy → String
  | .strict => "strict"
  | .acceptNew => "accept-new"
  | .insecure => "insecure"

def parse : String → Result StoredHostKeyPolicy
  | "strict" => .ok .strict
  | "accept-new" => .ok .acceptNew
  | "insecure" => .ok .insecure
  | value => bail s!"unknown host-key policy {debug value}"

end StoredHostKeyPolicy

inductive StoredAuthMethod where
  | agent
  | privateKey
  | password
  | keyboardInteractive
  | auto
deriving DecidableEq, Repr

namespace StoredAuthMethod

def asStr : StoredAuthMethod → String
  | .agent => "agent"
  | .privateKey => "private-key"
  | .password => "password"
  | .keyboardInteractive => "keyboard-interactive"
  | .auto => "auto"

def parse : String → Result StoredAuthMethod
  | "agent" => .ok .agent
  | "private-key" => .ok .privateKey
  | "password" => .ok .password
  | "keyboard-interactive" => .ok .keyboardInteractive
  | "auto" => .ok .auto
  | value => bail s!"unknown authentication method {debug value}"

end StoredAuthMethod

inductive StoredOsType where
  | auto
  | linux
  | windows
deriving DecidableEq, Repr

namespace StoredOsType

def default : StoredOsType := .auto

def asStr : StoredOsType → String
  | .auto => "auto"
  | .linux => "linux"
  | .windows => "windows"

def parse : String → Result StoredOsType
  | "auto" => .ok .auto
  | "linux" => .ok .linux
  | "windows" => .ok .windows
  | value => bail s!"unknown operating-system type {debug value}"

end StoredOsType

inductive HostRole where
  | target
  | jump
  | both
deriving DecidableEq, Repr

namespace HostRole

def default : HostRole := .both

def asStr : HostRole → String
  | .target => "target"
  | .jump => "jump"
  | .both => "both"

def parse : String → Result HostRole
  | "target" => .ok .target
  | "jump" => .ok .jump
  | "both" => .ok .both
  | _ => bail "主机用途必须是 target、jump 或 both"

end HostRole

structure HostStats where
  lastConnectedUnix : Option UInt64
  connectionCount : UInt64
  lastAuthMethod : Option StoredAuthMethod
deriving DecidableEq, Repr

def HostStats.default : HostStats := ⟨none, 0, none⟩

structure HostRecord where
  hostAlias : String
  role : HostRole
  address : String
  port : UInt16
  user : String
  identityFile : Option PathBuf
  groups : List String
  tags : List String
  note : Option String
  hostKeyPolicy : StoredHostKeyPolicy
  jumpChain : Option String
  osType : StoredOsType
  stats : HostStats
deriving DecidableEq, Repr

def HostRecord.new (hostAlias address user : String) : HostRecord where
  hostAlias
  role := .both
  address
  port := 22
  user
  identityFile := none
  groups := []
  tags := []
  note := none
  hostKeyPolicy := .acceptNew
  jumpChain := none
  osType := .auto
  stats := .default

structure InlineJump where
  hostAlias : String
  host : String
  port : UInt16
  user : String
  identityFile : Option PathBuf
  hostKeyPolicy : StoredHostKeyPolicy
deriving DecidableEq, Repr

inductive JumpHop where
  /-- A host of this library, used as a jump node. -/
  | host (hostAlias : String)
  /-- An alias of the OpenSSH configuration. -/
  | openSshAlias (hostAlias : String)
  | inline (jump : InlineJump)
deriving DecidableEq, Repr

def JumpHop.displayName : JumpHop → String
  | .host value | .openSshAlias value => value
  | .inline value => value.hostAlias

structure JumpChain where
  name : String
  hops : List JumpHop
deriving DecidableEq, Repr

structure HostDatabase where
  folders : List String
  /-- The folders of jump hosts, which are none of `folders`. -/
  jumpFolders : List String
  version : UInt32
  hosts : SortedMap String HostRecord
  chains : SortedMap String JumpChain
deriving DecidableEq

def HostDatabase.default : HostDatabase where
  folders := []
  jumpFolders := []
  version := DATABASE_VERSION
  hosts := .empty
  chains := .empty

/-! ## Checks of single fields -/

/-- What `str::trim` leaves. -/
def trim (l : List Char) : List Char :=
  ((l.dropWhile isWhitespace).reverse.dropWhile isWhitespace).reverse

def validateName (value field : String) : Result Unit :=
  if value = "" ∨ (utf8 value).length > 128 then
    bail s!"{field} must contain 1..=128 bytes"
  else if ¬value.toList.all fun c ↦ c.isAlphanum || c ∈ ['.', '_', '-', ':'] then
    bail (s!"{field} {debug value} contains unsupported characters; " ++
      "use ASCII letters, digits, '.', '_', '-' or ':'")
  else .ok ()

def validateEndpointToken (value field : String) : Result Unit :=
  if value = "" ∨ (utf8 value).length > 512 then
    bail s!"{field} must contain 1..=512 bytes"
  else if value.toList.any isControl ∨ '\x00' ∈ value.toList then
    bail s!"{field} must not contain control characters or NUL"
  else .ok ()

/-- Check values one after the other, and that no two of them have the same key. -/
def checkDistinct {α : Type} (check : α → Result Unit) (key : α → String) (repeated : α → String) :
    List String → List α → Result Unit
  | _, [] => .ok ()
  | seen, value :: values => do
      check value
      if key value ∈ seen then bail (repeated value)
      else checkDistinct check key repeated (key value :: seen) values

def validateOptionalPath (path : Option PathBuf) (field : String) : Result Unit :=
  match path with
  | none => .ok ()
  | some path =>
      let value := path.toStringLossy
      if value = "" ∨ (utf8 value).length > 4096 ∨ value.toList.any isControl then
        bail s!"{field} is empty, too long, or contains control characters"
      else .ok ()

def validateText (value field : String) : Result Unit :=
  if (utf8 value).length > MAX_TEXT_BYTES then
    bail s!"{field} exceeds {MAX_TEXT_BYTES} bytes"
  else if '\x00' ∈ value.toList then bail s!"{field} must not contain NUL"
  else .ok ()

/-- The characters of a label besides letters and digits. -/
def labelPunctuation : List Char := [' ', '.', '_', '-', ':', '(', ')', '（', '）']

section

variable [Unicode]

def validateLabel (value field : String) : Result Unit :=
  if value = "" ∨ value.toList.length > 128 ∨ trim value.toList ≠ value.toList then
    bail s!"{field}：名称须为 1–128 个字符，首尾不能有空格"
  else if ¬value.toList.all fun c ↦ Unicode.isAlphanumeric c || c ∈ labelPunctuation then
    bail (s!"{field}：名称支持中文、字母、数字、空格、括号及 . _ - :，" ++
      "不支持控制字符或命令符号")
  else .ok ()

def validateLabels (values : List String) (kind : String) : Result Unit :=
  if values.length > MAX_LABELS_PER_HOST then
    bail s!"too many {kind}s; maximum is {MAX_LABELS_PER_HOST}"
  else
    checkDistinct (validateLabel · kind) id (fun value ↦ s!"duplicate {kind} {debug value}") [] values

/-! ## Checks of records -/

def HostRecord.validate (host : HostRecord) : Result Unit := do
  validateLabel host.hostAlias "host name"
  validateEndpointToken host.address "host address"
  bailIf (host.port = 0) s!"host {host.hostAlias} uses invalid port 0"
  validateEndpointToken host.user "SSH user"
  validateOptionalPath host.identityFile "identity file"
  validateLabels host.groups "group"
  validateLabels host.tags "tag"
  host.note.forM (validateText · "host note")
  host.jumpChain.forM (validateLabel · "jump chain")

def InlineJump.validate (jump : InlineJump) : Result Unit := do
  validateLabel jump.hostAlias "inline jump name"
  validateEndpointToken jump.host "inline jump host"
  bailIf (jump.port = 0) s!"inline jump {jump.hostAlias} uses invalid port 0"
  validateEndpointToken jump.user "inline jump user"
  validateOptionalPath jump.identityFile "inline jump identity file"

def JumpHop.validate : JumpHop → Result Unit
  | .host hostAlias => validateLabel hostAlias "jump host reference"
  | .openSshAlias hostAlias => validateName hostAlias "OpenSSH jump alias"
  | .inline jump => jump.validate

def JumpChain.validate (chain : JumpChain) : Result Unit := do
  validateLabel chain.name "jump chain"
  bailIf (chain.hops = []) s!"jump chain {chain.name} must contain at least one hop"
  bailIf (chain.hops.length > MAX_CHAIN_HOPS)
    (s!"jump chain {chain.name} contains {chain.hops.length} hops; " ++
      s!"maximum is {MAX_CHAIN_HOPS}")
  checkDistinct JumpHop.validate JumpHop.displayName
    (fun hop ↦ s!"jump chain {chain.name} repeats hop {hop.displayName}") [] chain.hops

/-! ## Checks across records -/

namespace HostDatabase

variable (database : HostDatabase)

/-- A host under its key, and the chain it is bound to. -/
def validateHost (entry : String × HostRecord) : Result Unit := do
  let (hostAlias, host) := entry
  bailIf (hostAlias ≠ host.hostAlias)
    s!"host map key {debug hostAlias} does not match stored alias {debug host.hostAlias}"
  host.validate
  host.jumpChain.forM fun chain ↦
    bailIf (¬database.chains.contains chain)
      s!"host {hostAlias} references missing jump chain {chain}"

/-- A hop that is a host of the library. -/
def validateHop (name : String) : JumpHop → Result Unit
  | .host hostAlias =>
      match database.hosts.get? hostAlias with
      | none => bail s!"jump chain {name} references missing host {hostAlias}"
      | some host =>
          bailIf (host.role = .target)
            (s!"主机 {hostAlias} 用途为目标机器，不能加入跳板链 {name}；" ++
              "请先改为中转或两者兼用，或从链中移除")
  | _ => .ok ()

/-- A chain under its key, and its hops. -/
def validateChain (entry : String × JumpChain) : Result Unit := do
  let (name, chain) := entry
  bailIf (name ≠ chain.name)
    s!"chain map key {debug name} does not match stored name {debug chain.name}"
  chain.validate
  chain.hops.forM (database.validateHop name)

/-- No host is a member of the chain that leads to it. That the chain exists has been checked. -/
def validateRoute (host : HostRecord) : Result Unit :=
  (host.jumpChain.bind database.chains.get?).forM fun chain ↦
    bailIf (chain.hops.any fun hop ↦ hop.displayName = host.hostAlias)
      s!"routing loop: host {host.hostAlias} is a member of its own jump chain {chain.name}"

def validate : Result Unit := do
  bailIf (database.folders.length > MAX_HOSTS) "too many host folders"
  checkDistinct (validateLabel · "folder") id
    (fun _ ↦ "duplicate folder or folder role conflict") []
    (database.folders ++ database.jumpFolders)
  bailIf (database.version ≠ DATABASE_VERSION)
    s!"unsupported host database version {database.version}; expected {DATABASE_VERSION}"
  bailIf (database.hosts.size > MAX_HOSTS)
    s!"host database contains too many hosts (max {MAX_HOSTS})"
  bailIf (database.chains.size > MAX_CHAINS)
    s!"host database contains too many chains (max {MAX_CHAINS})"
  database.hosts.entries.forM database.validateHost
  database.chains.entries.forM database.validateChain
  database.hosts.values.forM database.validateRoute

end HostDatabase

end

/-! ## What the checks accept -/

theorem checkDistinct_eq_ok {α : Type} {check : α → Result Unit} {key repeated : α → String}
    {seen : List String} {values : List α} :
    checkDistinct check key repeated seen values = .ok () ↔
      (∀ value ∈ values, check value = .ok ()) ∧ (values.map key).Nodup ∧
        ∀ value ∈ values, key value ∉ seen := by
  induction values generalizing seen with
  | nil => simp [checkDistinct]
  | cons value values ih =>
      rw [checkDistinct, check_bind_eq_ok]
      simp only [ite_bail_eq_ok, ih, List.mem_cons, not_or, List.map_cons,
        List.nodup_cons, List.mem_map, not_exists, not_and, forall_eq_or_imp]
      constructor
      · rintro ⟨hcheck, hseen, hchecks, hnodup, hfresh⟩
        exact ⟨⟨hcheck, hchecks⟩, ⟨fun v hv ↦ (hfresh v hv).1, hnodup⟩, hseen,
          fun v hv ↦ (hfresh v hv).2⟩
      · rintro ⟨⟨hcheck, hchecks⟩, ⟨hne, hnodup⟩, hseen, hfresh⟩
        exact ⟨hcheck, hseen, hchecks, hnodup, fun v hv ↦ ⟨hne v hv, hfresh v hv⟩⟩

/-- No character of the text is a control character. -/
def Plain (value : String) : Prop := ∀ c ∈ value.toList, isControl c = false

theorem validateEndpointToken_plain {value field : String}
    (h : validateEndpointToken value field = .ok ()) : Plain value := by
  rw [validateEndpointToken, ite_bail_eq_ok, ite_bail_eq_ok] at h
  intro c hc
  rw [← Bool.not_eq_true]
  exact fun hcontrol ↦ h.2.1 (.inl (List.any_eq_true.mpr ⟨c, hc, hcontrol⟩))

theorem validateName_plain {value field : String} (h : validateName value field = .ok ()) :
    Plain value := by
  rw [validateName, ite_bail_eq_ok, ite_bail_eq_ok, not_not, List.all_eq_true] at h
  intro c hc
  have hascii := h.2.1 c hc
  rw [Bool.or_eq_true, decide_eq_true_eq] at hascii
  rcases hascii with halnum | hmem
  · exact asciiLetters.isControl_of_isAlphanumeric c halnum
  · have hpunctuation : ∀ c ∈ ['.', '_', '-', ':'], isControl c = false := by decide
    exact hpunctuation c hmem

theorem validateOptionalPath_plain {path : PathBuf} {field : String}
    (h : validateOptionalPath (some path) field = .ok ()) : Plain path.toStringLossy := by
  rw [validateOptionalPath, ite_bail_eq_ok] at h
  intro c hc
  rw [← Bool.not_eq_true]
  exact fun hcontrol ↦ h.1 (.inr (.inr (List.any_eq_true.mpr ⟨c, hc, hcontrol⟩)))

section

variable [Unicode]

theorem validateLabel_plain {value field : String} (h : validateLabel value field = .ok ()) :
    Plain value := by
  rw [validateLabel, ite_bail_eq_ok, ite_bail_eq_ok, not_not, List.all_eq_true] at h
  intro c hc
  have hallowed := h.2.1 c hc
  rw [Bool.or_eq_true, decide_eq_true_eq] at hallowed
  rcases hallowed with halnum | hmem
  · exact Unicode.isControl_of_isAlphanumeric c halnum
  · have hpunctuation : ∀ c ∈ labelPunctuation, isControl c = false := by decide
    exact hpunctuation c hmem

theorem validateLabels_plain {values : List String} {kind : String}
    (h : validateLabels values kind = .ok ()) : ∀ value ∈ values, Plain value := by
  rw [validateLabels, ite_bail_eq_ok, checkDistinct_eq_ok] at h
  exact fun value hvalue ↦ validateLabel_plain (h.2.1 value hvalue)

theorem HostRecord.validate_eq_ok {host : HostRecord} : host.validate = .ok () ↔
    validateLabel host.hostAlias "host name" = .ok () ∧
    validateEndpointToken host.address "host address" = .ok () ∧
    host.port ≠ 0 ∧
    validateEndpointToken host.user "SSH user" = .ok () ∧
    validateOptionalPath host.identityFile "identity file" = .ok () ∧
    validateLabels host.groups "group" = .ok () ∧
    validateLabels host.tags "tag" = .ok () ∧
    (∀ note, host.note = some note → validateText note "host note" = .ok ()) ∧
    ∀ chain, host.jumpChain = some chain → validateLabel chain "jump chain" = .ok () := by
  rw [HostRecord.validate]
  simp only [check_bind_eq_ok, bailIf_eq_ok, optionForM_eq_ok, ne_eq]

theorem InlineJump.validate_eq_ok {jump : InlineJump} : jump.validate = .ok () ↔
    validateLabel jump.hostAlias "inline jump name" = .ok () ∧
    validateEndpointToken jump.host "inline jump host" = .ok () ∧
    jump.port ≠ 0 ∧
    validateEndpointToken jump.user "inline jump user" = .ok () ∧
    validateOptionalPath jump.identityFile "inline jump identity file" = .ok () := by
  rw [InlineJump.validate]
  simp only [check_bind_eq_ok, bailIf_eq_ok, ne_eq]

theorem JumpChain.validate_eq_ok {chain : JumpChain} : chain.validate = .ok () ↔
    validateLabel chain.name "jump chain" = .ok () ∧
    chain.hops ≠ [] ∧
    chain.hops.length ≤ MAX_CHAIN_HOPS ∧
    (∀ hop ∈ chain.hops, hop.validate = .ok ()) ∧
    (chain.hops.map JumpHop.displayName).Nodup := by
  rw [JumpChain.validate]
  simp only [check_bind_eq_ok, bailIf_eq_ok, checkDistinct_eq_ok, ne_eq,
    gt_iff_lt, Nat.not_lt]
  simp

end

namespace HostDatabase

variable {database : HostDatabase}

theorem validateHop_eq_ok {name : String} {hop : JumpHop} :
    database.validateHop name hop = .ok () ↔
      ∀ hostAlias, hop = .host hostAlias →
        ∃ host, database.hosts.get? hostAlias = some host ∧ host.role ≠ .target := by
  cases hop with
  | host hostAlias =>
      cases hget : database.hosts.get? hostAlias with
      | none => simp [validateHop, hget]
      | some host => simp [validateHop, hget]
  | openSshAlias hostAlias => simp [validateHop]
  | inline jump => simp [validateHop]

theorem validateRoute_eq_ok {host : HostRecord} :
    database.validateRoute host = .ok () ↔
      ∀ chain, host.jumpChain.bind database.chains.get? = some chain →
        ∀ hop ∈ chain.hops, hop.displayName ≠ host.hostAlias := by
  rw [validateRoute, optionForM_eq_ok]
  simp

end HostDatabase

section

variable [Unicode]

namespace HostDatabase

/-- The invariant of a database: keys are the names of their records, what a record refers to is
there and may be used so, and no host is reached through itself. -/
structure Valid (database : HostDatabase) : Prop where
  folderCount : database.folders.length ≤ MAX_HOSTS
  folderLabels : ∀ name ∈ database.folders ++ database.jumpFolders,
    validateLabel name "folder" = .ok ()
  foldersNodup : (database.folders ++ database.jumpFolders).Nodup
  version : database.version = DATABASE_VERSION
  hostCount : database.hosts.size ≤ MAX_HOSTS
  chainCount : database.chains.size ≤ MAX_CHAINS
  hostKey : ∀ k host, database.hosts.get? k = some host → host.hostAlias = k
  hostRecord : ∀ k host, database.hosts.get? k = some host → host.validate = .ok ()
  hostChain : ∀ k host chain, database.hosts.get? k = some host → host.jumpChain = some chain →
    database.chains.contains chain = true
  chainKey : ∀ k chain, database.chains.get? k = some chain → chain.name = k
  chainRecord : ∀ k chain, database.chains.get? k = some chain → chain.validate = .ok ()
  hopHost : ∀ k chain hostAlias, database.chains.get? k = some chain →
    .host hostAlias ∈ chain.hops → ∃ host, database.hosts.get? hostAlias = some host ∧
      host.role ≠ .target
  noLoop : ∀ k host chain, database.hosts.get? k = some host →
    host.jumpChain.bind database.chains.get? = some chain →
      ∀ hop ∈ chain.hops, hop.displayName ≠ host.hostAlias

variable {database : HostDatabase}

theorem validateHost_eq_ok {k : String} {host : HostRecord} :
    database.validateHost (k, host) = .ok () ↔
      host.hostAlias = k ∧ host.validate = .ok () ∧
        ∀ chain, host.jumpChain = some chain → database.chains.contains chain = true := by
  rw [validateHost, check_bind_eq_ok, check_bind_eq_ok, bailIf_eq_ok, not_not,
    eq_comm, optionForM_eq_ok]
  simp only [bailIf_eq_ok, not_not]

theorem validateChain_eq_ok {k : String} {chain : JumpChain} :
    database.validateChain (k, chain) = .ok () ↔
      chain.name = k ∧ chain.validate = .ok () ∧
        ∀ hostAlias, .host hostAlias ∈ chain.hops →
          ∃ host, database.hosts.get? hostAlias = some host ∧ host.role ≠ .target := by
  rw [validateChain, check_bind_eq_ok, check_bind_eq_ok, bailIf_eq_ok, not_not,
    eq_comm, forM_eq_ok]
  simp only [validateHop_eq_ok]
  refine and_congr_right fun _ ↦ and_congr_right fun _ ↦ ?_
  constructor
  · intro h hostAlias hmem
    exact h _ hmem hostAlias rfl
  · rintro h hop hmem hostAlias rfl
    exact h hostAlias hmem

/-- The checks accept exactly the valid databases. -/
theorem validate_eq_ok : database.validate = .ok () ↔ database.Valid := by
  rw [validate]
  simp only [check_bind_eq_ok, bailIf_eq_ok, checkDistinct_eq_ok, forM_eq_ok,
    not_not, gt_iff_lt, Nat.not_lt]
  constructor
  · rintro ⟨hfolders, ⟨hlabels, hnodup, -⟩, hversion, hhosts, hchains, hhost, hchain, hroute⟩
    have hhost' {k : String} {host : HostRecord} (h : database.hosts.get? k = some host) :=
      validateHost_eq_ok.mp (hhost (k, host) (SortedMap.get?_eq_some_iff.mp h))
    have hchain' {k : String} {chain : JumpChain} (h : database.chains.get? k = some chain) :=
      validateChain_eq_ok.mp (hchain (k, chain) (SortedMap.get?_eq_some_iff.mp h))
    exact {
      folderCount := hfolders
      folderLabels := hlabels
      foldersNodup := by rwa [List.map_id] at hnodup
      version := hversion
      hostCount := hhosts
      chainCount := hchains
      hostKey := fun k host h ↦ (hhost' h).1
      hostRecord := fun k host h ↦ (hhost' h).2.1
      hostChain := fun k host chain h ↦ (hhost' h).2.2 chain
      chainKey := fun k chain h ↦ (hchain' h).1
      chainRecord := fun k chain h ↦ (hchain' h).2.1
      hopHost := fun k chain hostAlias h ↦ (hchain' h).2.2 hostAlias
      noLoop := fun k host chain h ↦
        validateRoute_eq_ok.mp (hroute host (SortedMap.mem_values.mpr ⟨k, h⟩)) chain }
  · intro h
    refine ⟨h.folderCount, ⟨h.folderLabels, ?_, by simp⟩, h.version, h.hostCount, h.chainCount,
      ?_, ?_, ?_⟩
    · rw [List.map_id]
      exact h.foldersNodup
    · rintro ⟨k, host⟩ hmem
      have hget := SortedMap.get?_eq_some_iff.mpr hmem
      exact validateHost_eq_ok.mpr ⟨h.hostKey k host hget, h.hostRecord k host hget,
        fun chain ↦ h.hostChain k host chain hget⟩
    · rintro ⟨k, chain⟩ hmem
      have hget := SortedMap.get?_eq_some_iff.mpr hmem
      exact validateChain_eq_ok.mpr ⟨h.chainKey k chain hget, h.chainRecord k chain hget,
        fun hostAlias ↦ h.hopHost k chain hostAlias hget⟩
    · intro host hmem
      obtain ⟨k, hget⟩ := SortedMap.mem_values.mp hmem
      exact validateRoute_eq_ok.mpr fun chain ↦ h.noLoop k host chain hget

end HostDatabase

end

end KaduoxSsh.Hosts
