import KaduoxSsh.Core.Config
import KaduoxSsh.Hosts.Model
import KaduoxSsh.Lib.UnixPath

/-!
# Names of stored credentials

`credentials.rs` and `credentials_store.rs`: passwords and passphrases lie in one store under
names that are put together from texts. A password has the name `user@host:port`, a passphrase
`key:` and the path of the key.

The host library lets users and hosts have any characters that are not control characters. So a
name may be that of several endpoints, and that of a key as well: exactly when the user of one
endpoint goes on in the host of the other, and when the user begins as the name of a key does.

Paths are those of Unix.
-/

namespace KaduoxSsh.Core

open PathBuf List

/-! ## Names -/

def isBracketed (host : String) : Bool :=
  host.toList.head? = some '[' ∧ host.toList.getLast? = some ']'

def endpoint (host : String) (port : UInt16) : String :=
  if ':' ∈ host.toList ∧ ¬isBracketed host = true then s!"[{host}]:{port.toNat}"
  else s!"{host}:{port.toNat}"

def accountName (config : ConnectionConfig) : String :=
  s!"{config.username}@{endpoint config.host config.port}"

/-- What `current_dir` gives. -/
abbrev CurrentDir : Type := Option {path : PathBuf // path.isAbsolute = true}

def normalizeKeyPath (currentDir : CurrentDir) (path : PathBuf) : String :=
  let absolute := if path.isAbsolute = true then path
    else currentDir.elim path fun cwd ↦ cwd.val.push path
  absolute.toStringLossy

def keyPassphraseAccount (currentDir : CurrentDir) (path : PathBuf) : String :=
  s!"key:{normalizeKeyPath currentDir path}"

/-! ## The store -/

/-- What lies in the store of the system under each name. -/
abbrev Keyring : Type := String → Option String

namespace Keyring

variable (keyring : Keyring) (currentDir : CurrentDir)

def storedPassword (config : ConnectionConfig) : Option String := keyring (accountName config)

def storedKeyPassphrase (path : PathBuf) : Option String :=
  keyring (keyPassphraseAccount currentDir path)

/-- `set_password` of the entry of a connection. -/
def savePassword (config : ConnectionConfig) (password : String) : Keyring :=
  Function.update keyring (accountName config) (some password)

def saveKeyPassphrase (path : PathBuf) (passphrase : String) : Result Keyring := do
  Result.bailIf (passphrase = "") "拒绝保存空的私钥口令"
  return Function.update keyring (keyPassphraseAccount currentDir path) (some passphrase)

def deleteKeyPassphrase (path : PathBuf) : Bool × Keyring :=
  ((keyring (keyPassphraseAccount currentDir path)).isSome,
    Function.update keyring (keyPassphraseAccount currentDir path) none)

end Keyring

/-! ## Endpoints -/

/-- The host of an endpoint, in brackets when it has colons. -/
def endpointHost (host : String) : String :=
  if ':' ∈ host.toList ∧ ¬isBracketed host = true then s!"[{host}]" else host

/-- A host without the brackets that it may be in. -/
def unbracketed (host : String) : List Char :=
  if isBracketed host = true then host.toList.tail.dropLast else host.toList

/-- Two connections have the same user, host and port, with or without brackets. -/
structure SameEndpoint (config config' : ConnectionConfig) : Prop where
  username : config.username = config'.username
  host : unbracketed config.host = unbracketed config'.host
  port : config.port = config'.port

/-- The user of a second connection is the user of a first, an `@` and a text with which, and
another `@`, the host of the first begins before it goes on as that of the second. -/
def RunsInto (config config' : ConnectionConfig) : Prop :=
  config.port = config'.port ∧ ∃ between : List Char,
    config'.username.toList = config.username.toList ++ '@' :: between ∧
      (endpointHost config.host).toList = between ++ '@' :: (endpointHost config'.host).toList

/-- Two texts that are joined with a separator come from two others, or one of these has the
separator and begins as the other. -/
theorem append_cons_eq_iff {α : Type} {sep : α} {a b a' b' : List α} :
    a ++ sep :: b = a' ++ sep :: b' ↔ (a = a' ∧ b = b') ∨
      (∃ between, a' = a ++ sep :: between ∧ b = between ++ sep :: b') ∨
      ∃ between, a = a' ++ sep :: between ∧ b' = between ++ sep :: b := by
  constructor
  · intro h
    rcases append_eq_append_iff.mp h with ⟨more, ha, hb⟩ | ⟨more, ha, hb⟩
    · cases more with
      | nil => exact .inl ⟨(ha.trans (append_nil a)).symm, (List.cons.inj hb).2⟩
      | cons c between =>
          obtain ⟨rfl, hrest⟩ := List.cons.inj hb
          exact .inr (.inl ⟨between, ha, hrest⟩)
    · cases more with
      | nil => exact .inl ⟨ha.trans (append_nil a'), (List.cons.inj hb).2.symm⟩
      | cons c between =>
          obtain ⟨rfl, hrest⟩ := List.cons.inj hb
          exact .inr (.inr ⟨between, ha, hrest⟩)
  · rintro (⟨rfl, rfl⟩ | ⟨between, rfl, rfl⟩ | ⟨between, rfl, rfl⟩)
    · rfl
    · rw [append_assoc, cons_append]
    · rw [append_assoc, cons_append]

section

variable {host host' : String} {port port' : UInt16} {config config' : ConnectionConfig}

theorem toList_endpoint :
    (endpoint host port).toList = (endpointHost host).toList ++ ':' :: port.toNat.repr.toList := by
  rw [endpoint, endpointHost]
  split
  · simp only [String.toList_append, append_assoc]
    rfl
  · simp only [String.toList_append, append_assoc]
    rfl

theorem toList_brackets : s!"[{host}]".toList = '[' :: (host.toList ++ [']']) := by
  simp only [String.toList_append, append_assoc]
  rfl

theorem unbracketed_endpointHost : unbracketed (endpointHost host) = unbracketed host := by
  rw [endpointHost]
  split
  · next h =>
    have hbrackets : isBracketed s!"[{host}]" = true := by
      rw [isBracketed, toList_brackets]
      exact decide_eq_true ⟨rfl, by rw [List.getLast?_cons, List.getLast?_append]; rfl⟩
    rw [unbracketed, if_pos hbrackets, toList_brackets, tail_cons, dropLast_concat,
      unbracketed, if_neg h.2]
  · rfl

/-- No digit is a colon. -/
theorem colon_notMem_repr (n : Nat) : ':' ∉ n.repr.toList := by
  rw [Nat.toList_repr]
  intro hmem
  exact absurd (Nat.isDigit_of_mem_toDigits (by decide) (by decide) hmem) (by decide)

/-- The digits of a port stand behind the last colon. -/
theorem endpoint_inj {front front' : List Char}
    (h : front ++ (endpoint host port).toList = front' ++ (endpoint host' port').toList) :
    front ++ (endpointHost host).toList = front' ++ (endpointHost host').toList ∧ port = port' := by
  rw [toList_endpoint, toList_endpoint, ← append_assoc, ← append_assoc] at h
  have hsplit := congrArg (Text.rsplitOnce ':') h
  rw [Text.rsplitOnce_append _ (colon_notMem_repr _),
    Text.rsplitOnce_append _ (colon_notMem_repr _)] at hsplit
  obtain ⟨hfront, hdigits⟩ := Prod.mk.inj (Option.some.inj hsplit)
  refine ⟨hfront, UInt16.toNat_inj.mp ?_⟩
  rw [Nat.toList_repr, Nat.toList_repr] at hdigits
  rw [← @Nat.ofDigitChars_ten_toDigits port.toNat, hdigits, Nat.ofDigitChars_ten_toDigits]

theorem toList_accountName : (accountName config).toList =
    config.username.toList ++ '@' :: (endpoint config.host config.port).toList := by
  simp only [accountName, String.toList_append, append_assoc]
  rfl

/-- A name ends with the endpoint. -/
theorem accountName_of_eq (hport : config.port = config'.port)
    (h : config.username.toList ++ '@' :: (endpointHost config.host).toList =
      config'.username.toList ++ '@' :: (endpointHost config'.host).toList) :
    accountName config = accountName config' := by
  apply String.toList_inj.mp
  have happend : ∀ config : ConnectionConfig, (accountName config).toList =
      config.username.toList ++ '@' :: (endpointHost config.host).toList ++
        ':' :: config.port.toNat.repr.toList := by
    intro config
    rw [toList_accountName, toList_endpoint, append_assoc, cons_append]
  rw [happend, happend, h, hport]

/-- Names are equal when endpoints are, or when one runs into the other. -/
theorem accountName_eq_iff : accountName config = accountName config' ↔
    (config.username = config'.username ∧ endpointHost config.host = endpointHost config'.host ∧
      config.port = config'.port) ∨ RunsInto config config' ∨ RunsInto config' config := by
  constructor
  · intro h
    have hlist := congrArg String.toList h
    rw [toList_accountName, toList_accountName, ← singleton_append, ← append_assoc,
      ← @singleton_append _ '@' (endpoint config'.host config'.port).toList,
      ← append_assoc] at hlist
    obtain ⟨hfront, hport⟩ := endpoint_inj hlist
    rw [append_assoc, append_assoc] at hfront
    rcases append_cons_eq_iff.mp hfront with ⟨huser, hhost⟩ | hinto | hinto
    · exact .inl ⟨String.toList_inj.mp huser, String.toList_inj.mp hhost, hport⟩
    · exact .inr (.inl ⟨hport, hinto⟩)
    · exact .inr (.inr ⟨hport.symm, hinto⟩)
  · rintro (⟨huser, hhost, hport⟩ | ⟨hport, hinto⟩ | ⟨hport, hinto⟩)
    · exact accountName_of_eq hport (by rw [huser, hhost])
    · exact accountName_of_eq hport (append_cons_eq_iff.mpr (.inr (.inl hinto)))
    · exact accountName_of_eq hport.symm (append_cons_eq_iff.mpr (.inr (.inr hinto)))

theorem RunsInto.not_same (h : RunsInto config config') : config.username ≠ config'.username := by
  obtain ⟨-, between, huser, -⟩ := h
  intro heq
  have hlength := congrArg List.length huser
  rw [heq, length_append, length_cons] at hlength
  omega

/-- A name is that of one endpoint when none runs into the other. -/
theorem sameEndpoint_iff :
    (accountName config = accountName config' → SameEndpoint config config') ↔
      ¬RunsInto config config' ∧ ¬RunsInto config' config := by
  constructor
  · intro h
    refine ⟨fun hinto ↦ hinto.not_same ?_, fun hinto ↦ hinto.not_same ?_⟩
    · exact (h (accountName_eq_iff.mpr (.inr (.inl hinto)))).username
    · exact (h (accountName_eq_iff.mpr (.inr (.inr hinto)))).username.symm
  · rintro ⟨hinto, hinto'⟩ heq
    obtain ⟨huser, hhost, hport⟩ :=
      (accountName_eq_iff.mp heq).resolve_right (not_or.mpr ⟨hinto, hinto'⟩)
    refine ⟨huser, ?_, hport⟩
    rw [← unbracketed_endpointHost, hhost, unbracketed_endpointHost]

end

/-! ## Keys -/

/-- How the name of a key begins. Without a current directory its path may be relative. -/
def keyBeginning (currentDir : CurrentDir) : List Char :=
  if currentDir.isSome = true then "key:/".toList else "key:".toList

section

variable {currentDir : CurrentDir} {config : ConnectionConfig} {path : PathBuf}

theorem head?_normalizeKeyPath (h : currentDir.isSome = true) :
    (normalizeKeyPath currentDir path).toList.head? = some '/' := by
  obtain ⟨cwd, rfl⟩ := Option.isSome_iff_exists.mp h
  apply head?_toStringLossy
  split
  · assumption
  · exact isAbsolute_push cwd.property

theorem toList_keyPassphraseAccount : (keyPassphraseAccount currentDir path).toList =
    "key:".toList ++ (normalizeKeyPath currentDir path).toList := String.toList_append

/-- An absolute path gives its own text, and any path does without a current directory. -/
theorem normalizeKeyPath_ofString {text : String}
    (h : (PathBuf.ofString text).isAbsolute = true ∨ currentDir = none) :
    normalizeKeyPath currentDir (.ofString text) = text := by
  rw [normalizeKeyPath]
  rcases h with habsolute | rfl
  · rw [if_pos habsolute]
    exact toStringLossy_ofString text
  · rw [Option.elim_none, ite_self]
    exact toStringLossy_ofString text

/-- The name of a password is that of a key when its user begins as such a name does. -/
theorem keyPassphraseAccount_ne_iff :
    (∀ path, keyPassphraseAccount currentDir path ≠ accountName config) ↔
      ¬keyBeginning currentDir <+: config.username.toList := by
  constructor
  · rintro h ⟨rest, huser⟩
    have hname : ∀ text : List Char, config.username.toList = "key:".toList ++ text →
        normalizeKeyPath currentDir (.ofString (.ofList (text ++ '@' ::
          (endpoint config.host config.port).toList))) = .ofList (text ++ '@' ::
          (endpoint config.host config.port).toList) → False := by
      intro text htext hnormal
      refine h (.ofString (.ofList (text ++ '@' ::
        (endpoint config.host config.port).toList))) (String.toList_inj.mp ?_)
      rw [toList_keyPassphraseAccount, hnormal, toList_accountName, htext, append_assoc]
      exact congrArg _ String.toList_ofList
    cases hcwd : currentDir with
    | some cwd =>
        rw [keyBeginning, hcwd] at huser
        exact hname ('/' :: rest) huser.symm
          (normalizeKeyPath_ofString (.inl (isAbsolute_ofString _)))
    | none =>
        rw [keyBeginning, hcwd] at huser
        exact hname rest huser.symm (normalizeKeyPath_ofString (.inr hcwd))
  · intro h path heq
    have hlist := congrArg String.toList heq
    rw [toList_keyPassphraseAccount, toList_accountName] at hlist
    rw [keyBeginning] at h
    have hat : '@' ∉ "key:".toList := by decide
    rcases append_eq_append_iff.mp hlist with ⟨more, huser, htext⟩ | ⟨more, hkey, htext⟩
    · split_ifs at h with hcwd
      · have hhead := @head?_normalizeKeyPath currentDir path hcwd
        cases more with
        | nil =>
            rw [htext] at hhead
            exact absurd (Option.some.inj hhead) (by decide)
        | cons c rest =>
            rw [htext, cons_append, List.head?_cons, Option.some.injEq] at hhead
            exact h ⟨rest, by rw [huser, hhead]; rfl⟩
      · exact h ⟨more, huser.symm⟩
    · cases more with
      | nil =>
          rw [append_nil] at hkey
          rw [nil_append] at htext
          split_ifs at h with hcwd
          · have hhead := @head?_normalizeKeyPath currentDir path hcwd
            rw [← htext] at hhead
            exact absurd (Option.some.inj hhead) (by decide)
          · exact h ⟨[], by rw [append_nil, hkey]⟩
      | cons c rest =>
          refine hat ?_
          rw [hkey, (List.cons.inj htext).1]
          exact mem_append_right _ mem_cons_self

end

/-! ## No name for two -/

/-- What is to hold of the names of a connection: it shares its name with no other endpoint, and
with no key. -/
structure Separate (currentDir : CurrentDir) (config config' : ConnectionConfig) : Prop where
  endpoints : accountName config = accountName config' → SameEndpoint config config'
  keys : ∀ path, keyPassphraseAccount currentDir path ≠ accountName config

theorem separate_iff (currentDir : CurrentDir) (config config' : ConnectionConfig) :
    Separate currentDir config config' ↔
      (¬RunsInto config config' ∧ ¬RunsInto config' config) ∧
        ¬keyBeginning currentDir <+: config.username.toList := by
  rw [← sameEndpoint_iff, ← keyPassphraseAccount_ne_iff]
  exact ⟨fun h ↦ ⟨h.endpoints, h.keys⟩, fun h ↦ ⟨h.1, h.2⟩⟩

namespace Keyring

/-- What may be done with the store. -/
inductive Change where
  | password (config : ConnectionConfig) (text : String)
  | passphrase (path : PathBuf) (text : String)
  | forget (path : PathBuf)

/-- A change that fails leaves the store. -/
def change (currentDir : CurrentDir) (keyring : Keyring) : Change → Keyring
  | .password config text => keyring.savePassword config text
  | .passphrase path text => (keyring.saveKeyPassphrase currentDir path text).toOption.getD keyring
  | .forget path => (keyring.deleteKeyPassphrase currentDir path).2

def run (currentDir : CurrentDir) (keyring : Keyring) (changes : List Change) : Keyring :=
  changes.foldl (change currentDir) keyring

variable {currentDir : CurrentDir} {keyring : Keyring} {config : ConnectionConfig} {text : String}

end Keyring

/-- What the host library lets through as the endpoint of a host. -/
def Validated (config : ConnectionConfig) : Prop :=
  Hosts.validateEndpointToken config.host "host address" = .ok () ∧
    Hosts.validateEndpointToken config.username "SSH user" = .ok ()

/-- A user of a domain shares the name with the user of another host. -/
theorem shared_name : ¬∀ (currentDir : CurrentDir) (config config' : ConnectionConfig),
    Validated config → Validated config' → Separate currentDir config config' := by
  intro h
  have hsame := (h none (.new "web" "alice@corp") (.new "corp@web" "alice")
    ⟨rfl, rfl⟩ ⟨rfl, rfl⟩).endpoints (by decide)
  exact absurd hsame.username (by decide)

end KaduoxSsh.Core
