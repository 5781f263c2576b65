import KaduoxSsh.Core.HostTrust
import KaduoxSsh.Core.ProxyJump

/-!
# The configuration of a connection

`config.rs`: what the OpenSSH configuration of the user says of a host, and the route
to it. The configuration is a parameter, `HomeConfig`: the file is found and expanded
elsewhere, and it is read by a parser of another package. It answers for every
alias, also for one that the file does not mention.

The jump hosts of a route are those that the ProxyJump of the host names. Each of
them is looked up in the configuration in turn, but for its address and its
credentials only: a ProxyJump of its own does not count.
-/

namespace KaduoxSsh.Core

open Text Result
open Hosts (trim)

/-- What the OpenSSH configuration says of a host. -/
structure ParsedConfig where
  host : String
  user : String
  port : UInt16
  identityFile : Option (List PathBuf)
  userKnownHostsFile : Option PathBuf
  strictHostKeyChecking : Option Bool
  proxyCommand : Option String
  proxyJump : Option String
deriving DecidableEq

/-- The configuration of the user, as it answers for an alias (`parse_home_config`). -/
abbrev HomeConfig := String → Result ParsedConfig

structure JumpHost where
  hostAlias : String
  host : String
  port : UInt16
  username : String
  identityFiles : List PathBuf
  hostKeyPolicy : HostKeyPolicy
  knownHostsFile : Option PathBuf
deriving DecidableEq, Repr

/-- A configuration, without the intervals and timeouts that only a connection reads. -/
structure ConnectionConfig where
  hostAlias : String
  host : String
  port : UInt16
  username : String
  identityFiles : List PathBuf
  hostKeyPolicy : HostKeyPolicy
  knownHostsFile : Option PathBuf
  proxyCommand : Option String
  jumpHosts : List JumpHost
deriving DecidableEq, Repr

def ConnectionConfig.new (host username : String) : ConnectionConfig where
  hostAlias := host
  host
  port := 22
  username
  identityFiles := []
  hostKeyPolicy := .acceptNew
  knownHostsFile := none
  proxyCommand := none
  jumpHosts := []

def SHELL_ACTIVE_TOKEN_CHARS : List Char :=
  ['\'', '`', '"', '$', '\\', ';', '&', '<', '>', '|', '(', ')', '\x7b', '\x7d']

def validateUntrustedShellToken (value role : String) : Result Unit := do
  Result.bailIf (value = "") s!"{role} cannot be empty"
  Result.bailIf (value.toList.head? = some '-') s!"{role} cannot begin with '-'"
  Result.bailIf
    (value.toList.any fun c ↦ isWhitespace c || isControl c || c ∈ SHELL_ACTIVE_TOKEN_CHARS)
    (s!"{role} contains shell-active or whitespace characters that are unsafe for " ++
      "ProxyCommand token expansion")

def hostKeyPolicyFromConfig : Option Bool → HostKeyPolicy
  | some true => .strict
  | some false => .insecure
  | none => .acceptNew

/-! ## The route -/

/-- A hop with what the configuration says of its host. -/
def JumpTarget.jumpHost (target : JumpTarget) (parsed : ParsedConfig) : JumpHost where
  hostAlias := target.hostAlias
  host := parsed.host
  port := target.port.getD parsed.port
  username := target.user.getD parsed.user
  identityFiles := parsed.identityFile.getD []
  hostKeyPolicy := hostKeyPolicyFromConfig parsed.strictHostKeyChecking
  knownHostsFile := parsed.userKnownHostsFile

def resolveJumpHost (config : HomeConfig) (validateUntrusted : Bool) (spec : List Char) :
    Result JumpHost := do
  let target ← parseJumpTarget spec
  if validateUntrusted then
    validateUntrustedShellToken target.hostAlias "ProxyJump host"
    target.user.forM (validateUntrustedShellToken · "ProxyJump username")
  let parsed ← config target.hostAlias
  return target.jumpHost parsed

def resolveJumpHostsInternal (config : HomeConfig) (spec : String) (validateUntrusted : Bool) :
    Result (List JumpHost) := do
  (← jumpSpecs spec).mapM (resolveJumpHost config validateUntrusted)

/-- The configuration of a host before its route. -/
def ConnectionConfig.ofParsed (hostAlias : String) (parsed : ParsedConfig)
    (usernameOverride : Option String) (portOverride : Option UInt16) : ConnectionConfig :=
  { ConnectionConfig.new parsed.host (usernameOverride.getD parsed.user) with
    hostAlias
    port := portOverride.getD parsed.port
    identityFiles := parsed.identityFile.getD []
    knownHostsFile := parsed.userKnownHostsFile
    proxyCommand := parsed.proxyCommand
    hostKeyPolicy := hostKeyPolicyFromConfig parsed.strictHostKeyChecking }

/-- A route of jump hosts takes the place of a command. -/
def ConnectionConfig.withRoute (base : ConnectionConfig) (jumpHosts : List JumpHost) :
    ConnectionConfig :=
  { base with
    jumpHosts
    proxyCommand := if jumpHosts = [] then base.proxyCommand else none }

def ConnectionConfig.fromOpenssh (config : HomeConfig) (hostAlias : String)
    (usernameOverride : Option String) (portOverride : Option UInt16) :
    Result ConnectionConfig := do
  validateUntrustedShellToken hostAlias "SSH host"
  usernameOverride.forM (validateUntrustedShellToken · "SSH username")
  let parsed ← config hostAlias
  let base := ofParsed hostAlias parsed usernameOverride portOverride
  match parsed.proxyJump with
  | none => return base
  | some spec => return base.withRoute (← resolveJumpHostsInternal config spec false)

/-! ## What the configuration gives -/

/-- The jump hosts that the configuration of a host names. -/
def ParsedConfig.jumpHosts (config : HomeConfig) (parsed : ParsedConfig) : Result (List JumpHost) :=
  match parsed.proxyJump with
  | none => .ok []
  | some spec => resolveJumpHostsInternal config spec false

namespace ConnectionConfig

/-- A host that has a configuration passes the checks and is looked up, as its route is. -/
theorem fromOpenssh_eq_ok {config : HomeConfig} {hostAlias : String} {c : ConnectionConfig}
    {usernameOverride : Option String} {portOverride : Option UInt16} :
    fromOpenssh config hostAlias usernameOverride portOverride = .ok c ↔
      validateUntrustedShellToken hostAlias "SSH host" = .ok () ∧
      (∀ username, usernameOverride = some username →
        validateUntrustedShellToken username "SSH username" = .ok ()) ∧
      ∃ parsed jumpHosts, config hostAlias = .ok parsed ∧ parsed.jumpHosts config = .ok jumpHosts ∧
        c = (ofParsed hostAlias parsed usernameOverride portOverride).withRoute jumpHosts := by
  rw [fromOpenssh, check_bind_eq_ok, check_bind_eq_ok, optionForM_eq_ok,
    bind_eq_ok]
  refine and_congr_right fun _ ↦ and_congr_right fun _ ↦ exists_congr fun parsed ↦ ?_
  rw [ParsedConfig.jumpHosts]
  cases parsed.proxyJump with
  | none =>
      constructor
      · rintro ⟨hparsed, heq⟩
        cases heq
        exact ⟨[], hparsed, rfl, rfl⟩
      · rintro ⟨_, hparsed, hnil, rfl⟩
        cases hnil
        exact ⟨hparsed, rfl⟩
  | some spec =>
      simp only [bind_eq_ok, pure_eq_ok, Except.ok.injEq]
      constructor
      · rintro ⟨hparsed, jumpHosts, hroute, heq⟩
        exact ⟨jumpHosts, hparsed, hroute, heq.symm⟩
      · rintro ⟨jumpHosts, hparsed, hroute, rfl⟩
        exact ⟨hparsed, jumpHosts, hroute, rfl⟩

end ConnectionConfig

/-- A hop is found when its text is one and the configuration answers for its host. -/
theorem resolveJumpHost_eq_ok {config : HomeConfig} {spec : List Char} {jump : JumpHost} :
    resolveJumpHost config false spec = .ok jump ↔
      ∃ target parsed, parseJumpTarget spec = .ok target ∧
        config target.hostAlias = .ok parsed ∧ jump = target.jumpHost parsed := by
  simp only [resolveJumpHost, bind_eq_ok, Bool.false_eq_true, if_false, pure_eq_ok,
    Except.ok.injEq]
  constructor
  · rintro ⟨target, htarget, parsed, hparsed, heq⟩
    exact ⟨target, parsed, htarget, hparsed, heq.symm⟩
  · rintro ⟨target, parsed, htarget, hparsed, rfl⟩
    exact ⟨target, htarget, parsed, hparsed, rfl⟩

/-- The hosts of a route are those of its hops, in order. -/
theorem resolveJumpHostsInternal_eq_ok {config : HomeConfig} {spec : String}
    {jumps : List JumpHost} : resolveJumpHostsInternal config spec false = .ok jumps ↔
      ∃ specs, jumpSpecs spec = .ok specs ∧ List.Forall₂ (fun hop jump ↦
        ∃ target parsed, parseJumpTarget hop = .ok target ∧
          config target.hostAlias = .ok parsed ∧ jump = target.jumpHost parsed) specs jumps := by
  simp only [resolveJumpHostsInternal, bind_eq_ok, mapM_eq_ok, resolveJumpHost_eq_ok]

end KaduoxSsh.Core
