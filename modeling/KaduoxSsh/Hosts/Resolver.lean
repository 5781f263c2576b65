import KaduoxSsh.Core.Config
import KaduoxSsh.Hosts.Model

/-!
# Resolution of hosts

`resolver.rs`: what is known of a host of the library becomes the configuration of a
connection. The record gives the endpoint, its jump chain the route, and the OpenSSH
configuration of the same alias everything else. A host without a chain is no
exception to the last: it takes over the route too that the OpenSSH configuration
has for its alias, when the alias can be one of that configuration at all.

A hop of a chain is a host of the library, an alias of the OpenSSH configuration, or
spelled out in the chain. Each gives one jump host, in the order of the chain.
-/

namespace KaduoxSsh.Hosts

open Text Result
open KaduoxSsh.Core (ConnectionConfig HomeConfig JumpHost ParsedConfig)

inductive ResolutionSource where
  | hostLibrary
  | openSsh
deriving DecidableEq, Repr

structure ResolvedHost where
  source : ResolutionSource
  config : ConnectionConfig
deriving DecidableEq, Repr

def mapHostKeyPolicy : StoredHostKeyPolicy → Core.HostKeyPolicy
  | .strict => .strict
  | .acceptNew => .acceptNew
  | .insecure => .insecure

/-- What a record does not say itself. An alias that is no OpenSSH name is for the library only. -/
def recordFallback (home : HomeConfig) (record : HostRecord) : Result ConnectionConfig :=
  if (validateName record.hostAlias "OpenSSH alias").isOk then
    context s!"OpenSSH fallback for host {record.hostAlias} failed"
      (ConnectionConfig.fromOpenssh home record.hostAlias none none)
  else .ok (ConnectionConfig.new record.address record.user)

def overlayRecord (config : ConnectionConfig) (record : HostRecord)
    (userOverride : Option String) (portOverride : Option UInt16) : ConnectionConfig :=
  { config with
    hostAlias := record.hostAlias
    host := record.address
    port := portOverride.getD record.port
    username := userOverride.getD record.user
    identityFiles := (record.identityFile.map fun path ↦ [path]).getD config.identityFiles
    hostKeyPolicy := mapHostKeyPolicy record.hostKeyPolicy }

/-! ## Jump hosts -/

def jumpFromHostRecord (home : HomeConfig) (record : HostRecord) : Result JumpHost := do
  let fallback ← recordFallback home record
  return {
    hostAlias := record.hostAlias
    host := record.address
    port := record.port
    username := record.user
    identityFiles := (record.identityFile.map fun path ↦ [path]).getD fallback.identityFiles
    hostKeyPolicy := mapHostKeyPolicy record.hostKeyPolicy
    knownHostsFile := fallback.knownHostsFile }

def jumpFromOpensshAlias (home : HomeConfig) (hostAlias : String) : Result JumpHost := do
  let config ← context s!"failed to resolve OpenSSH jump alias {hostAlias}"
    (ConnectionConfig.fromOpenssh home hostAlias none none)
  bailIf (config.jumpHosts ≠ [] ∨ config.proxyCommand ≠ none)
    (s!"OpenSSH alias {hostAlias} is used as a named jump node but itself defines " ++
      "ProxyJump/ProxyCommand; nested jump routing is rejected")
  return {
    hostAlias
    host := config.host
    port := config.port
    username := config.username
    identityFiles := config.identityFiles
    hostKeyPolicy := config.hostKeyPolicy
    knownHostsFile := config.knownHostsFile }

def jumpFromInline (jump : InlineJump) : JumpHost where
  hostAlias := jump.hostAlias
  host := jump.host
  port := jump.port
  username := jump.user
  identityFiles := (jump.identityFile.map fun path ↦ [path]).getD []
  hostKeyPolicy := mapHostKeyPolicy jump.hostKeyPolicy
  knownHostsFile := none

/-- A hop is not the host itself. -/
def rejectLoop (targetAlias chainName : String) (kind : String) (hostAlias : String)
    (index : Nat) : Result Unit :=
  bailIf (hostAlias = targetAlias)
    s!"routing loop: target {targetAlias} appears as {kind} {index + 1} in chain {chainName}"

def resolveHop (home : HomeConfig) (database : HostDatabase) (targetAlias chainName : String) :
    JumpHop × Nat → Result JumpHost
  | (.host hostAlias, index) => do
      rejectLoop targetAlias chainName "jump" hostAlias index
      let record ← ofOption
        s!"jump chain {chainName} references missing host-library alias {hostAlias}"
        (database.hosts.get? hostAlias)
      jumpFromHostRecord home record
  | (.openSshAlias hostAlias, index) => do
      rejectLoop targetAlias chainName "OpenSSH jump" hostAlias index
      jumpFromOpensshAlias home hostAlias
  | (.inline jump, index) => do
      rejectLoop targetAlias chainName "inline jump" jump.hostAlias index
      return jumpFromInline jump

section

variable [Unicode]

def resolveChain (home : HomeConfig) (database : HostDatabase) (targetAlias chainName : String) :
    Result (List JumpHost) := do
  database.validate
  let chain ← ofOption s!"jump chain {debug chainName} does not exist"
    (database.chains.get? chainName)
  bailIf (chain.hops.length > MAX_CHAIN_HOPS)
    s!"jump chain {chainName} contains too many hops (max {MAX_CHAIN_HOPS})"
  chain.hops.zipIdx.mapM (resolveHop home database targetAlias chainName)

def resolveHost (home : HomeConfig) (database : HostDatabase) (hostAlias : String)
    (userOverride : Option String) (portOverride : Option UInt16) : Result ResolvedHost := do
  database.validate
  match database.hosts.get? hostAlias with
  | none => do
      return ⟨.openSsh, ← ConnectionConfig.fromOpenssh home hostAlias userOverride portOverride⟩
  | some record => do
      let config := overlayRecord (← recordFallback home record) record userOverride portOverride
      match record.jumpChain with
      | none => return ⟨.hostLibrary, config⟩
      | some chainName => do
          let jumpHosts ← resolveChain home database hostAlias chainName
          return ⟨.hostLibrary, { config with jumpHosts, proxyCommand := none }⟩

end

/-! ## Endpoints -/

/-- Where a connection goes, and as whom. -/
structure Endpoint where
  address : String
  port : UInt16
  user : String
deriving DecidableEq, Repr

def HostRecord.endpoint (record : HostRecord) : Endpoint :=
  ⟨record.address, record.port, record.user⟩

def jumpEndpoint (jump : JumpHost) : Endpoint := ⟨jump.host, jump.port, jump.username⟩

def configEndpoint (config : ConnectionConfig) : Endpoint :=
  ⟨config.host, config.port, config.username⟩

/-- The endpoint that a hop names. -/
def JumpHop.endpoint (home : HomeConfig) (database : HostDatabase) : JumpHop → Option Endpoint
  | .host hostAlias => (database.hosts.get? hostAlias).map HostRecord.endpoint
  | .openSshAlias hostAlias =>
      (ConnectionConfig.fromOpenssh home hostAlias none none).toOption.map configEndpoint
  | .inline jump => some ⟨jump.host, jump.port, jump.user⟩

/-- The jump host of an alias has the endpoint that the configuration gives the alias. -/
theorem jumpFromOpensshAlias_eq_ok {home : HomeConfig} {hostAlias : String} {jump : JumpHost} :
    jumpFromOpensshAlias home hostAlias = .ok jump ↔
      ∃ config, ConnectionConfig.fromOpenssh home hostAlias none none = .ok config ∧
        config.jumpHosts = [] ∧ config.proxyCommand = none ∧
        jump = ⟨hostAlias, config.host, config.port, config.username, config.identityFiles,
          config.hostKeyPolicy, config.knownHostsFile⟩ := by
  simp only [jumpFromOpensshAlias, bind_eq_ok, context_eq_ok, bailIf_eq_ok,
    pure_eq_ok, Except.ok.injEq, not_or, not_not, ne_eq]
  refine exists_congr fun config ↦ and_congr_right fun _ ↦ ?_
  constructor
  · rintro ⟨_, ⟨hjumps, hcommand⟩, heq⟩
    exact ⟨hjumps, hcommand, heq.symm⟩
  · rintro ⟨hjumps, hcommand, rfl⟩
    exact ⟨⟨⟩, ⟨hjumps, hcommand⟩, rfl⟩

theorem map_eq_map_of_forall₂ {α β γ : Type} {f : α → γ} {g : β → γ} {l : List α} {l' : List β}
    (h : List.Forall₂ (fun a b ↦ f a = g b) l l') : l.map f = l'.map g := by
  induction h with
  | nil => rfl
  | cons hab _ ih => rw [List.map_cons, List.map_cons, hab, ih]

theorem exists_of_forall₂ {α β : Type} {R : α → β → Prop} {l : List α} {l' : List β} {b : β}
    (h : List.Forall₂ R l l') (hmem : b ∈ l') : ∃ a ∈ l, R a b := by
  induction h with
  | nil => cases hmem
  | @cons a b' l l' hab _ ih =>
      rcases List.mem_cons.mp hmem with rfl | hmem
      · exact ⟨a, List.mem_cons_self, hab⟩
      · obtain ⟨a', ha', hr⟩ := ih hmem
        exact ⟨a', List.mem_cons_of_mem a ha', hr⟩

section

variable [Unicode] {home : HomeConfig} {database : HostDatabase}

/-- A hop that is resolved gives a jump host under the name of the hop and with its endpoint. -/
theorem resolveHop_eq_ok (h : database.Valid) {targetAlias chainName : String} {hop : JumpHop}
    {index : Nat} {jump : JumpHost}
    (hresolve : resolveHop home database targetAlias chainName (hop, index) = .ok jump) :
    hop.endpoint home database = some (jumpEndpoint jump) ∧
      jump.hostAlias = hop.displayName ∧ hop.displayName ≠ targetAlias := by
  cases hop with
  | host hostAlias =>
      rw [resolveHop, check_bind_eq_ok, rejectLoop, bailIf_eq_ok] at hresolve
      obtain ⟨hloop, hresolve⟩ := hresolve
      obtain ⟨record, hrecord, hjump⟩ := bind_eq_ok.mp hresolve
      rw [ofOption_eq_ok] at hrecord
      obtain ⟨fallback, -, heq⟩ := bind_eq_ok.mp hjump
      cases heq
      rw [JumpHop.endpoint, hrecord]
      exact ⟨rfl, h.hostKey hostAlias record hrecord, hloop⟩
  | openSshAlias hostAlias =>
      rw [resolveHop, check_bind_eq_ok, rejectLoop, bailIf_eq_ok] at hresolve
      obtain ⟨hloop, hresolve⟩ := hresolve
      obtain ⟨config, hconfig, -, -, rfl⟩ := jumpFromOpensshAlias_eq_ok.mp hresolve
      rw [JumpHop.endpoint, hconfig]
      exact ⟨rfl, rfl, hloop⟩
  | inline inlineJump =>
      rw [resolveHop, check_bind_eq_ok, rejectLoop, bailIf_eq_ok] at hresolve
      obtain ⟨hloop, hresolve⟩ := hresolve
      cases hresolve
      exact ⟨rfl, rfl, hloop⟩

/-- A chain is resolved hop by hop. -/
theorem resolveChain_eq_ok {targetAlias chainName : String} {jumpHosts : List JumpHost}
    (hresolve : resolveChain home database targetAlias chainName = .ok jumpHosts) :
    ∃ chain, database.chains.get? chainName = some chain ∧
      List.Forall₂ (fun hop jump ↦ hop.endpoint home database = some (jumpEndpoint jump) ∧
        jump.hostAlias = hop.displayName ∧ hop.displayName ≠ targetAlias)
        chain.hops jumpHosts := by
  simp only [resolveChain, bind_eq_ok, ofOption_eq_ok, mapM_eq_ok] at hresolve
  obtain ⟨_, hvalid, chain, hchain, _, -, hhops⟩ := hresolve
  refine ⟨chain, hchain, ?_⟩
  rw [← List.zipIdx_map_fst 0 chain.hops, List.forall₂_map_left_iff]
  exact hhops.imp fun _ _ hhop ↦
    resolveHop_eq_ok (HostDatabase.validate_eq_ok.mp hvalid) hhop

/-- A host of the library is resolved: its endpoint is that of its record unless another one is
asked for, and its route is its chain, or the route of its alias when it has no chain. -/
structure ResolvesRecord (home : HomeConfig) (database : HostDatabase) (record : HostRecord)
    (userOverride : Option String) (portOverride : Option UInt16) (config : ConnectionConfig) :
    Prop where
  hostAlias : config.hostAlias = record.hostAlias
  endpoint : configEndpoint config =
    ⟨record.address, portOverride.getD record.port, userOverride.getD record.user⟩
  chained : ∀ chainName, record.jumpChain = some chainName →
    ∃ chain, database.chains.get? chainName = some chain ∧
      config.jumpHosts.map (some ∘ jumpEndpoint) = chain.hops.map (JumpHop.endpoint home database) ∧
      config.jumpHosts.map JumpHost.hostAlias = chain.hops.map JumpHop.displayName ∧
      ∀ jump ∈ config.jumpHosts, jump.hostAlias ≠ record.hostAlias
  inherited : record.jumpChain = none →
    (validateName record.hostAlias "OpenSSH alias" = .ok () →
      ∃ base, ConnectionConfig.fromOpenssh home record.hostAlias none none = .ok base ∧
        config.jumpHosts = base.jumpHosts) ∧
    (validateName record.hostAlias "OpenSSH alias" ≠ .ok () → config.jumpHosts = [])

/-- A host of the library that can be resolved is resolved to its record and its route. -/
theorem resolveHost_resolvesRecord {hostAlias : String} {record : HostRecord}
    {userOverride : Option String} {portOverride : Option UInt16} {resolved : ResolvedHost}
    (hrecord : database.hosts.get? hostAlias = some record)
    (hresolve : resolveHost home database hostAlias userOverride portOverride = .ok resolved) :
    record.hostAlias = hostAlias ∧
      ResolvesRecord home database record userOverride portOverride resolved.config := by
  rw [resolveHost, check_bind_eq_ok, hrecord] at hresolve
  obtain ⟨hvalidate, hresolve⟩ := hresolve
  obtain ⟨base, hbase, hresolve⟩ := bind_eq_ok.mp hresolve
  have hkey := (HostDatabase.validate_eq_ok.mp hvalidate).hostKey hostAlias record hrecord
  refine ⟨hkey, ?_⟩
  cases hchain : record.jumpChain with
  | none =>
      simp only [hchain, pure_eq_ok, Except.ok.injEq] at hresolve
      subst hresolve
      refine ⟨rfl, rfl, fun chainName hname ↦ ?_, fun _ ↦ ⟨fun hok ↦ ?_, fun hfail ↦ ?_⟩⟩
      · rw [hchain] at hname
        cases hname
      · rw [recordFallback, hok] at hbase
        exact ⟨base, context_eq_ok.mp hbase, rfl⟩
      · rw [recordFallback, if_neg fun hok ↦ ?_] at hbase
        · cases hbase
          rfl
        · obtain ⟨_, hok⟩ := isOk_iff.mp hok
          exact hfail hok
  | some chainName =>
      simp only [hchain, bind_eq_ok, pure_eq_ok, Except.ok.injEq] at hresolve
      obtain ⟨jumpHosts, hjumps, rfl⟩ := hresolve
      obtain ⟨chain, hget, hhops⟩ := resolveChain_eq_ok hjumps
      refine ⟨rfl, rfl, fun chainName' hname ↦ ?_, fun hnone ↦ ?_⟩
      · rw [hchain] at hname
        cases hname
        have hself : ∀ jump ∈ jumpHosts, jump.hostAlias ≠ record.hostAlias := by
          intro jump hmem
          obtain ⟨hop, -, -, halias, hloop⟩ := exists_of_forall₂ hhops hmem
          rw [halias, hkey]
          exact hloop
        refine ⟨chain, hget, ?_, ?_, hself⟩
        · exact (map_eq_map_of_forall₂ (hhops.imp fun _ _ hhop ↦ hhop.1)).symm
        · exact (map_eq_map_of_forall₂ (hhops.imp fun _ _ hhop ↦ hhop.2.1.symm)).symm
      · rw [hchain] at hnone
        cases hnone

end

/-- A configuration that names a jump host for two of its hosts, for one of them itself. -/
def sampleHome : HomeConfig := fun hostAlias ↦ .ok {
  host := hostAlias
  user := "ops"
  port := 2222
  identityFile := none
  userKnownHostsFile := none
  strictHostKeyChecking := none
  proxyCommand := none
  proxyJump :=
    if hostAlias = "web" then some "bastion" else if hostAlias = "loop" then some "loop" else none }

/-- The host "db" has a chain, and "web" and "loop" have none. -/
def sampleRoutes : HostDatabase :=
  { HostDatabase.default with
    hosts := ((SortedMap.empty.insert "web" (HostRecord.new "web" "10.0.0.5" "deploy")).insert
      "loop" (HostRecord.new "loop" "10.0.0.6" "deploy")).insert "db"
      { HostRecord.new "db" "10.0.0.7" "postgres" with jumpChain := some "prod" }
    chains := SortedMap.empty.insert "prod" ⟨"prod",
      [.host "web", .openSshAlias "bastion",
        .inline ⟨"inner", "10.1.0.1", 22, "jump", none, .strict⟩]⟩ }

theorem resolveHost_resolvesRecord_db : ∃ record resolved,
    @resolveHost asciiLetters sampleHome sampleRoutes "db" none (some 5432) = .ok resolved ∧
      record.hostAlias = "db" ∧
      ResolvesRecord sampleHome sampleRoutes record none (some 5432) resolved.config := by
  have hok : (@resolveHost asciiLetters sampleHome sampleRoutes "db" none (some 5432)).isOk =
      true := by decide
  obtain ⟨resolved, hresolve⟩ := isOk_iff.mp hok
  have hrecord : sampleRoutes.hosts.get? "db" =
      some { HostRecord.new "db" "10.0.0.7" "postgres" with jumpChain := some "prod" } := by
    decide
  exact ⟨_, resolved, hresolve, @resolveHost_resolvesRecord asciiLetters _ _ _ _ _ _ _ hrecord
    hresolve⟩

/-- A host without a chain is reached through the jump host of its alias, even through itself. -/
theorem resolveHost_inherits_route :
    @HostDatabase.validate asciiLetters sampleRoutes = .ok () ∧
      (sampleRoutes.hosts.get? "web").bind HostRecord.jumpChain = none ∧
      ((@resolveHost asciiLetters sampleHome sampleRoutes "web" none none).map fun resolved ↦
        resolved.config.jumpHosts.map JumpHost.hostAlias) = .ok ["bastion"] ∧
      (sampleRoutes.hosts.get? "loop").bind HostRecord.jumpChain = none ∧
      ((@resolveHost asciiLetters sampleHome sampleRoutes "loop" none none).map fun resolved ↦
        resolved.config.jumpHosts.map JumpHost.hostAlias) = .ok ["loop"] := by
  decide

end KaduoxSsh.Hosts
