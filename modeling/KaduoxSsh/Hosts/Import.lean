import KaduoxSsh.Hosts.Resolver
import KaduoxSsh.Hosts.StoreInvariant
import KaduoxSsh.OpenSsh.HostCatalog

/-!
# Import from the OpenSSH configuration

`import.rs`: the aliases of the OpenSSH configuration become hosts of the library.
They are added one after the other to a copy of the store, which takes the place of
the store when all of them could be added.

An alias that is a host already is left alone, and so is one that is no name by the
stricter rules for names that go into the configuration. Both are counted. Every
other alias becomes a host, with a chain of its own when the configuration has a
route for it; the hops of the chain are the aliases of the jump hosts.
-/

namespace KaduoxSsh.Hosts

open Text Result SortedMap List
open KaduoxSsh.Core (ConnectionConfig HomeConfig JumpHost)
open OpenSsh (OpenSshHostCatalog)

structure ImportReport where
  importedHosts : Nat
  skippedExisting : Nat
  skippedUnsupportedAlias : Nat
  createdChains : Nat
  warnings : List String
deriving DecidableEq, Repr

def ImportReport.default : ImportReport := ⟨0, 0, 0, 0, []⟩

def storedPolicy : Core.HostKeyPolicy → StoredHostKeyPolicy
  | .strict => .strict
  | .acceptNew => .acceptNew
  | .insecure => .insecure

/-! ## The name of a chain -/

/-- A byte of an alias as a character of a name. -/
def nameChar (b : UInt8) : Char :=
  let c := Char.ofNat b.toNat
  if c.isAlphanum || c ∈ ['.', '_', '-', ':'] then c else '-'

def uniqueChainName (store : HostStore) (hostAlias : String) : String :=
  let normalized := String.ofList (((utf8 hostAlias).map nameChar).take 96)
  let base := s!"openssh-{normalized}-jump"
  if store.database.chains.get? base = none then base
  else
    let free := (List.range' 2 9999).find? fun suffix ↦
      store.database.chains.get? s!"{base}-{suffix}" = none
    match free with
    | some suffix => s!"{base}-{suffix}"
    -- The name may be taken: the chain cannot be added then.
    | none => s!"{base}-exhausted"

/-! ## The import -/

/-- The store that an operation leaves when it succeeds. -/
def committed (outcome : Result Unit × HostStore) : Result HostStore :=
  outcome.1.map fun _ ↦ outcome.2

theorem committed_eq_ok {outcome : Result Unit × HostStore} {changed : HostStore} :
    committed outcome = .ok changed ↔ outcome = (.ok (), changed) := by
  obtain ⟨result, store⟩ := outcome
  rw [committed, map_eq_ok, Prod.mk.injEq]
  constructor
  · rintro ⟨_, hok, hstore⟩
    exact ⟨hok, hstore⟩
  · rintro ⟨hok, hstore⟩
    exact ⟨(), hok, hstore⟩

/-- The record of an alias, without its chain. -/
def importedHost (hostAlias : String) (config : ConnectionConfig) : HostRecord :=
  { HostRecord.new hostAlias config.host config.username with
    port := config.port
    identityFile := config.identityFiles.head?
    hostKeyPolicy := storedPolicy config.hostKeyPolicy
    tags := ["openssh-import"] }

/-- The chain of a route: the aliases of its jump hosts. -/
def importedChain (name : String) (config : ConnectionConfig) : JumpChain :=
  ⟨name, config.jumpHosts.map fun jump ↦ .openSshAlias jump.hostAlias⟩

section

variable [Unicode]

/-- Add the host of an alias, and its chain before it. -/
def addImported (candidate : HostStore) (report : ImportReport) (hostAlias : String)
    (config : ConnectionConfig) : Result (HostStore × ImportReport) :=
  let host := importedHost hostAlias config
  if config.jumpHosts ≠ [] then do
    let chainName := uniqueChainName candidate hostAlias
    let candidate ← committed (candidate.insertChain (importedChain chainName config))
    let candidate ← committed (candidate.insertHost { host with jumpChain := some chainName })
    return (candidate, { report with
      createdChains := report.createdChains + 1
      importedHosts := report.importedHosts + 1 })
  else do
    let candidate ← committed (candidate.insertHost host)
    return (candidate, { report with importedHosts := report.importedHosts + 1 })

def importAlias (home : HomeConfig) (state : HostStore × ImportReport) (hostAlias : String) :
    Result (HostStore × ImportReport) :=
  let (candidate, report) := state
  if candidate.database.hosts.contains hostAlias then
    .ok (candidate, { report with skippedExisting := report.skippedExisting + 1 })
  else if (validateName hostAlias "OpenSSH alias").isOk = false then
    .ok (candidate, { report with
      skippedUnsupportedAlias := report.skippedUnsupportedAlias + 1
      warnings := report.warnings ++ [s!"skipped OpenSSH alias {debug hostAlias}: " ++
        "not representable by the portable Kaduox alias grammar"] })
  else do
    let config ← context s!"failed to resolve OpenSSH alias {hostAlias} during import"
      (ConnectionConfig.fromOpenssh home hostAlias none none)
    addImported candidate report hostAlias config

/-- What is said when the configuration cannot be followed. -/
def refusal (path : String) : String :=
  s!"OpenSSH config {path} contains Include/Match; Kaduox import refuses partial resolution"

/-- The candidate with all aliases of the catalog, and what was done. -/
def importCandidate (home : HomeConfig) (discovered : Result OpenSshHostCatalog)
    (store : HostStore) : Result (HostStore × ImportReport) := do
  let catalog ← discovered
  bailIf (catalog.hasUnsupportedStructuralDirectives = true)
    (refusal ((catalog.configPath.map PathBuf.toStringLossy).getD "<unknown>"))
  let (candidate, report) ← catalog.aliases.foldlM (importAlias home) (store, .default)
  candidate.database.validate
  return (candidate, report)

/-- Import what the discovery of the hosts gives. -/
def importOpenssh (home : HomeConfig) (discovered : Result OpenSshHostCatalog)
    (store : HostStore) : Result ImportReport × HostStore :=
  match importCandidate home discovered store with
  | .ok (candidate, report) => (.ok report, candidate)
  | .error e => (.error e, store)

/-! ## One alias -/

/-- What one alias of the catalog does to the candidate and to the report. -/
inductive ImportStep (home : HomeConfig) (candidate : HostStore) (report : ImportReport)
    (hostAlias : String) : HostStore → ImportReport → Prop
  | existing (hexists : candidate.database.hosts.contains hostAlias = true) :
      ImportStep home candidate report hostAlias candidate
        { report with skippedExisting := report.skippedExisting + 1 }
  | unsupported (hfresh : candidate.database.hosts.get? hostAlias = none)
      (hname : validateName hostAlias "OpenSSH alias" ≠ .ok ()) (warnings : List String) :
      ImportStep home candidate report hostAlias candidate
        { report with
          skippedUnsupportedAlias := report.skippedUnsupportedAlias + 1
          warnings := warnings }
  | direct (hfresh : candidate.database.hosts.get? hostAlias = none)
      (hname : validateName hostAlias "OpenSSH alias" = .ok ()) (config : ConnectionConfig)
      (hconfig : ConnectionConfig.fromOpenssh home hostAlias none none = .ok config)
      (hdirect : config.jumpHosts = []) :
      ImportStep home candidate report hostAlias
        (candidate.setHosts (candidate.database.hosts.insert hostAlias
          (importedHost hostAlias config)))
        { report with importedHosts := report.importedHosts + 1 }
  | routed (hfresh : candidate.database.hosts.get? hostAlias = none)
      (hname : validateName hostAlias "OpenSSH alias" = .ok ()) (config : ConnectionConfig)
      (hconfig : ConnectionConfig.fromOpenssh home hostAlias none none = .ok config)
      (hrouted : config.jumpHosts ≠ []) (name : String)
      (hfree : candidate.database.chains.get? name = none) :
      ImportStep home candidate report hostAlias
        ((candidate.setChains (candidate.database.chains.insert name
          (importedChain name config))).setHosts (candidate.database.hosts.insert hostAlias
            { importedHost hostAlias config with jumpChain := some name }))
        { report with
          createdChains := report.createdChains + 1
          importedHosts := report.importedHosts + 1 }

theorem committed_insertHost {store changed : HostStore} {host : HostRecord}
    (h : committed (store.insertHost host) = .ok changed) :
    store.database.hosts.get? host.hostAlias = none ∧
      changed = store.setHosts (store.database.hosts.insert host.hostAlias host) := by
  rw [committed_eq_ok, HostStore.insertHost] at h
  simp only [HostStore.attempt_eq_ok, bailIf_eq_ok] at h
  obtain ⟨_, hnew, _, -, _, -, heq⟩ := h
  obtain ⟨-, rfl⟩ := Prod.mk.inj heq
  exact ⟨contains_eq_false_iff.mp (Bool.not_eq_true _ ▸ hnew), rfl⟩

theorem committed_insertChain {store changed : HostStore} {chain : JumpChain}
    (h : committed (store.insertChain chain) = .ok changed) :
    store.database.chains.get? chain.name = none ∧
      changed = store.setChains (store.database.chains.insert chain.name chain) := by
  rw [committed_eq_ok, HostStore.insertChain] at h
  simp only [HostStore.attempt_eq_ok, bailIf_eq_ok] at h
  obtain ⟨_, hnew, _, -, heq⟩ := h
  obtain ⟨-, rfl⟩ := Prod.mk.inj heq
  exact ⟨contains_eq_false_iff.mp (Bool.not_eq_true _ ▸ hnew), rfl⟩

theorem importAlias_step {home : HomeConfig} {candidate candidate' : HostStore}
    {report report' : ImportReport} {hostAlias : String}
    (h : importAlias home (candidate, report) hostAlias = .ok (candidate', report')) :
    ImportStep home candidate report hostAlias candidate' report' := by
  rw [importAlias] at h
  split at h
  · next hexists =>
      cases h
      exact .existing hexists
  next hexists =>
  have hfresh := contains_eq_false_iff.mp (Bool.not_eq_true _ ▸ hexists)
  split at h
  · next hname =>
      cases h
      exact .unsupported hfresh (fun hok ↦ by rw [hok] at hname; cases hname) _
  next hname =>
  obtain ⟨_, hname⟩ := isOk_iff.mp (Bool.not_eq_false _ ▸ hname)
  obtain ⟨config, hconfig, h⟩ := bind_eq_ok.mp h
  rw [context_eq_ok] at hconfig
  rw [addImported] at h
  split at h
  · next hrouted =>
      obtain ⟨chained, hchain, h⟩ := bind_eq_ok.mp h
      obtain ⟨added, hhost, heq⟩ := bind_eq_ok.mp h
      cases heq
      obtain ⟨hfree, rfl⟩ := committed_insertChain hchain
      obtain ⟨-, rfl⟩ := committed_insertHost hhost
      exact .routed hfresh hname config hconfig hrouted _ hfree
  · next hdirect =>
      obtain ⟨added, hhost, heq⟩ := bind_eq_ok.mp h
      cases heq
      obtain ⟨-, rfl⟩ := committed_insertHost hhost
      exact .direct hfresh hname config hconfig (not_not.mp hdirect)

end

/-! ## All aliases -/

/-- The aliases have been imported: what was stored is as it was, each alias that is a name is
stored, and each new chain belongs to one new host. -/
structure Imports (home : HomeConfig) (store : HostStore) (aliases : List String)
    (report : ImportReport) (candidate : HostStore) : Prop where
  hosts_kept : ∀ k host, store.database.hosts.get? k = some host →
    candidate.database.hosts.get? k = some host
  chains_kept : ∀ name chain, store.database.chains.get? name = some chain →
    candidate.database.chains.get? name = some chain
  hosts_iff : ∀ k, candidate.database.hosts.get? k ≠ none ↔
    store.database.hosts.get? k ≠ none ∨ k ∈ aliases ∧ validateName k "OpenSSH alias" = .ok ()
  /-- A new host is what the configuration says, and its chain is new and made of the aliases of
  its jump hosts. -/
  host_new : ∀ k host, candidate.database.hosts.get? k = some host →
    store.database.hosts.get? k = none →
      ∃ config, ConnectionConfig.fromOpenssh home k none none = .ok config ∧
        host = { importedHost k config with jumpChain := host.jumpChain } ∧
        (host.jumpChain = none ↔ config.jumpHosts = []) ∧
        ∀ name, host.jumpChain = some name → store.database.chains.get? name = none ∧
          candidate.database.chains.get? name = some (importedChain name config)
  chain_new : ∀ name, candidate.database.chains.get? name ≠ none →
    store.database.chains.get? name = none →
      ∃ k host, candidate.database.hosts.get? k = some host ∧
        store.database.hosts.get? k = none ∧ host.jumpChain = some name
  /-- No two new hosts have the same chain. -/
  chains_apart : ∀ k host k' host' name, candidate.database.hosts.get? k = some host →
    candidate.database.hosts.get? k' = some host' → store.database.hosts.get? k = none →
      store.database.hosts.get? k' = none → host.jumpChain = some name →
        host'.jumpChain = some name → k = k'
  hosts_size : candidate.database.hosts.size =
    store.database.hosts.size + report.importedHosts
  chains_size : candidate.database.chains.size =
    store.database.chains.size + report.createdChains
  counters : report.importedHosts + report.skippedExisting + report.skippedUnsupportedAlias =
    aliases.length
  rest : candidate = { store with database := { store.database with
    hosts := candidate.database.hosts
    chains := candidate.database.chains } }

variable {home : HomeConfig} {store candidate candidate' : HostStore} {aliases : List String}
  {report report' : ImportReport} {hostAlias : String}

theorem Imports.start : Imports home store [] .default store where
  hosts_kept _ _ h := h
  chains_kept _ _ h := h
  hosts_iff k := by simp
  host_new k host hget hnone := by
    rw [hget] at hnone
    cases hnone
  chain_new name hget hnone := absurd hnone hget
  chains_apart k host _ _ _ hget _ hnone := by
    rw [hget] at hnone
    cases hnone
  hosts_size := rfl
  chains_size := rfl
  counters := rfl
  rest := rfl

/-- An alias that is skipped. -/
theorem Imports.skip (h : Imports home store aliases report candidate)
    (hskipped : candidate.database.hosts.get? hostAlias ≠ none ∨
      validateName hostAlias "OpenSSH alias" ≠ .ok ())
    (himported : report'.importedHosts = report.importedHosts)
    (hchains : report'.createdChains = report.createdChains)
    (hskips : report'.skippedExisting + report'.skippedUnsupportedAlias =
      report.skippedExisting + report.skippedUnsupportedAlias + 1) :
    Imports home store (aliases ++ [hostAlias]) report' candidate := by
  refine { h with
    hosts_iff := fun k ↦ ?_
    hosts_size := by rw [h.hosts_size, himported]
    chains_size := by rw [h.chains_size, hchains]
    counters := ?_ }
  · rw [mem_append, mem_singleton]
    constructor
    · intro hget
      exact ((h.hosts_iff k).mp hget).imp_right fun hnew ↦ ⟨.inl hnew.1, hnew.2⟩
    · rintro (hold | ⟨hmem | rfl, hname⟩)
      · exact (h.hosts_iff k).mpr (.inl hold)
      · exact (h.hosts_iff k).mpr (.inr ⟨hmem, hname⟩)
      · exact hskipped.resolve_right fun hne ↦ hne hname
  · rw [length_append, length_singleton, ← h.counters]
    omega

/-- A host is added, with a chain or without one. -/
structure Adds (home : HomeConfig) (hostAlias : String) (candidate candidate' : HostStore)
    (report report' : ImportReport) (config : ConnectionConfig) (chainName : Option String) :
    Prop where
  fresh : candidate.database.hosts.get? hostAlias = none
  name : validateName hostAlias "OpenSSH alias" = .ok ()
  resolved : ConnectionConfig.fromOpenssh home hostAlias none none = .ok config
  direct : chainName = none ↔ config.jumpHosts = []
  hosts : candidate'.database.hosts = candidate.database.hosts.insert hostAlias
    { importedHost hostAlias config with jumpChain := chainName }
  chains_kept : ∀ name chain, candidate.database.chains.get? name = some chain →
    candidate'.database.chains.get? name = some chain
  chains_added : ∀ name, candidate'.database.chains.get? name ≠ none →
    candidate.database.chains.get? name ≠ none ∨ chainName = some name
  chain_new : ∀ name, chainName = some name → candidate.database.chains.get? name = none ∧
    candidate'.database.chains.get? name = some (importedChain name config)
  chains_size : candidate'.database.chains.size + report.createdChains =
    candidate.database.chains.size + report'.createdChains
  imported : report'.importedHosts = report.importedHosts + 1
  skips : report'.skippedExisting + report'.skippedUnsupportedAlias =
    report.skippedExisting + report.skippedUnsupportedAlias
  rest : candidate' = { candidate with database := { candidate.database with
    hosts := candidate'.database.hosts
    chains := candidate'.database.chains } }

section

variable {config : ConnectionConfig} {chainName : Option String} {name : String}

theorem Imports.host_unknown (h : Imports home store aliases report candidate)
    (hnone : candidate.database.hosts.get? name = none) :
    store.database.hosts.get? name = none := by
  cases hget : store.database.hosts.get? name with
  | none => rfl
  | some host =>
      rw [h.hosts_kept name host hget] at hnone
      cases hnone

theorem Imports.chain_unknown (h : Imports home store aliases report candidate)
    (hnone : candidate.database.chains.get? name = none) :
    store.database.chains.get? name = none := by
  cases hget : store.database.chains.get? name with
  | none => rfl
  | some chain =>
      rw [h.chains_kept name chain hget] at hnone
      cases hnone

theorem Adds.get?_eq
    (hadds : Adds home hostAlias candidate candidate' report report' config chainName)
    (k : String) : candidate'.database.hosts.get? k =
      if k = hostAlias then some { importedHost hostAlias config with jumpChain := chainName }
      else candidate.database.hosts.get? k := by
  rw [hadds.hosts, get?_insert]

theorem Adds.jumpChain_eq
    (hadds : Adds home hostAlias candidate candidate' report report' config chainName)
    {host : HostRecord} (hhost : candidate'.database.hosts.get? hostAlias = some host) :
    host.jumpChain = chainName := by
  rw [hadds.get?_eq, if_pos rfl] at hhost
  cases hhost
  rfl

/-- The chain of an earlier host is not the one that has just been added. -/
theorem Imports.chain_ne (h : Imports home store aliases report candidate)
    (hadds : Adds home hostAlias candidate candidate' report report' config chainName) {k : String}
    {host : HostRecord} (hne : k ≠ hostAlias)
    (hhost : candidate'.database.hosts.get? k = some host)
    (hnone : store.database.hosts.get? k = none) (hbound : host.jumpChain = some name) :
    chainName ≠ some name := by
  intro hsome
  rw [hadds.get?_eq, if_neg hne] at hhost
  obtain ⟨_, -, -, -, hchained⟩ := h.host_new k host hhost hnone
  have hthere := (hchained name hbound).2
  rw [(hadds.chain_new name hsome).1] at hthere
  cases hthere

theorem Imports.add (h : Imports home store aliases report candidate)
    (hadds : Adds home hostAlias candidate candidate' report report' config chainName) :
    Imports home store (aliases ++ [hostAlias]) report' candidate' := by
  have hold := h.host_unknown hadds.fresh
  constructor
  case hosts_kept =>
    intro k host hhost
    have hne : k ≠ hostAlias := by
      rintro rfl
      rw [hold] at hhost
      cases hhost
    rw [hadds.get?_eq, if_neg hne]
    exact h.hosts_kept k host hhost
  case chains_kept =>
    exact fun name chain hget ↦ hadds.chains_kept name chain (h.chains_kept name chain hget)
  case hosts_iff =>
    intro k
    rw [hadds.get?_eq, mem_append, mem_singleton]
    by_cases hk : k = hostAlias
    · rw [if_pos hk]
      exact iff_of_true (Option.some_ne_none _) (.inr ⟨.inr hk, hk ▸ hadds.name⟩)
    · rw [if_neg hk, h.hosts_iff, or_iff_left hk]
  case host_new =>
    intro k host hhost hnone
    by_cases hk : k = hostAlias
    · rw [hadds.get?_eq, if_pos hk] at hhost
      cases hhost
      subst hk
      refine ⟨config, hadds.resolved, rfl, hadds.direct, fun name hsome ↦ ?_⟩
      exact ⟨h.chain_unknown (hadds.chain_new name hsome).1, (hadds.chain_new name hsome).2⟩
    · rw [hadds.get?_eq, if_neg hk] at hhost
      obtain ⟨config', hconfig', heq, hiff, hchained⟩ := h.host_new k host hhost hnone
      refine ⟨config', hconfig', heq, hiff, fun name hsome ↦ ?_⟩
      exact ⟨(hchained name hsome).1, hadds.chains_kept name _ (hchained name hsome).2⟩
  case chain_new =>
    intro name hthere hnone
    rcases hadds.chains_added name hthere with hbefore | hsome
    · obtain ⟨k, host, hhost, hk, hbound⟩ := h.chain_new name hbefore hnone
      refine ⟨k, host, ?_, hk, hbound⟩
      rw [hadds.get?_eq, if_neg ?_, hhost]
      rintro rfl
      rw [hadds.fresh] at hhost
      cases hhost
    · exact ⟨hostAlias, _, by rw [hadds.get?_eq, if_pos rfl], hold, hsome⟩
  case chains_apart =>
    intro k host k' host' name hhost hhost' hnone hnone' hbound hbound'
    by_cases hk : k = hostAlias
    · by_cases hk' : k' = hostAlias
      · exact hk.trans hk'.symm
      · subst hk
        exact absurd ((hadds.jumpChain_eq hhost).symm.trans hbound)
          (h.chain_ne hadds hk' hhost' hnone' hbound')
    · by_cases hk' : k' = hostAlias
      · subst hk'
        exact absurd ((hadds.jumpChain_eq hhost').symm.trans hbound')
          (h.chain_ne hadds hk hhost hnone hbound)
      · rw [hadds.get?_eq, if_neg hk] at hhost
        rw [hadds.get?_eq, if_neg hk'] at hhost'
        exact h.chains_apart k host k' host' name hhost hhost' hnone hnone' hbound hbound'
  case hosts_size =>
    rw [hadds.hosts, size_insert _ hadds.fresh, h.hosts_size, hadds.imported]
    rfl
  case chains_size =>
    have := h.chains_size
    have := hadds.chains_size
    omega
  case counters =>
    have := h.counters
    have := hadds.skips
    rw [length_append, length_singleton, hadds.imported]
    omega
  case rest =>
    rw [hadds.rest, h.rest]

end

/-- Each alias of the catalog goes on with an import. -/
theorem ImportStep.imports (h : Imports home store aliases report candidate)
    (hstep : ImportStep home candidate report hostAlias candidate' report') :
    Imports home store (aliases ++ [hostAlias]) report' candidate' := by
  cases hstep with
  | existing hexists =>
      obtain ⟨host, hhost⟩ := contains_iff.mp hexists
      refine h.skip (.inl ?_) rfl rfl (by simp only; omega)
      rw [hhost]
      exact Option.some_ne_none host
  | unsupported hfresh hname warnings => exact h.skip (.inr hname) rfl rfl (by simp only; omega)
  | direct hfresh hname config hconfig hdirect =>
      exact h.add {
        fresh := hfresh, name := hname, resolved := hconfig, direct := iff_of_true rfl hdirect
        hosts := rfl
        chains_kept := fun _ _ hget ↦ hget
        chains_added := fun _ hget ↦ .inl hget
        chain_new := fun _ hsome ↦ by cases hsome
        chains_size := rfl, imported := rfl, skips := rfl, rest := rfl }
  | routed hfresh hname config hconfig hrouted name hfree =>
      refine h.add {
        fresh := hfresh, name := hname, resolved := hconfig
        direct := iff_of_false (Option.some_ne_none name) hrouted
        hosts := rfl
        chains_kept := fun name' chain hget ↦ ?_
        chains_added := fun name' hget ↦ ?_
        chain_new := ?_
        chains_size := ?_
        imported := rfl, skips := rfl, rest := rfl }
      · have hne : name' ≠ name := by
          rintro rfl
          rw [hfree] at hget
          cases hget
        exact (get?_insert_of_ne _ _ hne).trans hget
      · by_cases hname' : name' = name
        · exact .inr (congrArg some hname'.symm)
        · rw [HostStore.setHosts, HostStore.setChains, get?_insert_of_ne _ _ hname'] at hget
          exact .inl hget
      · rintro name' ⟨⟩
        exact ⟨hfree, get?_insert_self _ _ _⟩
      · have := size_insert (importedChain name config) hfree
        simp only [HostStore.setHosts, HostStore.setChains]
        omega

section

variable [Unicode]

theorem foldlM_importAlias {rest : List String}
    (h : Imports home store aliases report candidate)
    (hfold : rest.foldlM (importAlias home) (candidate, report) = .ok (candidate', report')) :
    Imports home store (aliases ++ rest) report' candidate' := by
  induction rest generalizing aliases candidate report with
  | nil =>
      cases hfold
      rwa [append_nil]
  | cons hostAlias rest ih =>
      rw [foldlM_cons] at hfold
      obtain ⟨⟨next, counted⟩, hstep, hrest⟩ := bind_eq_ok.mp hfold
      have := ih ((importAlias_step hstep).imports h) hrest
      rwa [append_assoc, singleton_append] at this

theorem importOpenssh_eq_ok {discovered : Result OpenSshHostCatalog}
    (h : importOpenssh home discovered store = (.ok report, candidate)) :
    ∃ catalog, discovered = .ok catalog ∧
      Imports home store catalog.aliases report candidate ∧ candidate.database.Valid := by
  rw [importOpenssh] at h
  split at h
  · next imported himport =>
      cases h
      rw [importCandidate] at himport
      obtain ⟨catalog, hcatalog, himport⟩ := bind_eq_ok.mp himport
      obtain ⟨-, himport⟩ := check_bind_eq_ok.mp himport
      obtain ⟨⟨next, counted⟩, hfold, himport⟩ := bind_eq_ok.mp himport
      obtain ⟨hvalid, heq⟩ := check_bind_eq_ok.mp himport
      cases heq
      exact ⟨catalog, hcatalog, foldlM_importAlias .start hfold,
        HostDatabase.validate_eq_ok.mp hvalid⟩
  · cases h

/-- An import fails and leaves the store as it was, or imports the aliases of the catalog, and then
the database is valid, and so is the name of each new chain. -/
theorem importOpenssh_imports (home : HomeConfig) (discovered : Result OpenSshHostCatalog)
    (store : HostStore) :
    (∀ e, (importOpenssh home discovered store).1 = .error e →
      (importOpenssh home discovered store).2 = store) ∧
    ∀ report candidate, importOpenssh home discovered store = (.ok report, candidate) →
      ∃ catalog, discovered = .ok catalog ∧
        Imports home store catalog.aliases report candidate ∧ candidate.database.Valid ∧
        ∀ name, candidate.database.chains.get? name ≠ none →
          store.database.chains.get? name = none → validateLabel name "jump chain" = .ok () := by
  refine ⟨fun e he ↦ ?_, fun report candidate h ↦ ?_⟩
  · rw [importOpenssh] at he ⊢
    split at he
    · cases he
    · rfl
  · obtain ⟨catalog, hcatalog, himports, hvalid⟩ := importOpenssh_eq_ok h
    refine ⟨catalog, hcatalog, himports, hvalid, fun name hthere _ ↦ ?_⟩
    obtain ⟨chain, hchain⟩ := Option.ne_none_iff_exists'.mp hthere
    rw [← hvalid.chainKey name chain hchain]
    exact (JumpChain.validate_eq_ok.mp (hvalid.chainRecord name chain hchain)).1

end

/-- A configuration with two hosts behind "bastion", for one of them as another user and at another
port than the configuration of "bastion" says. -/
def sampleRouted : HomeConfig := fun hostAlias ↦ .ok {
  host := hostAlias
  user := "ops"
  port := 2222
  identityFile := none
  userKnownHostsFile := none
  strictHostKeyChecking := none
  proxyCommand := none
  proxyJump :=
    if hostAlias = "app" then some "root@bastion:2200"
    else if hostAlias = "blog" then some "bastion" else none }

def sampleCatalog : OpenSshHostCatalog := ⟨none, ["app", "blog", "db+1", "web"], false⟩

theorem importOpenssh_imports_sample : ∃ report candidate,
    @importOpenssh asciiLetters sampleRouted (.ok sampleCatalog) sampleStore =
      (.ok report, candidate) ∧
    Imports sampleRouted sampleStore sampleCatalog.aliases report candidate := by
  have hok : (@importOpenssh asciiLetters sampleRouted (.ok sampleCatalog)
      sampleStore).1.isOk = true := by decide
  obtain ⟨report, hreport⟩ := isOk_iff.mp hok
  have himport : @importOpenssh asciiLetters sampleRouted (.ok sampleCatalog) sampleStore =
      (.ok report, (@importOpenssh asciiLetters sampleRouted (.ok sampleCatalog) sampleStore).2) :=
    Prod.ext hreport rfl
  obtain ⟨-, himports⟩ :=
    @importOpenssh_imports asciiLetters sampleRouted (.ok sampleCatalog) sampleStore
  obtain ⟨catalog, hcatalog, hall, -⟩ := himports report _ himport
  cases hcatalog
  exact ⟨report, _, himport, hall⟩

/-- An alias that is no name for the configuration is counted and not stored. -/
theorem importOpenssh_skips_unsupported :
    ((@importOpenssh asciiLetters sampleRouted (.ok sampleCatalog) sampleStore).1.map fun report ↦
      (report.importedHosts, report.skippedExisting, report.skippedUnsupportedAlias,
        report.createdChains)) = .ok (2, 1, 1, 2) ∧
      "db+1" ∈ sampleCatalog.aliases ∧
      sampleStore.database.hosts.get? "db+1" = none ∧
      (@importOpenssh asciiLetters sampleRouted (.ok sampleCatalog)
        sampleStore).2.database.hosts.get? "db+1" = none := by
  decide

end KaduoxSsh.Hosts
