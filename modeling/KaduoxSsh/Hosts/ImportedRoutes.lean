import KaduoxSsh.Hosts.Import

/-!
# Imported routes

A route that is imported is kept as the aliases of its jump hosts. When the imported
host is resolved, each alias is looked up again, and what the route said beyond the
aliases is gone: a hop that names a user or a port of its own gets those of its
alias. An alias that has a route itself, or that begins with a dash, is refused as
a hop of a chain, while the route it was imported from made use of it.

So the route comes back exactly when its hops say no more than their aliases do.
-/

namespace KaduoxSsh.Hosts

open Text Result List
open KaduoxSsh.Core
open OpenSsh (OpenSshHostCatalog)

/-! ## Names as tokens -/

theorem validateName_eq_ok {value field : String} : validateName value field = .ok () ↔
    value ≠ "" ∧ (utf8 value).length ≤ 128 ∧
      ∀ c ∈ value.toList, c.isAlphanum = true ∨ c ∈ ['.', '_', '-', ':'] := by
  rw [validateName, ite_bail_eq_ok, ite_bail_eq_ok]
  simp only [not_or, not_not, not_lt, gt_iff_lt, all_eq_true, Bool.or_eq_true,
    decide_eq_true_eq, and_true, and_assoc]

/-- A name is a token unless it begins with a dash. -/
theorem validateUntrustedShellToken_of_name {value field role : String}
    (h : validateName value field = .ok ()) :
    validateUntrustedShellToken value role = .ok () ↔ value.toList.head? ≠ some '-' := by
  obtain ⟨hne, -, hchars⟩ := validateName_eq_ok.mp h
  have hsafe : (value.toList.any fun c ↦
      isWhitespace c || isControl c || c ∈ SHELL_ACTIVE_TOKEN_CHARS) = false := by
    have hshell : ∀ c ∈ SHELL_ACTIVE_TOKEN_CHARS,
        c.isAlphanum = false ∧ c ∉ ['.', '_', '-', ':'] := by decide
    have hpunctuation : ∀ c ∈ ['.', '_', '-', ':'],
        isWhitespace c = false ∧ isControl c = false := by decide
    refine any_eq_false.mpr fun c hc ↦ ?_
    have hnot : c ∉ SHELL_ACTIVE_TOKEN_CHARS := by
      intro hmem
      rcases hchars c hc with halnum | hmark
      · rw [(hshell c hmem).1] at halnum
        cases halnum
      · exact (hshell c hmem).2 hmark
    rcases hchars c hc with halnum | hmark
    · have hblank := Toml.isWhitespace_of_isKeyChar (show Toml.isKeyChar c = true by
        simp [Toml.isKeyChar, halnum])
      simp [hblank, asciiLetters.isControl_of_isAlphanumeric c halnum, hnot]
    · simp [hpunctuation c hmark, hnot]
  simp only [validateUntrustedShellToken, check_bind_eq_ok, bailIf_eq_ok, hsafe]
  simp [hne]

/-! ## One hop -/

/-- There is no route to a host exactly when its ProxyJump is missing or says so. -/
theorem jumpHosts_eq_nil_iff {home : HomeConfig} {parsed : ParsedConfig} :
    parsed.jumpHosts home = .ok [] ↔ ∀ spec, parsed.proxyJump = some spec →
      trim spec.toList = [] ∨ isNone (trim spec.toList) = true := by
  rw [ParsedConfig.jumpHosts]
  cases parsed.proxyJump with
  | none => simp
  | some spec =>
      simp only [resolveJumpHostsInternal_eq_ok, forall₂_nil_right_iff, exists_eq_right,
        jumpSpecs_eq_nil_iff, Option.some.injEq, forall_eq']

/-- The configuration of an alias that is a hop says what the hop says, and has no route. -/
structure SaysHop (target : JumpTarget) (own : ParsedConfig) : Prop where
  user : ∀ user, target.user = some user → user = own.user
  port : ∀ port, target.port = some port → port = own.port
  noDash : target.hostAlias.toList.head? ≠ some '-'
  noCommand : own.proxyCommand = none
  noJump : ∀ spec, own.proxyJump = some spec →
    trim spec.toList = [] ∨ isNone (trim spec.toList) = true

/-- A hop that is kept as its alias comes back exactly when its alias says the same. -/
theorem jumpFromOpensshAlias_endpoint_iff {home : HomeConfig} {target : JumpTarget}
    {own : ParsedConfig} (hname : validateName target.hostAlias "OpenSSH jump alias" = .ok ())
    (hown : home target.hostAlias = .ok own) :
    (∃ jump, jumpFromOpensshAlias home target.hostAlias = .ok jump ∧
      jumpEndpoint jump = jumpEndpoint (target.jumpHost own)) ↔ SaysHop target own := by
  have hendpoint : jumpEndpoint (target.jumpHost own) =
      ⟨own.host, target.port.getD own.port, target.user.getD own.user⟩ := rfl
  simp only [jumpFromOpensshAlias_eq_ok, ConnectionConfig.fromOpenssh_eq_ok,
    validateUntrustedShellToken_of_name hname, hown, hendpoint]
  constructor
  · rintro ⟨jump, ⟨config, ⟨hdash, -, parsed, jumpHosts, hparsed, hjumps, rfl⟩, hnil, hcommand,
      rfl⟩, heq⟩
    cases hparsed
    have hnil' : jumpHosts = [] := hnil
    subst hnil'
    have hport : own.port = target.port.getD own.port := (Endpoint.mk.inj heq).2.1
    have huser : own.user = target.user.getD own.user := (Endpoint.mk.inj heq).2.2
    refine ⟨fun user hsome ↦ ?_, fun port hsome ↦ ?_, hdash, hcommand,
      jumpHosts_eq_nil_iff.mp hjumps⟩
    · rw [hsome] at huser
      exact huser.symm
    · rw [hsome] at hport
      exact hport.symm
  · intro h
    refine ⟨_, ⟨_, ⟨h.noDash, nofun, own, [], rfl, jumpHosts_eq_nil_iff.mpr h.noJump, rfl⟩, rfl,
      h.noCommand, rfl⟩, ?_⟩
    have hport : target.port.getD own.port = own.port := by
      cases hport : target.port with
      | none => rfl
      | some port => exact h.port port hport
    have huser : target.user.getD own.user = own.user := by
      cases huser : target.user with
      | none => rfl
      | some user => exact h.user user huser
    rw [hport, huser]
    rfl

/-! ## A whole route -/

theorem forall₂_congr_left {α β : Type} {R S : α → β → Prop} {l : List α}
    (h : ∀ a ∈ l, ∀ b, R a b ↔ S a b) (l' : List β) :
    List.Forall₂ R l l' ↔ List.Forall₂ S l l' := by
  induction l generalizing l' with
  | nil => rw [forall₂_nil_left_iff, forall₂_nil_left_iff]
  | cons a l ih =>
      simp only [forall₂_cons_left_iff, h a mem_cons_self,
        ih fun a' ha' ↦ h a' (mem_cons_of_mem a ha')]

/-- Partners with the same images can be found for a list when they can for its elements. -/
theorem exists_forall₂_map_eq_iff {α β γ : Type} {R : α → β → Prop} {f : α → γ} {g : β → γ}
    {l : List α} : (∃ l', List.Forall₂ R l l' ∧ l'.map g = l.map f) ↔
      ∀ a ∈ l, ∃ b, R a b ∧ g b = f a := by
  induction l with
  | nil => simp
  | cons a l ih =>
      rw [forall_mem_cons, ← ih]
      constructor
      · rintro ⟨_, hrel, heq⟩
        obtain ⟨b, l', hab, hll, rfl⟩ := forall₂_cons_left_iff.mp hrel
        obtain ⟨hhead, htail⟩ := List.cons.inj heq
        exact ⟨⟨b, hab, hhead⟩, l', hll, htail⟩
      · rintro ⟨⟨b, hab, hhead⟩, l', hll, htail⟩
        exact ⟨b :: l', .cons hab hll, by rw [map_cons, map_cons, hhead, htail]⟩

section

variable [Unicode] {home : HomeConfig} {database : HostDatabase} {config : ConnectionConfig}
  {store candidate : HostStore} {report : ImportReport} {hostAlias : String}

/-- The chain of an imported route is resolved alias by alias. -/
theorem resolveChain_imported (hvalid : database.Valid) {hostAlias name : String}
    (hchain : database.chains.get? name = some (importedChain name config))
    (hloop : ∀ jump ∈ config.jumpHosts, jump.hostAlias ≠ hostAlias) (jumpHosts : List JumpHost) :
    resolveChain home database hostAlias name = .ok jumpHosts ↔
      List.Forall₂ (fun jump jump' ↦ jumpFromOpensshAlias home jump.hostAlias = .ok jump')
        config.jumpHosts jumpHosts := by
  have hlength : ¬(importedChain name config).hops.length > MAX_CHAIN_HOPS :=
    not_lt.mpr (JumpChain.validate_eq_ok.mp (hvalid.chainRecord name _ hchain)).2.2.1
  have hhops : (importedChain name config).hops.zipIdx = config.jumpHosts.zipIdx.map
      (Prod.map (fun jump ↦ JumpHop.openSshAlias jump.hostAlias) id) :=
    zipIdx_map ..
  have hhop : ∀ entry ∈ config.jumpHosts.zipIdx, ∀ jump',
      resolveHop home database hostAlias name
          (Prod.map (fun jump ↦ JumpHop.openSshAlias jump.hostAlias) id entry) = .ok jump' ↔
        jumpFromOpensshAlias home entry.1.hostAlias = .ok jump' := by
    rintro ⟨jump, index⟩ hmem jump'
    have hne := hloop jump (fst_mem_of_mem_zipIdx hmem)
    rw [Prod.map_apply, resolveHop, check_bind_eq_ok, rejectLoop, bailIf_eq_ok]
    exact and_iff_right hne
  rw [resolveChain, HostDatabase.validate_eq_ok.mpr hvalid, hchain, bind_ok,
    ofOption, bind_ok, check_bind_eq_ok, bailIf_eq_ok,
    and_iff_right hlength, hhops, mapM_eq_ok, forall₂_map_left_iff,
    forall₂_congr_left hhop]
  conv_rhs => rw [← zipIdx_map_fst 0 config.jumpHosts, forall₂_map_left_iff]

/-- A host that was imported with a route has a chain of the aliases of the route, and is none of
them. -/
theorem imported_chain {aliases : List String} {host : HostRecord}
    (himports : Imports home store aliases report candidate) (hvalid : candidate.database.Valid)
    (hnew : store.database.hosts.get? hostAlias = none)
    (hstored : candidate.database.hosts.get? hostAlias = some host)
    (hconfig : ConnectionConfig.fromOpenssh home hostAlias none none = .ok config)
    (hjumps : config.jumpHosts ≠ []) :
    ∃ name, host.jumpChain = some name ∧
      candidate.database.chains.get? name = some (importedChain name config) ∧
      ∀ jump ∈ config.jumpHosts, jump.hostAlias ≠ hostAlias := by
  obtain ⟨config', hconfig', -, hiff, hchained⟩ := himports.host_new hostAlias host hstored hnew
  rw [hconfig] at hconfig'
  cases hconfig'
  obtain ⟨name, hname⟩ := Option.ne_none_iff_exists'.mp (mt hiff.mp hjumps)
  obtain ⟨-, hchain⟩ := hchained name hname
  refine ⟨name, hname, hchain, fun jump hmem ↦ ?_⟩
  have hloop := hvalid.noLoop hostAlias host (importedChain name config) hstored
    (by rw [hname]; exact hchain) (.openSshAlias jump.hostAlias)
    (mem_map.mpr ⟨jump, hmem, rfl⟩)
  rwa [hvalid.hostKey hostAlias host hstored] at hloop

/-- A host that was imported with a route is resolved when the chain of the route is. -/
theorem resolveHost_imported {aliases : List String}
    (himports : Imports home store aliases report candidate) (hvalid : candidate.database.Valid)
    (hnew : store.database.hosts.get? hostAlias = none)
    (hstored : candidate.database.hosts.get? hostAlias ≠ none)
    (hconfig : ConnectionConfig.fromOpenssh home hostAlias none none = .ok config)
    (hjumps : config.jumpHosts ≠ []) (endpoints : List Endpoint) :
    (∃ resolved, resolveHost home candidate.database hostAlias none none = .ok resolved ∧
      resolved.config.jumpHosts.map jumpEndpoint = endpoints) ↔
    ∃ jumpHosts, List.Forall₂ (fun jump jump' ↦
        jumpFromOpensshAlias home jump.hostAlias = .ok jump') config.jumpHosts jumpHosts ∧
      jumpHosts.map jumpEndpoint = endpoints := by
  have hnamed := ((himports.hosts_iff hostAlias).mp hstored).resolve_left (not_not.mpr hnew)
  obtain ⟨host, hhost⟩ := Option.ne_none_iff_exists'.mp hstored
  obtain ⟨name, hname, hchain, hloop⟩ :=
    imported_chain himports hvalid hnew hhost hconfig hjumps
  have hfallback : recordFallback home host = .ok config := by
    rw [recordFallback, hvalid.hostKey hostAlias host hhost, hnamed.2, hconfig]
    rfl
  simp only [← resolveChain_imported hvalid hchain hloop, resolveHost,
    HostDatabase.validate_eq_ok.mpr hvalid, hhost, hfallback, hname, bind_ok,
    bind_eq_ok, pure_eq_ok, Except.ok.injEq]
  constructor
  · rintro ⟨_, ⟨jumpHosts, hresolve, rfl⟩, heq⟩
    exact ⟨jumpHosts, hresolve, heq⟩
  · rintro ⟨jumpHosts, hresolve, heq⟩
    exact ⟨_, ⟨jumpHosts, hresolve, rfl⟩, heq⟩

/-- Each hop of the route of a host says no more than the configuration of its alias. -/
def RouteOfAliases (home : HomeConfig) (hostAlias : String) : Prop :=
  ∀ parsed spec hops, home hostAlias = .ok parsed → parsed.proxyJump = some spec →
    jumpSpecs spec = .ok hops → ∀ hop ∈ hops, ∀ target own, parseJumpTarget hop = .ok target →
      home target.hostAlias = .ok own → SaysHop target own

/-- A host that was imported with a route is reached over the hops of that route, with their
addresses, ports and users, exactly when the hops say no more than their aliases do. -/
theorem imported_route_iff {discovered : Result OpenSshHostCatalog}
    (himport : importOpenssh home discovered store = (.ok report, candidate))
    (hnew : store.database.hosts.get? hostAlias = none)
    (hstored : candidate.database.hosts.get? hostAlias ≠ none)
    (hconfig : ConnectionConfig.fromOpenssh home hostAlias none none = .ok config)
    (hjumps : config.jumpHosts ≠ []) :
    (∃ resolved, resolveHost home candidate.database hostAlias none none = .ok resolved ∧
      resolved.config.jumpHosts.map jumpEndpoint = config.jumpHosts.map jumpEndpoint) ↔
    RouteOfAliases home hostAlias := by
  obtain ⟨catalog, -, himports, hvalid⟩ := importOpenssh_eq_ok himport
  rw [resolveHost_imported himports hvalid hnew hstored hconfig hjumps,
    exists_forall₂_map_eq_iff]
  obtain ⟨host, hhost⟩ := Option.ne_none_iff_exists'.mp hstored
  obtain ⟨name, -, hchain, -⟩ := imported_chain himports hvalid hnew hhost hconfig hjumps
  have hnames : ∀ jump ∈ config.jumpHosts,
      validateName jump.hostAlias "OpenSSH jump alias" = .ok () := fun jump hmem ↦
    (JumpChain.validate_eq_ok.mp (hvalid.chainRecord name _ hchain)).2.2.2.1 _
      (mem_map.mpr ⟨jump, hmem, rfl⟩)
  obtain ⟨-, -, parsed, jumpHosts, hparsed, hroute, rfl⟩ :=
    ConnectionConfig.fromOpenssh_eq_ok.mp hconfig
  change ∀ jump ∈ jumpHosts, _ at hnames
  change jumpHosts ≠ [] at hjumps
  change (∀ jump ∈ jumpHosts, _) ↔ _
  cases hspec : parsed.proxyJump with
  | none =>
      rw [ParsedConfig.jumpHosts, hspec] at hroute
      cases hroute
      exact absurd rfl hjumps
  | some spec =>
      rw [ParsedConfig.jumpHosts, hspec] at hroute
      obtain ⟨hops, hhops, hrel⟩ := resolveJumpHostsInternal_eq_ok.mp hroute
      constructor
      · intro hback parsed' spec' hops' hparsed' hspec' hhops' hop hmem target own htarget hown
        rw [hparsed] at hparsed'
        cases hparsed'
        rw [hspec] at hspec'
        cases hspec'
        rw [hhops] at hhops'
        cases hhops'
        obtain ⟨jump, hjump, target', own', htarget', hown', rfl⟩ :=
          exists_of_forall₂ hrel.flip hmem
        rw [htarget] at htarget'
        cases htarget'
        rw [hown] at hown'
        cases hown'
        exact (jumpFromOpensshAlias_endpoint_iff (hnames _ hjump) hown).mp (hback _ hjump)
      · intro hspoken jump hmem
        obtain ⟨hop, hhop, target, own, htarget, hown, rfl⟩ := exists_of_forall₂ hrel hmem
        exact (jumpFromOpensshAlias_endpoint_iff (hnames _ hmem) hown).mpr
          (hspoken parsed spec hops hparsed hspec hhops hop hhop target own htarget hown)

end

/-- What the import of the sample catalog leaves. -/
def sampleImported : HostStore :=
  (@importOpenssh asciiLetters sampleRouted (.ok sampleCatalog) sampleStore).2

def sampleReport : ImportReport :=
  ⟨2, 1, 1, 2, ["skipped OpenSSH alias \"db+1\": not representable by the portable " ++
    "Kaduox alias grammar"]⟩

theorem sampleImported_eq :
    @importOpenssh asciiLetters sampleRouted (.ok sampleCatalog) sampleStore =
      (.ok sampleReport, sampleImported) := by
  decide

/-- What the sample configuration gives for a host. -/
def sampleConfig (hostAlias : String) : ConnectionConfig :=
  (ConnectionConfig.fromOpenssh sampleRouted hostAlias none none).toOption.getD
    (ConnectionConfig.new "" "")

/-- A hop that is only an alias comes back. -/
theorem imported_route_iff_blog : ∃ resolved,
    @resolveHost asciiLetters sampleRouted sampleImported.database "blog" none none =
      .ok resolved ∧
    resolved.config.jumpHosts.map jumpEndpoint =
      (sampleConfig "blog").jumpHosts.map jumpEndpoint := by
  have hconfig : ConnectionConfig.fromOpenssh sampleRouted "blog" none none =
      .ok (sampleConfig "blog") := by decide
  refine (@imported_route_iff asciiLetters sampleRouted _ _ _ _ _ _ sampleImported_eq
    (by decide) (by decide) hconfig (by decide)).mpr ?_
  intro parsed spec hops hparsed hspec hhops hop hmem target own htarget hown
  cases hparsed
  cases hspec
  have hspecs : jumpSpecs "bastion" = .ok ["bastion".toList] := by decide
  cases hspecs.symm.trans hhops
  cases mem_singleton.mp hmem
  have hbastion : parseJumpTarget "bastion".toList = .ok ⟨none, "bastion", none⟩ := by
    decide
  cases hbastion.symm.trans htarget
  cases hown
  exact ⟨nofun, nofun, by decide, rfl, nofun⟩

/-- A hop with a user and a port of its own comes back with those of its alias. -/
theorem imported_route_loses_user :
    @importOpenssh asciiLetters sampleRouted (.ok sampleCatalog) sampleStore =
      (.ok sampleReport, sampleImported) ∧
    sampleStore.database.hosts.get? "app" = none ∧
    (sampleImported.database.hosts.get? "app").bind HostRecord.jumpChain =
      some "openssh-app-jump" ∧
    ((ConnectionConfig.fromOpenssh sampleRouted "app" none none).map fun config ↦
      config.jumpHosts.map jumpEndpoint) = .ok [⟨"bastion", 2200, "root"⟩] ∧
    ((@resolveHost asciiLetters sampleRouted sampleImported.database "app" none none).map
      fun resolved ↦ resolved.config.jumpHosts.map jumpEndpoint) =
        .ok [⟨"bastion", 2222, "ops"⟩] := by
  decide

end KaduoxSsh.Hosts
