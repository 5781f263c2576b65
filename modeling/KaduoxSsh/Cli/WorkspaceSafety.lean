import KaduoxSsh.Cli.Workspace
import KaduoxSsh.Core.ManagerCalls

/-!
# Opening a group is all or nothing

The name for the connection manager is the label of the session, and a label is opened
once. So in every state the pool holds what the sessions lease and no more: what is
opened is never found under a name that is in use, and what is rolled back is never that
of a session from before.
-/

namespace KaduoxSsh.Cli

open KaduoxSsh.Core OpenSsh Result List

/-! ## Targets -/

section

variable {home : HomeConfig} {cli : TuiCli} {group host name : String} {config : ConnectionConfig}
  {alreadyOpen targets : List String} {available : Nat} {prepared : List PreparedSession}

/-- The name for the manager is the target as it is given. -/
theorem name_of_buildConnectionConfig
    (h : buildConnectionConfig home cli host = .ok (name, config)) : name = host := by
  obtain ⟨target, -, h⟩ := bind_eq_ok.mp h
  obtain ⟨base, -, h⟩ := bind_eq_ok.mp h
  obtain ⟨routed, -, h⟩ := bind_eq_ok.mp h
  exact (congrArg Prod.fst (Except.ok.inj h)).symm

theorem labels_of_prepareTargets
    (h : prepareTargets home cli group alreadyOpen targets = .ok prepared) :
    prepared.map PreparedSession.label = targets.filter (· ∉ alreadyOpen) ∧
      ∀ session ∈ prepared, session.managerName = session.label := by
  induction targets generalizing prepared with
  | nil =>
      cases h
      exact ⟨rfl, nofun⟩
  | cons label targets ih =>
      rw [prepareTargets] at h
      split at h
      case isTrue hopen =>
        rw [filter_cons_of_neg (by simpa using hopen)]
        exact ih h
      case isFalse hnew =>
        rw [filter_cons_of_pos (by simpa using hnew)]
        split at h
        case h_1 => cases h
        case h_2 name config hbuild =>
          obtain ⟨rest, hrest, h⟩ := bind_eq_ok.mp h
          cases h
          obtain ⟨hlabels, hnames⟩ := ih hrest
          refine ⟨congrArg (label :: ·) hlabels, fun session hsession ↦ ?_⟩
          rcases mem_cons.mp hsession with rfl | hsession
          · exact name_of_buildConnectionConfig hbuild
          · exact hnames session hsession

theorem prepareTargets_of_prepareGroup
    (h : prepareGroup home cli group alreadyOpen available targets = .ok prepared) :
    prepareTargets home cli group alreadyOpen targets = .ok prepared := by
  obtain ⟨found, hfound, h⟩ := bind_eq_ok.mp h
  obtain ⟨-, -, h⟩ := bind_eq_ok.mp h
  cases h
  exact hfound

end

/-! ## What the sessions hold -/

namespace WorkspaceSession

/-- What is in the pool for a session. -/
def entry (session : WorkspaceSession) : String × Nat := (session.managerName, session.lease)

end WorkspaceSession

/-- The pool and the leases are those of the sessions. -/
def HeldBy (manager : Manager ConnectionConfig) (sessions : List WorkspaceSession) : Prop :=
  manager.Holds (sessions.map WorkspaceSession.entry) (sessions.map WorkspaceSession.lease)

/-- A connection is being made for a target beside the sessions. -/
def ConnectingBeside (manager : Manager ConnectionConfig) (sessions : List WorkspaceSession)
    (prepared : PreparedSession) (call : Nat) : Prop :=
  manager.Connecting call prepared.managerName (sessions.map WorkspaceSession.entry)
    (sessions.map WorkspaceSession.lease)

namespace Doing

def opened : Doing → List WorkspaceSession
  | openGroup _ _ opened _ => opened
  | _ => []

def prepared : Doing → List PreparedSession
  | openSession prepared _ => [prepared]
  | openGroup _ remaining _ _ => remaining
  | _ => []

/-- The names that are still to be removed. -/
def names : Doing → List String
  | rollback _ _ _ names _ _ => names
  | _ => []

end Doing

section

variable {manager manager' : Manager ConnectionConfig} {sessions opened : List WorkspaceSession}
  {prepared : PreparedSession} {call : Nat}

theorem leased_of_mem {entry : String × Nat} (h : entry ∈ sessions.map WorkspaceSession.entry) :
    entry.2 ∈ sessions.map WorkspaceSession.lease := by
  obtain ⟨session, hsession, rfl⟩ := mem_map.mp h
  exact mem_map_of_mem hsession

/-- Under a label that is not open nothing is in the pool. -/
theorem free_of_notMem {label : String}
    (hnames : ∀ session ∈ sessions, session.managerName = session.label)
    (h : label ∉ sessions.map WorkspaceSession.label) (id : Nat) :
    (label, id) ∉ sessions.map WorkspaceSession.entry := by
  intro hentry
  obtain ⟨session, hsession, heq⟩ := mem_map.mp hentry
  refine h (mem_map.mpr ⟨session, hsession, ?_⟩)
  rw [← hnames session hsession]
  exact congrArg Prod.fst heq

/-- What is left without the one entry of a name. -/
theorem mem_filter_of_split {entries rest : List (String × Nat)} {name : String}
    {first entry : String × Nat} (hsplit : ∀ other, other ∈ entries ↔ other = first ∨ other ∈ rest)
    (hfirst : first.1 = name) (hrest : ∀ other ∈ rest, other.1 ≠ name) :
    entry ∈ entries.filter (·.1 ≠ name) ↔ entry ∈ rest := by
  rw [mem_filter, hsplit, decide_eq_true_iff]
  constructor
  · rintro ⟨rfl | hentry, hne⟩
    · exact absurd hfirst hne
    · exact hentry
  · exact fun hentry ↦ ⟨.inr hentry, hrest entry hentry⟩

theorem dropLeases_spec {entries : List (String × Nat)} {leased : List Nat}
    (hflight : manager.Flight)
    (h : manager.Holds entries (opened.map WorkspaceSession.lease ++ leased))
    (hdrop : dropLeases manager opened = some manager') :
    manager'.Flight ∧ manager'.Holds entries leased := by
  induction opened generalizing manager with
  | nil =>
      cases hdrop
      exact ⟨hflight, h⟩
  | cons session opened ih =>
      rw [dropLeases, foldlM_cons] at hdrop
      obtain ⟨dropped, hdropped, hdrop⟩ := Option.bind_eq_some_iff.mp hdrop
      obtain ⟨released, hreleased, hdropped⟩ := Option.bind_eq_some_iff.mp hdropped
      refine ih ?_ ?_ hdrop
      · exact Manager.step_flight (Manager.step_flight hflight hreleased) hdropped
      · exact (h.releaseLease hreleased).dropLease hdropped

/-- The sessions have their connections and their leases, beside what others have. -/
structure Has (manager : Manager ConnectionConfig) (sessions : List WorkspaceSession) : Prop where
  managed : ∀ session ∈ sessions, session.entry ∈ manager.connections
  leases : ∀ id, (sessions.map WorkspaceSession.lease).count id ≤ manager.leasesOf id

theorem HeldBy.has (h : HeldBy manager sessions) : Has manager sessions :=
  ⟨fun _ hsession ↦ (h.entries _).mpr (mem_map_of_mem hsession), fun id ↦ (h.leases id).ge⟩

theorem ConnectingBeside.has (h : ConnectingBeside manager sessions prepared call) :
    Has manager sessions := by
  obtain ⟨hentries, hleases⟩ := Manager.Connecting.at_least h
  exact ⟨fun _ hsession ↦ hentries _ (mem_map_of_mem hsession), hleases⟩

theorem Has.of_append (h : Has manager (sessions ++ opened)) : Has manager sessions := by
  refine ⟨fun session hsession ↦ h.managed session (mem_append_left _ hsession), fun id ↦ ?_⟩
  refine le_trans ?_ (h.leases id)
  rw [map_append, count_append]
  exact Nat.le_add_right _ _

/-- A connection is made under a label that is not open. -/
theorem connectingBeside_spawn (h : HeldBy manager sessions) (authentication : Authentication) :
    ConnectingBeside { manager with tasks := manager.tasks ++ [.new (.connect prepared.managerName
      prepared.config authentication .connectLease)] } sessions prepared manager.tasks.length :=
  Manager.connecting_spawn h prepared.config authentication

theorem ConnectingBeside.step {e : ManagerEvent ConnectionConfig} (hflight : manager.Flight)
    (hnames : ∀ session ∈ sessions, session.managerName = session.label)
    (hname : prepared.managerName = prepared.label)
    (hnew : prepared.label ∉ sessions.map WorkspaceSession.label)
    (h : ConnectingBeside manager sessions prepared call) (he : Manager.Alone call e)
    (hs : manager.step e = some manager') : ConnectingBeside manager' sessions prepared call :=
  Manager.Connecting.step h hflight (hname ▸ free_of_notMem hnames hnew)
    (fun _ ↦ leased_of_mem) he hs

/-- The connection is there, and belongs to the new session. -/
theorem ConnectingBeside.leased (h : ConnectingBeside manager sessions prepared call) {lease : Nat}
    {source : Source} (hostKey : String)
    (hend : manager.tasks[call]?.map Core.Task.phase = some (.finished (.transport lease source))) :
    HeldBy manager (sessions ++ [prepared.session lease hostKey]) := by
  have hstaged := Manager.Connecting.finished h hend
  refine Manager.Holds.congr hstaged (fun entry ↦ ?_) ?_
  · rw [map_append, mem_append, mem_cons, or_comm]
    exact or_congr_right mem_singleton.symm
  · rw [map_append]
    exact (perm_append_singleton _ _).symm

theorem ConnectingBeside.failed (h : ConnectingBeside manager sessions prepared call)
    {error : AnyError}
    (hend : manager.tasks[call]?.map Core.Task.phase = some (.finished (.failed error))) :
    HeldBy manager sessions :=
  Manager.Connecting.finished h hend

end

namespace Workspace

/-- The pool and the leases at every point of the program. -/
def Held (s : Workspace) : Prop :=
  match s.doing with
  | .idle => HeldBy s.manager s.sessions
  | .openSession prepared call => ConnectingBeside s.manager s.sessions prepared call
  | .closeSession call => ∃ name entries,
      s.manager.Removing call name entries (s.sessions.map WorkspaceSession.lease) ∧
        ∀ entry, entry ∈ entries.filter (·.1 ≠ name) ↔
          entry ∈ s.sessions.map WorkspaceSession.entry
  | .openGroup _ _ opened none => HeldBy s.manager (s.sessions ++ opened)
  | .openGroup _ remaining opened (some call) => ∃ prepared rest, remaining = prepared :: rest ∧
      ConnectingBeside s.manager (s.sessions ++ opened) prepared call
  | .rollback _ _ _ names _ none => ∃ others, others.map Prod.fst = names ∧
      s.manager.Holds (s.sessions.map WorkspaceSession.entry ++ others)
        (s.sessions.map WorkspaceSession.lease)
  | .rollback _ _ _ names _ (some call) => ∃ name rest others, names = name :: rest ∧
      others.map Prod.fst = names ∧ s.manager.Removing call name
        (s.sessions.map WorkspaceSession.entry ++ others) (s.sessions.map WorkspaceSession.lease)

/-- What holds in every state: a label is there once, and it is the name for the manager. -/
structure Ordered (s : Workspace) : Prop where
  flight : s.manager.Flight
  sessions : ∀ session ∈ s.sessions ++ s.doing.opened, session.managerName = session.label
  prepared : ∀ prepared ∈ s.doing.prepared, prepared.managerName = prepared.label
  labels : ((s.sessions ++ s.doing.opened).map WorkspaceSession.label ++
    (s.doing.prepared.map PreparedSession.label ++ s.doing.names)).Nodup
  held : s.Held

section

variable {s s' : Workspace} {home : HomeConfig} {cli : TuiCli} {before : Workspace}
  {group label : String} {opened : List WorkspaceSession} {error : AnyError}
  {event : ManagerEvent ConnectionConfig} {fresh : List String} {outcome : Outcome}
  {typed : Result String}

theorem new_ordered : Ordered new where
  flight := Manager.new_flight _ _
  sessions := nofun
  prepared := nofun
  labels := nodup_nil
  held := Manager.new_holds _ _

/-! ## The steps of the manager -/

theorem outside_of_admits (h : s.admits event) (hnone : s.doing.awaits = none) :
    Manager.Outside event := by
  cases event with
  | advance call | connected call =>
      rw [admits, hnone] at h
      cases h
  | die | cloneClient | dropClient | elapse => trivial
  | spawn | cancel | cloneLease | releaseLease | dropLease => cases h

theorem alone_of_admits (h : s.admits event) {call : Nat} (hcall : s.doing.awaits = some call) :
    Manager.Alone call event := by
  cases event with
  | advance other =>
      rw [admits, hcall, decide_eq_true_iff, Option.some_inj] at h
      exact h ▸ .advance
  | connected other result =>
      rw [admits, hcall, decide_eq_true_iff, Option.some_inj] at h
      exact h ▸ .connected result
  | die | cloneClient | dropClient | elapse => exact .outside trivial
  | spawn | cancel | cloneLease | releaseLease | dropLease => cases h

/-- What is being opened is not open. -/
theorem Ordered.notMem_label (h : s.Ordered) {prepared : PreparedSession}
    (hprepared : prepared ∈ s.doing.prepared) :
    prepared.label ∉ (s.sessions ++ s.doing.opened).map WorkspaceSession.label := fun hlabel ↦
  disjoint_of_nodup_append h.labels hlabel
    (mem_append_left _ (mem_map_of_mem hprepared))

theorem Ordered.manager (h : s.Ordered) {manager : Manager ConnectionConfig}
    (hadmits : s.admits event) (hs : s.manager.step event = some manager) :
    Ordered { s with manager } := by
  refine ⟨Manager.step_flight h.flight hs, h.sessions, h.prepared, h.labels, ?_⟩
  have hheld := h.held
  have hnames := h.sessions
  have hprepared := h.prepared
  have hlabel := @Ordered.notMem_label s h
  rw [Held] at hheld ⊢
  dsimp only
  cases hdoing : s.doing with
  | idle =>
      rw [hdoing] at hheld
      exact Manager.Holds.outside hheld (outside_of_admits hadmits (by rw [hdoing]; rfl)) hs
  | openSession prepared call =>
      have hcall : s.doing.awaits = some call := by rw [hdoing]; rfl
      have halone := alone_of_admits hadmits hcall
      have hmem : prepared ∈ (Doing.openSession prepared call).prepared :=
        mem_singleton_self prepared
      have hopened : s.sessions ++ s.doing.opened = s.sessions := by
        rw [hdoing]
        exact append_nil _
      rw [hopened] at hnames hlabel
      rw [hdoing] at hheld hprepared hlabel
      exact hheld.step h.flight hnames (hprepared prepared hmem) (hlabel hmem) halone hs
  | closeSession call =>
      have hcall : s.doing.awaits = some call := by rw [hdoing]; rfl
      have halone := alone_of_admits hadmits hcall
      rw [hdoing] at hheld
      obtain ⟨name, entries, hremoving, hentries⟩ := hheld
      exact ⟨name, entries, hremoving.step halone hs, hentries⟩
  | openGroup group remaining opened call =>
      cases call with
      | none =>
          rw [hdoing] at hheld
          exact Manager.Holds.outside hheld (outside_of_admits hadmits (by rw [hdoing]; rfl)) hs
      | some call =>
          have hcall : s.doing.awaits = some call := by rw [hdoing]; rfl
          have halone := alone_of_admits hadmits hcall
          rw [hdoing] at hheld hnames hprepared hlabel
          obtain ⟨prepared, rest, rfl, hconnecting⟩ := hheld
          have hmem : prepared ∈ (Doing.openGroup group (prepared :: rest) opened
            (some call)).prepared := mem_cons_self
          refine ⟨prepared, rest, rfl, ?_⟩
          exact hconnecting.step h.flight hnames (hprepared prepared hmem) (hlabel hmem) halone hs
  | rollback group label error names errors call =>
      cases call with
      | none =>
          rw [hdoing] at hheld
          obtain ⟨others, hothers, hholds⟩ := hheld
          exact ⟨others, hothers,
            hholds.outside (outside_of_admits hadmits (by rw [hdoing]; rfl)) hs⟩
      | some call =>
          have hcall : s.doing.awaits = some call := by rw [hdoing]; rfl
          have halone := alone_of_admits hadmits hcall
          rw [hdoing] at hheld
          obtain ⟨name, rest, others, hname, hothers, hremoving⟩ := hheld
          exact ⟨name, rest, others, hname, hothers, hremoving.step halone hs⟩

/-! ## The steps of the program -/

/-- The sessions that are rolled back give up their leases, and are still in the pool. -/
theorem rollbackOpened_ordered (hflight : s.manager.Flight)
    (hheld : HeldBy s.manager (s.sessions ++ opened))
    (hnames : ∀ session ∈ s.sessions ++ opened, session.managerName = session.label)
    (hlabels : ((s.sessions ++ opened).map WorkspaceSession.label).Nodup)
    (hs : s.rollbackOpened group label opened error = some s') : s'.Ordered := by
  obtain ⟨manager, hmanager, hs⟩ := Option.bind_eq_some_iff.mp hs
  cases hs
  have hleased : ((s.sessions ++ opened).map WorkspaceSession.lease).Perm
      (opened.map WorkspaceSession.lease ++ s.sessions.map WorkspaceSession.lease) := by
    rw [map_append]
    exact perm_append_comm
  obtain ⟨hflight', hholds⟩ :=
    dropLeases_spec hflight (hheld.congr (fun _ ↦ Iff.rfl) hleased) hmanager
  have hopened : opened.map WorkspaceSession.managerName = opened.map WorkspaceSession.label :=
    map_congr_left fun session hsession ↦ hnames session (mem_append_right _ hsession)
  refine ⟨hflight', fun session hsession ↦ ?_, nofun, ?_, ?_⟩
  · exact hnames session (mem_append_left _ (append_nil s.sessions ▸ hsession))
  · rw [map_append] at hlabels
    show ((s.sessions ++ []).map WorkspaceSession.label ++
      ([] ++ (opened.map WorkspaceSession.managerName).reverse)).Nodup
    rw [append_nil, nil_append, hopened]
    exact ((reverse_perm _).append_left _).nodup_iff.mpr hlabels
  · refine ⟨(opened.map WorkspaceSession.entry).reverse, ?_,
      hholds.congr (fun entry ↦ ?_) (.refl _)⟩
    · rw [map_reverse, map_map]
      rfl
    · rw [map_append, mem_append, mem_append, mem_reverse]

/-- What is known between two actions. -/
structure Idle (s : Workspace) : Prop where
  flight : s.manager.Flight
  held : HeldBy s.manager s.sessions
  names : ∀ session ∈ s.sessions, session.managerName = session.label
  labels : (s.sessions.map WorkspaceSession.label).Nodup

theorem Ordered.idle (h : s.Ordered) (hidle : s.doing = .idle) : s.Idle := by
  obtain ⟨hflight, hnames, -, hlabels, hheld⟩ := h
  have hopened : s.sessions ++ s.doing.opened = s.sessions := by
    rw [hidle]
    exact append_nil _
  rw [hopened] at hnames hlabels
  rw [Held, hidle] at hheld
  exact ⟨hflight, hheld, hnames, (nodup_append.mp hlabels).1⟩

theorem Idle.ordered (h : s.Idle) (hidle : s.doing = .idle) : s.Ordered := by
  obtain ⟨hflight, hheld, hnames, hlabels⟩ := h
  have hopened : s.sessions ++ s.doing.opened = s.sessions := by
    rw [hidle]
    exact append_nil _
  refine ⟨hflight, hopened.symm ▸ hnames, ?_, ?_, ?_⟩
  · rw [hidle]
    nofun
  · rw [hopened, hidle]
    exact (append_nil _).symm ▸ hlabels
  · rw [Held, hidle]
    exact hheld

theorem openSession_ordered {host : String} (h : s.Ordered) (hidle : s.doing = .idle) :
    (s.openSession home cli host typed).Ordered := by
  obtain ⟨hflight, hheld, hnames, hlabels⟩ := h.idle hidle
  unfold openSession
  split
  case isTrue => exact h
  case isFalse hnew =>
    dsimp only
    split
    case h_2 => exact h
    case h_1 prepared authentication hrequest =>
      obtain ⟨⟨name, config⟩, hbuild, hrequest⟩ := bind_eq_ok.mp hrequest
      obtain ⟨_, -, hrequest⟩ := bind_eq_ok.mp hrequest
      cases hrequest
      have hfresh : host ∉ s.sessions.map WorkspaceSession.label := by
        intro hmem
        obtain ⟨session, hsession, heq⟩ := mem_map.mp hmem
        exact hnew (any_eq_true.mpr ⟨session, hsession, decide_eq_true heq⟩)
      refine ⟨Manager.spawn_flight hflight _, ?_, ?_, ?_, connectingBeside_spawn hheld _⟩
      · exact (append_nil s.sessions).symm ▸ hnames
      · intro prepared hprepared
        rw [mem_singleton.mp hprepared]
        exact name_of_buildConnectionConfig hbuild
      · show ((s.sessions ++ []).map WorkspaceSession.label ++ ([host] ++ [])).Nodup
        rw [append_nil, append_nil]
        refine nodup_append.mpr ⟨hlabels, nodup_singleton host, ?_⟩
        rintro label hlabel other hother rfl
        exact hfresh (mem_singleton.mp hother ▸ hlabel)

theorem openGroup_ordered {targets : List String} (h : s.Ordered) (hidle : s.doing = .idle)
    (htargets : targets.Nodup) : (s.openGroup home cli group targets).Ordered := by
  obtain ⟨hflight, hheld, hnames, hlabels⟩ := h.idle hidle
  unfold openGroup
  dsimp only
  split
  case h_2 => exact Idle.ordered ⟨hflight, hheld, hnames, hlabels⟩ hidle
  case h_1 prepared hprepare =>
    obtain ⟨hfresh, hprepared⟩ := labels_of_prepareTargets (prepareTargets_of_prepareGroup hprepare)
    have hsessions := append_nil s.sessions
    refine ⟨hflight, hsessions.symm ▸ hnames, hprepared, ?_, ?_⟩
    · show ((s.sessions ++ []).map WorkspaceSession.label ++
        (prepared.map PreparedSession.label ++ [])).Nodup
      rw [hsessions, append_nil, hfresh]
      refine nodup_append.mpr ⟨hlabels, htargets.filter _, ?_⟩
      rintro label hlabel other hother rfl
      simpa [hlabel] using (mem_filter.mp hother).2
    · show HeldBy s.manager (s.sessions ++ [])
      rw [hsessions]
      exact hheld

theorem closeSession_ordered {selected : Nat} (h : s.Ordered) (hidle : s.doing = .idle)
    (hs : s.closeSession selected = some s') : s'.Ordered := by
  obtain ⟨hflight, hheld, hnames, hlabels⟩ := h.idle hidle
  obtain ⟨session, hsession, hs⟩ := Option.bind_eq_some_iff.mp hs
  obtain ⟨manager, hmanager, hs⟩ := Option.bind_eq_some_iff.mp hs
  cases hs
  obtain ⟨hlt, rfl⟩ := List.getElem?_eq_some_iff.mp hsession
  have hperm := getElem_cons_eraseIdx_perm hlt
  have hlabels' := (hperm.map WorkspaceSession.label).nodup_iff.mpr hlabels
  obtain ⟨hclosed, hrest⟩ := nodup_cons.mp hlabels'
  have hsessions := append_nil (s.sessions.eraseIdx selected)
  obtain ⟨hflight', hholds⟩ := dropLeases_spec hflight
    (hheld.congr (fun _ ↦ Iff.rfl) (hperm.map WorkspaceSession.lease).symm) hmanager
  refine ⟨Manager.spawn_flight hflight' _, ?_, nofun, ?_, ?_⟩
  · show ∀ session ∈ s.sessions.eraseIdx selected ++ [], _
    rw [hsessions]
    exact fun session hsession ↦ hnames session (mem_of_mem_eraseIdx hsession)
  · show ((s.sessions.eraseIdx selected ++ []).map WorkspaceSession.label ++ []).Nodup
    rw [hsessions, append_nil]
    exact hrest
  · have hfirst : s.sessions[selected].entry.1 = s.sessions[selected].managerName := rfl
    refine ⟨_, _, Manager.removing_spawn hholds, fun entry ↦ mem_filter_of_split ?_ hfirst ?_⟩
    · intro other
      rw [← (hperm.map WorkspaceSession.entry).mem_iff]
      exact mem_cons
    · intro other hother heq
      obtain ⟨session, hsession, rfl⟩ := mem_map.mp hother
      refine hclosed (mem_map.mpr ⟨session, hsession, ?_⟩)
      rw [← hnames session (mem_of_mem_eraseIdx hsession), ← hnames _ (getElem_mem hlt)]
      exact heq

theorem proceed_ordered (h : s.Ordered) (hs : s.proceed cli typed = some s') : s'.Ordered := by
  obtain ⟨hflight, hnames, hprepared, hlabels, hheld⟩ := h
  unfold proceed at hs
  rw [Held] at hheld
  split at hs
  case h_1 group opened hdoing =>
    rw [hdoing] at hheld hnames hlabels
    cases hs
    exact Idle.ordered ⟨hflight, hheld, hnames, (nodup_append.mp hlabels).1⟩ rfl
  case h_2 group prepared remaining opened hdoing =>
    rw [hdoing] at hheld hnames hlabels hprepared
    split at hs
    case h_1 authentication _ =>
      cases hs
      refine ⟨Manager.spawn_flight hflight _, hnames, hprepared, hlabels, ?_⟩
      exact ⟨prepared, remaining, rfl, connectingBeside_spawn hheld authentication⟩
    case h_2 error _ =>
      exact rollbackOpened_ordered hflight hheld hnames (nodup_append.mp hlabels).1 hs
  case h_3 group label error errors hdoing =>
    rw [hdoing] at hheld hnames hlabels
    cases hs
    obtain ⟨others, hothers, hholds⟩ := hheld
    rw [map_eq_nil_iff.mp hothers, append_nil] at hholds
    have hsessions : s.sessions ++ [] = s.sessions := append_nil _
    have hlabels' := (nodup_append.mp hlabels).1
    exact Idle.ordered ⟨hflight, hholds, hsessions ▸ hnames, hsessions ▸ hlabels'⟩ rfl
  case h_4 group label error name names errors hdoing =>
    rw [hdoing] at hheld hnames hlabels
    cases hs
    obtain ⟨others, hothers, hholds⟩ := hheld
    refine ⟨Manager.spawn_flight hflight _, hnames, nofun, hlabels, ?_⟩
    exact ⟨name, names, others, rfl, hothers, Manager.removing_spawn hholds⟩
  case h_5 => cases hs

theorem phase_of_answer {call : Nat} (h : s.manager.answer call = some outcome) :
    s.manager.tasks[call]?.map Core.Task.phase = some (.finished outcome) := by
  unfold Manager.answer at h
  split at h
  case h_1 outcome' hphase =>
    cases h
    exact hphase
  case h_2 => cases h

/-- A name has been removed. -/
theorem removed_ordered {name : String} {names errors errors' : List String} {call : Nat}
    (h : s.Ordered)
    (hdoing : s.doing = .rollback group label error (name :: names) errors (some call))
    (houtcome : Manager.stageOf outcome = .searching)
    (hend : s.manager.tasks[call]?.map Core.Task.phase = some (.finished outcome)) :
    Ordered { s with doing := .rollback group label error names errors' none } := by
  obtain ⟨hflight, hnames, hprepared, hlabels, hheld⟩ := h
  rw [Held, hdoing] at hheld
  rw [hdoing] at hnames hlabels
  obtain ⟨_, _, others, hname, hothers, hremoving⟩ := hheld
  cases hname
  have hsessions : s.sessions ++ [] = s.sessions := append_nil _
  have hnames' : ∀ session ∈ s.sessions, session.managerName = session.label := hsessions ▸ hnames
  obtain ⟨first, rest, rfl, hfirst, hrest⟩ := map_eq_cons_iff.mp hothers
  have hstaged := hremoving.finished hend
  rw [houtcome] at hstaged
  obtain ⟨-, hnew, hapart⟩ := nodup_append.mp hlabels
  refine ⟨hflight, hnames, nofun, ?_, rest, hrest, hstaged.congr (fun entry ↦ ?_) (.refl _)⟩
  · exact hlabels.sublist ((List.Sublist.refl _).append (sublist_cons_self _ _))
  · refine mem_filter_of_split (fun other ↦ ?_) hfirst fun other hother ↦ ?_
    · rw [mem_append, mem_append, mem_cons, or_left_comm]
    · rcases mem_append.mp hother with hother | hother
      · obtain ⟨session, hsession, rfl⟩ := mem_map.mp hother
        have hlabel := mem_map_of_mem (f := WorkspaceSession.label) hsession
        rw [WorkspaceSession.entry, hnames' session hsession]
        exact hapart _ (hsessions.symm ▸ hlabel) _ mem_cons_self
      · have hother' := mem_map_of_mem (f := Prod.fst) hother
        rintro rfl
        exact (nodup_cons.mp hnew).1 (hrest ▸ hother')

theorem answered_ordered {call : Nat} {hostKey : String} {closed : Result Unit} (h : s.Ordered)
    (hcall : s.doing.awaits = some call) (hanswer : s.manager.answer call = some outcome)
    (hs : s.answered hostKey closed outcome = some s') : s'.Ordered := by
  have hend := phase_of_answer hanswer
  have hwhole := h
  obtain ⟨hflight, hnames, hprepared, hlabels, hheld⟩ := h
  have hsessions : s.sessions ++ [] = s.sessions := append_nil _
  unfold answered at hs
  rw [Held] at hheld
  split at hs
  case h_1 prepared _ lease source hdoing =>
    rw [hdoing] at hheld hnames hprepared hlabels hcall
    cases hcall
    cases hs
    have hmem : prepared ∈ (Doing.openSession prepared call).prepared :=
      mem_singleton_self prepared
    refine Idle.ordered ⟨hflight, hheld.leased hostKey hend, fun session hsession ↦ ?_, ?_⟩ rfl
    · rcases mem_append.mp hsession with hold | hnew
      · exact hnames session (mem_append_left _ hold)
      · rw [mem_singleton.mp hnew]
        exact hprepared prepared hmem
    · rw [map_append]
      exact hsessions ▸ (append_nil _ ▸ hlabels)
  case h_2 prepared _ error hdoing =>
    rw [hdoing] at hheld hnames hlabels hcall
    cases hcall
    cases hs
    have hlabels' := (nodup_append.mp hlabels).1
    exact Idle.ordered ⟨hflight, hheld.failed hend, hsessions ▸ hnames, hsessions ▸ hlabels'⟩ rfl
  case h_3 _ hdoing | h_4 _ hdoing =>
    rw [hdoing] at hheld hnames hlabels hcall
    cases hcall
    cases hs
    obtain ⟨name, entries, hremoving, hentries⟩ := hheld
    have hlabels' := (nodup_append.mp hlabels).1
    have hholds := (hremoving.finished hend).congr hentries (.refl _)
    exact Idle.ordered ⟨hflight, hholds, hsessions ▸ hnames, hsessions ▸ hlabels'⟩ rfl
  case h_5 group prepared remaining opened _ lease source hdoing =>
    rw [hdoing] at hheld hnames hprepared hlabels hcall
    cases hcall
    cases hs
    obtain ⟨_, _, heq, hconnecting⟩ := hheld
    cases heq
    have hheld' := hconnecting.leased hostKey hend
    have hlater : s.sessions ++ opened ++ [prepared.session lease hostKey] =
        s.sessions ++ (opened ++ [prepared.session lease hostKey]) := append_assoc ..
    refine ⟨hflight, fun session hsession ↦ ?_, fun other hother ↦ ?_, ?_, ?_⟩
    · rcases mem_append.mp (hlater ▸ hsession) with hold | hnew
      · exact hnames session hold
      · rw [mem_singleton.mp hnew]
        exact hprepared prepared mem_cons_self
    · exact hprepared other (mem_cons_of_mem prepared hother)
    · show ((s.sessions ++ (opened ++ [prepared.session lease hostKey])).map
        WorkspaceSession.label ++ (remaining.map PreparedSession.label ++ [])).Nodup
      rw [← hlater, map_append, append_assoc]
      exact hlabels
    · show HeldBy s.manager (s.sessions ++ (opened ++ [prepared.session lease hostKey]))
      rw [← hlater]
      exact hheld'
  case h_6 group prepared remaining opened _ error hdoing =>
    rw [hdoing] at hheld hnames hlabels hcall
    cases hcall
    obtain ⟨_, _, heq, hconnecting⟩ := hheld
    cases heq
    exact rollbackOpened_ordered hflight (hconnecting.failed hend) hnames
      (nodup_append.mp hlabels).1 hs
  case h_7 group label error name names errors _ hdoing =>
    have hcall' := hcall
    rw [hdoing] at hcall'
    cases hcall'
    cases hs
    exact removed_ordered hwhole hdoing rfl hend
  case h_8 group label error name names errors _ hdoing =>
    have hcall' := hcall
    rw [hdoing] at hcall'
    cases hcall'
    cases hs
    exact removed_ordered hwhole hdoing rfl hend
  case h_9 => cases hs

/-- The targets of a group are there once, as `expand_group` gives them. -/
def Expanded (_ : Workspace) : WorkspaceEvent → Prop
  | .openGroup _ targets => targets.Nodup
  | _ => True

theorem eq_idle_of_isIdle {doing : Doing} (h : doing.isIdle) : doing = .idle := by
  cases doing with
  | idle => rfl
  | openSession | closeSession | openGroup | rollback => cases h

theorem Ordered.step {event : WorkspaceEvent} (h : s.Ordered) (hexpanded : Expanded s event)
    (hs : s.step home cli event = some s') : s'.Ordered := by
  cases event with
  | openSession host typed =>
      obtain ⟨hready, hs⟩ := Option.ite_none_right_eq_some.mp hs
      cases hs
      exact openSession_ordered h (eq_idle_of_isIdle hready)
  | openGroup group targets =>
      obtain ⟨hready, hs⟩ := Option.ite_none_right_eq_some.mp hs
      cases hs
      exact openGroup_ordered h (eq_idle_of_isIdle hready) hexpanded
  | closeSession selected =>
      obtain ⟨hready, hs⟩ := Option.ite_none_right_eq_some.mp hs
      exact closeSession_ordered h (eq_idle_of_isIdle hready) hs
  | proceed typed => exact proceed_ordered h hs
  | manager event =>
      obtain ⟨hadmits, hs⟩ := Option.ite_none_right_eq_some.mp hs
      obtain ⟨manager, hmanager, rfl⟩ := Option.map_eq_some_iff.mp hs
      exact h.manager hadmits hmanager
  | answered hostKey closed =>
      obtain ⟨call, hcall, hs⟩ := Option.bind_eq_some_iff.mp hs
      obtain ⟨outcome, hanswer, hs⟩ := Option.bind_eq_some_iff.mp hs
      exact answered_ordered h hcall hanswer hs

/-- Nothing else is begun. -/
def Continues (_ : Workspace) : WorkspaceEvent → Prop
  | .openSession _ _ | .openGroup _ _ | .closeSession _ => False
  | .proceed _ | .manager _ | .answered _ _ => True

theorem Ordered.step_continues {event : WorkspaceEvent} (h : s.Ordered)
    (hcontinues : Continues s event) (hs : s.step home cli event = some s') : s'.Ordered := by
  refine h.step ?_ hs
  cases event with
  | openGroup => exact hcontinues.elim
  | _ => trivial

/-! ## A group -/

/-- What is known while a group is opened, and when it has been: the sessions from before are there
and no others, until all targets are open. -/
def InGroup (sessions : List WorkspaceSession) (fresh : List String) (s : Workspace) : Prop :=
  match s.doing with
  | .openGroup _ remaining opened _ => s.sessions = sessions ∧
      opened.map WorkspaceSession.label ++ remaining.map PreparedSession.label = fresh
  | .rollback _ _ _ _ _ _ => s.sessions = sessions
  | .idle =>
      match s.groupResult with
      | some (.ok opened) =>
          s.sessions = sessions ++ opened ∧ opened.map WorkspaceSession.label = fresh
      | some (.error _) => s.sessions = sessions
      | none => False
  | .openSession _ _ | .closeSession _ => False

theorem exists_groupFailure (group label : String) (error : AnyError) (errors : List String) :
    ∃ e, groupFailure group label error errors = .error e := by
  rw [groupFailure]
  split
  · exact ⟨_, rfl⟩
  · exact ⟨_, rfl⟩

theorem rollbackOpened_inGroup {sessions : List WorkspaceSession} (h : s.sessions = sessions)
    (hs : s.rollbackOpened group label opened error = some s') : InGroup sessions fresh s' := by
  obtain ⟨manager, -, hs⟩ := Option.bind_eq_some_iff.mp hs
  cases hs
  exact h

theorem proceed_inGroup {sessions : List WorkspaceSession} (h : InGroup sessions fresh s)
    (hs : s.proceed cli typed = some s') : InGroup sessions fresh s' := by
  unfold proceed at hs
  rw [InGroup] at h
  split at hs
  case h_1 group opened hdoing =>
    rw [hdoing] at h
    cases hs
    exact ⟨congrArg (· ++ opened) h.1, (append_nil _).symm.trans h.2⟩
  case h_2 group prepared remaining opened hdoing =>
    rw [hdoing] at h
    split at hs
    case h_1 =>
      cases hs
      exact h
    case h_2 => exact rollbackOpened_inGroup h.1 hs
  case h_3 group label error errors hdoing =>
    rw [hdoing] at h
    cases hs
    obtain ⟨e, he⟩ := exists_groupFailure group label error errors
    rw [InGroup, he]
    exact h
  case h_4 group label error name names errors hdoing =>
    rw [hdoing] at h
    cases hs
    exact h
  case h_5 => cases hs

theorem answered_inGroup {sessions : List WorkspaceSession} {hostKey : String}
    {closed : Result Unit} (h : InGroup sessions fresh s)
    (hs : s.answered hostKey closed outcome = some s') : InGroup sessions fresh s' := by
  unfold answered at hs
  rw [InGroup] at h
  split at hs
  case h_1 hdoing | h_2 hdoing | h_3 hdoing | h_4 hdoing =>
    rw [hdoing] at h
    exact h.elim
  case h_5 hdoing =>
    rw [hdoing] at h
    cases hs
    refine ⟨h.1, ?_⟩
    rw [map_append, append_assoc]
    exact h.2
  case h_6 hdoing =>
    rw [hdoing] at h
    exact rollbackOpened_inGroup h.1 hs
  case h_7 hdoing | h_8 hdoing =>
    rw [hdoing] at h
    cases hs
    exact h
  case h_9 => cases hs

theorem InGroup.step {sessions : List WorkspaceSession} {event : WorkspaceEvent}
    (h : InGroup sessions fresh s) (hcontinues : Continues s event)
    (hs : s.step home cli event = some s') : InGroup sessions fresh s' := by
  cases event with
  | openSession | openGroup | closeSession => exact hcontinues.elim
  | proceed typed => exact proceed_inGroup h hs
  | manager event =>
      obtain ⟨-, hs⟩ := Option.ite_none_right_eq_some.mp hs
      obtain ⟨manager, -, rfl⟩ := Option.map_eq_some_iff.mp hs
      exact h
  | answered hostKey closed =>
      obtain ⟨call, -, hs⟩ := Option.bind_eq_some_iff.mp hs
      obtain ⟨outcome, -, hs⟩ := Option.bind_eq_some_iff.mp hs
      exact answered_inGroup h hs

theorem openGroup_inGroup {targets : List String} (hidle : s.doing = .idle) :
    InGroup s.sessions (targets.filter (· ∉ s.sessions.map WorkspaceSession.label))
      (s.openGroup home cli group targets) := by
  unfold openGroup
  dsimp only
  split
  case h_1 prepared hprepare =>
    exact ⟨rfl, (labels_of_prepareTargets (prepareTargets_of_prepareGroup hprepare)).1⟩
  case h_2 =>
    rw [InGroup, hidle]

end

/-- A session is there with its connection and its leases, of which there may be more. -/
structure Keeps (before after : Workspace) (session : WorkspaceSession) : Prop where
  kept : session ∈ after.sessions
  managed : session.entry ∈ after.manager.connections
  leases : before.manager.leasesOf session.lease ≤ after.manager.leasesOf session.lease

/-- Nothing has come of an action. -/
structure Unchanged (before after : Workspace) : Prop where
  sessions : after.sessions = before.sessions
  connections : ∀ entry, entry ∈ after.manager.connections ↔ entry ∈ before.manager.connections
  leases : ∀ id, after.manager.leasesOf id = before.manager.leasesOf id

/-- The targets that were not open have been opened, each once and in their order. -/
structure Opened (before after : Workspace) (targets : List String)
    (opened : List WorkspaceSession) : Prop where
  sessions : after.sessions = before.sessions ++ opened
  labels : opened.map WorkspaceSession.label =
    targets.filter (· ∉ before.sessions.map WorkspaceSession.label)
  managed : ∀ session ∈ opened, session.entry ∈ after.manager.connections

section

variable {s : Workspace} {home : HomeConfig} {cli : TuiCli} {before mid after : Workspace}
  {group : String} {targets : List String}

/-- No target that is not open comes to a name that is in use. -/
def NamesApart (home : HomeConfig) (cli : TuiCli) (s : Workspace) : Prop :=
  ∀ target name config, target ∉ s.sessions.map WorkspaceSession.label →
    buildConnectionConfig home cli target = .ok (name, config) →
      ∀ id, (name, id) ∉ s.manager.connections

/-- What a session has is never taken from it. -/
theorem Ordered.has (h : s.Ordered) : Has s.manager s.sessions := by
  obtain ⟨-, hnames, -, hlabels, hheld⟩ := h
  rw [Held] at hheld
  cases hdoing : s.doing with
  | idle =>
      rw [hdoing] at hheld
      exact HeldBy.has hheld
  | openSession prepared call =>
      rw [hdoing] at hheld
      exact hheld.has
  | closeSession call =>
      rw [hdoing] at hheld
      obtain ⟨name, entries, hremoving, hentries⟩ := hheld
      obtain ⟨hrest, hleases⟩ := hremoving.at_least
      refine ⟨fun session hsession ↦ ?_, hleases⟩
      obtain ⟨hmem, hne⟩ := mem_filter.mp ((hentries _).mpr (mem_map_of_mem hsession))
      exact hrest session.entry hmem (of_decide_eq_true hne)
  | openGroup group remaining opened call =>
      rw [hdoing] at hheld
      cases call with
      | none => exact (HeldBy.has hheld).of_append
      | some call =>
          obtain ⟨prepared, rest, -, hconnecting⟩ := hheld
          exact hconnecting.has.of_append
  | rollback group label error names errors call =>
      rw [hdoing] at hheld hnames hlabels
      cases call with
      | none =>
          obtain ⟨others, -, hholds⟩ := hheld
          refine ⟨fun session hsession ↦ (hholds.entries _).mpr ?_, fun id ↦ (hholds.leases id).ge⟩
          exact mem_append_left _ (mem_map_of_mem hsession)
      | some call =>
          obtain ⟨name, rest, others, rfl, -, hremoving⟩ := hheld
          obtain ⟨hrest, hleases⟩ := hremoving.at_least
          refine ⟨fun session hsession ↦ hrest _ ?_ ?_, hleases⟩
          · exact mem_append_left _ (mem_map_of_mem hsession)
          · -- The label of a session from before is none of those that are rolled back.
            have hsession' := mem_append_left [] hsession
            have hlabel := mem_map_of_mem (f := WorkspaceSession.label) hsession'
            rw [WorkspaceSession.entry, hnames session hsession']
            exact (nodup_append.mp hlabels).2.2 _ hlabel _ mem_cons_self

theorem ordered_of_reaches (h : Reaches (fun s ↦ s.step home cli) Expanded new s) : s.Ordered :=
  h.invariant new_ordered fun _ _ _ hordered hexpanded hs ↦ hordered.step hexpanded hs

/-- A session that is there before an action is there with all it has. -/
theorem keeps_of_ordered (hbefore : before.Idle) (hafter : after.Ordered)
    {added : List WorkspaceSession} (hsessions : after.sessions = before.sessions ++ added)
    {session : WorkspaceSession} (hsession : session ∈ before.sessions) :
    Keeps before after session := by
  have hhas := hafter.has
  rw [hsessions] at hhas
  refine ⟨hsessions ▸ mem_append_left _ hsession, hhas.of_append.managed session hsession, ?_⟩
  rw [hbefore.held.leases]
  exact hhas.of_append.leases session.lease

theorem Idle.namesApart (h : s.Idle) : NamesApart home cli s := by
  intro target name config htarget hbuild id hmem
  rw [name_of_buildConnectionConfig hbuild] at hmem
  exact free_of_notMem h.names htarget id ((h.held.entries _).mp hmem)

theorem unchanged_of_held (hbefore : HeldBy before.manager before.sessions)
    (hafter : HeldBy after.manager after.sessions) (hsessions : after.sessions = before.sessions) :
    Unchanged before after := by
  rw [hsessions] at hafter
  exact ⟨hsessions, fun entry ↦ (hafter.entries entry).trans (hbefore.entries entry).symm,
    fun id ↦ (hafter.leases id).trans (hbefore.leases id).symm⟩

/-- When opening a group has failed nothing has come of it, and when it has not failed the targets
that were not open are open. Meanwhile nothing is taken from a session that was there before, and
no target comes to a name that is in use under another label. -/
theorem openGroup_allOrNothing
    (hbefore : Reaches (fun s ↦ s.step home cli) Expanded new before)
    (htargets : targets.Nodup) (hbegin : before.step home cli (.openGroup group targets) = some mid)
    (hduring : Reaches (fun s ↦ s.step home cli) Continues mid after) :
    NamesApart home cli before ∧ (∀ session ∈ before.sessions, Keeps before after session) ∧
      (after.doing.isIdle →
        (∃ error, after.groupResult = some (.error error) ∧ Unchanged before after) ∨
        ∃ opened, after.groupResult = some (.ok opened) ∧ Opened before after targets opened) := by
  obtain ⟨hready, hmid⟩ := Option.ite_none_right_eq_some.mp hbegin
  have hidle := eq_idle_of_isIdle hready
  have hordered := ordered_of_reaches hbefore
  cases hmid
  have hstart : (before.openGroup home cli group targets).Ordered :=
    openGroup_ordered hordered hidle htargets
  have hafter : after.Ordered := hduring.invariant hstart fun _ _ _ h ↦ h.step_continues
  have hgroup : InGroup before.sessions
      (targets.filter (· ∉ before.sessions.map WorkspaceSession.label)) after :=
    hduring.invariant (openGroup_inGroup hidle) fun _ _ _ h ↦ h.step
  rw [InGroup] at hgroup
  have hkeeps := @keeps_of_ordered before after (hordered.idle hidle) hafter
  refine ⟨(hordered.idle hidle).namesApart, ?_⟩
  cases hdoing : after.doing with
  | idle =>
      rw [hdoing] at hgroup
      have hheld := (hafter.idle hdoing).held
      cases hresult : after.groupResult with
      | none =>
          rw [hresult] at hgroup
          exact hgroup.elim
      | some result =>
          rw [hresult] at hgroup
          cases result with
          | error error =>
              refine ⟨fun session ↦ @hkeeps [] ?_ session, fun _ ↦ .inl ⟨error, rfl, ?_⟩⟩
              · exact hgroup.trans (append_nil _).symm
              · exact unchanged_of_held (hordered.idle hidle).held hheld hgroup
          | ok opened =>
              refine ⟨fun session ↦ hkeeps hgroup.1, fun _ ↦ .inr ⟨opened, rfl, ?_⟩⟩
              refine ⟨hgroup.1, hgroup.2, fun session hsession ↦ ?_⟩
              exact hheld.has.managed session (hgroup.1 ▸ mem_append_right _ hsession)
  | openGroup group remaining opened call =>
      rw [hdoing] at hgroup
      exact ⟨fun session ↦ @hkeeps [] (hgroup.1.trans (append_nil _).symm) session, nofun⟩
  | rollback group label error names errors call =>
      rw [hdoing] at hgroup
      exact ⟨fun session ↦ @hkeeps [] (hgroup.trans (append_nil _).symm) session, nofun⟩
  | openSession | closeSession =>
      rw [hdoing] at hgroup
      exact hgroup.elim

/-- The events of a call that leases a connection, until its session is there. -/
def leaseEvents (call : Nat) : List WorkspaceEvent :=
  List.replicate 6 (.manager (.advance call)) ++ [.manager (.connected call (.ok ()))] ++
    List.replicate 5 (.manager (.advance call)) ++ [.answered "" (.ok ())]

/-- With one session open the second of two targets fails, and the first is rolled back. -/
theorem openGroup_allOrNothing_rolledBack :
    let home : HomeConfig := fun host ↦ .ok ⟨host, "root", 22, none, none, none, none, none⟩
    let cli : TuiCli := ⟨none, none, none, false, true, false, none, none, none⟩
    let step := fun s : Workspace ↦ s.step home cli
    let earlier : List WorkspaceEvent := .openSession "a" (.ok "") :: leaseEvents 0
    let later : List WorkspaceEvent := .proceed (.ok "") :: leaseEvents 1 ++
      [.proceed (bail "no"), .proceed (.ok "")] ++
      List.replicate 4 (.manager (.advance 2)) ++ [.answered "" (.ok ()), .proceed (.ok "")]
    ∃ before mid after : Workspace, runEvents step new earlier = some before ∧
      step before (.openGroup "web" ["a", "b", "c"]) = some mid ∧
      runEvents step mid later = some after ∧
      before.sessions.map WorkspaceSession.label = ["a"] ∧
      ∃ error, after.groupResult = some (.error error) ∧ Unchanged before after := by
  intro home cli step earlier later
  have hrun : (do
      let before ← runEvents step new earlier
      let mid ← step before (.openGroup "web" ["a", "b", "c"])
      let after ← runEvents step mid later
      return (before.sessions.map WorkspaceSession.label, after.doing.isIdle,
        after.groupResult.map isOk)) = some (["a"], true, some false) := by
    decide +kernel
  obtain ⟨before, hbefore, hrun⟩ := Option.bind_eq_some_iff.mp hrun
  obtain ⟨mid, hmid, hrun⟩ := Option.bind_eq_some_iff.mp hrun
  obtain ⟨after, hafter, hrun⟩ := Option.bind_eq_some_iff.mp hrun
  obtain ⟨hlabels, hrun⟩ := Prod.mk.inj (Option.some.inj hrun)
  obtain ⟨hidle, hfailed⟩ := Prod.mk.inj hrun
  have hearlier : Reaches step Expanded new before :=
    Reaches.start.runAdmitted earlier (by simp [earlier, leaseEvents, Expanded]) hbefore
  have hlater : Reaches step Continues mid after :=
    Reaches.start.runAdmitted later (by simp [later, leaseEvents, Continues]) hafter
  refine ⟨before, mid, after, hbefore, hmid, hafter, hlabels, ?_⟩
  obtain ⟨-, -, hend⟩ := openGroup_allOrNothing hearlier (by decide) hmid hlater
  refine (hend hidle).resolve_right fun ⟨opened, hok, _⟩ ↦ ?_
  rw [hok] at hfailed
  cases hfailed

end

end Workspace

end KaduoxSsh.Cli
