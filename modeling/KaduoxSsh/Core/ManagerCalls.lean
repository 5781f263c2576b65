import KaduoxSsh.Core.ManagerSafety

/-!
# Calls that are made alone

What the manager holds while a single caller makes one call after the other: the pool and
the leases of each connection. A call that leases a connection under a new name adds to
both, or to neither; a call that removes a name takes out what is under it. Meanwhile
connections may die, and their clients be taken and given back.
-/

namespace KaduoxSsh.Core.Manager

open List

variable {Config : Type} {s s' : Manager Config} {t : Nat} {task : Task Config}

/-! ## What a manager holds -/

/-- The leases of a connection that callers have. -/
def leasesOf (s : Manager Config) (id : Nat) : Nat := s.managed[id]?.elim 0 (·.leases)

/-- These entries are in the pool, and these connections are leased. -/
structure Holds (s : Manager Config) (entries : List (String × Nat)) (leased : List Nat) :
    Prop where
  entries : ∀ entry, entry ∈ s.connections ↔ entry ∈ entries
  leases : ∀ id, s.leasesOf id = leased.count id

section

variable {entries entries' : List (String × Nat)} {leased leased' : List Nat} {name : String}
  {id : Nat}

theorem new_holds (maxConnections idleTimeout : Nat) :
    (Manager.new Config maxConnections idleTimeout).Holds [] [] :=
  ⟨fun _ ↦ Iff.rfl, fun _ ↦ rfl⟩

/-- The order does not count. -/
theorem Holds.congr (h : s.Holds entries leased)
    (hentries : ∀ entry, entry ∈ entries ↔ entry ∈ entries') (hleased : leased.Perm leased') :
    s.Holds entries' leased' :=
  ⟨fun entry ↦ (h.entries entry).trans (hentries entry),
    fun id ↦ (h.leases id).trans (hleased.count_eq id)⟩

theorem Holds.same (h : s.Holds entries leased) (hconnections : s'.connections = s.connections)
    (hleases : ∀ id, s'.leasesOf id = s.leasesOf id) : s'.Holds entries leased :=
  ⟨fun entry ↦ hconnections ▸ h.entries entry, fun id ↦ (hleases id).trans (h.leases id)⟩

theorem Holds.find_eq_none (h : s.Holds entries leased) (hfree : ∀ id, (name, id) ∉ entries) :
    s.find name = none :=
  lookup_eq_none_iff_notMem.mpr fun id hid ↦ hfree id ((h.entries _).mp hid)

theorem leasesOf_congr (h : s'.managed = s.managed) (id : Nat) :
    s'.leasesOf id = s.leasesOf id := by
  rw [leasesOf, leasesOf, h]

theorem leasesOf_eq {c : ManagedConnection Config} (hc : s.managed[id]? = some c) :
    s.leasesOf id = c.leases := by
  rw [leasesOf, hc, Option.elim_some]

theorem leasesOf_modify {f : ManagedConnection Config → ManagedConnection Config}
    {c : ManagedConnection Config} (hc : s.managed[id]? = some c) (other : Nat) :
    (s.modify id f).leasesOf other = if other = id then (f c).leases else s.leasesOf other := by
  rw [leasesOf, leasesOf, modify, List.getElem?_modify]
  split
  case isTrue heq =>
    rw [if_pos heq.symm, ← heq, hc]
    rfl
  case isFalse hne => rw [if_neg fun heq ↦ hne heq.symm, id_map']

theorem leasesOf_modify_same {f : ManagedConnection Config → ManagedConnection Config}
    (hf : ∀ c, (f c).leases = c.leases) (other : Nat) :
    (s.modify id f).leasesOf other = s.leasesOf other := by
  rw [leasesOf, leasesOf, modify, List.getElem?_modify]
  cases s.managed[other]? with
  | none => split <;> rfl
  | some c =>
      split
      · exact hf c
      · rfl

theorem reclaim_managed : (s.reclaim id).managed = s.managed := by
  rw [reclaim]
  split <;> rfl

theorem reclaim_connections : (s.reclaim id).connections = s.connections := by
  rw [reclaim]
  split <;> rfl

theorem reclaim_tasks : (s.reclaim id).tasks = s.tasks := by
  rw [reclaim]
  split <;> rfl

end

/-! ## A call that leases a connection -/

/-- How far a call to lease a connection has come. -/
inductive Stage where
  | searching
  /-- The connection is in the pool. -/
  | pooled (id : Nat)
  | leased (id : Nat)
  /-- The call does not come here. -/
  | elsewhere

def stageOf : Outcome → Stage
  | .transport id _ => .leased id
  | .absent | .completed | .failed _ | .cancelled => .searching

def stage : Phase → Stage
  | .lookup _ | .claim | .wait _ | .prune | .acquire | .connecting | .insert _ | .close
  | .dropping (.missed _) | .dropping .acquire => .searching
  | .dropping (.inserted id) | .returning id _ | .handoff id _ => .pooled id
  | .unwind outcome | .finished outcome => stageOf outcome
  | .evict _ _ | .dropping (.closing _ _) | .closing _ _ | .remove | .closeAll => .elsewhere

def Staged (s : Manager Config) (name : String) (entries : List (String × Nat))
    (leased : List Nat) : Stage → Prop
  | .searching => s.Holds entries leased
  | .pooled id => s.Holds ((name, id) :: entries) leased
  | .leased id => s.Holds ((name, id) :: entries) (id :: leased)
  | .elsewhere => False

section

variable {name : String} {entries : List (String × Nat)} {leased : List Nat} {config : Config}
  {authentication : Authentication} {task' : Task Config}

theorem Staged.same {stage : Stage} (h : s.Staged name entries leased stage)
    (hconnections : s'.connections = s.connections)
    (hleases : ∀ id, s'.leasesOf id = s.leasesOf id) : s'.Staged name entries leased stage := by
  cases stage with
  | searching | pooled id | leased id => exact Holds.same h hconnections hleases
  | elsewhere => exact h

/-- What was there before the call is still there. -/
theorem Staged.at_least {stage : Stage} (h : s.Staged name entries leased stage) :
    (∀ entry ∈ entries, entry ∈ s.connections) ∧ ∀ id, leased.count id ≤ s.leasesOf id := by
  cases stage with
  | searching => exact ⟨fun entry ↦ (h.entries entry).mpr, fun id ↦ (h.leases id).ge⟩
  | pooled id =>
      refine ⟨fun entry hentry ↦ ?_, fun id ↦ (h.leases id).ge⟩
      exact (h.entries entry).mpr (mem_cons_of_mem _ hentry)
  | leased id =>
      refine ⟨fun entry hentry ↦ ?_, fun other ↦ ?_⟩
      · exact (h.entries entry).mpr (mem_cons_of_mem _ hentry)
      · exact count_le_count_cons.trans (h.leases other).ge
  | elsewhere => exact h.elim

/-- What a step of the call comes to. -/
def Advanced (s s' : Manager Config) (t : Nat) (task : Task Config) (name : String)
    (entries : List (String × Nat)) (leased : List Nat) : Prop :=
  ∃ task', s'.tasks = s.tasks.set t task' ∧ task'.call = task.call ∧
    s'.Staged name entries leased (stage task'.phase)

/-- A step that leaves the pool and the leases alone. -/
theorem advanced_same (htasks : s'.tasks = s.tasks.set t task') (hcall : task'.call = task.call)
    (h : s.Staged name entries leased (stage task'.phase))
    (hconnections : s'.connections = s.connections) (hmanaged : s'.managed = s.managed) :
    s.Advanced s' t task name entries leased :=
  ⟨task', htasks, hcall, h.same hconnections (leasesOf_congr hmanaged)⟩

theorem advanced_reclaim {id : Nat} (h : s.Advanced s' t task name entries leased) :
    s.Advanced (s'.reclaim id) t task name entries leased := by
  obtain ⟨task', htasks, hcall, hstaged⟩ := h
  exact ⟨task', reclaim_tasks.trans htasks, hcall,
    hstaged.same reclaim_connections (leasesOf_congr reclaim_managed)⟩

theorem stage_afterMiss (place : Lookup) : stage place.afterMiss = .searching := by
  cases place <;> rfl

theorem dropping_advanced {next : Next} (hphase : task.phase = .dropping next)
    (h : s.Staged name entries leased (stage task.phase)) :
    s.Advanced (s.dropping t task next) t task name entries leased := by
  unfold dropping
  split
  · exact advanced_reclaim (advanced_same rfl rfl h rfl rfl)
  · rw [hphase] at h
    cases next with
    | missed place => exact advanced_same rfl rfl ((stage_afterMiss place).symm ▸ h) rfl rfl
    | acquire | inserted id => exact advanced_same rfl rfl h rfl rfl
    | closing existing compatibility => exact h.elim

/-- What a call drops at its end is neither in the pool nor leased. -/
theorem unwind_spec {outcome : Outcome} (hphase : task.phase = .unwind outcome) :
    ∃ task', (s.unwind t task outcome).tasks = s.tasks.set t task' ∧ task'.call = task.call ∧
      (task'.phase = .unwind outcome ∨ task'.phase = .finished outcome) ∧
      (s.unwind t task outcome).connections = s.connections ∧
      (s.unwind t task outcome).managed = s.managed := by
  unfold unwind
  split
  · exact ⟨_, rfl, rfl, .inl hphase, rfl, rfl⟩
  split
  · exact ⟨_, reclaim_tasks, rfl, .inl hphase, reclaim_connections, reclaim_managed⟩
  · exact ⟨_, reclaim_tasks, rfl, .inl hphase, reclaim_connections, reclaim_managed⟩
  · exact ⟨_, rfl, rfl, .inl hphase, rfl, rfl⟩
  · exact ⟨_, congrArg (List.set · t _) (resign_tasks s _ _), rfl, .inl hphase,
      resign_connections s _ _, resign_managed s _ _⟩
  · exact ⟨_, rfl, rfl, .inr rfl, rfl, rfl⟩

theorem unwind_advanced {outcome : Outcome} (hphase : task.phase = .unwind outcome)
    (h : s.Staged name entries leased (stage task.phase)) :
    s.Advanced (s.unwind t task outcome) t task name entries leased := by
  obtain ⟨task', htasks, hcall, hphase', hconnections, hmanaged⟩ := unwind_spec hphase
  rw [hphase] at h
  refine advanced_same htasks hcall ?_ hconnections hmanaged
  rcases hphase' with hphase' | hphase'
  · rw [hphase']
    exact h
  · rw [hphase']
    exact h

/-- Nothing that is leased is pruned. -/
theorem expired_eq_false (h : s.Holds entries leased)
    (hleased : ∀ entry ∈ entries, entry.2 ∈ leased) {entry : String × Nat}
    (hentry : entry ∈ s.connections) : s.expired entry = false := by
  by_contra hexpired
  obtain ⟨⟨c, hc, hnone, -⟩, -⟩ :=
    unused_of_expired hentry (Bool.eq_true_of_not_eq_false hexpired)
  have hpos := count_pos_iff.mpr (hleased entry ((h.entries entry).mp hentry))
  rw [← h.leases, leasesOf, hc, Option.elim_some, hnone] at hpos
  exact absurd hpos (Nat.lt_irrefl 0)

/-- The connection is put into the pool, where nothing is under the name. -/
theorem link_holds {id : Nat} (h : s.Holds entries leased) (hfree : ∀ id, (name, id) ∉ entries) :
    (s.link name id).Holds ((name, id) :: entries) leased := by
  refine ⟨fun entry ↦ ?_, h.leases⟩
  rw [mem_cons, ← h.entries]
  constructor
  · exact mem_link
  · rintro (rfl | hentry)
    · exact mem_cons_self
    · refine mem_cons_of_mem _ (mem_filter.mpr ⟨hentry, decide_eq_true fun heq ↦ ?_⟩)
      exact hfree entry.2 (heq ▸ (h.entries entry).mp hentry)

theorem handoff_holds {id : Nat} {c : ManagedConnection Config} (h : s.Holds entries leased)
    (hc : s.managed[id]? = some c) : (s.modify id fun c ↦ { c with
      leases := c.leases + 1
      activeLeases := c.activeLeases + 1
      lastUsed := s.now }).Holds entries (id :: leased) := by
  refine ⟨h.entries, fun other ↦ ?_⟩
  rw [leasesOf_modify hc, count_cons, ← h.leases]
  by_cases heq : other = id
  · rw [if_pos heq, if_pos (beq_iff_eq.mpr heq.symm), heq, leasesOf_eq hc]
  · rw [if_neg heq, if_neg fun hbeq ↦ heq (beq_iff_eq.mp hbeq).symm]
    rfl

theorem exists_of_answers {id : Nat} {source : Source} (h : s.Answers t task id source) :
    ∃ c, s.managed[id]? = some c := by
  cases source with
  | established | found place =>
      obtain ⟨c, hc, -⟩ := h
      exact ⟨c, hc⟩
  | winner => exact h.elim

variable [DecidableEq Config]

/-- A step of a call that leases a connection under a new name. -/
theorem connect_advanced (hflight : s.Flight) (htask : s.tasks[t]? = some task)
    (hcall : task.call = .connect name config authentication .connectLease)
    (hfree : ∀ id, (name, id) ∉ entries) (hleased : ∀ entry ∈ entries, entry.2 ∈ leased)
    (h : s.Staged name entries leased (stage task.phase)) (hs : s.advance t task = some s') :
    s.Advanced s' t task name entries leased := by
  have hname : task.call.name = name := by rw [hcall, Call.name]
  have hassured := (hflight.sound t task htask).assured
  unfold advance at hs
  split at hs
  case h_1 place hphase =>
    rw [hphase] at h
    have hfind : s.find task.call.name = none := hname ▸ h.find_eq_none hfree
    rw [lookup, hfind] at hs
    cases hs
    exact advanced_same rfl rfl ((stage_afterMiss place).symm ▸ h) rfl rfl
  case h_2 place observed hphase =>
    rw [hphase] at h
    exact h.elim
  case h_3 next hphase =>
    cases hs
    exact dropping_advanced hphase h
  case h_4 hphase =>
    rw [hphase] at h
    cases hs
    unfold claim
    split
    · exact advanced_same rfl rfl h rfl rfl
    · exact advanced_same rfl rfl h rfl rfl
  case h_5 signal hphase =>
    rw [hphase] at h
    obtain ⟨-, hs⟩ := Option.ite_none_right_eq_some.mp hs
    cases hs
    refine advanced_same rfl rfl ?_ rfl rfl
    exact h
  case h_6 hphase =>
    rw [hphase] at h
    cases hs
    refine ⟨_, rfl, rfl, ?_⟩
    rw [hcall]
    refine ⟨fun entry ↦ ?_, h.leases⟩
    rw [← h.entries]
    refine ⟨mem_of_mem_filter, fun hentry ↦ mem_filter.mpr ⟨hentry, ?_⟩⟩
    rw [expired_eq_false h hleased hentry]
    rfl
  case h_7 hphase =>
    rw [hphase] at h
    cases hs
    unfold acquire
    split
    · exact advanced_same rfl rfl h rfl rfl
    · exact advanced_same rfl rfl h rfl rfl
  case h_8 id hphase =>
    rw [hphase] at h
    have hfind : s.find task.call.name = none := hname ▸ h.find_eq_none hfree
    rw [insert, hfind] at hs
    cases hs
    rw [hname]
    exact ⟨_, rfl, rfl, (link_holds h hfree).same rfl fun _ ↦ rfl⟩
  case h_9 existing compatibility hphase =>
    rw [hphase] at h
    exact h.elim
  case h_10 id source hphase =>
    rw [hphase] at h
    cases hs
    unfold returning
    rw [if_neg (by rw [hcall]; exact Bool.false_ne_true)]
    split
    · exact advanced_same (congrArg (List.set · t _) (resign_tasks s _ _)) rfl h
        (resign_connections s _ _) (resign_managed s _ _)
    · exact advanced_same rfl rfl h rfl rfl
  case h_11 id source hphase =>
    rw [hphase] at h
    cases hs
    unfold handoff
    rw [if_pos (by rw [hcall]; rfl)]
    rw [Assured, hphase] at hassured
    obtain ⟨c, hc⟩ := exists_of_answers hassured.2
    exact ⟨_, rfl, rfl, (handoff_holds h hc).same rfl fun _ ↦ rfl⟩
  case h_15 outcome hphase =>
    cases hs
    exact unwind_advanced hphase h
  case h_12 hphase | h_13 hphase =>
    rw [hphase] at h
    exact h.elim
  case h_14 hphase =>
    rw [hphase] at h
    cases hs
    exact advanced_same rfl rfl h rfl rfl
  case h_16 | h_17 => cases hs

end

/-! ## Events meanwhile -/

/-- What happens to connections without a call. -/
def Outside : ManagerEvent Config → Prop
  | .die _ | .cloneClient _ | .dropClient _ | .elapse _ => True
  | _ => False

/-- What happens while a call is waited for. -/
inductive Alone (t : Nat) : ManagerEvent Config → Prop
  | advance : Alone t (.advance t)
  | connected (result : Result Unit) : Alone t (.connected t result)
  | outside {e : ManagerEvent Config} (he : Outside e) : Alone t e

section

variable [DecidableEq Config] {name : String} {entries : List (String × Nat)} {leased : List Nat}
  {e : ManagerEvent Config}

theorem outside_spec (he : Outside e) (hs : s.step e = some s') :
    s'.tasks = s.tasks ∧ s'.connections = s.connections ∧ ∀ id, s'.leasesOf id = s.leasesOf id := by
  cases e with
  | die id =>
      cases hs
      exact ⟨rfl, rfl, leasesOf_modify_same fun _ ↦ rfl⟩
  | cloneClient id | dropClient id =>
      obtain ⟨c, hc, hs⟩ := Option.bind_eq_some_iff.mp hs
      obtain ⟨-, hs⟩ := Option.ite_none_right_eq_some.mp hs
      cases hs
      exact ⟨rfl, rfl, leasesOf_modify_same fun _ ↦ rfl⟩
  | elapse duration =>
      cases hs
      exact ⟨rfl, rfl, fun _ ↦ rfl⟩
  | _ => exact he.elim

theorem Holds.outside (h : s.Holds entries leased) (he : Outside e) (hs : s.step e = some s') :
    s'.Holds entries leased := by
  obtain ⟨-, hconnections, hleases⟩ := outside_spec he hs
  exact h.same hconnections hleases

/-- A call to lease a connection is under way, and nothing else is. -/
def Connecting (s : Manager Config) (t : Nat) (name : String) (entries : List (String × Nat))
    (leased : List Nat) : Prop :=
  ∃ task config authentication, s.tasks[t]? = some task ∧
    task.call = .connect name config authentication .connectLease ∧
      s.Staged name entries leased (stage task.phase)

theorem Connecting.step (h : s.Connecting t name entries leased) (hflight : s.Flight)
    (hfree : ∀ id, (name, id) ∉ entries) (hleased : ∀ entry ∈ entries, entry.2 ∈ leased)
    (he : Alone t e) (hs : s.step e = some s') : s'.Connecting t name entries leased := by
  obtain ⟨task, config, authentication, htask, hcall, hstaged⟩ := h
  have hset : ∀ {next : Task Config}, (s.tasks.set t next)[t]? = some next := fun {next} ↦
    List.getElem?_set_self (List.getElem?_eq_some_iff.mp htask).1
  cases he with
  | advance =>
      obtain ⟨other, hother, hs⟩ := Option.bind_eq_some_iff.mp hs
      cases htask.symm.trans hother
      obtain ⟨next, htasks, hnext, hstaged⟩ :=
        connect_advanced hflight htask hcall hfree hleased hstaged hs
      exact ⟨next, config, authentication, htasks ▸ hset, hnext.trans hcall, hstaged⟩
  | connected result =>
      obtain ⟨other, hother, hs⟩ := Option.bind_eq_some_iff.mp hs
      cases htask.symm.trans hother
      split at hs
      case h_1 hphase _ _ =>
        rw [hphase] at hstaged
        cases hs
        refine ⟨_, config, authentication, hset, hcall, ?_⟩
        exact Staged.same hstaged rfl fun _ ↦ elim_concat rfl
      case h_2 hphase _ _ =>
        rw [hphase] at hstaged
        cases hs
        exact ⟨_, config, authentication, hset, hcall, Staged.same hstaged rfl fun _ ↦ rfl⟩
      case h_3 => cases hs
  | outside he =>
      obtain ⟨htasks, hconnections, hleases⟩ := outside_spec he hs
      exact ⟨task, config, authentication, htasks ▸ htask, hcall,
        hstaged.same hconnections hleases⟩

/-- A call that has come to its end, or is about to. -/
def ending : Phase → Prop
  | .close | .unwind _ | .finished _ => True
  | _ => False

/-- A call to remove a name is under way, and nothing else is. -/
def Removing (s : Manager Config) (t : Nat) (name : String) (entries : List (String × Nat))
    (leased : List Nat) : Prop :=
  ∃ task, s.tasks[t]? = some task ∧ task.call = .remove name ∧
    (task.phase = .remove ∧ s.Holds entries leased ∨ ending task.phase ∧
      s.Staged name (entries.filter (·.1 ≠ name)) leased (stage task.phase))

omit [DecidableEq Config] in
/-- What is under a name is taken out. -/
theorem remove_advanced (h : s.Holds entries leased) (hcall : task.call = .remove name) :
    ∃ next, (s.remove t task).tasks = s.tasks.set t next ∧ next.call = task.call ∧
      ending next.phase ∧ (s.remove t task).Staged name (entries.filter (·.1 ≠ name)) leased
        (stage next.phase) := by
  have hname : task.call.name = name := by rw [hcall, Call.name]
  rw [remove, hname]
  split
  case h_1 hfind =>
    refine ⟨_, rfl, rfl, trivial, fun entry ↦ ?_, h.leases⟩
    rw [mem_filter, ← h.entries]
    refine ⟨fun hentry ↦ ⟨hentry, decide_eq_true fun heq ↦ ?_⟩, And.left⟩
    exact lookup_eq_none_iff_notMem.mp hfind entry.2 (heq ▸ hentry)
  case h_2 =>
    refine ⟨_, rfl, rfl, trivial, fun entry ↦ ?_, h.leases⟩
    rw [mem_filter, ← h.entries]
    refine mem_filter.trans (and_congr_right fun _ ↦ ?_)
    rw [decide_not]

theorem ending_step (htask : s.tasks[t]? = some task) (hcall : task.call = .remove name)
    (hending : ending task.phase)
    (h : s.Staged name (entries.filter (·.1 ≠ name)) leased (stage task.phase))
    (hs : s.advance t task = some s') : s'.Removing t name entries leased := by
  have hset : ∀ {next : Task Config}, (s.tasks.set t next)[t]? = some next := fun {next} ↦
    List.getElem?_set_self (List.getElem?_eq_some_iff.mp htask).1
  unfold advance at hs
  cases hphase : task.phase with
  | close =>
      rw [hphase] at hs h
      cases hs
      exact ⟨_, hset, hcall, .inr ⟨trivial, h.same rfl fun _ ↦ rfl⟩⟩
  | unwind outcome =>
      rw [hphase] at hs
      cases hs
      obtain ⟨next, htasks, hnext, hphase', hconnections, hmanaged⟩ := unwind_spec hphase
      rw [hphase] at h
      refine ⟨next, htasks ▸ hset, hnext.trans hcall, .inr ?_⟩
      rcases hphase' with hphase' | hphase'
      all_goals
        rw [hphase']
        exact ⟨trivial, h.same hconnections (leasesOf_congr hmanaged)⟩
  | finished outcome =>
      rw [hphase] at hs
      cases hs
  | _ =>
      rw [hphase] at hending
      exact hending.elim

theorem Removing.step (h : s.Removing t name entries leased) (he : Alone t e)
    (hs : s.step e = some s') : s'.Removing t name entries leased := by
  obtain ⟨task, htask, hcall, hstate⟩ := h
  have hset : ∀ {next : Task Config}, (s.tasks.set t next)[t]? = some next := fun {next} ↦
    List.getElem?_set_self (List.getElem?_eq_some_iff.mp htask).1
  cases he with
  | advance =>
      obtain ⟨other, hother, hs⟩ := Option.bind_eq_some_iff.mp hs
      cases htask.symm.trans hother
      rcases hstate with ⟨hphase, hholds⟩ | ⟨hending, hstaged⟩
      · unfold advance at hs
        rw [hphase] at hs
        cases hs
        obtain ⟨next, htasks, hnext, hstate⟩ := remove_advanced hholds hcall
        exact ⟨next, htasks ▸ hset, hnext.trans hcall, .inr hstate⟩
      · exact ending_step htask hcall hending hstaged hs
  | connected result =>
      obtain ⟨other, hother, hs⟩ := Option.bind_eq_some_iff.mp hs
      cases htask.symm.trans hother
      rw [hcall] at hs
      split at hs
      case h_1 hcall' _ | h_2 hcall' _ => cases hcall'
      case h_3 => cases hs
  | outside he =>
      obtain ⟨htasks, hconnections, hleases⟩ := outside_spec he hs
      refine ⟨task, htasks ▸ htask, hcall, hstate.imp ?_ ?_⟩
      · exact And.imp_right fun hholds ↦ hholds.same hconnections hleases
      · exact And.imp_right fun hstaged ↦ hstaged.same hconnections hleases

/-! ## Beginnings and ends -/

omit [DecidableEq Config] in
theorem connecting_spawn (h : s.Holds entries leased) (config : Config)
    (authentication : Authentication) :
    ({ s with tasks := s.tasks ++ [.new (.connect name config authentication .connectLease)] } :
      Manager Config).Connecting s.tasks.length name entries leased := by
  refine ⟨_, config, authentication, List.getElem?_concat_length, rfl, ?_⟩
  have hstage :
      stage (Call.connect name config authentication .connectLease).begin = .searching := by
    rw [Call.begin]
    split <;> rfl
  rw [Task.new, hstage]
  exact h.same rfl fun _ ↦ rfl

omit [DecidableEq Config] in
theorem removing_spawn (h : s.Holds entries leased) :
    ({ s with tasks := s.tasks ++ [.new (.remove name)] } : Manager Config).Removing
      s.tasks.length name entries leased :=
  ⟨_, List.getElem?_concat_length, rfl, .inl ⟨rfl, h.same rfl fun _ ↦ rfl⟩⟩

omit [DecidableEq Config] in
theorem Connecting.finished (h : s.Connecting t name entries leased) {outcome : Outcome}
    (hend : s.tasks[t]?.map Task.phase = some (.finished outcome)) :
    s.Staged name entries leased (stageOf outcome) := by
  obtain ⟨task, config, authentication, htask, -, hstaged⟩ := h
  rw [htask, Option.map_some, Option.some_inj] at hend
  rw [hend] at hstaged
  exact hstaged

omit [DecidableEq Config] in
theorem Removing.finished (h : s.Removing t name entries leased) {outcome : Outcome}
    (hend : s.tasks[t]?.map Task.phase = some (.finished outcome)) :
    s.Staged name (entries.filter (·.1 ≠ name)) leased (stageOf outcome) := by
  obtain ⟨task, htask, -, hstate⟩ := h
  rw [htask, Option.map_some, Option.some_inj] at hend
  rw [hend] at hstate
  rcases hstate with ⟨hphase, -⟩ | ⟨-, hstaged⟩
  · cases hphase
  · exact hstaged

omit [DecidableEq Config] in
theorem Connecting.at_least (h : s.Connecting t name entries leased) :
    (∀ entry ∈ entries, entry ∈ s.connections) ∧ ∀ id, leased.count id ≤ s.leasesOf id := by
  obtain ⟨task, config, authentication, -, -, hstaged⟩ := h
  exact hstaged.at_least

omit [DecidableEq Config] in
/-- Only what is under the name is removed. -/
theorem Removing.at_least (h : s.Removing t name entries leased) :
    (∀ entry ∈ entries, entry.1 ≠ name → entry ∈ s.connections) ∧
      ∀ id, leased.count id ≤ s.leasesOf id := by
  obtain ⟨task, -, -, ⟨-, hholds⟩ | ⟨-, hstaged⟩⟩ := h
  · exact ⟨fun entry hentry _ ↦ (hholds.entries entry).mpr hentry, fun id ↦ (hholds.leases id).ge⟩
  · obtain ⟨hentries, hleases⟩ := hstaged.at_least
    refine ⟨fun entry hentry hne ↦ hentries entry ?_, hleases⟩
    exact mem_filter.mpr ⟨hentry, decide_eq_true hne⟩

/-- A lease is counted no longer. -/
theorem Holds.releaseLease {id : Nat} (h : s.Holds entries (id :: leased))
    (hs : s.step (.releaseLease id) = some s') : s'.Holds entries leased := by
  obtain ⟨c, hc, hs⟩ := Option.bind_eq_some_iff.mp hs
  obtain ⟨-, hs⟩ := Option.ite_none_right_eq_some.mp hs
  cases hs
  refine ⟨h.entries, fun other ↦ ?_⟩
  have hcount := h.leases other
  rw [count_cons] at hcount
  rw [leasesOf_modify hc]
  by_cases heq : other = id
  · rw [if_pos heq, ← leasesOf_eq hc, ← heq, hcount, if_pos (beq_iff_eq.mpr heq.symm),
      Nat.add_sub_cancel]
  · rw [if_neg heq, hcount, if_neg fun hbeq ↦ heq (beq_iff_eq.mp hbeq).symm, Nat.add_zero]

theorem Holds.dropLease {id : Nat} (h : s.Holds entries leased)
    (hs : s.step (.dropLease id) = some s') : s'.Holds entries leased := by
  obtain ⟨c, -, hs⟩ := Option.bind_eq_some_iff.mp hs
  obtain ⟨-, hs⟩ := Option.ite_none_right_eq_some.mp hs
  cases hs
  refine h.same reclaim_connections fun other ↦ ?_
  rw [leasesOf_congr reclaim_managed]
  refine leasesOf_modify_same ?_ other
  exact fun _ ↦ rfl

end

end KaduoxSsh.Core.Manager
