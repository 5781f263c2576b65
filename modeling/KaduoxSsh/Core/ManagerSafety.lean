import KaduoxSsh.Core.ManagerFlight

/-!
# What the connection manager guarantees

The results about whole runs of the manager: how few leaders and permits there are,
with which transports requests to connect are answered, and what leaves the pool. They
hold in every state that any events lead to from a new manager.
-/

namespace KaduoxSsh.Core

open List

variable {Config : Type}

/-- The transport with which a call is about to answer, or has answered. -/
def Phase.answer : Phase → Option (Nat × Source)
  | returning id source | handoff id source | unwind (.transport id source)
  | finished (.transport id source) => some (id, source)
  | _ => none

theorem canReuseWith_nonReusable (key : AuthenticationReuseKey) :
    key.canReuseWith .nonReusable = false := by
  cases key <;> rfl

namespace Manager

variable {s s' : Manager Config} {t total : Nat} {task task' : Task Config} {entry : String × Nat}

/-! ## Every state of a run -/

/-- What holds in every state of a run. -/
structure Valid (maxConnections : Nat) (s : Manager Config) : Prop where
  flight : s.Flight
  conserved : s.Conserved maxConnections

theorem new_flight (maxConnections idleTimeout : Nat) :
    (Manager.new Config maxConnections idleTimeout).Flight where
  keys := nodup_nil
  pool _ hentry := absurd hentry not_mem_nil
  signals _ _ hconnecting := by cases hconnecting
  single _ _ _ _ _ htask := by cases htask
  sound _ _ htask := by cases htask

theorem new_conserved (maxConnections idleTimeout : Nat) :
    (Manager.new Config maxConnections idleTimeout).Conserved maxConnections where
  balanced := ⟨rfl, fun _ _ ↦ rfl⟩
  tidy _ htask := absurd htask not_mem_nil

/-- A connection is referenced, by the pool, by a lease or by a call that has it at hand. -/
def Referenced (s : Manager Config) (id : Nat) : Prop :=
  (∃ name, (name, id) ∈ s.connections) ∨
    (∃ c, s.managed[id]? = some c ∧ 0 < c.leases + c.releasing) ∨
      ∃ task ∈ s.tasks, id ∈ task.held ∨ id ∈ task.discarded

theorem leased_pos_iff {id : Nat} :
    0 < s.leased id ↔ ∃ c, s.managed[id]? = some c ∧ 0 < c.leases + c.releasing := by
  rw [leased]
  cases s.managed[id]? with
  | none => simp
  | some c => simp

theorem strongCount_pos_iff {id : Nat} : 0 < s.strongCount id ↔ s.Referenced id := by
  have hpool : 0 < (s.connections.map Prod.snd).count id ↔ ∃ name, (name, id) ∈ s.connections := by
    rw [count_pos_iff, mem_map]
    exact ⟨fun ⟨entry, hentry, heq⟩ ↦ ⟨entry.1, heq ▸ hentry⟩, fun ⟨name, hname⟩ ↦ ⟨_, hname, rfl⟩⟩
  have htasks : 0 < (s.tasks.map (·.owned id)).sum ↔
      ∃ task ∈ s.tasks, id ∈ task.held ∨ id ∈ task.discarded := by
    rw [List.sum_pos_iff_exists_pos_nat]
    simp only [List.mem_map, exists_exists_and_eq_and, Task.owned, Nat.add_pos_iff_pos_or_pos,
      count_pos_iff]
  rw [strongCount, shared, Referenced, ← hpool, ← leased_pos_iff, ← htasks]
  omega

/-! ## One step of a call -/

/-- What a call's step does to its answer and to the pool. -/
structure Went (s s' : Manager Config) (t : Nat) (task task' : Task Config) : Prop where
  tasks : s'.tasks = s.tasks.set t task'
  /-- A connection is found where it is under the name, and alive. -/
  found : ∀ id place, task'.phase.answer = some (id, .found place) →
    task.phase.answer = some (id, .found place) ∨
      s.find task.call.name = some id ∧ s.alive id = true
  entries : ∀ entry ∈ s'.connections, entry ∈ s.connections ∨
    task.phase = .insert entry.2 ∧ task.call.name = entry.1

theorem went_quiet (htasks : s'.tasks = s.tasks.set t task')
    (hsublist : s'.connections.Sublist s.connections)
    (hanswer : ∀ id place, task'.phase.answer = some (id, .found place) →
      task.phase.answer = some (id, .found place)) : s.Went s' t task task' where
  tasks := htasks
  found id place hfound := .inl (hanswer id place hfound)
  entries _ hentry := .inl (hsublist.subset hentry)

theorem went_mute (htasks : s'.tasks = s.tasks.set t task')
    (hsublist : s'.connections.Sublist s.connections) (hmute : task'.phase.answer = none) :
    s.Went s' t task task' :=
  went_quiet htasks hsublist fun _ _ hfound ↦ (Option.some_ne_none _ (hfound.symm.trans hmute)).elim

theorem went_reclaim (h : s.Went s' t task task') (id : Nat) :
    s.Went (s'.reclaim id) t task task' := by
  rw [reclaim]
  split
  · exact ⟨h.tasks, h.found, h.entries⟩
  · exact h

theorem went_resign (signal : Nat)
    (hanswer : ∀ id place, task'.phase.answer = some (id, .found place) →
      task.phase.answer = some (id, .found place)) :
    s.Went ((s.resign task.call.name signal).setTask t task') t task task' := by
  have htasks := congrArg (List.set · t task') (resign_tasks s task.call.name signal)
  have hconnections := resign_connections s task.call.name signal
  exact went_quiet htasks (hconnections ▸ List.Sublist.refl _) hanswer

theorem answer_afterMiss (place : Lookup) : place.afterMiss.answer = none := by
  cases place <;> rfl

theorem answer_begin (call : Call Config) : call.begin.answer = none := by
  cases call with
  | connect name =>
      by_cases hname : name = "" <;> simp [Call.begin, hname, Phase.answer]
  | get | remove | pruneIdle | closeAll => rfl

theorem dropping_went (next : Next) : ∃ task', s.Went (s.dropping t task next) t task task' := by
  have hsame := List.Sublist.refl s.connections
  unfold dropping
  split
  · next id rest hdiscarded =>
      have hquiet : s.Went (s.setTask t { task with discarded := rest }) t task
        { task with discarded := rest } := went_quiet rfl hsame fun _ _ h ↦ h
      exact ⟨_, went_reclaim hquiet id⟩
  · cases next with
    | missed place => exact ⟨_, went_mute rfl hsame (answer_afterMiss _)⟩
    | inserted => exact ⟨_, went_quiet rfl hsame fun _ _ hfound ↦ by cases hfound⟩
    | acquire | closing => exact ⟨_, went_mute rfl hsame rfl⟩

/-- A call that returns has the answer that it comes with. -/
theorem returning_went {id : Nat} {source : Source} (hphase : task.phase = .returning id source) :
    ∃ task', s.Went (s.returning t task id source) t task task' := by
  have hsame := List.Sublist.refl s.connections
  have hanswer : task.phase.answer = some (id, source) := by rw [hphase, Phase.answer]
  unfold returning
  split
  · exact ⟨_, went_quiet rfl hsame fun _ _ h ↦ hanswer ▸ h⟩
  split
  · next signal hlead => exact ⟨_, went_resign signal fun _ _ h ↦ hanswer ▸ h⟩
  · exact ⟨_, went_quiet rfl hsame fun _ _ h ↦ hanswer ▸ h⟩

theorem handoff_went {id : Nat} {source : Source} (hphase : task.phase = .handoff id source) :
    ∃ task', s.Went (s.handoff t task id source) t task task' := by
  have hsame := List.Sublist.refl s.connections
  have hanswer : task.phase.answer = some (id, source) := by rw [hphase, Phase.answer]
  unfold handoff
  split
  · exact ⟨_, went_quiet rfl hsame fun _ _ h ↦ hanswer ▸ h⟩
  · exact ⟨_, went_quiet rfl hsame fun _ _ h ↦ hanswer ▸ h⟩

/-- What a call still holds is let go before it ends. -/
theorem unwind_went {outcome : Outcome} (hphase : task.phase = .unwind outcome) :
    ∃ task', s.Went (s.unwind t task outcome) t task task' := by
  have hsame := List.Sublist.refl s.connections
  have hend (id : Nat) (place : Lookup)
      (hfound : (Phase.finished outcome).answer = some (id, .found place)) :
      task.phase.answer = some (id, .found place) := by
    rw [hphase]
    cases outcome with
    | transport => exact hfound
    | absent | completed | failed | cancelled => cases hfound
  unfold unwind
  split
  · exact ⟨_, went_quiet rfl hsame fun _ _ h ↦ h⟩
  split
  · next id rest hdiscarded =>
      have hquiet : s.Went (s.setTask t { task with discarded := rest }) t task
        { task with discarded := rest } := went_quiet rfl hsame fun _ _ h ↦ h
      exact ⟨_, went_reclaim hquiet id⟩
  · next id rest hdiscarded hheld =>
      have hquiet : s.Went (s.setTask t { task with held := rest }) t task
        { task with held := rest } := went_quiet rfl hsame fun _ _ h ↦ h
      exact ⟨_, went_reclaim hquiet id⟩
  · exact ⟨_, went_quiet rfl hsame fun _ _ h ↦ h⟩
  · next signal hdiscarded hheld hcandidate hlead => exact ⟨_, went_resign signal fun _ _ h ↦ h⟩
  · exact ⟨_, went_quiet rfl hsame hend⟩

section

variable [DecidableEq Config] {e : ManagerEvent Config}

theorem lookup_went {place : Lookup} (hs : s.lookup t task place = some s') :
    ∃ task', s.Went s' t task task' := by
  unfold lookup at hs
  split at hs
  · cases hs
    exact ⟨_, went_mute rfl (List.Sublist.refl _) (answer_afterMiss place)⟩
  next id hfind =>
  obtain ⟨existing, hexisting, rfl⟩ := Option.map_eq_some_iff.mp hs
  simp only [meet]
  split
  · exact ⟨_, went_mute rfl (List.Sublist.refl _) rfl⟩
  next halive =>
  split
  · exact ⟨_, went_mute rfl (List.Sublist.refl _) rfl⟩
  · refine ⟨_, rfl, fun other found hfound ↦ .inr ?_, fun _ ↦ .inl⟩
    simp only [Phase.answer, Option.some_inj, Prod.mk.injEq] at hfound
    rw [← hfound.1, alive, hexisting]
    exact ⟨hfind, by simpa using halive⟩

theorem insert_went {id : Nat} (hphase : task.phase = .insert id)
    (hs : s.insert t task id = some s') : ∃ task', s.Went s' t task task' := by
  have hentries (entry : String × Nat) (hentry : entry ∈ (s.link task.call.name id).connections) :
      entry ∈ s.connections ∨ task.phase = .insert entry.2 ∧ task.call.name = entry.1 := by
    rcases mem_link hentry with rfl | hentry
    · exact .inr ⟨hphase, rfl⟩
    · exact .inl hentry
  unfold insert at hs
  split at hs
  · cases hs
    exact ⟨_, rfl, fun _ _ hfound ↦ absurd hfound (by simp [Phase.answer]), hentries⟩
  split at hs
  · split at hs
    · cases hs
      exact ⟨_, went_mute rfl (List.Sublist.refl _) rfl⟩
    · cases hs
      exact ⟨_, rfl, fun _ _ hfound ↦ absurd hfound (by simp [Phase.answer]), hentries⟩
  · cases hs

/-- Where each step of a call leads. -/
theorem advance_went (hs : s.advance t task = some s') : ∃ task', s.Went s' t task task' := by
  have hsame := List.Sublist.refl s.connections
  unfold advance at hs
  split at hs
  · exact lookup_went hs
  · cases hs
    exact ⟨_, went_mute rfl filter_sublist rfl⟩
  · next next hphase =>
      cases hs
      exact dropping_went next
  · cases hs
    unfold claim
    split
    · exact ⟨_, went_mute rfl hsame rfl⟩
    · exact ⟨_, went_mute rfl hsame rfl⟩
  · rw [wait, Option.ite_none_right_eq_some] at hs
    obtain ⟨-, hs⟩ := hs
    cases hs
    exact ⟨_, went_mute rfl hsame rfl⟩
  · cases hs
    refine ⟨_, went_mute rfl filter_sublist ?_⟩
    cases task.call <;> rfl
  · cases hs
    unfold acquire
    split
    · exact ⟨_, went_mute rfl hsame rfl⟩
    · exact ⟨_, went_mute rfl hsame rfl⟩
  · next hphase => exact insert_went hphase hs
  · next existing compatibility hphase =>
      cases hs
      cases compatibility with
      | ok => exact ⟨_, went_quiet rfl hsame fun _ _ hfound ↦ by cases hfound⟩
      | error => exact ⟨_, went_mute rfl hsame rfl⟩
  · next hphase =>
      cases hs
      exact returning_went hphase
  · next hphase =>
      cases hs
      exact handoff_went hphase
  · cases hs
    unfold remove
    split
    · exact ⟨_, went_mute rfl hsame rfl⟩
    · exact ⟨_, went_mute rfl filter_sublist rfl⟩
  · cases hs
    exact ⟨_, went_mute rfl filter_sublist rfl⟩
  · cases hs
    exact ⟨_, went_mute rfl hsame rfl⟩
  · next hphase =>
      cases hs
      exact unwind_went hphase
  · cases hs
  · cases hs

/-- Entries come into the pool only where a call puts in its own connection. -/
theorem step_entries (hs : s.step e = some s') {entry : String × Nat}
    (hentry : entry ∈ s'.connections) : entry ∈ s.connections ∨ ∃ t task, e = .advance t ∧
      s.tasks[t]? = some task ∧ task.phase = .insert entry.2 ∧ task.call.name = entry.1 := by
  cases step_effect hs with
  | advance htask hs =>
      obtain ⟨task', hwent⟩ := advance_went hs
      rcases hwent.entries entry hentry with hentry | ⟨hphase, hname⟩
      · exact .inl hentry
      · exact .inr ⟨_, _, rfl, htask, hphase, hname⟩
  | dropLease hc hreleasing =>
      rw [reclaim] at hentry
      split at hentry <;> exact .inl hentry
  | spawn | established | stop | use | cloneLease | elapse => exact .inl hentry

/-- A call comes to answer with a connection that it has found only by a look-up that finds it
alive. -/
theorem step_found (hs : s.step e = some s') (htask' : s'.tasks[t]? = some task') {id : Nat}
    {place : Lookup} (hanswer : task'.phase.answer = some (id, .found place)) :
    ∃ task, s.tasks[t]? = some task ∧
      (task.phase.answer = some (id, .found place) ∨
        e = .advance t ∧ s.find task.call.name = some id ∧ s.alive id = true) := by
  have hset {u : Nat} {old new : Task Config} (hold : s.tasks[u]? = some old)
      (htasks : s'.tasks = s.tasks.set u new)
      (hnew : new.phase.answer = some (id, .found place) → old.phase.answer = some (id, .found place) ∨
        e = .advance u ∧ s.find old.call.name = some id ∧ s.alive id = true) :
      ∃ task, s.tasks[t]? = some task ∧ (task.phase.answer = some (id, .found place) ∨
        e = .advance t ∧ s.find task.call.name = some id ∧ s.alive id = true) := by
    rw [htasks, List.getElem?_set] at htask'
    by_cases heq : u = t
    · rw [if_pos heq, Option.ite_none_right_eq_some] at htask'
      rw [← Option.some_inj.mp htask'.2] at hanswer
      exact ⟨old, heq ▸ hold, heq ▸ hnew hanswer⟩
    · rw [if_neg heq] at htask'
      exact ⟨task', htask', .inl hanswer⟩
  cases step_effect hs with
  | spawn call =>
      rcases getElem?_spawn htask' with htask' | rfl
      · exact ⟨task', htask', .inl hanswer⟩
      · simp [Task.new, answer_begin] at hanswer
  | advance htask hs =>
      obtain ⟨new, hwent⟩ := advance_went hs
      exact hset htask hwent.tasks fun hnew ↦ (hwent.found id place hnew).imp_right fun h ↦ ⟨rfl, h⟩
  | established htask hphase hcall => exact hset htask rfl fun hnew ↦ by cases hnew
  | stop htask houtcome =>
      refine hset htask rfl fun hnew ↦ ?_
      obtain rfl | ⟨error, rfl⟩ := houtcome <;> cases hnew
  | dropLease hc hreleasing =>
      rw [reclaim] at htask'
      split at htask' <;> exact ⟨task', htask', .inl hanswer⟩
  | use | cloneLease | elapse => exact ⟨task', htask', .inl hanswer⟩

/-- The first step of a call that removes leaves nothing under its name. -/
theorem step_new_remove {name : String} (hs : s.step e = some s') (hcancel : e ≠ .cancel t)
    (htask : s.tasks[t]? = some (.new (.remove name))) :
    s'.tasks[t]? = some (.new (.remove name)) ∨ ∀ id, (name, id) ∉ s'.connections := by
  have hset {u : Nat} {other other' : Task Config} (hother : s.tasks[u]? = some other)
      (hphase : other.phase ≠ .remove) (htasks : s'.tasks = s.tasks.set u other') :
      s'.tasks[t]? = some (.new (.remove name)) := by
    have hne : u ≠ t := by
      rintro rfl
      cases htask.symm.trans hother
      exact hphase rfl
    rw [htasks, List.getElem?_set_ne hne, htask]
  cases e with
  | spawn call =>
      cases hs
      exact .inl (List.getElem?_append_left (List.getElem?_eq_some_iff.mp htask).1 ▸ htask)
  | advance u =>
      obtain ⟨other, hother, hs⟩ := Option.bind_eq_some_iff.mp hs
      obtain ⟨other', hwent⟩ := advance_went hs
      by_cases hphase : other.phase = .remove
      · by_cases hut : u = t
        · subst hut
          cases htask.symm.trans hother
          cases hs
          right
          rw [remove]
          split
          · next hfind => exact lookup_eq_none_iff_notMem.mp hfind
          · intro id hmem
            simpa [Task.new, Call.name] using (mem_filter.mp hmem).2
        · left
          rw [hwent.tasks, List.getElem?_set_ne hut, htask]
      · exact .inl (hset hother hphase hwent.tasks)
  | connected u result =>
      obtain ⟨other, hother, hs⟩ := Option.bind_eq_some_iff.mp hs
      split at hs
      · next hphase _ _ =>
          cases hs
          exact .inl (hset hother (by rw [hphase]; rintro ⟨⟩) rfl)
      · next hphase _ _ =>
          cases hs
          exact .inl (hset hother (by rw [hphase]; rintro ⟨⟩) rfl)
      · cases hs
  | cancel u =>
      obtain ⟨other, hother, hs⟩ := Option.bind_eq_some_iff.mp hs
      obtain ⟨-, hs⟩ := Option.ite_none_right_eq_some.mp hs
      cases hs
      refine .inl ((List.getElem?_set_ne fun heq ↦ hcancel (congrArg _ heq)).trans htask)
  | die id | elapse duration =>
      cases hs
      exact .inl htask
  | cloneClient id | dropClient id | cloneLease id | releaseLease id =>
      obtain ⟨c, hc, hs⟩ := Option.bind_eq_some_iff.mp hs
      obtain ⟨-, hs⟩ := Option.ite_none_right_eq_some.mp hs
      cases hs
      exact .inl htask
  | dropLease id =>
      obtain ⟨c, hc, hs⟩ := Option.bind_eq_some_iff.mp hs
      obtain ⟨-, hs⟩ := Option.ite_none_right_eq_some.mp hs
      cases hs
      rw [reclaim]
      split <;> exact .inl htask

theorem Valid.step {maxConnections : Nat} (h : s.Valid maxConnections) (hs : s.step e = some s') :
    s'.Valid maxConnections :=
  ⟨step_flight h.flight hs, (step_keeps h.conserved h.flight hs).conserved⟩

theorem valid_of_reaches {maxConnections idleTimeout : Nat}
    (hreach : Reaches step (fun _ _ ↦ True) (Manager.new Config maxConnections idleTimeout) s) :
    s.Valid maxConnections :=
  hreach.invariant ⟨new_flight _ _, new_conserved _ _⟩ fun _ _ _ h _ hs ↦ h.step hs

end

/-- Only an attempt to connect has a permit, and until it is dropped a call that has ended. -/
theorem phase_of_permit (hassured : s.Assured t task) (htidy : task.Tidy)
    (hpermit : task.permit = true) :
    task.phase = .connecting ∨ ∃ outcome, task.phase = .unwind outcome := by
  have hnone {p : Prop} (h : task.permit = false) : p := by simp [hpermit] at h
  unfold Assured at hassured
  unfold Task.Tidy at htidy
  cases hphase : task.phase with
  | connecting => exact .inl rfl
  | unwind outcome => exact .inr ⟨outcome, rfl⟩
  | lookup | evict =>
      rw [hphase] at hassured
      exact hnone hassured.1.1
  | claim | wait | prune | acquire | insert | returning | handoff =>
      rw [hphase] at hassured
      exact hnone hassured.1
  | remove | closeAll | close =>
      rw [hphase] at hassured
      exact hnone hassured
  | closing =>
      rw [hphase] at hassured
      exact hassured.elim
  | finished =>
      rw [hphase] at htidy
      exact hnone htidy.2.2.1
  | dropping next =>
      rw [hphase] at hassured
      cases next with
      | missed => exact hnone hassured.1.1
      | acquire | inserted => exact hnone hassured.1
      | closing => exact hassured.elim

theorem answers_of_answer (hassured : s.Assured t task) {id : Nat} {source : Source}
    (hanswer : task.phase.answer = some (id, source)) : s.Answers t task id source := by
  unfold Assured at hassured
  unfold Phase.answer at hanswer
  split at hanswer <;> cases hanswer
  all_goals
    rename_i hphase
    rw [hphase] at hassured
  · exact hassured.2
  · exact hassured.2
  · exact hassured
  · exact hassured

/-! ## What leaves the pool -/

/-- Nobody but the pool has a connection or its client, and it has been idle for long enough. -/
structure Unused (s : Manager Config) (id : Nat) : Prop where
  callers : ∃ c, s.managed[id]? = some c ∧ c.leases = 0 ∧ c.releasing = 0 ∧ c.activeLeases = 0 ∧
    c.clients = 0 ∧ s.idleTimeout ≤ s.now - c.lastUsed
  calls : ∀ task ∈ s.tasks, id ∉ task.held ∧ id ∉ task.discarded ∧ task.candidate ≠ some id

theorem unused_of_expired (hentry : entry ∈ s.connections) (hexpired : s.expired entry = true) :
    s.Unused entry.2 := by
  obtain ⟨c, hc, hconditions⟩ := (Option.any_eq_true _ _).mp hexpired
  simp only [Bool.and_eq_true, decide_eq_true_eq] at hconditions
  obtain ⟨⟨⟨hstrong, hclient⟩, hactive⟩, hidle⟩ := hconditions
  have hpool : 0 < (s.connections.map Prod.snd).count entry.2 :=
    count_pos_iff.mpr (mem_map_of_mem hentry)
  -- The pool is the one owner, so there is no lease and no call that has the connection.
  have hleased : s.leased entry.2 = 0 := by
    rw [strongCount, shared] at hstrong
    omega
  have howned : (s.tasks.map (·.owned entry.2)).sum = 0 := by
    rw [strongCount, shared] at hstrong
    omega
  rw [clientCount, hstrong, hc, if_pos Nat.one_pos, Option.elim_some] at hclient
  rw [leased, hc, Option.elim_some] at hleased
  refine ⟨⟨c, hc, by omega, by omega, hactive, by omega, hidle⟩, fun task htask ↦ ?_⟩
  have htaskOwned : task.owned entry.2 = 0 := by
    have hmem : task.owned entry.2 ∈ s.tasks.map (·.owned entry.2) := mem_map_of_mem htask
    have hle := single_le_sum (fun _ _ ↦ Nat.zero_le _) _ hmem
    omega
  have hcandidates : s.tasks.filter (·.candidate = some entry.2) = [] :=
    eq_nil_of_length_eq_zero (by omega)
  rw [Task.owned, Nat.add_eq_zero_iff, count_eq_zero, count_eq_zero] at htaskOwned
  refine ⟨htaskOwned.1, htaskOwned.2, fun hcandidate ↦ ?_⟩
  simpa [hcandidate] using filter_eq_nil_iff.mp hcandidates task htask

theorem prune_removes (hentry : entry ∈ s.connections)
    (hgone : entry ∉ (s.prune t task).connections) : s.Unused entry.2 := by
  refine unused_of_expired hentry ?_
  by_contra hkept
  exact hgone (mem_filter.mpr ⟨hentry, by simpa using hkept⟩)

theorem evict_removes (hkeys : (s.connections.map Prod.fst).Nodup) {place : Lookup}
    {observed : Nat} (hentry : entry ∈ s.connections)
    (hgone : entry ∉ (s.evict t task place observed).connections) :
    entry = (task.call.name, observed) ∧ s.alive observed = false := by
  have hremoved : ((decide (s.find task.call.name = some observed) && !s.alive observed) &&
      decide (entry.1 = task.call.name)) = true := by
    by_contra hkept
    exact hgone (mem_filter.mpr ⟨hentry, Bool.not_eq_true' _ ▸ Bool.eq_false_iff.mpr hkept⟩)
  simp only [Bool.and_eq_true, decide_eq_true_eq, Bool.not_eq_true'] at hremoved
  obtain ⟨⟨hfind, hdead⟩, hname⟩ := hremoved
  -- A name has one entry.
  have hcurrent : s.find task.call.name = some entry.2 :=
    (find_eq_some_iff hkeys).mpr (hname ▸ hentry)
  rw [hfind, Option.some_inj] at hcurrent
  exact ⟨Prod.ext hname hcurrent.symm, hdead⟩

/-! ## The guarantees -/

/-- Two calls that connect under one name at a time, with two passwords. -/
def twoPasswords : List (ManagerEvent Unit) :=
  [.spawn (.connect "prod" () (.password "a") .connect),
    .spawn (.connect "prod" () (.password "b") .connect)] ++
    List.replicate 6 (.advance 0) ++ [.advance 1, .advance 1, .connected 0 (.ok ())] ++
    List.replicate 6 (.advance 0) ++ List.replicate 6 (.advance 1)

/-- The second one waits, and answers with the transport of the first. -/
theorem twoPasswords_run :
    (runEvents step (.new Unit 4 10) twoPasswords).map (fun s ↦
      (s.tasks[1]?.map fun task ↦ (task.call, task.phase),
        s.managed[0]?.map fun c ↦ (c.attempt, c.authentication))) =
      some (some (.connect "prod" () (.password "b") .connect,
        .finished (.transport 0 (.found .follower))), some (0, .nonReusable)) := by
  decide

theorem twoPasswords_reaches : ∃ (s : Manager Unit) (task : Task Unit) (c : ManagedConnection Unit),
    Reaches step (fun _ _ ↦ True) (.new Unit 4 10) s ∧ s.tasks[1]? = some task ∧
      task.call = .connect "prod" () (.password "b") .connect ∧
        task.phase = .finished (.transport 0 (.found .follower)) ∧ s.managed[0]? = some c ∧
          c.attempt = 0 ∧ c.authentication = .nonReusable := by
  obtain ⟨s, hs, hstate⟩ := Option.map_eq_some_iff.mp twoPasswords_run
  obtain ⟨htask, hc⟩ := Prod.mk.inj hstate
  obtain ⟨task, htask, hcall⟩ := Option.map_eq_some_iff.mp htask
  obtain ⟨c, hc, hattempt⟩ := Option.map_eq_some_iff.mp hc
  obtain ⟨hcall, hphase⟩ := Prod.mk.inj hcall
  obtain ⟨hattempt, hkey⟩ := Prod.mk.inj hattempt
  exact ⟨s, task, c, Reaches.start.runEvents _ hs, htask, hcall, hphase, hc, hattempt, hkey⟩

section

variable [DecidableEq Config] {maxConnections idleTimeout : Nat}

/-- At most one call leads for a name, only the leader for a name puts a connection under it, and
the permits that are held are those of the connections that are still referenced and of the attempts
under way. A connection whose references have gone is never referenced again, so its permit goes
back once; a call that has ended has neither a permit nor a lead. -/
theorem single_flight_and_capacity
    (hreach : Reaches step (fun _ _ ↦ True) (Manager.new Config maxConnections idleTimeout) s) :
    (∀ (t u : Nat) (task other : Task Config), s.tasks[t]? = some task → s.tasks[u]? = some other →
      task.leading ≠ none → other.leading ≠ none → task.call.name = other.call.name → t = u) ∧
    (∃ referenced : Finset Nat, (∀ id, id ∈ referenced ↔ s.Referenced id) ∧
      s.available + (referenced.card + s.inFlight) = maxConnections) ∧
    (∀ task ∈ s.tasks, task.permit = true →
      task.phase = .connecting ∨ ∃ outcome, task.phase = .unwind outcome) ∧
    (∀ task ∈ s.tasks, ∀ outcome, task.phase = .finished outcome →
      task.permit = false ∧ task.held = [] ∧ task.discarded = [] ∧ task.leading = none) ∧
    ∀ e s', s.step e = some s' →
      (∀ entry ∈ s'.connections, entry ∉ s.connections → ∃ t task signal, e = .advance t ∧
        s.tasks[t]? = some task ∧ task.phase = .insert entry.2 ∧ task.call.name = entry.1 ∧
          task.leading = some signal ∧ s.connecting entry.1 = some signal) ∧
      ∀ id < s.managed.length, ¬s.Referenced id → ¬s'.Referenced id := by
  have hvalid := valid_of_reaches hreach
  refine ⟨fun t u task other htask hother hlead hlead' hname ↦ ?_, ?_, fun task htask hpermit ↦ ?_,
    fun task htask outcome hphase ↦ ?_, fun e s' hs ↦ ⟨fun entry hentry hnew ↦ ?_,
      fun id hid hgone ↦ ?_⟩⟩
  · obtain ⟨signal, hlead⟩ := Option.ne_none_iff_exists'.mp hlead
    obtain ⟨signal', hlead'⟩ := Option.ne_none_iff_exists'.mp hlead'
    have hconnecting := (hvalid.flight.sound t task htask).leader signal hlead
    have hconnecting' := (hvalid.flight.sound u other hother).leader signal' hlead'
    rw [← hname, hconnecting, Option.some_inj] at hconnecting'
    exact hvalid.flight.single t u task other signal htask hother hlead (hconnecting' ▸ hlead')
  · refine ⟨s.ledger.used, fun id ↦ ?_, ?_⟩
    · rw [← strongCount_pos_iff, Ledger.mem_used]
      exact and_iff_right_of_imp hvalid.conserved.balanced.lt_size
    · rw [← Nat.add_assoc]
      exact hvalid.conserved.balanced.total
  · have htidy := hvalid.conserved.tidy task htask
    obtain ⟨t, htask⟩ := mem_iff_getElem?.mp htask
    exact phase_of_permit (hvalid.flight.sound t task htask).assured htidy hpermit
  · have htidy := hvalid.conserved.tidy task htask
    rw [Task.Tidy, hphase] at htidy
    exact ⟨htidy.2.2.1, htidy.2.1, htidy.1, htidy.2.2.2⟩
  · rcases step_entries hs hentry with hold | ⟨t, task, he, htask, hphase, hname⟩
    · exact absurd hold hnew
    · have hsound := hvalid.flight.sound t task htask
      have hassured := hsound.assured
      rw [Assured, hphase] at hassured
      obtain ⟨signal, hlead⟩ := Option.ne_none_iff_exists'.mp hassured.2.1.1
      exact ⟨t, task, signal, he, htask, hphase, hname, hlead, hname ▸ hsound.leader signal hlead⟩
  · rw [← strongCount_pos_iff, Nat.pos_iff_ne_zero, not_not] at hgone ⊢
    exact (step_keeps hvalid.conserved hvalid.flight hs).gone id hid hgone

theorem single_flight_and_capacity_two_passwords : ∃ s : Manager Unit,
    runEvents step (.new Unit 4 10) twoPasswords = some s ∧
      ∃ referenced : Finset Nat, (∀ id, id ∈ referenced ↔ s.Referenced id) ∧
        s.available + (referenced.card + s.inFlight) = 4 := by
  obtain ⟨s, hs, -⟩ := Option.map_eq_some_iff.mp twoPasswords_run
  exact ⟨s, hs, (single_flight_and_capacity (Reaches.start.runEvents _ hs)).2.1⟩

/-- A request that is not eligible for reuse is answered with a transport that its own attempt has
established, or, if it is one of `connect` or `connect_lease` that has waited for another attempt,
with one that some other request under the name with an equal configuration has established that is
not eligible for reuse either. Such a transport has not been met in the pool before. -/
theorem secret_authentication_isolated
    (hreach : Reaches step (fun _ _ ↦ True) (Manager.new Config maxConnections idleTimeout) s)
    {name : String} {config : Config} {authentication : Authentication} {entry : ConnectEntry}
    {id : Nat} {source : Source} (htask : s.tasks[t]? = some task)
    (hcall : task.call = .connect name config authentication entry)
    (hsecret : authentication.reuseKey = .nonReusable)
    (hphase : task.phase = .finished (.transport id source)) :
    ∃ c, s.managed[id]? = some c ∧ (c.attempt = t ∨
      entry ≠ .connectWithJumpAuth ∧ source = .found .follower ∧ id ∉ task.met ∧
        ∃ other theirs theirEntry, s.tasks[c.attempt]? = some other ∧
          other.call = .connect name config theirs theirEntry ∧ theirs.reuseKey = .nonReusable) := by
  have hanswers := answers_of_answer ((valid_of_reaches hreach).flight.sound t task htask).assured
    (show task.phase.answer = some (id, source) by rw [hphase]; rfl)
  cases source with
  | established =>
      obtain ⟨c, hc, hattempt, -⟩ := hanswers
      exact ⟨c, hc, .inl hattempt⟩
  | winner => exact hanswers.elim
  | found place =>
      obtain ⟨c, hc, ⟨other, theirs, theirEntry, hother, htheirs, hkey⟩, hsuits⟩ := hanswers
      simp only [hcall, Call.Suits, hsecret] at hsuits
      rw [hcall] at htheirs
      obtain ⟨hconfig, hreuse | ⟨hplace, hentry, hexisting, -, hmet⟩⟩ := hsuits
      · simp [canReuseWith_nonReusable] at hreuse
      · exact ⟨c, hc, .inr ⟨hentry, congrArg _ hplace, hmet, other, theirs, theirEntry, hother,
          hconfig ▸ htheirs, hkey ▸ hexisting⟩⟩

theorem secret_authentication_isolated_follower : ∃ (s : Manager Unit) (task : Task Unit),
    s.tasks[1]? = some task ∧ task.phase = .finished (.transport 0 (.found .follower)) ∧
      ∃ c, s.managed[0]? = some c ∧ (c.attempt = 1 ∨
        ConnectEntry.connect ≠ .connectWithJumpAuth ∧
          Source.found .follower = .found .follower ∧ 0 ∉ task.met ∧
            ∃ other theirs theirEntry, s.tasks[c.attempt]? = some other ∧
              other.call = .connect "prod" () theirs theirEntry ∧
                theirs.reuseKey = .nonReusable) := by
  obtain ⟨s, task, c, hreach, htask, hcall, hphase, -⟩ := twoPasswords_reaches
  exact ⟨s, task, htask, hphase, secret_authentication_isolated hreach htask hcall rfl hphase⟩

/-- The transport of one password is handed to a request with another. -/
theorem leader_transport_handed_over : ¬∀ (s : Manager Unit) (t : Nat) (task : Task Unit)
    (name : String) (config : Unit) (authentication : Authentication) (entry : ConnectEntry)
    (id : Nat) (source : Source), Reaches step (fun _ _ ↦ True) (.new Unit 4 10) s →
      s.tasks[t]? = some task → task.call = .connect name config authentication entry →
        authentication.reuseKey = .nonReusable → task.phase = .finished (.transport id source) →
          ∃ c, s.managed[id]? = some c ∧ c.attempt = t := by
  intro hclaim
  obtain ⟨s, task, c, hreach, htask, hcall, hphase, hc, hattempt, -⟩ := twoPasswords_reaches
  obtain ⟨own, hown, hattempt'⟩ := hclaim s 1 task _ _ _ _ _ _ hreach htask hcall rfl hphase
  rw [hc, Option.some_inj] at hown
  rw [← hown, hattempt] at hattempt'
  cases hattempt'

/-- A transport that was there already answers a request to connect only if its configuration is
equal to the one that is requested and its authentication is compatible, which for a request that
has waited for another attempt it also is if neither is eligible for reuse; and it is under the name
and alive where it is found. A connection that is put in while the attempt of a call goes on never
answers it. Pruning removes only connections that nobody else has, and where a connection has been
found dead only the very entry goes that was observed, and only if it is dead. -/
theorem safe_reuse_and_eviction
    (hreach : Reaches step (fun _ _ ↦ True) (Manager.new Config maxConnections idleTimeout) s) :
    (∀ (t : Nat) (task : Task Config), s.tasks[t]? = some task → ∀ id,
      task.phase.answer ≠ some (id, .winner) ∧
      ∀ place, task.phase.answer = some (id, .found place) →
        ∀ name config authentication entry, task.call = .connect name config authentication entry →
          ∃ c, s.managed[id]? = some c ∧ c.config = config ∧
            (c.authentication.canReuseWith authentication.reuseKey = true ∨
              place = .follower ∧ entry ≠ .connectWithJumpAuth ∧
                c.authentication = .nonReusable ∧ authentication.reuseKey = .nonReusable)) ∧
    ∀ e s', s.step e = some s' →
      (∀ (t : Nat) (task' : Task Config), s'.tasks[t]? = some task' → ∀ id place,
        task'.phase.answer = some (id, .found place) → ∃ task, s.tasks[t]? = some task ∧
          (task.phase.answer = some (id, .found place) ∨
            e = .advance t ∧ s.find task.call.name = some id ∧ s.alive id = true)) ∧
      ∀ (t : Nat) (task : Task Config), e = .advance t → s.tasks[t]? = some task →
        (task.phase = .prune →
          ∀ entry ∈ s.connections, entry ∉ s'.connections → s.Unused entry.2) ∧
        ∀ place observed, task.phase = .evict place observed →
          (∀ entry ∈ s'.connections, entry ∈ s.connections) ∧
            ∀ entry ∈ s.connections, entry ∉ s'.connections →
              entry = (task.call.name, observed) ∧ s.alive observed = false := by
  have hvalid := valid_of_reaches hreach
  refine ⟨fun t task htask id ↦ ⟨fun hanswer ↦ ?_, fun place hanswer name config authentication
    entry hcall ↦ ?_⟩, fun e s' hs ↦ ⟨fun t task' htask' id place hanswer ↦
      step_found hs htask' hanswer, fun t task he htask ↦ ?_⟩⟩
  · exact answers_of_answer (hvalid.flight.sound t task htask).assured hanswer
  · obtain ⟨c, hc, -, hsuits⟩ :=
      answers_of_answer (hvalid.flight.sound t task htask).assured hanswer
    simp only [hcall, Call.Suits] at hsuits
    obtain ⟨hconfig, hreuse | ⟨hplace, hentry, hexisting, hkey, -⟩⟩ := hsuits
    · exact ⟨c, hc, hconfig, .inl hreuse⟩
    · exact ⟨c, hc, hconfig, .inr ⟨hplace, hentry, hexisting, hkey⟩⟩
  · rw [he] at hs
    obtain ⟨task', htask', hs⟩ := Option.bind_eq_some_iff.mp hs
    rw [htask, Option.some_inj] at htask'
    subst htask'
    refine ⟨fun hphase entry hentry hgone ↦ ?_, fun place observed hphase ↦ ?_⟩
    · simp only [advance, hphase, Option.some_inj] at hs
      exact prune_removes hentry (hs ▸ hgone)
    · simp only [advance, hphase, Option.some_inj] at hs
      refine ⟨fun entry hentry ↦ ?_, fun entry hentry hgone ↦ ?_⟩
      · rw [← hs] at hentry
        exact mem_of_mem_filter hentry
      · exact evict_removes hvalid.flight.keys hentry (hs ▸ hgone)

theorem safe_reuse_and_eviction_follower : ∃ (s : Manager Unit) (c : ManagedConnection Unit),
    s.managed[0]? = some c ∧ c.config = () ∧
      (c.authentication.canReuseWith .nonReusable = true ∨
        Lookup.follower = .follower ∧ ConnectEntry.connect ≠ .connectWithJumpAuth ∧
          c.authentication = .nonReusable ∧ AuthenticationReuseKey.nonReusable = .nonReusable) := by
  obtain ⟨s, task, -, hreach, htask, hcall, hphase, -⟩ := twoPasswords_reaches
  obtain ⟨c, hc⟩ := ((safe_reuse_and_eviction hreach).1 1 task htask 0).2 .follower
    (by rw [hphase]; rfl) _ _ _ _ hcall
  exact ⟨s, c, hc⟩

/-- A transport answers a request whose authentication cannot be reused with its own. -/
theorem non_reusable_transport_reused : ¬∀ (s : Manager Unit) (t : Nat) (task : Task Unit)
    (name : String) (config : Unit) (authentication : Authentication) (entry : ConnectEntry)
    (id : Nat) (place : Lookup), Reaches step (fun _ _ ↦ True) (.new Unit 4 10) s →
      s.tasks[t]? = some task → task.call = .connect name config authentication entry →
        task.phase = .finished (.transport id (.found place)) →
          ∃ c, s.managed[id]? = some c ∧ c.config = config ∧
            c.authentication.canReuseWith authentication.reuseKey = true := by
  intro hclaim
  obtain ⟨s, task, c, hreach, htask, hcall, hphase, hc, -, hkey⟩ := twoPasswords_reaches
  obtain ⟨other, hother, -, hreuse⟩ := hclaim s 1 task _ _ _ _ _ _ hreach htask hcall hphase
  rw [hc, Option.some_inj] at hother
  rw [← hother, hkey] at hreuse
  cases hreuse

end

end Manager

end KaduoxSsh.Core
