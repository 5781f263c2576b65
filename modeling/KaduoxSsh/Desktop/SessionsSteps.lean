import KaduoxSsh.Core.ManagerSafety
import KaduoxSsh.Desktop.Sessions

/-!
# The steps of the operations on sessions

What each step of an operation does to what is kept for a name: where something is put
in, where a disconnection counts a place as cleared, and where a heal that has been
overtaken by one is on its way to take its result out again (`Went`). The steps that
leave something behind are those that `KeepsClear` excludes.
-/

namespace KaduoxSsh.Desktop.Sessions

open KaduoxSsh.Core Hosts Option

inductive Place where
  | terminals
  | forwards
  | sessions
  | transport

namespace DesktopState

variable (s : DesktopState)

/-! ## What is left -/

/-- Something is kept for a name. -/
def Holds : Place → String → Prop
  | .terminals, name => ∃ terminal ∈ s.terminals, trimmed terminal.hostAlias = name
  | .forwards, name => ∃ forward ∈ s.forwards, trimmed forward.hostAlias = name
  | .sessions, name => ∃ entry, s.sessions.get? name = some entry
  | .transport, name => ∃ id, (name, id) ∈ s.manager.connections

structure NothingLeft (name : String) : Prop where
  terminals : ∀ terminal ∈ s.terminals, trimmed terminal.hostAlias ≠ name
  forwards : ∀ forward ∈ s.forwards, trimmed forward.hostAlias ≠ name
  session : s.sessions.get? name = none
  transport : s.manager.find name = none

/-- Once an operation that disconnects has returned, those that began before have ended and none
that connects has begun since, nothing is left under the name. -/
def LeavesNothing : Prop :=
  ∀ d task, s.tasks[d]? = some task → task.routine = .disconnect →
    task.phase = .finished (.ok ()) →
    (∀ (t : Nat) (other : Task), s.tasks[t]? = some other → other.name = task.name →
      d ∉ other.settled → other.phase.isFinished = true) →
    (∀ (t : Nat) (other : Task), s.tasks[t]? = some other → other.name = task.name →
      other.routine = .connect → d ∉ other.settled) →
    s.NothingLeft task.name

/-! ## What a run keeps clear of -/

/-- An operation that disconnects has taken out what was in a place. -/
def Cleared (place : Place) (name : String) (phase : Phase) : Prop :=
  match phase with
  | .stopForwards => place = .terminals
  | .removeSession => place = .terminals ∨ place = .forwards
  | .removeTransport => place ≠ .transport
  | .removing call =>
      place = .transport → s.manager.tasks[call]? ≠ some (.new (.remove name))
  | .dropLock | .finished (.ok _) => True
  | _ => False

/-- A place has been cleared by an operation that disconnects, and none that connects has begun
since it returned. -/
structure Sweeps (d : Nat) (place : Place) (name : String) : Prop where
  cleared : ∃ task, s.tasks[d]? = some task ∧ task.routine = .disconnect ∧ task.name = name ∧
    s.Cleared place name task.phase
  latest : ∀ (t : Nat) (other : Task), s.tasks[t]? = some other → other.name = name →
    other.routine = .connect → d ∉ other.settled

/-- A heal comes to the place where it compares the numbers, or has found that they are not the
same, and has still to take out what is in a place. -/
def Pending (place : Place) (name : String) (phase : Phase) : Prop :=
  match phase with
  | .connecting _ | .leasing _ | .record _ | .discardTransport => place = .transport
  | .insertSession _ _ | .confirm | .clearFailure _ | .compareGeneration _ | .discardSession =>
      place = .sessions ∨ place = .transport
  | .discarding call =>
      place = .transport ∧ s.manager.tasks[call]? = some (.new (.remove name))
  | _ => False

/-- A heal that began before an operation that disconnects returned, and of which the number has
been raised, has still to take out what is in a place. -/
def Discards (d : Nat) (place : Place) (name : String) (h : Nat) : Prop :=
  ∃ task, s.tasks[h]? = some task ∧ task.routine = .lease ∧ task.name = name ∧
    d ∉ task.settled ∧ task.generation < s.generation name ∧ s.Pending place name task.phase

/-- What is put in now is left behind. -/
def Late (place : Place) (name : String) : Prop :=
  ∃ d, s.Sweeps d place name ∧ ¬∃ h, s.Discards d place name h

/-- An event puts something in. -/
def Inserts (e : Event) (place : Place) (name : String) : Prop :=
  match e with
  | .advance t => ∃ task, s.tasks[t]? = some task ∧ task.name = name ∧
      match task.phase, task.operation with
      | .leased _, .startTerminal _ _ _ => place = .terminals
      | .insertForward _, _ => place = .forwards
      | .insertSession _ _, _ => place = .sessions
      | .reinsert _, _ => place = .sessions ∧ task.removed ≠ none
      | _, _ => False
  | .manager (.advance call) => place = .transport ∧ ∃ c id,
      s.manager.tasks[call]? = some c ∧ c.phase = .insert id ∧ c.call.name = name
  | _ => False

/-- A heal fails that has begun to connect. -/
def Fails (e : Event) (h : Nat) : Prop :=
  ∃ task, s.tasks[h]? = some task ∧
    match e, task.phase with
    | .advance t, .connecting call => t = h ∧ ∃ error, s.manager.answer call = some (.failed error)
    | .advance t, .leasing call => t = h ∧ s.manager.answer call = some .absent
    | .advance t, .confirm => t = h ∧ s.liveSessionLease task.name = none
    | .recorded t (.error _), .record _ => t = h
    | _, _ => False

/-- What a step must not do for nothing to be left behind. -/
structure KeepsClear (e : Event) : Prop where
  /-- It does not put in what nobody takes out again. -/
  inserts : ∀ place name, s.Inserts e place name → ¬s.Late place name
  /-- When a heal fails, another one takes out what is left. -/
  fails : ∀ h, s.Fails e h → ∀ d place name, s.Sweeps d place name → s.Holds place name →
    s.Discards d place name h → ∃ h', h' ≠ h ∧ s.Discards d place name h'
  /-- What is stopped has not been kept under the name with blanks around it. -/
  terminals : ∀ d task, e = .advance d → s.tasks[d]? = some task →
    task.routine = .disconnect → task.phase = .stopTerminals →
    ∀ terminal ∈ s.terminals, trimmed terminal.hostAlias = task.name →
      terminal.hostAlias = task.name
  forwards : ∀ d task, e = .advance d → s.tasks[d]? = some task →
    task.routine = .disconnect → task.phase = .stopForwards →
    ∀ forward ∈ s.forwards, trimmed forward.hostAlias = task.name →
      forward.hostAlias = task.name

end DesktopState

namespace DesktopState

variable {s s' : DesktopState} {e : Event} {t : Nat} {task task' : Task} {error : AnyError}
  {name : String} {outcome : Outcome} {lease : Nat} {tasks : List Task} {call : Nat}

theorem nothingLeft_iff : s.NothingLeft name ↔ ∀ place, ¬s.Holds place name := by
  constructor
  · rintro ⟨hterminals, hforwards, hsession, htransport⟩ place hholds
    cases place with
    | terminals =>
        obtain ⟨terminal, hmem, hname⟩ := hholds
        exact hterminals terminal hmem hname
    | forwards =>
        obtain ⟨forward, hmem, hname⟩ := hholds
        exact hforwards forward hmem hname
    | sessions =>
        obtain ⟨entry, hentry⟩ := hholds
        cases hsession.symm.trans hentry
    | transport =>
        obtain ⟨id, hmem⟩ := hholds
        exact lookup_eq_none_iff_notMem.mp htransport id hmem
  · intro h
    refine ⟨fun terminal hmem hname ↦ h .terminals ⟨terminal, hmem, hname⟩,
      fun forward hmem hname ↦ h .forwards ⟨forward, hmem, hname⟩,
      eq_none_iff_forall_not_mem.mpr fun entry hentry ↦ h .sessions ⟨entry, hentry⟩,
      lookup_eq_none_iff_notMem.mpr fun id hmem ↦ h .transport ⟨id, hmem⟩⟩

/-! ## What a step does -/

/-- What is kept changes. -/
structure Steps (s s' : DesktopState) (e : Event) : Prop where
  entries : ∀ place name, s'.Holds place name → s.Holds place name ∨ s.Inserts e place name
  /-- A call that removes waits, or it has removed. -/
  calls : ∀ (call : Nat) (name : String), s.manager.tasks[call]? = some (.new (.remove name)) →
    s'.manager.tasks[call]? = some (.new (.remove name)) ∨ ¬s'.Holds .transport name
  generation : ∀ name, s.generation name ≤ s'.generation name

theorem Steps.of_manager
    (hterminals : ∀ terminal ∈ s'.terminals,
      terminal ∈ s.terminals ∨ s.Inserts e .terminals (trimmed terminal.hostAlias))
    (hforwards : ∀ forward ∈ s'.forwards,
      forward ∈ s.forwards ∨ s.Inserts e .forwards (trimmed forward.hostAlias))
    (hsessions : ∀ name entry, s'.sessions.get? name = some entry →
      s.sessions.get? name = some entry ∨ s.Inserts e .sessions name)
    (hmanager : s'.manager = s.manager ∨ ∃ call, s'.manager = (s.call call).manager)
    (hgeneration : ∀ name, s.generation name ≤ s'.generation name) : s.Steps s' e where
  entries place name hholds := by
    cases place with
    | terminals =>
        obtain ⟨terminal, hmem, rfl⟩ := hholds
        exact (hterminals terminal hmem).imp_left fun hmem ↦ ⟨terminal, hmem, rfl⟩
    | forwards =>
        obtain ⟨forward, hmem, rfl⟩ := hholds
        exact (hforwards forward hmem).imp_left fun hmem ↦ ⟨forward, hmem, rfl⟩
    | sessions =>
        obtain ⟨entry, hentry⟩ := hholds
        exact (hsessions name entry hentry).imp_left fun hentry ↦ ⟨entry, hentry⟩
    | transport =>
        obtain ⟨id, hmem⟩ := hholds
        obtain heq | ⟨call, heq⟩ := hmanager
        · exact .inl ⟨id, heq ▸ hmem⟩
        · rw [heq] at hmem
          exact .inl ⟨id, hmem⟩
  calls call name hcall := by
    left
    obtain heq | ⟨next, heq⟩ := hmanager
    · rwa [heq]
    · rw [heq]
      exact List.getElem?_append_left (List.getElem?_eq_some_iff.mp hcall).1 ▸ hcall
  generation := hgeneration

/-- Nothing of what is kept changes. -/
structure SameTables (s s' : DesktopState) : Prop where
  manager : s'.manager = s.manager ∨ ∃ call, s'.manager = (s.call call).manager
  sessions : s'.sessions = s.sessions
  terminals : s'.terminals = s.terminals
  forwards : s'.forwards = s.forwards
  generations : s'.disconnectGenerations = s.disconnectGenerations

theorem SameTables.steps (h : s.SameTables s') : s.Steps s' e := by
  refine .of_manager (fun terminal hmem ↦ .inl (h.terminals ▸ hmem))
    (fun forward hmem ↦ .inl (h.forwards ▸ hmem)) (fun name entry hentry ↦ .inl ?_) h.manager
    fun name ↦ ?_
  · rwa [h.sessions] at hentry
  · rw [generation, generation, h.generations]

/-- An operation goes on. -/
structure Went (s s' : DesktopState) (e : Event) (t : Nat) (task task' : Task) : Prop where
  tasks : s'.tasks = s.tasks.set t task'
  operation : task'.operation = task.operation
  settled : task'.settled = task.settled
  steps : s.Steps s' e
  /-- A place counts as cleared only when nothing is there. -/
  clears : task.routine = .disconnect → s.KeepsClear e → ∀ place,
    s'.Cleared place task.name task'.phase →
      s.Cleared place task.name task.phase ∨ ¬s'.Holds place task.name
  /-- A heal of which the number has been raised goes on until nothing is there, or fails. -/
  discards : task.routine = .lease → task.generation < s.generation task.name → ∀ place,
    s.Pending place task.name task.phase →
      task'.generation = task.generation ∧ s'.Pending place task.name task'.phase ∨
        ¬s'.Holds place task.name ∨ s.Fails e t

/-- A step of an operation that does not disconnect, or that has not cleared anything yet. -/
theorem went_of {phase : Phase} (hphase : task.phase = phase)
    (htasks : s'.tasks = s.tasks.set t task') (hoperation : task'.operation = task.operation)
    (hsettled : task'.settled = task.settled) (hsteps : s.Steps s' e)
    (hcleared : task.routine = .disconnect → ∀ place, ¬s'.Cleared place task.name task'.phase)
    (hdiscards : task.routine = .lease → task.generation < s.generation task.name → ∀ place,
      s.Pending place task.name phase →
        task'.generation = task.generation ∧ s'.Pending place task.name task'.phase ∨
          ¬s'.Holds place task.name ∨ s.Fails e t) : s.Went s' e t task task' where
  tasks := htasks
  operation := hoperation
  settled := hsettled
  steps := hsteps
  clears hroutine _ place hclear := absurd hclear (hcleared hroutine place)
  discards hroutine hold place hpend := hdiscards hroutine hold place (hphase ▸ hpend)

/-- A step of an operation that has nothing to discard. -/
theorem clear_went {phase : Phase} (hphase : task.phase = phase)
    (htasks : s'.tasks = s.tasks.set t task') (hoperation : task'.operation = task.operation)
    (hsettled : task'.settled = task.settled) (hsteps : s.Steps s' e)
    (hpending : ∀ place, ¬s.Pending place task.name phase)
    (hclears : task.routine = .disconnect → s.KeepsClear e → ∀ place,
      s'.Cleared place task.name task'.phase →
        s.Cleared place task.name phase ∨ ¬s'.Holds place task.name) : s.Went s' e t task task' where
  tasks := htasks
  operation := hoperation
  settled := hsettled
  steps := hsteps
  clears hroutine hkeeps place hclear := hphase ▸ hclears hroutine hkeeps place hclear
  discards _ _ place hpend := absurd (hphase ▸ hpend) (hpending place)

theorem same_rfl {locks : List (Option Nat)} {reconnectLocks : SortedMap String Nat}
    {healFailures : SortedMap String (Nat × Nat)} {ids : Nat} :
    s.SameTables { s with locks, reconnectLocks, healFailures, ids, tasks } :=
  ⟨.inl rfl, rfl, rfl, rfl, rfl⟩

section

variable {locks : List (Option Nat)} {reconnectLocks : SortedMap String Nat}
  {healFailures : SortedMap String (Nat × Nat)} {ids id generation : Nat} {phase next : Phase}
  {guard : Option Nat} {previous : SessionDto} {removed : Option SessionEntry}
  {plan : Option (ConnectionConfig × Authentication)}

/-- A step that changes nothing of what is kept, of an operation that has not cleared anything. -/
theorem going_went (hphase : task.phase = phase)
    (hcleared : task.routine = .disconnect → ∀ place, ¬s.Cleared place task.name next)
    (hdiscards : task.routine = .lease → task.generation < s.generation task.name → ∀ place,
      s.Pending place task.name phase → generation = task.generation ∧
        s.Pending place task.name next ∨ ¬s.Holds place task.name ∨ s.Fails e t) :
    ∃ task', s.Went { s with
      locks, reconnectLocks, healFailures, ids
      tasks := s.tasks.set t { task with
        phase := next, guard, generation, previous, removed, plan, id } } e t task task' :=
  ⟨_, went_of hphase rfl rfl rfl same_rfl.steps hcleared hdiscards⟩

/-- The operation has nothing to discard either. -/
theorem idle_went (hphase : task.phase = phase) (hcleared : ∀ place, ¬s.Cleared place task.name next)
    (hpending : ∀ place, ¬s.Pending place task.name phase) :
    ∃ task', s.Went { s with
      locks, reconnectLocks, healFailures, ids
      tasks := s.tasks.set t { task with
        phase := next, guard, generation, previous, removed, plan, id } } e t task task' :=
  going_went hphase (fun _ ↦ hcleared) fun _ _ place hpend ↦ absurd hpend (hpending place)

end

theorem probe_went (hphase : task.phase = .probe) (hs : s.probe t task = some s') :
    ∃ task', s.Went s' e t task task' := by
  unfold probe at hs
  split at hs
  · next hroutine _ =>
      cases hs
      exact going_went hphase (fun h ↦ by cases hroutine.symm.trans h)
        fun _ _ _ hpend ↦ absurd hpend id
  · cases hs
    exact idle_went hphase (fun _ h ↦ h) fun _ h ↦ h
  · cases hs
  · cases hs
    exact idle_went hphase (fun _ h ↦ h) fun _ h ↦ h

theorem known_went (hphase : task.phase = .known) :
    ∃ task', s.Went (s.known t task) e t task task' := by
  unfold known
  split
  all_goals exact idle_went hphase (fun _ h ↦ h) fun _ h ↦ h

theorem takeLock_went (hphase : task.phase = .takeLock) :
    ∃ task', s.Went (s.takeLock t task) e t task task' := by
  unfold takeLock
  split
  all_goals exact idle_went hphase (fun _ h ↦ h) fun _ h ↦ h

theorem lock_went {lock : Nat} (hphase : task.phase = .lock lock)
    (hs : s.lock t task lock = some s') : ∃ task', s.Went s' e t task task' := by
  rw [DesktopState.lock, ite_none_right_eq_some] at hs
  cases hs.2
  refine going_went hphase (fun _ _ h ↦ ?_) fun _ _ _ hpend ↦ absurd hpend id
  split at h <;> exact h

theorem recheck_went (hphase : task.phase = .recheck) (hs : s.recheck t task = some s') :
    ∃ task', s.Went s' e t task task' := by
  unfold recheck at hs
  split at hs
  · cases hs
    exact idle_went hphase (fun _ h ↦ h) fun _ h ↦ h
  · cases hs
    exact idle_went hphase (fun _ h ↦ h) fun _ h ↦ h
  · cases hs

theorem cooldown_went (hphase : task.phase = .cooldown) :
    ∃ task', s.Went (s.cooldown t task) e t task task' := by
  unfold cooldown
  split
  · dsimp only
    split
    all_goals exact idle_went hphase (fun _ h ↦ h) fun _ h ↦ h
  · exact idle_went hphase (fun _ h ↦ h) fun _ h ↦ h

theorem previous_went (hphase : task.phase = .previous) :
    ∃ task', s.Went (s.previous t task) e t task task' := by
  unfold previous
  split
  all_goals exact idle_went hphase (fun _ h ↦ h) fun _ h ↦ h

/-! ## Clearing a place -/

theorem noteGeneration_went (hphase : task.phase = .noteGeneration) :
    ∃ task', s.Went (s.noteGeneration t task) e t task task' := by
  refine ⟨_, went_of hphase rfl rfl rfl ?_ (fun _ _ h ↦ h) fun _ _ _ h ↦ absurd h id⟩
  refine .of_manager (fun _ ↦ .inl) (fun _ ↦ .inl) (fun _ _ ↦ .inl) (.inl rfl) fun name ↦ ?_
  show _ ≤ ((s.disconnectGenerations.insert _ _).get? name).getD 0
  rw [SortedMap.get?_insert]
  split
  · next heq =>
      rw [heq]
      exact Nat.le_succ _
  · exact le_rfl

theorem stopTerminals_went (hphase : task.phase = .stopTerminals)
    (htask : s.tasks[t]? = some task) :
    ∃ task', s.Went (s.stopTerminals t task) (.advance t) t task task' := by
  have hsteps : s.Steps (s.stopTerminals t task) (.advance t) :=
    .of_manager (fun _ hmem ↦ .inl (List.mem_of_mem_filter hmem)) (fun _ ↦ .inl) (fun _ _ ↦ .inl)
      (.inl rfl) fun _ ↦ le_rfl
  refine ⟨_, clear_went hphase rfl rfl rfl hsteps (fun _ h ↦ h)
    fun hroutine hkeeps place hclear ↦ .inr ?_⟩
  cases (hclear : place = .terminals)
  rintro ⟨terminal, hmem, hname⟩
  obtain ⟨hmem, hne⟩ := List.mem_filter.mp hmem
  exact of_decide_eq_true hne (hkeeps.terminals t task rfl htask hroutine hphase terminal hmem hname)
theorem stopForwards_went (hphase : task.phase = .stopForwards)
    (htask : s.tasks[t]? = some task) :
    ∃ task', s.Went (s.stopForwards t task) (.advance t) t task task' := by
  have hsteps : s.Steps (s.stopForwards t task) (.advance t) :=
    .of_manager (fun _ ↦ .inl) (fun _ hmem ↦ .inl (List.mem_of_mem_filter hmem)) (fun _ _ ↦ .inl)
      (.inl rfl) fun _ ↦ le_rfl
  refine ⟨_, clear_went hphase rfl rfl rfl hsteps (fun _ h ↦ h)
    fun hroutine hkeeps place hclear ↦ ?_⟩
  obtain rfl | rfl := (hclear : place = .terminals ∨ place = .forwards)
  · exact .inl rfl
  · right
    rintro ⟨forward, hmem, hname⟩
    obtain ⟨hmem, hne⟩ := List.mem_filter.mp hmem
    exact of_decide_eq_true hne (hkeeps.forwards t task rfl htask hroutine hphase forward hmem hname)
/-- A session that is taken out. -/
theorem erase_steps {sessions : SortedMap String SessionEntry}
    (hsessions : sessions = s.sessions.erase name) : s.Steps { s with sessions, tasks } e := by
  refine .of_manager (fun _ ↦ .inl) (fun _ ↦ .inl) (fun other entry hentry ↦ .inl ?_) (.inl rfl)
    fun _ ↦ le_rfl
  dsimp only at hentry
  rw [hsessions, SortedMap.get?_erase] at hentry
  split at hentry
  · cases hentry
  · exact hentry

theorem not_holds_erase (hsessions : s'.sessions = s.sessions.erase name) :
    ¬s'.Holds .sessions name := by
  rintro ⟨entry, hentry⟩
  rw [hsessions, SortedMap.get?_erase, if_pos rfl] at hentry
  cases hentry

theorem removeSession_went (hphase : task.phase = .removeSession) :
    ∃ task', s.Went (s.removeSession t task) e t task task' := by
  refine ⟨_, clear_went hphase rfl rfl rfl (erase_steps rfl) (fun _ h ↦ h)
    fun _ _ place hclear ↦ ?_⟩
  cases place with
  | terminals => exact .inl (.inl rfl)
  | forwards => exact .inl (.inr rfl)
  | sessions => exact .inr (not_holds_erase rfl)
  | transport => exact absurd rfl hclear

/-- A call is made. -/
theorem call_same (call : Call ConnectionConfig) (phase : Phase) :
    s.SameTables ((s.call call).goOn t task phase) := ⟨.inr ⟨call, rfl⟩, rfl, rfl, rfl, rfl⟩

theorem getElem?_call (call : Call ConnectionConfig) :
    (s.call call).manager.tasks[s.manager.tasks.length]? = some (.new call) :=
  List.getElem?_concat_length

theorem removeTransport_went (hphase : task.phase = .removeTransport) :
    ∃ task', s.Went (s.removeTransport t task) e t task task' := by
  refine ⟨_, clear_went hphase rfl rfl rfl (call_same _ _).steps (fun _ h ↦ h)
    fun _ _ place hclear ↦ .inl fun htransport ↦ ?_⟩
  exact (hclear : place = .transport → _) htransport (getElem?_call _)

theorem answer_new (call : Nat) (h : s.manager.tasks[call]? = some (.new (.remove name))) :
    s.manager.answer call = none := by
  rw [Manager.answer, h]
  rfl

theorem removed_went (hphase : task.phase = .removing call)
    (hanswer : s.manager.answer call = some outcome) :
    ∃ task', s.Went (s.removed t task) e t task task' := by
  have hdone : s.manager.tasks[call]? ≠ some (.new (.remove task.name)) := fun hnew ↦ by
    rw [answer_new call hnew] at hanswer
    cases hanswer
  unfold removed
  split
  · exact idle_went hphase (fun _ h ↦ h) fun _ h ↦ h
  · exact idle_went hphase (fun _ h ↦ h) fun _ h ↦ h
  · exact ⟨_, clear_went hphase rfl rfl rfl same_rfl.steps (fun _ h ↦ h)
      fun _ _ _ _ ↦ .inl fun _ ↦ hdone⟩

theorem dropLock_went (hphase : task.phase = .dropLock) :
    ∃ task', s.Went (s.dropLock t task) e t task task' :=
  ⟨_, clear_went hphase rfl rfl rfl same_rfl.steps (fun _ h ↦ h) fun _ _ _ _ ↦ .inl trivial⟩

/-! ## Reconnecting -/

/-- An attempt to connect that fails is the failure of a heal. -/
theorem connectFailed_went {phase : Phase} (hphase : task.phase = phase)
    (hs : s.connectFailed t task error = some s')
    (hfails : (∃ place, s.Pending place task.name phase) → s.Fails e t) :
    ∃ task', s.Went s' e t task task' := by
  unfold connectFailed at hs
  split at hs
  · cases hs
    exact going_went hphase (fun _ _ h ↦ h) fun _ _ place hpend ↦
      .inr (.inr (hfails ⟨place, hpend⟩))
  · cases hs
    exact going_went hphase (fun _ _ h ↦ h) fun _ _ place hpend ↦
      .inr (.inr (hfails ⟨place, hpend⟩))
  · cases hs

theorem connect_went (hphase : task.phase = .connect) (hs : s.connect t task = some s') :
    ∃ task', s.Went s' e t task task' := by
  unfold connect at hs
  split at hs
  · split at hs
    · cases hs
      exact ⟨_, went_of hphase rfl rfl rfl (call_same _ _).steps (fun _ _ h ↦ h)
        fun _ _ _ hpend ↦ absurd hpend id⟩
    · exact connectFailed_went hphase hs fun ⟨_, hpend⟩ ↦ absurd hpend id
  · cases hs

theorem connected_went (hphase : task.phase = .connecting call) (htask : s.tasks[t]? = some task)
    (hanswer : s.manager.answer call = some outcome) (hs : s.connected t task outcome = some s') :
    ∃ task', s.Went s' (.advance t) t task task' := by
  unfold connected at hs
  split at hs
  · cases hs
    exact ⟨_, went_of hphase rfl rfl rfl (call_same _ _).steps (fun _ _ h ↦ h)
      fun _ _ _ hpend ↦ .inl ⟨rfl, hpend⟩⟩
  · refine connectFailed_went hphase hs fun _ ↦ ⟨task, htask, ?_⟩
    rw [hphase]
    exact ⟨rfl, _, hanswer⟩
  · cases hs

theorem gotLease_went (hphase : task.phase = .leasing call) (htask : s.tasks[t]? = some task)
    (hanswer : s.manager.answer call = some outcome) (hs : s.gotLease t task outcome = some s') :
    ∃ task', s.Went s' (.advance t) t task task' := by
  unfold gotLease at hs
  split at hs
  · cases hs
    exact going_went hphase (fun _ _ h ↦ h) fun _ _ _ hpend ↦ .inl ⟨rfl, hpend⟩
  · refine connectFailed_went hphase hs fun _ ↦ ⟨task, htask, ?_⟩
    rw [hphase]
    exact ⟨rfl, hanswer⟩
  · cases hs

/-- A session is put in, and nothing else that is kept changes. -/
theorem insert_steps {sessions : SortedMap String SessionEntry} {locks : List (Option Nat)}
    {entry : SessionEntry} (hsessions : sessions = s.sessions.insert name entry)
    (hinserts : s.Inserts e .sessions name) : s.Steps { s with sessions, locks, tasks } e := by
  refine .of_manager (fun _ ↦ .inl) (fun _ ↦ .inl) (fun other entry hentry ↦ ?_) (.inl rfl)
    fun _ ↦ le_rfl
  dsimp only at hentry
  rw [hsessions, SortedMap.get?_insert] at hentry
  split at hentry
  · next heq => exact .inr (heq ▸ hinserts)
  · exact .inl hentry

/-- A session is put in: what may be late. -/
theorem insertSession_went {details : SessionDto}
    (hphase : task.phase = .insertSession lease details) (htask : s.tasks[t]? = some task)
    (hs : s.insertSession t task lease details = some s') :
    ∃ task', s.Went s' (.advance t) t task task' := by
  have hinserts : s.Inserts (.advance t) .sessions task.name := by
    refine ⟨task, htask, rfl, ?_⟩
    rw [hphase]
  unfold insertSession at hs
  dsimp only at hs
  split at hs
  · next hroutine =>
      cases hs
      exact ⟨_, went_of hphase rfl rfl rfl (insert_steps rfl hinserts)
        (fun h ↦ by cases hroutine.symm.trans h) fun h ↦ by cases hroutine.symm.trans h⟩
  · cases hs
    exact ⟨_, went_of hphase rfl rfl rfl (insert_steps rfl hinserts) (fun _ _ h ↦ h)
      fun _ _ _ hpend ↦ .inl ⟨rfl, hpend⟩⟩
  · cases hs

theorem confirm_went (hphase : task.phase = .confirm) (htask : s.tasks[t]? = some task) :
    ∃ task', s.Went (s.confirm t task) (.advance t) t task task' := by
  unfold confirm
  split
  · exact going_went hphase (fun _ _ h ↦ h) fun _ _ _ hpend ↦ .inl ⟨rfl, hpend⟩
  · next hdead =>
      refine going_went hphase (fun _ _ h ↦ h) fun _ _ _ _ ↦ .inr (.inr ⟨task, htask, ?_⟩)
      rw [hphase]
      exact ⟨rfl, hdead⟩

theorem clearFailure_went (hphase : task.phase = .clearFailure lease) :
    ∃ task', s.Went (s.clearFailure t task lease) e t task task' :=
  going_went hphase (fun _ _ h ↦ h) fun _ _ _ hpend ↦ .inl ⟨rfl, hpend⟩

/-- A heal of which the number has been raised finds that. -/
theorem compareGeneration_went (hphase : task.phase = .compareGeneration lease) :
    ∃ task', s.Went (s.compareGeneration t task lease) e t task task' := by
  unfold compareGeneration
  split
  · exact going_went hphase (fun _ _ h ↦ h) fun _ _ _ hpend ↦ .inl ⟨rfl, hpend⟩
  · next hsame =>
      exact going_went hphase (fun _ _ h ↦ h) fun _ hold ↦ absurd hold.ne' hsame

theorem discardSession_went (hphase : task.phase = .discardSession) :
    ∃ task', s.Went (s.discardSession t task) e t task task' := by
  refine ⟨_, went_of hphase rfl rfl rfl (erase_steps rfl) (fun _ _ h ↦ h) fun _ _ place hpend ↦ ?_⟩
  obtain rfl | rfl := (hpend : place = .sessions ∨ place = .transport)
  · exact .inr (.inl (not_holds_erase rfl))
  · exact .inl ⟨rfl, rfl⟩

theorem discardTransport_went (hphase : task.phase = .discardTransport) :
    ∃ task', s.Went (s.discardTransport t task) e t task task' :=
  ⟨_, went_of hphase rfl rfl rfl (call_same _ _).steps (fun _ _ h ↦ h)
    fun _ _ _ hpend ↦ .inl ⟨rfl, hpend, getElem?_call _⟩⟩

theorem discarding_went {result : Result Unit} (hphase : task.phase = .discarding call)
    (hanswer : s.manager.answer call = some outcome) (hresult : result = .error error) :
    ∃ task', s.Went (s.finish t task result) e t task task' := by
  subst hresult
  refine going_went hphase (fun _ _ h ↦ h) fun _ _ place hpend ↦ ?_
  rw [answer_new call hpend.2] at hanswer
  cases hanswer

/-- A session is put back after a heal that failed. -/
theorem reinsert_went (hphase : task.phase = .reinsert error) (htask : s.tasks[t]? = some task) :
    ∃ task', s.Went (s.reinsert t task error) (.advance t) t task task' := by
  unfold reinsert
  dsimp only
  split
  · next entry hremoved =>
      have hinserts : s.Inserts (.advance t) .sessions task.name := by
        refine ⟨task, htask, rfl, ?_⟩
        rw [hphase]
        exact ⟨rfl, hremoved ▸ some_ne_none entry⟩
      exact ⟨_, went_of hphase rfl rfl rfl (insert_steps rfl hinserts) (fun _ _ h ↦ h)
        fun _ _ _ hpend ↦ absurd hpend id⟩
  · exact idle_went hphase (fun _ h ↦ h) fun _ h ↦ h

theorem noteFailure_went (hphase : task.phase = .noteFailure error) :
    ∃ task', s.Went (s.noteFailure t task error) e t task task' :=
  idle_went hphase (fun _ h ↦ h) fun _ h ↦ h

/-! ## Terminals and forwards -/

/-- An operation puts in what it was for, and ends. -/
theorem put_went {phase : Phase} {terminals : List TerminalControl} {forwards : List ForwardControl}
    {ids : Nat} (hphase : task.phase = phase) (hroutine : task.routine ≠ .disconnect)
    (hpending : ∀ place, ¬s.Pending place task.name phase)
    (hterminals : ∀ terminal ∈ terminals, terminal ∈ s.terminals ∨
      s.Inserts e .terminals (trimmed terminal.hostAlias))
    (hforwards : ∀ forward ∈ forwards, forward ∈ s.forwards ∨
      s.Inserts e .forwards (trimmed forward.hostAlias)) :
    ∃ task', s.Went ({ s with terminals, forwards, ids }.finish t task (.ok ())) e t task task' :=
  ⟨_, went_of hphase rfl rfl rfl
    (.of_manager hterminals hforwards (fun _ _ ↦ .inl) (.inl rfl) fun _ ↦ le_rfl)
    (fun h ↦ absurd h hroutine) fun _ _ place hpend ↦ absurd hpend (hpending place)⟩

/-- A terminal is put in with the lease. -/
theorem leased_went (hphase : task.phase = .leased lease) (htask : s.tasks[t]? = some task)
    (hs : s.leased t task = some s') : ∃ task', s.Went s' (.advance t) t task task' := by
  unfold leased at hs
  split at hs
  · next hoperation =>
      cases hs
      exact going_went hphase (fun h ↦ by rw [Task.routine, hoperation] at h; cases h)
        fun _ _ _ hpend ↦ absurd hpend id
  · next hostAlias columns rows hoperation =>
      have hroutine : task.routine = .lease := by rw [Task.routine, hoperation]; rfl
      have hname : task.name = trimmed hostAlias := by rw [Task.name, hoperation]; rfl
      cases hs
      refine put_went hphase (hroutine ▸ Routine.noConfusion) (fun _ ↦ id) (fun terminal hmem ↦ ?_)
        fun _ ↦ .inl
      rcases List.mem_cons.mp hmem with rfl | hmem
      · exact .inr ⟨task, htask, hname, by rw [hphase, hoperation]⟩
      · exact .inl hmem
  · cases hs

/-- A forward is put in. -/
theorem insertForward_went (hphase : task.phase = .insertForward lease)
    (htask : s.tasks[t]? = some task) (hs : s.insertForward t task lease = some s') :
    ∃ task', s.Went s' (.advance t) t task task' := by
  unfold insertForward at hs
  split at hs
  · next hostAlias checks hoperation =>
      have hroutine : task.routine = .lease := by rw [Task.routine, hoperation]; rfl
      have hname : task.name = trimmed hostAlias := by rw [Task.name, hoperation]; rfl
      cases hs
      refine put_went hphase (hroutine ▸ Routine.noConfusion) (fun _ ↦ id) (fun _ ↦ .inl)
        fun forward hmem ↦ ?_
      rcases List.mem_cons.mp hmem with rfl | hmem
      · exact .inr ⟨task, htask, hname, by rw [hphase]⟩
      · exact .inl hmem
  · cases hs

/-! ## One step of an operation -/

/-- Where each step of an operation leads. -/
theorem advance_went (htask : s.tasks[t]? = some task) (hs : s.advance t task = some s') :
    ∃ task', s.Went s' (.advance t) t task task' := by
  unfold advance at hs
  cases hphase : task.phase
  all_goals rw [hphase] at hs
  case probe => exact probe_went hphase hs
  case known =>
      cases hs
      exact known_went hphase
  case takeLock =>
      cases hs
      exact takeLock_went hphase
  case lock lock => exact lock_went hphase hs
  case recheck => exact recheck_went hphase hs
  case cooldown =>
      cases hs
      exact cooldown_went hphase
  case readGeneration | clearCooldown =>
      cases hs
      exact idle_went hphase (fun _ h ↦ h) fun _ h ↦ h
  case previous =>
      cases hs
      exact previous_went hphase
  case noteGeneration =>
      cases hs
      exact noteGeneration_went hphase
  case stopTerminals =>
      cases hs
      exact stopTerminals_went hphase htask
  case stopForwards =>
      cases hs
      exact stopForwards_went hphase htask
  case removeSession =>
      cases hs
      exact removeSession_went hphase
  case removeTransport =>
      cases hs
      exact removeTransport_went hphase
  case removing call =>
      obtain ⟨outcome, hanswer, rfl⟩ := map_eq_some_iff.mp hs
      exact removed_went hphase hanswer
  case connect => exact connect_went hphase hs
  case connecting call =>
      obtain ⟨outcome, hanswer, hs⟩ := bind_eq_some_iff.mp hs
      exact connected_went hphase htask hanswer hs
  case leasing call =>
      obtain ⟨outcome, hanswer, hs⟩ := bind_eq_some_iff.mp hs
      exact gotLease_went hphase htask hanswer hs
  case insertSession lease details => exact insertSession_went hphase htask hs
  case confirm =>
      cases hs
      exact confirm_went hphase htask
  case clearFailure lease =>
      cases hs
      exact clearFailure_went hphase
  case compareGeneration lease =>
      cases hs
      exact compareGeneration_went hphase
  case discardSession =>
      cases hs
      exact discardSession_went hphase
  case discardTransport =>
      cases hs
      exact discardTransport_went hphase
  case discarding call =>
      obtain ⟨outcome, hanswer, rfl⟩ := map_eq_some_iff.mp hs
      exact discarding_went hphase hanswer rfl
  case reinsert error =>
      cases hs
      exact reinsert_went hphase htask
  case noteFailure error =>
      cases hs
      exact noteFailure_went hphase
  case leased lease => exact leased_went hphase htask hs
  case insertForward lease => exact insertForward_went hphase htask hs
  case dropLock =>
      cases hs
      exact dropLock_went hphase
  case resolve | record | finished => cases hs

theorem resolved_went {result : Result (ConnectionConfig × Authentication)}
    (hs : s.resolved t task result = some s') : ∃ task', s.Went s' e t task task' := by
  unfold resolved at hs
  split at hs
  case h_5 => cases hs
  all_goals
    next hphase _ =>
      cases hs
      exact idle_went hphase (fun _ h ↦ h) fun _ h ↦ h

theorem recorded_went {result : Result SessionDto} (htask : s.tasks[t]? = some task)
    (hs : s.recorded t task result = some s') :
    ∃ task', s.Went s' (.recorded t result) t task task' := by
  unfold recorded at hs
  split at hs
  · next hphase hroutine =>
      cases hs
      exact going_went hphase (fun _ _ h ↦ h) fun h ↦ by cases hroutine.symm.trans h
  · next hphase hroutine =>
      cases hs
      exact going_went hphase (fun _ _ h ↦ h) fun _ _ _ hpend ↦ .inl ⟨rfl, .inr hpend⟩
  · next hphase hroutine =>
      cases hs
      exact going_went hphase (fun _ _ h ↦ h) fun h ↦ by cases hroutine.symm.trans h
  · next hphase hroutine =>
      cases hs
      refine going_went hphase (fun _ _ h ↦ h) fun _ _ _ hpend ↦ .inr (.inr ⟨task, htask, ?_⟩)
      rw [hphase]
  · cases hs

theorem opened_went {result : Result Unit} (hs : s.opened t task result = some s') :
    ∃ task', s.Went s' e t task task' := by
  unfold opened at hs
  split at hs
  · next hphase _ =>
      cases hs
      exact idle_went hphase (fun _ h ↦ h) fun _ h ↦ h
  · next hphase _ =>
      cases hs
      exact idle_went hphase (fun _ h ↦ h) fun _ h ↦ h
  · cases hs

/-- A client that could not be closed ends the operation that disconnects. -/
theorem closeFailed_went (hs : s.closeFailed t task error = some s') :
    ∃ task', s.Went s' e t task task' := by
  unfold closeFailed at hs
  split at hs
  · next hphase =>
      cases (ite_none_right_eq_some.mp hs).2
      exact idle_went hphase (fun _ h ↦ h) fun _ h ↦ h
  · cases hs

end DesktopState

end KaduoxSsh.Desktop.Sessions
