import KaduoxSsh.Desktop.SessionsSteps

/-!
# What a disconnection leaves behind

When `disconnect_host` has returned, nothing is to be left under the name: no terminal,
no forward, no session and no transport. Sessions that are healed are taken care of
by a number that each disconnection raises: who finds it raised after it has reconnected
takes out again what it has put in.

The other operations do not look at the number. `connect_host` puts in its transport
and its session, `start_terminal` its terminal and `start_forward` its forward however
late they come to it, and a heal that fails puts the old session back. Terminals and
forwards are besides kept under the alias as it was given, and stopped under the name.
Where a run does none of this, nothing is left.
-/

namespace KaduoxSsh.Desktop.Sessions

open KaduoxSsh.Core Hosts List

namespace DesktopState

variable {s s' : DesktopState} {e : Event} {t : Nat} {task task' : Task} {place : Place}
  {name : String} {operation : Operation}

/-! ## One step of the system -/

/-- What has happened outside the operations. -/
theorem manager_steps {e : ManagerEvent ConnectionConfig} {manager : Manager ConnectionConfig}
    (hown : ownCall e = false) (hs : s.manager.step e = some manager) :
    s.Steps { s with manager } (.manager e) where
  entries place name hholds := by
    cases place with
    | terminals | forwards | sessions => exact .inl hholds
    | transport =>
        obtain ⟨id, hmem⟩ := hholds
        rcases Manager.step_entries hs hmem with hmem | ⟨call, c, rfl, hcall, hphase, hname⟩
        · exact .inl ⟨id, hmem⟩
        · exact .inr ⟨rfl, c, id, hcall, hphase, hname⟩
  calls call name hcall := by
    have hcancel : e ≠ .cancel call := by
      rintro rfl
      cases hown
    exact (Manager.step_new_remove hs hcancel hcall).imp_right fun hnone ⟨id, hmem⟩ ↦ hnone id hmem
  generation _ := le_rfl

theorem step_cases (hs : s.step e = some s') :
    (∃ t task task', s.tasks[t]? = some task ∧ s.Went s' e t task task') ∨
      (s.Steps s' e ∧ s'.tasks = s.tasks) ∨ ∃ operation, s' = s.begin operation := by
  cases e with
  | begin operation => exact .inr (.inr ⟨operation, (Option.some_inj.mp hs).symm⟩)
  | advance t =>
      obtain ⟨task, htask, hs⟩ := Option.bind_eq_some_iff.mp hs
      obtain ⟨task', hwent⟩ := advance_went htask hs
      exact .inl ⟨t, task, task', htask, hwent⟩
  | resolved t result =>
      obtain ⟨task, htask, hs⟩ := Option.bind_eq_some_iff.mp hs
      obtain ⟨task', hwent⟩ := resolved_went hs
      exact .inl ⟨t, task, task', htask, hwent⟩
  | recorded t result =>
      obtain ⟨task, htask, hs⟩ := Option.bind_eq_some_iff.mp hs
      obtain ⟨task', hwent⟩ := recorded_went htask hs
      exact .inl ⟨t, task, task', htask, hwent⟩
  | opened t result =>
      obtain ⟨task, htask, hs⟩ := Option.bind_eq_some_iff.mp hs
      obtain ⟨task', hwent⟩ := opened_went hs
      exact .inl ⟨t, task, task', htask, hwent⟩
  | closeFailed t error =>
      obtain ⟨task, htask, hs⟩ := Option.bind_eq_some_iff.mp hs
      obtain ⟨task', hwent⟩ := closeFailed_went hs
      exact .inl ⟨t, task, task', htask, hwent⟩
  | manager e =>
      rw [step, Option.ite_none_left_eq_some, Option.map_eq_some_iff] at hs
      obtain ⟨hown, manager, hmanager, rfl⟩ := hs
      exact .inr (.inl ⟨manager_steps (Bool.not_eq_true _ ▸ hown) hmanager, rfl⟩)
  | closeTerminal id =>
      cases hs
      refine .inr (.inl ⟨.of_manager (fun _ hmem ↦ .inl (mem_of_mem_filter hmem))
        (fun _ ↦ .inl) (fun _ _ ↦ .inl) (.inl rfl) fun _ ↦ le_rfl, rfl⟩)
  | stopForward id =>
      cases hs
      refine .inr (.inl ⟨.of_manager (fun _ ↦ .inl)
        (fun _ hmem ↦ .inl (mem_of_mem_filter hmem)) (fun _ _ ↦ .inl) (.inl rfl)
        fun _ ↦ le_rfl, rfl⟩)

/-! ## What operations rely on while others go on -/

theorem Steps.cleared (h : s.Steps s' e) {phase : Phase} (hcleared : s'.Cleared place name phase) :
    s.Cleared place name phase ∨ ¬s'.Holds place name := by
  cases phase with
  | removing call =>
      by_cases hnew : s.manager.tasks[call]? = some (.new (.remove name))
      · rcases h.calls call name hnew with hnew' | hnone
        · exact .inl fun hplace ↦ absurd hnew' (hcleared hplace)
        · by_cases hplace : place = .transport
          · exact .inr (hplace ▸ hnone)
          · exact .inl fun h ↦ absurd h hplace
      · exact .inl fun _ ↦ hnew
  | finished result =>
      cases result with
      | ok => exact .inl trivial
      | error => exact absurd hcleared id
  | _ => exact .inl hcleared

theorem Steps.pending (h : s.Steps s' e) {phase : Phase} (hpending : s.Pending place name phase) :
    s'.Pending place name phase ∨ ¬s'.Holds place name := by
  cases phase with
  | discarding call =>
      obtain ⟨rfl, hnew⟩ := hpending
      exact (h.calls call name hnew).imp_left fun hnew ↦ ⟨rfl, hnew⟩
  | _ => exact .inl hpending

/-- Another operation than the one that goes on is where it was. -/
theorem Steps.discards (h : s.Steps s' e) {d : Nat} {u : Nat}
    (htasks : s'.tasks[u]? = s.tasks[u]?) (hdiscards : s.Discards d place name u) :
    s'.Discards d place name u ∨ ¬s'.Holds place name := by
  obtain ⟨task, htask, hroutine, hname, hbefore, hold, hpending⟩ := hdiscards
  exact (h.pending hpending).imp_left fun hpending ↦ ⟨task, htasks.trans htask, hroutine, hname,
    hbefore, hold.trans_le (h.generation name), hpending⟩

theorem Went.sweeps (h : s.Went s' e t task task') (htask : s.tasks[t]? = some task)
    (hkeeps : s.KeepsClear e) {d : Nat} (hsweeps : s'.Sweeps d place name) :
    s.Sweeps d place name ∨ ¬s'.Holds place name := by
  have hlen : t < s.tasks.length := (List.getElem?_eq_some_iff.mp htask).1
  have hset : s'.tasks[t]? = some task' := by
    rw [h.tasks, List.getElem?_set_self hlen]
  have hother {u : Nat} (hne : t ≠ u) : s'.tasks[u]? = s.tasks[u]? := by
    rw [h.tasks, List.getElem?_set_ne hne]
  have hlatest (u : Nat) (other : Task) (hu : s.tasks[u]? = some other) (hname : other.name = name)
      (hroutine : other.routine = .connect) : d ∉ other.settled := by
    by_cases htu : t = u
    · subst htu
      cases htask.symm.trans hu
      have := hsweeps.latest t task' hset
      rw [Task.name, Task.routine, h.operation, h.settled] at this
      exact this hname hroutine
    · exact hsweeps.latest u other ((hother htu).trans hu) hname hroutine
  obtain ⟨swept, hswept, hroutine, hname, hcleared⟩ := hsweeps.cleared
  by_cases htd : t = d
  · subst htd
    cases hset.symm.trans hswept
    rw [Task.name, h.operation] at hname
    rw [Task.routine, h.operation] at hroutine
    subst hname
    exact (h.clears hroutine hkeeps place hcleared).imp_left fun hcleared ↦
      ⟨⟨task, htask, hroutine, rfl, hcleared⟩, hlatest⟩
  · exact (h.steps.cleared hcleared).imp_left fun hcleared ↦
      ⟨⟨swept, (hother htd).symm.trans hswept, hroutine, hname, hcleared⟩, hlatest⟩

theorem Went.discarding (h : s.Went s' e t task task') (htask : s.tasks[t]? = some task)
    {d u : Nat} (hdiscards : s.Discards d place name u) :
    s'.Discards d place name u ∨ ¬s'.Holds place name ∨ s.Fails e u := by
  by_cases htu : t = u
  · subst htu
    obtain ⟨task₀, htask₀, hroutine, rfl, hbefore, hold, hpending⟩ := hdiscards
    cases htask.symm.trans htask₀
    refine (h.discards hroutine hold place hpending).imp_left fun ⟨hgeneration, hpending⟩ ↦ ?_
    refine ⟨task', ?_, ?_, ?_, ?_, ?_, hpending⟩
    · rw [h.tasks, List.getElem?_set_self (List.getElem?_eq_some_iff.mp htask).1]
    · rw [Task.routine, h.operation]
      exact hroutine
    · rw [Task.name, h.operation]
      rfl
    · rw [h.settled]
      exact hbefore
    · rw [hgeneration]
      exact hold.trans_le (h.steps.generation _)
  · have hother : s'.tasks[u]? = s.tasks[u]? := by
      rw [h.tasks, List.getElem?_set_ne htu]
    exact (h.steps.discards hother hdiscards).imp_right .inl

/-- The operations are those before, and one that begins. -/
theorem getElem?_begin {u : Nat} {other : Task} (hu : (s.begin operation).tasks[u]? = some other) :
    s.tasks[u]? = some other ∨
      other.operation = operation ∧ other.phase = operation.begin := by
  change (s.tasks ++ [_])[u]? = some other at hu
  rw [List.getElem?_append] at hu
  split at hu
  · exact .inl hu
  · have hmem := mem_of_getElem? hu
    rw [mem_singleton.mp hmem]
    exact .inr ⟨rfl, rfl⟩

theorem begin_sweeps {d : Nat} (hsweeps : (s.begin operation).Sweeps d place name) :
    s.Sweeps d place name := by
  have hold {u : Nat} {other : Task} (hu : s.tasks[u]? = some other) :
      (s.begin operation).tasks[u]? = some other :=
    (List.getElem?_append_left (List.getElem?_eq_some_iff.mp hu).1).trans hu
  obtain ⟨swept, hswept, hroutine, hname, hcleared⟩ := hsweeps.cleared
  refine ⟨⟨swept, ?_, hroutine, hname, hcleared⟩, fun u other hu ↦ hsweeps.latest u other (hold hu)⟩
  rcases getElem?_begin hswept with hswept | ⟨hoperation, hphase⟩
  · exact hswept
  · rw [Task.routine, hoperation] at hroutine
    rw [hphase] at hcleared
    cases operation with
    | disconnectHost => exact absurd hcleared id
    | connectHost | sessionLease | startTerminal | startForward => cases hroutine

theorem begin_discards {d u : Nat} (hdiscards : s.Discards d place name u) :
    (s.begin operation).Discards d place name u := by
  obtain ⟨task, htask, hrest⟩ := hdiscards
  exact ⟨task, (List.getElem?_append_left (List.getElem?_eq_some_iff.mp htask).1).trans htask, hrest⟩
/-! ## Every state of a run -/

theorem Fails.target (h : s.Fails e t) :
    (∃ task, e = .advance t ∧ s.tasks[t]? = some task ∧
      ((∃ call, task.phase = .connecting call ∨ task.phase = .leasing call) ∨
        task.phase = .confirm)) ∨ ∃ error, e = .recorded t (.error error) := by
  obtain ⟨task, htask, h⟩ := h
  split at h
  · next hphase =>
      cases h.1
      exact .inl ⟨task, rfl, htask, .inl ⟨_, .inl hphase⟩⟩
  · next hphase =>
      cases h.1
      exact .inl ⟨task, rfl, htask, .inl ⟨_, .inr hphase⟩⟩
  · next hphase =>
      cases h.1
      exact .inl ⟨task, rfl, htask, .inr hphase⟩
  · cases h
    exact .inr ⟨_, rfl⟩
  · cases h

theorem Fails.eq {u : Nat} (h : s.Fails e t) (h' : s.Fails e u) : u = t := by
  rcases h.target with ⟨_, rfl, -⟩ | ⟨_, rfl⟩
  · rcases h'.target with ⟨_, heq, -⟩ | ⟨_, heq⟩
    · cases heq
      rfl
    · cases heq
  · rcases h'.target with ⟨_, heq, -⟩ | ⟨_, heq⟩
    · cases heq
    · cases heq
      rfl

theorem Fails.not_inserts (h : s.Fails e t) (place : Place) (name : String) :
    ¬s.Inserts e place name := by
  rcases h.target with ⟨task, rfl, htask, hphase⟩ | ⟨_, rfl⟩
  · rintro ⟨task₀, htask₀, -, hinserts⟩
    cases htask.symm.trans htask₀
    obtain ⟨call, hphase | hphase⟩ | hphase := hphase <;> rw [hphase] at hinserts <;> exact hinserts
  · exact id

/-- What is still kept in a place that has been cleared is discarded by a heal. -/
def Tidy (s : DesktopState) : Prop :=
  ∀ d place name, s.Sweeps d place name → s.Holds place name → ∃ h, s.Discards d place name h

/-- One step, when of each operation that goes on in it only this is known. -/
theorem Tidy.steps (h : s.Tidy) (hkeeps : s.KeepsClear e)
    (hentries : ∀ place name, s'.Holds place name → s.Holds place name ∨ s.Inserts e place name)
    (hsweeps : ∀ d place name, s'.Sweeps d place name →
      s.Sweeps d place name ∨ ¬s'.Holds place name)
    (hdiscards : ∀ d place name u, s.Discards d place name u →
      s'.Discards d place name u ∨ ¬s'.Holds place name ∨ s.Fails e u) : s'.Tidy := by
  intro d place name hsweep hholds
  have hsweep := (hsweeps d place name hsweep).resolve_right (not_not_intro hholds)
  have hthere : ∃ u, s.Discards d place name u := by
    rcases hentries place name hholds with hheld | hinserts
    · exact h d place name hsweep hheld
    · by_contra hnone
      exact hkeeps.inserts place name hinserts ⟨d, hsweep, hnone⟩
  obtain ⟨u, hu⟩ := hthere
  rcases hdiscards d place name u hu with hu' | hnot | hfails
  · exact ⟨u, hu'⟩
  · exact absurd hholds hnot
  -- A heal fails: there is another one, which does not fail as well.
  have hheld := (hentries place name hholds).resolve_right (hfails.not_inserts place name)
  obtain ⟨v, hne, hv⟩ := hkeeps.fails u hfails d place name hsweep hheld hu
  rcases hdiscards d place name v hv with hv' | hnot | hfails'
  · exact ⟨v, hv'⟩
  · exact absurd hholds hnot
  · exact absurd (hfails.eq hfails') hne

theorem Tidy.step (h : s.Tidy) (hkeeps : s.KeepsClear e) (hs : s.step e = some s') : s'.Tidy := by
  rcases step_cases hs with ⟨t, task, task', htask, hwent⟩ | ⟨hsteps, htasks⟩ | ⟨operation, rfl⟩
  · exact h.steps hkeeps hwent.steps.entries (fun _ _ _ ↦ hwent.sweeps htask hkeeps)
      fun _ _ _ _ ↦ hwent.discarding htask
  · refine h.steps hkeeps hsteps.entries (fun d place name hsweeps ↦ ?_)
      fun d place name u hdiscards ↦ (hsteps.discards (by rw [htasks]) hdiscards).imp_right .inl
    obtain ⟨swept, hswept, hroutine, hname, hcleared⟩ := hsweeps.cleared
    rw [htasks] at hswept
    exact (hsteps.cleared hcleared).imp_left fun hcleared ↦
      ⟨⟨swept, hswept, hroutine, hname, hcleared⟩, htasks ▸ hsweeps.latest⟩
  · exact h.steps hkeeps (fun place name hholds ↦ .inl (by cases place <;> exact hholds))
      (fun _ _ _ hsweeps ↦ .inl (begin_sweeps hsweeps)) fun _ _ _ _ hdiscards ↦
        .inl (begin_discards hdiscards)

/-- When `disconnect_host` has returned, nothing is left under the name, in every run that keeps
clear of what leaves something behind. -/
theorem disconnected_leaves_nothing {maxConnections idleTimeout : Nat}
    (hreach : Reaches step KeepsClear (new maxConnections idleTimeout) s) : s.LeavesNothing := by
  have htidy : s.Tidy := by
    refine hreach.invariant (fun d place name hsweeps ↦ ?_) fun _ _ _ h hkeeps hs ↦ h.step hkeeps hs
    obtain ⟨task, htask, -⟩ := hsweeps.cleared
    cases htask
  intro d task htask hroutine hphase hdone hlatest
  refine nothingLeft_iff.mpr fun place hholds ↦ ?_
  have hcleared : s.Cleared place task.name task.phase := by
    rw [hphase]
    exact trivial
  obtain ⟨h, other, hother, -, hname, hbefore, -, hpending⟩ :=
    htidy d place task.name ⟨⟨task, htask, hroutine, rfl, hcleared⟩, hlatest⟩ hholds
  have hfinished := hdone h other hother hname hbefore
  cases hother : other.phase with
  | finished =>
      rw [hother] at hpending
      exact hpending
  | _ =>
      rw [hother] at hfinished
      cases hfinished

/-! ## Runs -/

/-- The operation has not come to where an operation that disconnects takes something out. -/
def Early (task : Task) : Bool :=
  task.routine ≠ .disconnect || match task.phase with
    | .takeLock | .lock _ | .noteGeneration | .clearCooldown => true
    | _ => false

/-- A condition on a step that can be computed: nothing is taken out yet, or nothing is put in, no
heal fails, and what there is has a name without blanks around it. -/
def calm (s : DesktopState) (e : Event) : Bool :=
  s.tasks.all Early ||
    s.terminals.all (fun terminal ↦ trimmed terminal.hostAlias = terminal.hostAlias) &&
    s.forwards.all (fun forward ↦ trimmed forward.hostAlias = forward.hostAlias) &&
      match e with
      | .advance t =>
          match s.tasks[t]?.map Task.phase with
          | some (.leased _) | some (.insertForward _) | some (.insertSession _ _)
          | some (.reinsert _) | some (.connecting _) | some (.leasing _) | some .confirm => false
          | _ => true
      | .recorded _ (.error _) => false
      | .manager (.advance call) =>
          match s.manager.tasks[call]?.map Core.Task.phase with
          | some (.insert _) => false
          | _ => true
      | _ => true

theorem not_cleared_of_early {task : Task} (hearly : Early task)
    (hdisconnect : task.routine = .disconnect) (place : Place) (name : String) :
    ¬s.Cleared place name task.phase := by
  intro hcleared
  simp only [Early, hdisconnect, ne_eq, not_true_eq_false, decide_false, Bool.false_or] at hearly
  split at hearly
  case h_5 => cases hearly
  all_goals
    rename_i hphase
    rw [hphase] at hcleared
    exact hcleared

theorem keepsClear_of_calm (h : s.calm e = true) : s.KeepsClear e := by
  simp only [calm, Bool.or_eq_true, Bool.and_eq_true] at h
  rcases h with hnone | ⟨⟨hterminals, hforwards⟩, hquiet⟩
  · have hearly {d : Nat} {task : Task} (htask : s.tasks[d]? = some task) : Early task :=
      all_eq_true.mp hnone task (mem_of_getElem? htask)
    have hsweeps (d : Nat) (place : Place) (name : String) : ¬s.Sweeps d place name := by
      intro hsweeps
      obtain ⟨task, htask, hdisconnect, -, hcleared⟩ := hsweeps.cleared
      exact not_cleared_of_early (hearly htask) hdisconnect place name hcleared
    exact {
      inserts := fun place name _ ⟨d, hsweep, _⟩ ↦ hsweeps d place name hsweep
      fails := fun h _ d place name hsweep ↦ absurd hsweep (hsweeps d place name)
      terminals := fun d task _ htask hdisconnect hphase ↦ by
        simpa [Early, hdisconnect, hphase] using hearly htask
      forwards := fun d task _ htask hdisconnect hphase ↦ by
        simpa [Early, hdisconnect, hphase] using hearly htask }
  · have hfails (u : Nat) : ¬s.Fails e u := by
      intro hfails
      rcases hfails.target with ⟨task, rfl, htask, hphase⟩ | ⟨error, rfl⟩
      · obtain ⟨call, hphase | hphase⟩ | hphase := hphase <;> simp [htask, hphase] at hquiet
      · cases hquiet
    have hinserts (place : Place) (name : String) : ¬s.Inserts e place name := by
      intro hinserts
      cases e with
      | advance t =>
          obtain ⟨task, htask, -, hinserts⟩ := hinserts
          simp only [htask, Option.map_some] at hquiet
          split at hinserts <;> simp_all
      | manager e =>
          cases e with
          | advance call =>
              obtain ⟨-, c, id, hcall, hphase, -⟩ := hinserts
              simp [hcall, hphase] at hquiet
          | _ => exact hinserts
      | _ => exact hinserts
    exact {
      inserts := fun place name h ↦ absurd h (hinserts place name)
      fails := fun u h ↦ absurd h (hfails u)
      terminals := fun _ _ _ _ _ _ terminal hmem hname ↦
        (of_decide_eq_true (all_eq_true.mp hterminals terminal hmem)).symm.trans hname
      forwards := fun _ _ _ _ _ _ forward hmem hname ↦
        (of_decide_eq_true (all_eq_true.mp hforwards forward hmem)).symm.trans hname }

def calmStep (s : DesktopState) (e : Event) : Option DesktopState :=
  if s.calm e then s.step e else none

theorem reaches_of_calm {start : DesktopState} (hreach : Reaches step KeepsClear start s)
    (events : List Event) (hrun : runEvents calmStep s events = some s') :
    Reaches step KeepsClear start s' := by
  induction events generalizing s with
  | nil =>
      cases hrun
      exact hreach
  | cons e events ih =>
      obtain ⟨next, hnext, hrun⟩ := Option.bind_eq_some_iff.mp hrun
      obtain ⟨hcalm, hnext⟩ := Option.ite_none_right_eq_some.mp hnext
      exact ih (hreach.next (keepsClear_of_calm hcalm) hnext) hrun

end DesktopState

open DesktopState

/-- `connect_host` up to where the connection manager connects. -/
def connectBegins : List Event :=
  [.begin (.connectHost "web"), .advance 0, .advance 0,
    .resolved 0 (.ok (.new "192.0.2.10" "deploy", .agent)), .advance 0]

/-- The transport is there, and is leased with one more call to the manager. -/
def connectEnds (call : Nat) : List Event :=
  List.replicate 6 (.manager (.advance 0)) ++ [.manager (.connected 0 (.ok ()))] ++
    List.replicate 6 (.manager (.advance 0)) ++ [.advance 0] ++
    List.replicate 4 (.manager (.advance call)) ++
    [.advance 0, .recorded 0 (.ok ⟨"agent", none⟩), .advance 0]

/-- `disconnect_host` once it has the lock, with the steps that a call to the manager takes. -/
def disconnects (d call steps : Nat) : List Event :=
  List.replicate 6 (.advance d) ++ List.replicate steps (.manager (.advance call)) ++
    [.advance d, .advance d]

/-- The server forwards after the operation that disconnects has begun. -/
def forwardOverlaps : List Event :=
  [.begin (.startForward "web" (.ok ())), .advance 1, .begin (.disconnectHost " web "), .advance 2,
    .opened 1 (.ok ()), .advance 2, .advance 1]

/-- The operations of a state, how far they have come, and whether there is a session. -/
def summary (s : DesktopState) : List (Operation × Phase × List Nat) × Bool :=
  (s.tasks.map fun task ↦ (task.operation, task.phase, task.settled), s.sessions.contains "web")

/-- The host is disconnected while the connection manager connects. The disconnection returns, and
then the transport and the session are put in. -/
theorem connect_outlives_disconnect : ∃ s, Reaches step (fun _ _ ↦ True) (.new 4 10) s ∧
    ¬s.LeavesNothing := by
  have hrun : (runEvents step (.new 4 10)
      (connectBegins ++ [.begin (.disconnectHost " web "), .advance 1, .advance 1] ++
        disconnects 1 1 2 ++ connectEnds 2)).map summary =
        some ([(.connectHost "web", .finished (.ok ()), []),
          (.disconnectHost " web ", .finished (.ok ()), [])], true) := by decide
  obtain ⟨s, hs, hsummary⟩ := Option.map_eq_some_iff.mp hrun
  obtain ⟨htasks, hsession⟩ := Prod.mk.inj hsummary
  refine ⟨s, Reaches.start.runEvents _ hs, fun hnothing ↦ ?_⟩
  have hended (other : Task) (hmem : other ∈ s.tasks) :
      other.phase = .finished (.ok ()) ∧ other.settled = [] := by
    have := mem_map_of_mem (f := fun task : Task ↦ (task.operation, task.phase, task.settled)) hmem
    rw [htasks] at this
    simp only [mem_cons, Prod.mk.injEq, not_mem_nil, or_false] at this
    rcases this with ⟨-, hended⟩ | ⟨-, hended⟩
    · exact hended
    · exact hended
  have hsecond := congrArg (·[1]?) htasks
  rw [List.getElem?_map] at hsecond
  obtain ⟨task, htask, heq⟩ := Option.map_eq_some_iff.mp hsecond
  obtain ⟨hoperation, hphase, -⟩ : _ ∧ _ ∧ _ := by simpa only [Prod.mk.injEq] using heq
  have hname : task.name = "web" := by
    rw [Task.name, hoperation]
    decide
  have hleft := hnothing 1 task htask (by rw [Task.routine, hoperation]; rfl) hphase
    (fun t other hother _ _ ↦ by rw [(hended other (mem_of_getElem? hother)).1]; rfl)
    (fun t other hother _ _ ↦ by
      rw [(hended other (mem_of_getElem? hother)).2]
      exact not_mem_nil)
  obtain ⟨entry, hentry⟩ := SortedMap.contains_iff.mp hsession
  rw [hname] at hleft
  cases hleft.session.symm.trans hentry

/-- A host is connected, and a forward is put in while the host is disconnected, before the forwards
are stopped. -/
theorem disconnected_leaves_nothing_web : ∃ s, Reaches step KeepsClear (.new 4 10) s ∧
    summary s = ([(.connectHost "web", .finished (.ok ()), []),
      (.startForward "web" (.ok ()), .finished (.ok ()), [0]),
      (.disconnectHost " web ", .finished (.ok ()), [0])], false) ∧ s.LeavesNothing := by
  have hrun : (runEvents calmStep (.new 4 10)
      (connectBegins ++ connectEnds 1 ++ forwardOverlaps ++ disconnects 2 2 4)).map summary =
        some ([(.connectHost "web", .finished (.ok ()), []),
          (.startForward "web" (.ok ()), .finished (.ok ()), [0]),
          (.disconnectHost " web ", .finished (.ok ()), [0])], false) := by decide
  obtain ⟨s, hs, hsummary⟩ := Option.map_eq_some_iff.mp hrun
  have hreach := reaches_of_calm .start _ hs
  exact ⟨s, hreach, hsummary, disconnected_leaves_nothing hreach⟩

end KaduoxSsh.Desktop.Sessions
