import KaduoxSsh.Cli.Fleet
import KaduoxSsh.Lib.Loops
import Mathlib.Algebra.GroupWithZero.Nat
import Mathlib.Algebra.Order.BigOperators.Group.List

/-!
# What a fleet accounts for

In every state of a run the targets are split into those that have been reported, those
whose tasks are there, and those that are pending. There are as many tasks as may be, as
long as a target is pending, and so the run is over only when every target has been
reported. What a buffer holds is given by what has come over its stream.
-/

namespace KaduoxSsh.Cli

open KaduoxSsh.Core OpenSsh Result List

/-! ## Buffers -/

/-- What is kept of a stream. -/
def captured (limit : Nat) (stream : List UInt8) : CappedBuffer :=
  ⟨stream.take limit, limit, decide (limit < stream.length)⟩

section

variable {limit : Nat} {stream chunk : List UInt8}

theorem captured_nil : captured limit [] = .new limit := by
  rw [captured, take_nil]
  rfl

/-- A piece is written behind what has come before. -/
theorem pollWrite_captured :
    (captured limit stream).pollWrite chunk = captured limit (stream ++ chunk) := by
  have hremaining : limit - (stream.take limit).length = limit - stream.length := by
    rw [length_take]
    omega
  rw [CappedBuffer.pollWrite, captured, captured]
  dsimp only
  rw [hremaining, take_append, CappedBuffer.mk.injEq]
  refine ⟨congrArg (stream.take limit ++ ·) ?_, rfl, ?_⟩
  · rw [take_eq_take_iff, Nat.min_assoc, Nat.min_self]
  · rw [length_append]
    split
    case isTrue h =>
      refine (decide_eq_true ?_).symm
      omega
    case isFalse h =>
      refine decide_eq_decide.mpr ?_
      omega

end

/-! ## Selected targets -/

section

variable {targets expanded groups : List String} {target : String} {label : String}
  {world : FleetWorld}

theorem nodup_pushUnique (h : targets.Nodup) : (pushUnique targets target).Nodup := by
  rw [pushUnique]
  split
  case isTrue => exact h
  case isFalse hnew =>
    refine nodup_append.mpr ⟨h, nodup_singleton target, ?_⟩
    rintro a ha b hb rfl
    exact hnew (mem_singleton.mp hb ▸ ha)

theorem nodup_foldl_pushUnique (h : targets.Nodup) : (expanded.foldl pushUnique targets).Nodup := by
  induction expanded generalizing targets with
  | nil => exact h
  | cons target expanded ih => exact ih (nodup_pushUnique h)

/-- No target is selected twice. -/
theorem nodup_resolveTargetLabels {hosts labels : List String} {path : Option PathBuf}
    (h : world.resolveTargetLabels hosts groups path = .ok labels) : labels.Nodup := by
  have hhosts : (hosts.foldl pushUnique []).Nodup := nodup_foldl_pushUnique nodup_nil
  rw [FleetWorld.resolveTargetLabels] at h
  split at h
  · obtain ⟨inventory, -, h⟩ := bind_eq_ok.mp h
    refine foldlM_invariant hhosts (fun targets group targets' htargets hgroup ↦ ?_) h
    obtain ⟨expanded, -, hgroup⟩ := bind_eq_ok.mp hgroup
    cases hgroup
    exact nodup_foldl_pushUnique htargets
  · cases h
    exact hhosts

theorem mem_pushUnique : label ∈ pushUnique targets target ↔ label ∈ targets ∨ label = target := by
  rw [pushUnique]
  split
  case isTrue hold =>
    refine ⟨.inl, ?_⟩
    rintro (h | rfl)
    · exact h
    · exact hold
  case isFalse => rw [mem_append, mem_singleton]

theorem mem_foldl_pushUnique :
    label ∈ expanded.foldl pushUnique targets ↔ label ∈ targets ∨ label ∈ expanded := by
  induction expanded generalizing targets with
  | nil => simp
  | cons target expanded ih => rw [foldl_cons, ih, mem_pushUnique, or_assoc, mem_cons]

/-- The targets that are asked for: those that are named, and those of the groups. -/
def Selected (world : FleetWorld) (hosts groups : List String) (path : Option PathBuf)
    (label : String) : Prop :=
  label ∈ hosts ∨ ∃ inventory, world.loadSelectedInventory path = .ok inventory ∧
    ∃ group ∈ groups, ∃ expanded, inventory.expandGroup group = .ok expanded ∧ label ∈ expanded

theorem mem_expandGroups {inventory : HostInventory} {message : String → String}
    {labels : List String}
    (h : groups.foldlM (fun targets group ↦ do let expanded ← (inventory.expandGroup group).context (message group) return expanded.foldl pushUnique targets) targets = .ok labels) :
    label ∈ labels ↔ label ∈ targets ∨
      ∃ group ∈ groups, ∃ expanded, inventory.expandGroup group = .ok expanded ∧
        label ∈ expanded := by
  induction groups generalizing targets with
  | nil =>
      cases h
      simp
  | cons group groups ih =>
      obtain ⟨more, hmore, h⟩ := bind_eq_ok.mp h
      obtain ⟨expanded, hexpanded, hmore⟩ := bind_eq_ok.mp hmore
      cases hmore
      rw [ih h, mem_foldl_pushUnique, or_assoc]
      refine or_congr_right ?_
      simp only [mem_cons, exists_eq_or_imp]
      refine or_congr_left ⟨fun hlabel ↦ ?_, ?_⟩
      · exact ⟨expanded, context_eq_ok.mp hexpanded, hlabel⟩
      · rintro ⟨expanded', hexpanded', hlabel⟩
        rw [context_eq_ok.mp hexpanded] at hexpanded'
        cases hexpanded'
        exact hlabel

theorem mem_resolveTargetLabels {hosts labels : List String} {path : Option PathBuf}
    (h : world.resolveTargetLabels hosts groups path = .ok labels) :
    label ∈ labels ↔ Selected world hosts groups path label := by
  rw [FleetWorld.resolveTargetLabels] at h
  split at h
  case isTrue =>
    obtain ⟨inventory, hinventory, h⟩ := bind_eq_ok.mp h
    rw [mem_expandGroups h, mem_foldl_pushUnique, Selected, hinventory]
    simp
  case isFalse hnone =>
    cases h
    rw [mem_foldl_pushUnique, Selected, not_not.mp fun hgroups ↦ hnone (.inr hgroups)]
    simp

theorem prepareTargets_eq_ok {ordinal : Nat} {labels : List String}
    {prepared : List PreparedTarget} (h : world.prepareTargets ordinal labels = .ok prepared) :
    prepared.map PreparedTarget.label = labels ∧
      prepared.map PreparedTarget.ordinal = List.range' ordinal labels.length := by
  induction labels generalizing ordinal prepared with
  | nil =>
      cases h
      exact ⟨rfl, rfl⟩
  | cons label labels ih =>
      obtain ⟨config, -, h⟩ := bind_eq_ok.mp h
      obtain ⟨rest, hrest, h⟩ := bind_eq_ok.mp h
      cases h
      obtain ⟨hlabels, hordinals⟩ := ih hrest
      rw [map_cons, map_cons, hlabels, hordinals]
      exact ⟨rfl, rfl⟩

end

/-- Every target that is asked for is in the plan once. -/
structure Selection (world : FleetWorld) (cli : FleetCli) (plan : FleetPlan) : Prop where
  labels : ∀ label, label ∈ plan.targets.map PreparedTarget.label ↔
    Selected world cli.hosts cli.groups cli.inventory label
  nodup : (plan.targets.map PreparedTarget.label).Nodup
  jobs : plan.jobs = cli.jobs
  outputLimit : plan.outputLimit = cli.outputLimit

/-- What the checks before a run make sure of. -/
structure FleetPlan.Checked (plan : FleetPlan) : Prop where
  ordinals : (plan.targets.map PreparedTarget.ordinal).Nodup
  jobs : 0 < plan.jobs
  window : plan.jobs * plan.outputLimit * 2 ≤ MAX_OUTPUT_WINDOW

theorem checked_of_prepare {world : FleetWorld} {cli : FleetCli} {plan : FleetPlan}
    (h : world.prepare cli = .ok plan) : Selection world cli plan ∧ plan.Checked := by
  obtain ⟨labels, hlabels, h⟩ := bind_eq_ok.mp h
  obtain ⟨_, hlimits, h⟩ := bind_eq_ok.mp h
  obtain ⟨_, -, h⟩ := bind_eq_ok.mp h
  obtain ⟨targets, htargets, h⟩ := bind_eq_ok.mp h
  obtain ⟨_, -, h⟩ := bind_eq_ok.mp h
  cases h
  obtain ⟨hlabel, hordinal⟩ := prepareTargets_eq_ok htargets
  constructor
  · refine ⟨fun label ↦ ?_, ?_, rfl, rfl⟩
    · rw [hlabel]
      exact mem_resolveTargetLabels hlabels
    · rw [hlabel]
      exact nodup_resolveTargetLabels hlabels
  · rw [validateLimits] at hlimits
    simp only [check_bind_eq_ok, bailIf_eq_ok] at hlimits
    obtain ⟨-, -, hjobs, -, -, hwindow⟩ := hlimits
    refine ⟨?_, ?_, ?_⟩
    · rw [hordinal]
      exact nodup_range'
    · exact Nat.pos_of_ne_zero fun hzero ↦ hjobs (.inl hzero)
    · exact Nat.le_of_not_lt hwindow

/-! ## Tasks -/

def FleetTask.buffer (task : FleetTask) : Stream → CappedBuffer
  | .stdout => task.stdout
  | .stderr => task.stderr

section

variable {limit : Nat} {received : Nat → Stream → List UInt8} {task next : FleetTask}
  {event : TaskEvent} {ordinal : Nat}

/-- The buffers of a task hold what has come over its streams. -/
def Captures (limit : Nat) (received : Nat → Stream → List UInt8) (task : FleetTask) : Prop :=
  ∀ stream, task.buffer stream = captured limit (received task.target.ordinal stream)

theorem receive_of_ne (h : ordinal ≠ task.target.ordinal) :
    receive received task.target.ordinal event ordinal = received ordinal := by
  cases event with
  | output stream chunk => exact Function.update_of_ne h _ _
  | _ => rfl

/-- A piece goes into the buffer of its stream. -/
theorem captures_write {chunk : List UInt8} {stream : Stream} (h : Captures limit received task) :
    Captures limit (receive received task.target.ordinal (.output stream chunk))
      (task.write chunk stream) := by
  intro other
  have hwritten := @pollWrite_captured limit (received task.target.ordinal stream) chunk
  rw [← h stream] at hwritten
  by_cases hother : other = stream
  · subst hother
    have htarget : (task.write chunk other).target = task.target := by cases other <;> rfl
    rw [receive, htarget, Function.update_self, Function.update_self, ← hwritten]
    cases other <;> rfl
  · have hkept : (task.write chunk stream).buffer other = task.buffer other ∧
        (task.write chunk stream).target = task.target := by
      cases stream <;> cases other <;> first | exact absurd rfl hother | exact ⟨rfl, rfl⟩
    rw [receive, hkept.1, hkept.2, Function.update_self, Function.update_of_ne hother]
    exact h other

/-- A step of a task keeps its target, and its buffers follow its streams. -/
theorem FleetTask.step_spec (h : task.step event = some next) :
    next.target = task.target ∧ (Captures limit received task →
      Captures limit (receive received task.target.ordinal event) next) := by
  unfold FleetTask.step at h
  split at h
  case h_3 stream chunk _ =>
    cases h
    refine ⟨?_, captures_write⟩
    cases stream <;> rfl
  case h_9 => cases h
  all_goals
    cases h
    exact ⟨rfl, fun hcaptures ↦ hcaptures⟩

end

/-! ## Accounts -/

/-- What is reported of a target is its own, and its output is what has come over its streams. -/
structure Reported (limit : Nat) (received : Nat → Stream → List UInt8) (target : PreparedTarget)
    (result : FleetResult) : Prop where
  ordinal : result.ordinal = target.ordinal
  label : result.label = target.label
  stdout : result.stdout = captured limit (received target.ordinal .stdout)
  stderr : result.stderr = captured limit (received target.ordinal .stderr)

/-- Every target is in one place, and what has come from it is kept. -/
structure Accounts (plan : FleetPlan) (state : FleetState) : Prop where
  started : state.started ++ state.pending = plan.targets
  accounted : (state.reports.map FleetReport.target ++ state.tasks.map FleetTask.target).Perm
    state.started
  completed : state.completed = state.reports.length
  counts : state.reports.map (fun report ↦ (report.completed, report.total)) =
    (List.range' 1 state.reports.length).map (·, plan.total)
  failed : state.failed = state.reports.countP FleetReport.isFailure
  captures : ∀ task ∈ state.tasks, Captures plan.outputLimit state.received task
  results : ∀ report ∈ state.reports, ∀ result, report.body = .ok result →
    Reported plan.outputLimit state.received report.target result
  silent : ∀ target ∈ state.pending, ∀ stream, state.received target.ordinal stream = []

/-- As many tasks are there as may be. -/
def Full (plan : FleetPlan) (state : FleetState) : Prop :=
  state.tasks.length = min plan.jobs (state.tasks.length + state.pending.length)

section

variable {plan : FleetPlan} {state : FleetState} {index : Nat} {task next : FleetTask}
  {event : TaskEvent} {body : Except String FleetResult}

theorem Accounts.refill (h : Accounts plan state) : Accounts plan (plan.refill state) := by
  rw [FleetPlan.refill]
  cases hpending : state.pending with
  | nil => exact h
  | cons target pending =>
      have hsilent := h.silent
      have hstarted := h.started
      rw [hpending] at hsilent hstarted
      refine { h with started := ?_, accounted := ?_, captures := ?_, silent := ?_ }
      · rw [← hstarted]
        exact append_assoc ..
      · show (_ ++ (state.tasks ++ [FleetTask.spawn plan.outputLimit target]).map _).Perm _
        rw [map_append, ← append_assoc]
        exact h.accounted.append_right [target]
      · intro task htask
        rcases mem_append.mp htask with hold | hnew
        · exact h.captures task hold
        · rw [mem_singleton.mp hnew]
          intro stream
          have hnothing := hsilent target mem_cons_self stream
          show _ = captured _ (state.received target.ordinal stream)
          rw [hnothing, captured_nil]
          cases stream <;> rfl
      · exact fun other hother ↦ hsilent other (mem_cons_of_mem target hother)

theorem length_refill : (plan.refill state).tasks.length =
      state.tasks.length + min 1 state.pending.length ∧
    (plan.refill state).pending.length = state.pending.length - 1 := by
  rw [FleetPlan.refill]
  cases hpending : state.pending with
  | nil => exact ⟨rfl, by rw [hpending]; rfl⟩
  | cons target pending =>
      refine ⟨?_, rfl⟩
      rw [length_append, length_singleton, length_cons]
      omega

theorem length_refill_iterate (k : Nat) : (plan.refill^[k] state).tasks.length =
      state.tasks.length + min k state.pending.length ∧
    (plan.refill^[k] state).pending.length = state.pending.length - k := by
  induction k with
  | zero => exact ⟨by rw [Nat.zero_min]; rfl, rfl⟩
  | succ k ih =>
      obtain ⟨htasks, hpending⟩ := ih
      obtain ⟨htasks', hpending'⟩ := @length_refill plan (plan.refill^[k] state)
      rw [Function.iterate_succ_apply', htasks', hpending', htasks, hpending]
      omega

theorem accounts_start : Accounts plan plan.start ∧ Full plan plan.start := by
  have hnothing : Accounts plan ⟨plan.targets, [], 0, 0, [], none, [], fun _ _ ↦ []⟩ :=
    ⟨rfl, .nil, rfl, rfl, rfl, fun _ h ↦ absurd h not_mem_nil,
      fun _ h ↦ absurd h not_mem_nil, fun _ _ _ ↦ rfl⟩
  constructor
  · rw [FleetPlan.start]
    generalize min plan.jobs plan.total = k
    induction k with
    | zero => exact hnothing
    | succ k ih =>
        rw [Function.iterate_succ_apply']
        exact ih.refill
  · obtain ⟨htasks, hpending⟩ := @length_refill_iterate plan
      ⟨plan.targets, [], 0, 0, [], none, [], fun _ _ ↦ []⟩ (min plan.jobs plan.total)
    rw [Full, FleetPlan.start, htasks, hpending, FleetPlan.total]
    dsimp only [length_nil]
    omega

/-- No other target has the ordinal of a task. -/
theorem Accounts.apart (h : Accounts plan state) (hplan : plan.Checked)
    (htask : state.tasks[index]? = some task) {target : PreparedTarget}
    (htarget : target ∈ state.reports.map FleetReport.target ++
      (state.tasks.eraseIdx index).map FleetTask.target ++ state.pending) :
    target.ordinal ≠ task.target.ordinal := by
  obtain ⟨hlt, rfl⟩ := List.getElem?_eq_some_iff.mp htask
  have htasks : (state.tasks[index].target :: (state.tasks.eraseIdx index).map
      FleetTask.target).Perm (state.tasks.map FleetTask.target) :=
    (getElem_cons_eraseIdx_perm hlt).map FleetTask.target
  have hall : (state.tasks[index].target :: (state.reports.map FleetReport.target ++
      (state.tasks.eraseIdx index).map FleetTask.target ++ state.pending)).Perm plan.targets := by
    rw [← h.started, ← cons_append]
    exact ((perm_middle.symm.trans (htasks.append_left _)).trans h.accounted).append_right _
  have hnodup := (hall.map PreparedTarget.ordinal).nodup_iff.mpr hplan.ordinals
  intro heq
  exact (nodup_cons.mp hnodup).1 (mem_map.mpr ⟨target, htarget, heq⟩)

/-- The tasks when one of them has taken a step are this one and the others. -/
theorem mem_set_tasks {tasks : List FleetTask} {other : FleetTask}
    (h : other ∈ tasks.set index next) : other = next ∨ other ∈ tasks.eraseIdx index := by
  obtain ⟨j, hj⟩ := mem_iff_getElem?.mp h
  rw [List.getElem?_set] at hj
  split at hj
  · split at hj
    · exact .inl (Option.some.inj hj).symm
    · cases hj
  · exact .inr (mem_eraseIdx_iff_getElem?.mpr ⟨j, Ne.symm ‹_›, hj⟩)

/-- A task goes on. -/
theorem Accounts.advance (h : Accounts plan state) (hplan : plan.Checked)
    (htask : state.tasks[index]? = some task) (hstep : task.step event = some next) :
    Accounts plan { state with
      tasks := state.tasks.set index next
      received := receive state.received task.target.ordinal event } := by
  have hmem := mem_of_getElem? htask
  obtain ⟨htarget, hcaptures⟩ :=
    @FleetTask.step_spec plan.outputLimit state.received task next event hstep
  have htargets : (state.tasks.set index next).map FleetTask.target =
      state.tasks.map FleetTask.target := by
    obtain ⟨hlt, rfl⟩ := List.getElem?_eq_some_iff.mp htask
    rw [map_set, htarget, ← map_set, set_getElem_self]
  have hkept : ∀ target : PreparedTarget, target.ordinal ≠ task.target.ordinal → ∀ stream,
      receive state.received task.target.ordinal event target.ordinal stream =
        state.received target.ordinal stream :=
    fun target hapart stream ↦ congrFun (receive_of_ne hapart) stream
  refine { h with accounted := ?_, captures := ?_, results := ?_, silent := ?_ }
  · rw [htargets]
    exact h.accounted
  · intro other hother
    rcases mem_set_tasks hother with hnext | hother
    · rw [hnext]
      exact hcaptures (h.captures task hmem)
    · intro stream
      have hapart := h.apart hplan htask (mem_append_left _ (mem_append_right _
        (mem_map_of_mem hother)))
      refine (h.captures other (mem_of_mem_eraseIdx hother) stream).trans ?_
      exact congrArg _ (hkept other.target hapart stream).symm
  · intro report hreport result hresult
    have hapart := h.apart hplan htask (mem_append_left _ (mem_append_left _
      (mem_map_of_mem hreport)))
    obtain ⟨hordinal, hlabel, hstdout, hstderr⟩ := h.results report hreport result hresult
    refine ⟨hordinal, hlabel, ?_, ?_⟩
    · exact hstdout.trans (congrArg _ (hkept report.target hapart .stdout).symm)
    · exact hstderr.trans (congrArg _ (hkept report.target hapart .stderr).symm)
  · intro target hpending stream
    have hapart := h.apart hplan htask (mem_append_right _ hpending)
    exact (hkept target hapart stream).trans (h.silent target hpending stream)

/-- A task that is over is taken out. -/
theorem Accounts.join (h : Accounts plan state) (htask : state.tasks[index]? = some task)
    (hbody : ∀ result, body = .ok result → Reported plan.outputLimit state.received task.target result) :
    Accounts plan (plan.join state index task (.ok ()) body) := by
  obtain ⟨hlt, rfl⟩ := List.getElem?_eq_some_iff.mp htask
  have htasks := (getElem_cons_eraseIdx_perm hlt).map FleetTask.target
  have hcompleted := h.completed
  rw [FleetPlan.join]
  refine Accounts.refill { h with
    accounted := ?_, completed := ?_, counts := ?_, failed := ?_, captures := ?_, results := ?_ }
  · rw [map_append, append_assoc]
    exact (htasks.append_left _).trans h.accounted
  · rw [length_append, hcompleted]
    rfl
  · rw [map_append, h.counts, length_append, length_singleton,
      List.range'_concat, map_append, hcompleted]
    simp [Nat.add_comm]
  · rw [countP_append, h.failed, countP_singleton]
    split <;> rfl
  · exact fun other hother ↦ h.captures other (mem_of_mem_eraseIdx hother)
  · intro report hreport result hresult
    rcases mem_append.mp hreport with hold | hnew
    · exact h.results report hold result hresult
    · cases mem_singleton.mp hnew
      exact hbody result hresult

/-- A task that is over makes room for the next one. -/
theorem Full.join (h : Full plan state) (htask : state.tasks[index]? = some task) :
    Full plan (plan.join state index task (.ok ()) body) := by
  obtain ⟨hlt, -⟩ := List.getElem?_eq_some_iff.mp htask
  rw [FleetPlan.join]
  dsimp only
  rw [Full, length_refill.1, length_refill.2]
  rw [Full] at h
  dsimp only
  rw [length_eraseIdx_of_lt hlt]
  omega

/-- A run is over when nothing is left to be done, and says whether a target has failed. -/
def Settled (plan : FleetPlan) (state : FleetState) : Prop :=
  ∀ result, state.outcome = some result → state.tasks = [] ∧
    result = Result.bailIf (state.failed ≠ 0)
      s!"fleet command failed on {state.failed} of {plan.total} targets"

/-- The reports of a run can be printed. -/
def Printed (_ : FleetState) (event : FleetEvent) : Prop :=
  ∀ index error, event ≠ .joined index (.error error)

theorem outcome_refill : (plan.refill state).outcome = state.outcome := by
  rw [FleetPlan.refill]
  split <;> rfl

theorem outcome_start : plan.start.outcome = none := by
  rw [FleetPlan.start]
  generalize min plan.jobs plan.total = k
  induction k with
  | zero => rfl
  | succ k ih =>
      rw [Function.iterate_succ_apply', outcome_refill]
      exact ih

theorem outcome_join : (plan.join state index task (.ok ()) body).outcome = state.outcome :=
  outcome_refill

/-- What can happen, and what comes of it: a task that is joined has finished or crashed. -/
theorem FleetPlan.step_cases {event : FleetEvent} {state' : FleetState}
    (h : plan.step state event = some state') : state.outcome = none ∧ match event with
      | .task index event => ∃ task next, state.tasks[index]? = some task ∧
          task.step event = some next ∧ state' = { state with
            tasks := state.tasks.set index next
            received := receive state.received task.target.ordinal event }
      | .joined index printed => ∃ task body, state.tasks[index]? = some task ∧
          (∀ result, body = .ok result →
            ∃ exitStatus error, result = task.result exitStatus error) ∧
          state' = plan.join state index task printed body
      | .ended => state.tasks = [] ∧ state' = { state with
          outcome := some (Result.bailIf (state.failed ≠ 0)
            s!"fleet command failed on {state.failed} of {plan.total} targets") } := by
  unfold FleetPlan.step at h
  split at h
  case isTrue => cases h
  case isFalse hrunning =>
    refine ⟨Option.not_isSome_iff_eq_none.mp hrunning, ?_⟩
    cases event with
    | task index event =>
        obtain ⟨task, htask, h⟩ := Option.bind_eq_some_iff.mp h
        obtain ⟨next, hnext, h⟩ := Option.bind_eq_some_iff.mp h
        exact ⟨task, next, htask, hnext, (Option.some.inj h).symm⟩
    | joined index printed =>
        obtain ⟨task, htask, h⟩ := Option.bind_eq_some_iff.mp h
        split at h
        case h_1 exitStatus error _ =>
          refine ⟨task, .ok (task.result exitStatus error), htask, fun result hresult ↦ ?_, ?_⟩
          · exact ⟨exitStatus, error, (Except.ok.inj hresult).symm⟩
          · exact (Option.some.inj h).symm
        case h_2 error _ =>
          refine ⟨task, .error error, htask, fun result hresult ↦ ?_, (Option.some.inj h).symm⟩
          cases hresult
        all_goals cases h
    | ended =>
        dsimp only at h
        split at h
        case isTrue hempty => exact ⟨hempty, (Option.some.inj h).symm⟩
        case isFalse => cases h

/-- What every step keeps. -/
theorem fleet_step {event : FleetEvent} {state' : FleetState} (hplan : plan.Checked)
    (h : Accounts plan state ∧ Full plan state ∧ Settled plan state)
    (hprinted : Printed state event) (hstep : plan.step state event = some state') :
    Accounts plan state' ∧ Full plan state' ∧ Settled plan state' := by
  obtain ⟨haccounts, hfull, -⟩ := h
  obtain ⟨hnone, hstep⟩ := FleetPlan.step_cases hstep
  have hunsettled : ∀ state'' : FleetState, state''.outcome = none → Settled plan state'' := by
    intro state'' hnone result hresult
    rw [hnone] at hresult
    cases hresult
  cases event with
  | task index event =>
      obtain ⟨task, next, htask, hnext, rfl⟩ := hstep
      refine ⟨haccounts.advance hplan htask hnext, ?_, hunsettled _ hnone⟩
      rw [Full] at hfull ⊢
      rw [length_set]
      exact hfull
  | joined index printed =>
      obtain ⟨task, body, htask, hbody, rfl⟩ := hstep
      cases printed with
      | ok =>
          refine ⟨haccounts.join htask fun result hresult ↦ ?_, hfull.join htask,
            hunsettled _ (outcome_join.trans hnone)⟩
          obtain ⟨exitStatus, error, rfl⟩ := hbody result hresult
          have hcaptures := haccounts.captures task (mem_of_getElem? htask)
          exact ⟨rfl, rfl, hcaptures .stdout, hcaptures .stderr⟩
      | error error => exact absurd rfl (hprinted index error)
  | ended =>
      obtain ⟨hempty, rfl⟩ := hstep
      refine ⟨{ haccounts with }, hfull, fun result hresult ↦ ⟨hempty, ?_⟩⟩
      cases hresult
      rfl

/-- What every state of a run keeps when all reports can be printed. -/
theorem accounts_printed (hplan : plan.Checked) (h : Reaches plan.step Printed plan.start state) :
    Accounts plan state ∧ Full plan state ∧ Settled plan state := by
  have hstart := @accounts_start plan
  refine h.invariant ⟨hstart.1, hstart.2, ?_⟩ fun _ _ _ ↦ fleet_step hplan
  intro result hresult
  rw [outcome_start] at hresult
  cases hresult

/-- A run goes on until a report cannot be printed. -/
theorem printed_or_stopped (h : Reaches plan.step (fun _ _ ↦ True) plan.start state) :
    Reaches plan.step Printed plan.start state ∨
      ∃ before index task error body, Reaches plan.step Printed plan.start before ∧
        state = plan.join before index task (.error error) body := by
  induction h with
  | start => exact .inl .start
  | @next before after event _ _ hstep ih =>
      rcases ih with hprinted | ⟨earlier, index, task, error, body, -, rfl⟩
      · by_cases hevent : Printed before event
        · exact .inl (hprinted.next hevent hstep)
        · obtain ⟨index, error, rfl⟩ : ∃ index error, event = .joined index (.error error) := by
            by_contra hnone
            exact hevent fun index error heq ↦ hnone ⟨index, error, heq⟩
          obtain ⟨-, task, body, -, -, rfl⟩ := FleetPlan.step_cases hstep
          exact .inr ⟨before, index, task, error, body, hprinted, rfl⟩
      · cases (FleetPlan.step_cases hstep).1

end

/-! ## The law -/

/-- The bytes that a task holds. -/
def FleetTask.retained (task : FleetTask) : Nat :=
  task.stdout.bytes.length + task.stderr.bytes.length

/-- What holds in every state of every run. -/
structure Bounded (plan : FleetPlan) (state : FleetState) : Prop where
  started : state.started ++ state.pending = plan.targets
  once : (state.reports.map FleetReport.target ++ state.tasks.map FleetTask.target).Subperm
    state.started
  inFlight : state.tasks.length ≤ plan.jobs
  captures : ∀ task ∈ state.tasks, Captures plan.outputLimit state.received task
  results : ∀ report ∈ state.reports, ∀ result, report.body = .ok result →
    Reported plan.outputLimit state.received report.target result
  window : (state.tasks.map FleetTask.retained).sum ≤ plan.jobs * plan.outputLimit * 2
  checked : plan.jobs * plan.outputLimit * 2 ≤ MAX_OUTPUT_WINDOW

/-- What holds moreover as long as all reports can be printed. -/
structure Accounted (plan : FleetPlan) (state : FleetState) : Prop where
  accounted : (state.reports.map FleetReport.target ++ state.tasks.map FleetTask.target).Perm
    state.started
  counts : state.reports.map (fun report ↦ (report.completed, report.total)) =
    (List.range' 1 state.reports.length).map (·, plan.total)
  goesOn : state.outcome = none → ∃ event, Printed state event ∧ (plan.step state event).isSome
  everyTarget : state.outcome ≠ none → state.started = plan.targets ∧
    (state.reports.map FleetReport.target).Perm plan.targets ∧ state.reports.length = plan.total
  outcome : ∀ result, state.outcome = some result →
    (result = .ok () ↔ ∀ report ∈ state.reports, ¬report.isFailure)

section

variable {plan : FleetPlan} {state : FleetState} {tasks : List FleetTask} {limit : Nat}
  {received : Nat → Stream → List UInt8}

theorem retained_le (h : ∀ task ∈ tasks, Captures limit received task) :
    (tasks.map FleetTask.retained).sum ≤ tasks.length * (limit * 2) := by
  have hle : ∀ retained ∈ tasks.map FleetTask.retained, retained ≤ limit * 2 := by
    intro retained hretained
    obtain ⟨task, htask, rfl⟩ := mem_map.mp hretained
    have hout : task.stdout = _ := h task htask .stdout
    have herr : task.stderr = _ := h task htask .stderr
    rw [FleetTask.retained, hout, herr, captured, captured, length_take, length_take]
    omega
  refine (sum_le_card_nsmul _ _ hle).trans_eq ?_
  rw [length_map]
  rfl

theorem Accounts.bounded (h : Accounts plan state) (hfull : Full plan state)
    (hplan : plan.Checked) : Bounded plan state := by
  have hjobs : state.tasks.length ≤ plan.jobs := by
    rw [Full] at hfull
    omega
  refine ⟨h.started, h.accounted.subperm, hjobs, h.captures, h.results, ?_, hplan.window⟩
  rw [Nat.mul_assoc]
  exact (retained_le h.captures).trans (Nat.mul_le_mul_right _ hjobs)

/-- When a report cannot be printed, no task is left. -/
theorem Bounded.stop {index : Nat} {task : FleetTask} {error : AnyError}
    {body : Except String FleetResult} (h : Bounded plan state) :
    Bounded plan (plan.join state index task (.error error) body) := by
  refine { h with
    once := ?_
    inFlight := Nat.zero_le _
    captures := fun _ htask ↦ absurd htask not_mem_nil
    window := Nat.zero_le _ }
  refine List.Subperm.trans ?_ h.once
  rw [FleetPlan.join]
  dsimp only
  rw [map_nil, append_nil]
  exact (sublist_append_left _ _).subperm

/-- A task that is not over can go on. -/
theorem FleetTask.exists_step {task : FleetTask} (h : ¬task.isOver) :
    ∃ event, (task.step event).isSome := by
  rw [FleetTask.isOver] at h
  cases hphase : task.phase with
  | connecting => exact ⟨.connectFailed "", by simp [FleetTask.step, hphase]⟩
  | executing => exact ⟨.executed (.ok none), by simp [FleetTask.step, hphase]⟩
  | closing executed => exact ⟨.closed (.ok ()), by simp [FleetTask.step, hphase]⟩
  | finished exitStatus error =>
      rw [hphase] at h
      exact absurd rfl h
  | crashed error =>
      rw [hphase] at h
      exact absurd rfl h

/-- A task that is over can be joined. -/
theorem isSome_joined {task : FleetTask} (h : state.outcome = none)
    (htask : state.tasks[0]? = some task) (hover : task.isOver) :
    (plan.step state (.joined 0 (.ok ()))).isSome := by
  rw [FleetTask.isOver] at hover
  cases hphase : task.phase with
  | finished exitStatus error => simp [FleetPlan.step, h, htask, hphase]
  | crashed error => simp [FleetPlan.step, h, htask, hphase]
  | _ =>
      rw [hphase] at hover
      cases hover

/-- As long as a run is not over, it can go on. -/
theorem exists_step (h : state.outcome = none) :
    ∃ event, Printed state event ∧ (plan.step state event).isSome := by
  cases htasks : state.tasks with
  | nil => exact ⟨.ended, fun _ _ ↦ FleetEvent.noConfusion, by simp [FleetPlan.step, h, htasks]⟩
  | cons task tasks =>
      have htask : state.tasks[0]? = some task := by
        rw [htasks]
        rfl
      by_cases hover : task.isOver
      · exact ⟨.joined 0 (.ok ()), by rintro _ _ ⟨⟩, isSome_joined h htask hover⟩
      · obtain ⟨event, hevent⟩ := FleetTask.exists_step hover
        obtain ⟨next, hnext⟩ := Option.isSome_iff_exists.mp hevent
        exact ⟨.task 0 event, fun _ _ ↦ FleetEvent.noConfusion, by simp [FleetPlan.step, h, htask, hnext]⟩
theorem Accounts.accountedFor (h : Accounts plan state) (hfull : Full plan state)
    (hsettled : Settled plan state) (hplan : plan.Checked) : Accounted plan state := by
  have hended : state.outcome ≠ none → state.tasks = [] ∧ state.pending = [] := by
    intro hne
    obtain ⟨result, hresult⟩ := Option.ne_none_iff_exists'.mp hne
    have htasks := (hsettled result hresult).1
    have hjobs := hplan.jobs
    rw [Full, htasks] at hfull
    refine ⟨htasks, length_eq_zero_iff.mp ?_⟩
    rw [length_nil] at hfull
    omega
  refine ⟨h.accounted, h.counts, exists_step, fun hne ↦ ?_, fun result hresult ↦ ?_⟩
  · obtain ⟨htasks, hpending⟩ := hended hne
    have hstarted := h.started
    have haccounted := h.accounted
    rw [hpending, append_nil] at hstarted
    rw [htasks, map_nil, append_nil, hstarted] at haccounted
    refine ⟨hstarted, haccounted, ?_⟩
    rw [FleetPlan.total, ← haccounted.length_eq, length_map]
  · rw [(hsettled result hresult).2, bailIf_eq_ok, not_not, h.failed]
    exact countP_eq_zero

end

/-- In every run each target that is asked for is run once, no more of them at a time than there are
jobs, and nothing is lost between what comes from a target and what is reported of it. -/
theorem fleet_accounting {world : FleetWorld} {cli : FleetCli} {plan : FleetPlan}
    (hplan : world.prepare cli = .ok plan) : Selection world cli plan ∧
      (∀ state, Reaches plan.step (fun _ _ ↦ True) plan.start state → Bounded plan state) ∧
      ∀ state, Reaches plan.step Printed plan.start state → Accounted plan state := by
  obtain ⟨hselection, hchecked⟩ := checked_of_prepare hplan
  refine ⟨hselection, fun state hrun ↦ ?_, fun state hrun ↦ ?_⟩
  · rcases printed_or_stopped hrun with hprinted | ⟨before, index, task, error, body, hprinted, rfl⟩
    · obtain ⟨haccounts, hfull, -⟩ := accounts_printed hchecked hprinted
      exact haccounts.bounded hfull hchecked
    · obtain ⟨haccounts, hfull, -⟩ := accounts_printed hchecked hprinted
      exact (haccounts.bounded hfull hchecked).stop
  · obtain ⟨haccounts, hfull, hsettled⟩ := accounts_printed hchecked hrun
    exact haccounts.accountedFor hfull hsettled hchecked

/-- Any host can be resolved. -/
def openWorld : FleetWorld := ⟨fun _ ↦ bail "", .ok (), fun _ ↦ .ok (.new "h" "root"), .ok ()⟩

def threeHosts : FleetPlan where
  jobs := 2
  outputLimit := 4
  targets := [⟨0, "db", .new "h" "root"⟩, ⟨1, "web", .new "h" "root"⟩, ⟨2, "old", .new "h" "root"⟩]

/-- One host refuses the connection, the output of one is longer than what is kept of it, and the
command fails on the third, which is taken when the first is reported. -/
def threeRuns : List FleetEvent :=
  [.task 0 (.connected none), .task 1 (.connectFailed "refused"),
    .task 0 (.output .stdout [104, 101]), .joined 1 (.ok ()), .task 1 (.connected (some "key")),
    .task 0 (.output .stdout [108, 108, 111]), .task 1 (.output .stderr [33]),
    .task 0 (.executed (.ok (some 0))), .task 1 (.executed (.ok (some 1))),
    .task 0 (.closed (.ok ())), .joined 0 (.ok ()), .task 0 (.closed (.ok ())), .joined 0 (.ok ()),
    .ended]

theorem fleet_accounting_three_hosts :
    Selection openWorld ⟨["db", "web", "db", "old"], [], none, 2, 4⟩ threeHosts ∧
      ∃ state, Bounded threeHosts state ∧ Accounted threeHosts state ∧
        state.reports.map (fun report ↦ (report.target.label, report.isFailure)) =
          [("web", true), ("db", false), ("old", true)] := by
  have hplan : openWorld.prepare ⟨["db", "web", "db", "old"], [], none, 2, 4⟩ = .ok threeHosts := rfl
  have hreports : (runEvents threeHosts.step threeHosts.start threeRuns).map (fun state ↦
      state.reports.map fun report ↦ (report.target.label, report.isFailure)) =
        some [("web", true), ("db", false), ("old", true)] := by decide +kernel
  obtain ⟨state, hrun, hreports⟩ := Option.map_eq_some_iff.mp hreports
  obtain ⟨hselection, hbounded, haccounted⟩ := fleet_accounting hplan
  have hprinted : ∀ e ∈ threeRuns, ∀ state, Printed state e := by
    simp [threeRuns, Printed]
  exact ⟨hselection, state, hbounded state (Reaches.start.runEvents threeRuns hrun),
    haccounted state (Reaches.start.runAdmitted threeRuns hprinted hrun), hreports⟩

end KaduoxSsh.Cli
