import KaduoxSsh.Core.ManagerPermits
import KaduoxSsh.Lib.SortedMap

/-!
# One attempt at a time for each name

What the calls on the connection manager rely on while others go on between their
steps. A call that leads for a name is the only one that puts a connection under it,
so what it has found out about the name stays true until it resigns (`Assured`): the
name is free from its look-up as the leader until its own connection is put in. Beside
it each call knows where the connection that it is about to answer with comes from
(`Answers`). `Flight` says this for all calls, and every event keeps it.
-/

namespace KaduoxSsh.Core

open Option List

variable {Config : Type}

/-! ## What calls rely on -/

namespace Call

/-- A request to connect that is not eligible for reuse, such as one with a secret. -/
def Secret : Call Config → Prop
  | connect _ _ authentication _ => authentication.reuseKey = .nonReusable
  | _ => False

def Connects : Call Config → Prop
  | connect _ _ _ _ => True
  | _ => False

/-- A connection that is found may answer the call. -/
def Suits (call : Call Config) (place : Lookup) (met : List Nat) (id : Nat)
    (existing : ManagedConnection Config) : Prop :=
  match call with
  | connect _ config authentication entry =>
      existing.config = config ∧
        (existing.authentication.canReuseWith authentication.reuseKey = true ∨
          place = .follower ∧ entry ≠ .connectWithJumpAuth ∧
            existing.authentication = .nonReusable ∧ authentication.reuseKey = .nonReusable ∧
              id ∉ met)
  | _ => True

end Call

/-- A look-up is made by a call that may make it. -/
def Task.Placed (task : Task Config) : Lookup → Prop
  | .leader => task.leading ≠ none
  | .follower => task.call.isJump = false
  | .optimistic | .plain => True

namespace Manager

section

variable (s : Manager Config)

def Dead (id : Nat) : Prop := ∃ c, s.managed[id]? = some c ∧ c.alive = false

/-- Some call to connect under a name has established a connection. -/
def Origin (name : String) (c : ManagedConnection Config) : Prop :=
  ∃ task authentication entry, s.tasks[c.attempt]? = some task ∧
    task.call = .connect name c.config authentication entry ∧
      c.authentication = authentication.reuseKey

/-- The attempt of a call has established a connection. -/
def Own (t : Nat) (task : Task Config) (id : Nat) : Prop :=
  ∃ c, s.managed[id]? = some c ∧ c.attempt = t ∧ s.Origin task.call.name c

/-- What a call knows of a connection that answers it. -/
def Answers (t : Nat) (task : Task Config) (id : Nat) : Source → Prop
  | .established => s.Own t task id
  | .found place => ∃ c, s.managed[id]? = some c ∧ s.Origin task.call.name c ∧
      task.call.Suits place task.met id c
  | .winner => False

/-- A call still looks for a connection: those that it has met could not be used. -/
def Searching (task : Task Config) : Prop :=
  task.permit = false ∧ (task.call.Secret → ∀ id ∈ task.met, s.Dead id)

/-- A call leads for its name, and nothing is in the pool under it. -/
def Vacant (task : Task Config) : Prop :=
  task.leading ≠ none ∧ s.find task.call.name = none

/-- What a call may rely on at its next step. -/
def Assured (t : Nat) (task : Task Config) : Prop :=
  match task.phase with
  | .lookup place => s.Searching task ∧ task.Placed place
  | .evict place id => s.Searching task ∧ task.Placed place ∧ s.Dead id ∧
      (place = .leader → ∀ current, s.find task.call.name = some current → current = id)
  | .dropping (.missed place) => s.Searching task ∧ task.Placed place ∧
      (place = .leader → s.find task.call.name = none)
  | .claim | .wait _ => s.Searching task
  | .prune => task.permit = false ∧ (task.call.Connects → s.Vacant task)
  | .dropping .acquire | .acquire => task.permit = false ∧ s.Vacant task
  | .connecting => task.permit = true ∧ s.Vacant task
  | .insert id => task.permit = false ∧ s.Vacant task ∧ s.Own t task id
  | .dropping (.inserted id) => task.permit = false ∧ s.Own t task id
  -- Another connection is never in the pool when a leader inserts its own.
  | .dropping (.closing _ _) | .closing _ _ => False
  | .returning id source | .handoff id source => task.permit = false ∧ s.Answers t task id source
  | .remove | .closeAll | .close => task.permit = false
  | .unwind (.transport id source) | .finished (.transport id source) => s.Answers t task id source
  | .unwind _ | .finished _ => True

/-- A call has the lead that it thinks it has, and what it relies on. -/
structure Sound (t : Nat) (task : Task Config) : Prop where
  leader : ∀ signal, task.leading = some signal → s.connecting task.call.name = some signal
  assured : s.Assured t task

structure Flight : Prop where
  /-- A name has one entry. -/
  keys : (s.connections.map Prod.fst).Nodup
  /-- What is in the pool under a name was established under it. -/
  pool : ∀ entry ∈ s.connections, ∃ c, s.managed[entry.2]? = some c ∧ s.Origin entry.1 c
  signals : ∀ name signal, s.connecting name = some signal → signal < s.signals.length
  /-- A signal has one leader. -/
  single : ∀ (t u : Nat) (task other : Task Config) (signal : Nat), s.tasks[t]? = some task → s.tasks[u]? = some other →
    task.leading = some signal → other.leading = some signal → t = u
  sound : ∀ t task, s.tasks[t]? = some task → s.Sound t task

end

variable {s s' : Manager Config} {t : Nat} {task task' : Task Config} {name : String}
  {e : ManagerEvent Config}

/-! ## The pool -/

section

variable (hkeys : (s.connections.map Prod.fst).Nodup)

include hkeys

theorem find_eq_some_iff {id : Nat} :
    s.find name = some id ↔ (name, id) ∈ s.connections := lookup_eq_some_iff_mem hkeys

/-- Entries only leave the pool. -/
theorem find_of_sublist (hsublist : s'.connections.Sublist s.connections) {id : Nat}
    (hfind : s'.find name = some id) : s.find name = some id := by
  have hkeys' := hkeys.sublist (hsublist.map Prod.fst)
  exact (find_eq_some_iff hkeys).mpr (hsublist.subset ((find_eq_some_iff hkeys').mp hfind))

theorem find_unlink {p : String × Nat → Bool} {id : Nat}
    (hfind : (s.unlink p).find name = some id) : s.find name = some id ∧ p (name, id) = false := by
  have hsublist : (s.unlink p).connections.Sublist s.connections := filter_sublist
  have hkeys' := hkeys.sublist (hsublist.map Prod.fst)
  have hmem := mem_filter.mp ((find_eq_some_iff hkeys').mp hfind)
  exact ⟨(find_eq_some_iff hkeys).mpr hmem.1, by simpa using hmem.2⟩

theorem keys_link (name : String) (id : Nat) :
    ((s.link name id).connections.map Prod.fst).Nodup := by
  refine nodup_cons.mpr ⟨fun hmem ↦ ?_, hkeys.sublist (filter_sublist.map Prod.fst)⟩
  obtain ⟨entry, hentry, heq⟩ := mem_map.mp hmem
  simpa [heq] using (mem_filter.mp hentry).2

theorem find_link_of_ne {name other : String} {new id : Nat} (hne : other ≠ name)
    (hfind : (s.link name new).find other = some id) : s.find other = some id := by
  rcases mem_cons.mp ((find_eq_some_iff (keys_link hkeys name new)).mp hfind) with heq | hmem
  · exact absurd (congrArg Prod.fst heq) hne
  · exact (find_eq_some_iff hkeys).mpr (mem_of_mem_filter hmem)

end

/-! ## What stays true while other calls go on -/

/-- Connections are only used, die or are made. -/
def Recorded (s s' : Manager Config) : Prop :=
  ∀ (id : Nat) (c : ManagedConnection Config), s.managed[id]? = some c →
    ∃ c', s'.managed[id]? = some c' ∧ c'.config = c.config ∧
      c'.authentication = c.authentication ∧ c'.attempt = c.attempt ∧
        (c.alive = false → c'.alive = false)

/-- Beside it, calls go on or begin. -/
structure Later (s s' : Manager Config) : Prop where
  managed : s.Recorded s'
  calls : ∀ (t : Nat) (task : Task Config), s.tasks[t]? = some task →
    ∃ task', s'.tasks[t]? = some task' ∧ task'.call = task.call

/-- Nobody has become the leader for a name or put something under it. -/
structure Kept (s s' : Manager Config) (name : String) : Prop where
  connecting : s'.connecting name = s.connecting name
  found : ∀ id, s'.find name = some id → s.find name = some id

theorem Dead.later (hlater : s.Later s') {id : Nat} (h : s.Dead id) : s'.Dead id := by
  obtain ⟨c, hc, hdead⟩ := h
  obtain ⟨c', hc', -, -, -, halive⟩ := hlater.managed id c hc
  exact ⟨c', hc', halive hdead⟩

theorem Origin.later (hlater : s.Later s') {c c' : ManagedConnection Config}
    (hconfig : c'.config = c.config) (hauthentication : c'.authentication = c.authentication)
    (hattempt : c'.attempt = c.attempt) (h : s.Origin name c) : s'.Origin name c' := by
  obtain ⟨task, authentication, entry, htask, hcall, hkey⟩ := h
  obtain ⟨task', htask', hcall'⟩ := hlater.calls c.attempt task htask
  refine ⟨task', authentication, entry, ?_, ?_, ?_⟩
  · rw [hattempt, htask']
  · rw [hcall', hcall, hconfig]
  · rw [hauthentication, hkey]

theorem Own.later (hlater : s.Later s') (hcall : task'.call = task.call) {id : Nat}
    (h : s.Own t task id) : s'.Own t task' id := by
  obtain ⟨c, hc, hattempt, horigin⟩ := h
  obtain ⟨c', hc', hconfig, hauthentication, hattempt', -⟩ := hlater.managed id c hc
  refine ⟨c', hc', hattempt'.trans hattempt, ?_⟩
  rw [hcall]
  exact horigin.later hlater hconfig hauthentication hattempt'

theorem Answers.later (hlater : s.Later s') (hcall : task'.call = task.call)
    (hmet : task'.met = task.met) {id : Nat} {source : Source} (h : s.Answers t task id source) :
    s'.Answers t task' id source := by
  cases source with
  | established => exact Own.later hlater hcall h
  | winner => exact h
  | found place =>
      obtain ⟨c, hc, horigin, hsuits⟩ := h
      obtain ⟨c', hc', hconfig, hauthentication, hattempt, -⟩ := hlater.managed id c hc
      refine ⟨c', hc', ?_, ?_⟩
      · rw [hcall]
        exact horigin.later hlater hconfig hauthentication hattempt
      · rw [hcall, hmet]
        unfold Call.Suits at hsuits ⊢
        rw [hconfig, hauthentication]
        exact hsuits

theorem Searching.later (hlater : s.Later s') (hcall : task'.call = task.call)
    (hmet : task'.met = task.met) (hpermit : task'.permit = task.permit) (h : s.Searching task) :
    s'.Searching task' := by
  refine ⟨hpermit.trans h.1, ?_⟩
  rw [hcall, hmet]
  exact fun hsecret id hid ↦ (h.2 hsecret id hid).later hlater

theorem Kept.find_none (hkept : s.Kept s' name) (h : s.find name = none) : s'.find name = none := by
  cases hfind : s'.find name with
  | none => rfl
  | some id => exact absurd (hkept.found id hfind) (by simp [h])

theorem Vacant.kept (hkept : task.leading ≠ none → s.Kept s' task.call.name)
    (hcall : task'.call = task.call) (hleading : task'.leading = task.leading)
    (h : s.Vacant task) : s'.Vacant task' := by
  rw [Vacant, hcall, hleading]
  exact ⟨h.1, (hkept h.1).find_none h.2⟩

theorem Placed.same (hcall : task'.call = task.call) (hleading : task'.leading = task.leading)
    {place : Lookup} (h : task.Placed place) : task'.Placed place := by
  unfold Task.Placed at h ⊢
  rw [hcall, hleading]
  exact h

/-- What a call relies on is not taken from it while others go on. -/
theorem Assured.later (hlater : s.Later s')
    (hkept : task.leading ≠ none → s.Kept s' task.call.name) (hcall : task'.call = task.call)
    (hphase : task'.phase = task.phase) (hmet : task'.met = task.met)
    (hpermit : task'.permit = task.permit) (hleading : task'.leading = task.leading)
    (h : s.Assured t task) : s'.Assured t task' := by
  have hsearching : s.Searching task → s'.Searching task' :=
    Searching.later hlater hcall hmet hpermit
  have hvacant : s.Vacant task → s'.Vacant task' := Vacant.kept hkept hcall hleading
  have hplaced {place : Lookup} : task.Placed place → task'.Placed place := Placed.same hcall hleading
  have hown {id : Nat} : s.Own t task id → s'.Own t task' id := Own.later hlater hcall
  have hanswers {id : Nat} {source : Source} : s.Answers t task id source →
    s'.Answers t task' id source := Answers.later hlater hcall hmet
  unfold Assured at h ⊢
  rw [hphase]
  rw [hpermit]
  cases heq : task.phase with
  | lookup place =>
      rw [heq] at h
      exact ⟨hsearching h.1, hplaced h.2⟩
  | evict place id =>
      rw [heq] at h
      obtain ⟨hsearch, hplace, hdead, hfind⟩ := h
      refine ⟨hsearching hsearch, hplaced hplace, hdead.later hlater, fun hleader current hcurrent ↦ ?_⟩
      have hlead : task.leading ≠ none := by
        rw [hleader] at hplace
        exact hplace
      rw [hcall] at hcurrent
      exact hfind hleader current ((hkept hlead).found current hcurrent)
  | dropping next =>
      rw [heq] at h
      cases next with
      | missed place =>
          obtain ⟨hsearch, hplace, hfind⟩ := h
          refine ⟨hsearching hsearch, hplaced hplace, fun hleader ↦ ?_⟩
          have hlead : task.leading ≠ none := by
            rw [hleader] at hplace
            exact hplace
          rw [hcall]
          exact (hkept hlead).find_none (hfind hleader)
      | acquire => exact ⟨h.1, hvacant h.2⟩
      | inserted id => exact ⟨h.1, hown h.2⟩
      | closing existing compatibility => exact h
  | claim | wait signal =>
      rw [heq] at h
      exact hsearching h
  | prune =>
      rw [heq] at h
      rw [hcall]
      exact ⟨h.1, fun hconnects ↦ hvacant (h.2 hconnects)⟩
  | acquire | connecting =>
      rw [heq] at h
      exact ⟨h.1, hvacant h.2⟩
  | insert id =>
      rw [heq] at h
      exact ⟨h.1, hvacant h.2.1, hown h.2.2⟩
  | closing existing compatibility =>
      rw [heq] at h
      exact h
  | returning id source | handoff id source =>
      rw [heq] at h
      exact ⟨h.1, hanswers h.2⟩
  | remove | closeAll | close =>
      rw [heq] at h
      exact h
  | unwind outcome | finished outcome =>
      rw [heq] at h
      cases outcome with
      | transport id source => exact hanswers h
      | absent | completed | failed | cancelled => exact trivial

/-- A task stays sound while others go on. -/
theorem Sound.later (hlater : s.Later s')
    (hkept : task.leading ≠ none → s.Kept s' task.call.name) (h : s.Sound t task) :
    s'.Sound t task := by
  refine ⟨fun signal hsignal ↦ ?_, h.assured.later hlater hkept rfl rfl rfl rfl rfl⟩
  rw [(hkept (by simp [hsignal])).connecting]
  exact h.leader signal hsignal

/-! ## One call goes on -/

theorem Recorded.of_eq (h : s'.managed = s.managed) : s.Recorded s' :=
  fun _ c hc ↦ ⟨c, h ▸ hc, rfl, rfl, rfl, id⟩

theorem Recorded.modify {s : Manager Config} {id : Nat}
    {f : ManagedConnection Config → ManagedConnection Config}
    (hf : ∀ c, (f c).config = c.config ∧ (f c).authentication = c.authentication ∧
      (f c).attempt = c.attempt ∧ (c.alive = false → (f c).alive = false)) :
    s.Recorded (s.modify id f) := by
  intro other c hc
  have hget : (s.modify id f).managed[other]? = some (if id = other then f c else c) := by
    show (s.managed.modify id f)[other]? = _
    rw [List.getElem?_modify, hc]
    rfl
  by_cases heq : id = other
  · rw [if_pos heq] at hget
    exact ⟨f c, hget, hf c⟩
  · rw [if_neg heq] at hget
    exact ⟨c, hget, rfl, rfl, rfl, fun h ↦ h⟩

theorem Later.set (htask : s.tasks[t]? = some task) (htasks : s'.tasks = s.tasks.set t task')
    (hcall : task'.call = task.call) (hrecorded : s.Recorded s') : s.Later s' := by
  refine ⟨hrecorded, fun u other hother ↦ ?_⟩
  rw [htasks, List.getElem?_set]
  by_cases heq : t = u
  · rw [← heq, htask, some_inj] at hother
    have hlt : t < s.tasks.length := (List.getElem?_eq_some_iff.mp htask).1
    exact ⟨task', by simp [← heq, hlt], hcall.trans (congrArg _ hother)⟩
  · exact ⟨other, by simp [heq, hother], rfl⟩

/-- One call goes on. At its own name it only changes something that another call could rely on if
it has the lead, or if nobody has. -/
theorem Flight.set (h : s.Flight) (htask : s.tasks[t]? = some task)
    (htasks : s'.tasks = s.tasks.set t task') (hlater : s.Later s')
    (hkept : ∀ name, s.connecting name ≠ none → (name = task.call.name → task.leading = none) →
      s.Kept s' name)
    (hkeys : (s'.connections.map Prod.fst).Nodup)
    (hpool : ∀ entry ∈ s'.connections, ∃ c, s'.managed[entry.2]? = some c ∧ s'.Origin entry.1 c)
    (hsignals : ∀ name signal, s'.connecting name = some signal → signal < s'.signals.length)
    (hleading : ∀ signal, task'.leading = some signal →
      task.leading = some signal ∨ s.signals.length ≤ signal)
    (hsound : s'.Sound t task') : s'.Flight := by
  have hget (u : Nat) (other : Task Config) (hother : s'.tasks[u]? = some other) :
      t = u ∧ other = task' ∨ t ≠ u ∧ s.tasks[u]? = some other := by
    rw [htasks, List.getElem?_set] at hother
    by_cases heq : t = u
    · rw [if_pos heq, ite_none_right_eq_some] at hother
      exact .inl ⟨heq, (some_inj.mp hother.2).symm⟩
    · rw [if_neg heq] at hother
      exact .inr ⟨heq, hother⟩
  -- A signal that the call leads with afterwards is led with by no other call.
  have hother (u : Nat) (other : Task Config) (signal : Nat) (hu : s.tasks[u]? = some other)
      (hlead : task'.leading = some signal) (hlead' : other.leading = some signal) : t = u := by
    rcases hleading signal hlead with hsame | hnew
    · exact h.single t u task other signal htask hu hsame hlead'
    · have hconnecting := (h.sound u other hu).leader signal hlead'
      exact absurd (h.signals _ signal hconnecting) (Nat.not_lt.mpr hnew)
  refine ⟨hkeys, hpool, hsignals, fun u v one other signal hu hv hone hlead ↦ ?_, fun u other hu ↦ ?_⟩
  · rcases hget u one hu with ⟨rfl, rfl⟩ | ⟨hne, hu⟩
    · rcases hget v other hv with ⟨rfl, rfl⟩ | ⟨-, hv⟩
      · rfl
      · exact hother v other signal hv hone hlead
    · rcases hget v other hv with ⟨rfl, rfl⟩ | ⟨-, hv⟩
      · exact (hother u one signal hu hlead hone).symm
      · exact h.single u v one other signal hu hv hone hlead
  · rcases hget u other hu with ⟨rfl, rfl⟩ | ⟨hne, hu⟩
    · exact hsound
    · have hsound := h.sound u other hu
      refine hsound.later hlater fun hlead ↦ ?_
      obtain ⟨signal, hlead⟩ := ne_none_iff_exists'.mp hlead
      have hconnecting := hsound.leader signal hlead
      refine hkept _ (by simp [hconnecting]) fun hname ↦ ?_
      -- Both lead for one name, so with one signal.
      by_contra hboth
      obtain ⟨mine, hmine⟩ := ne_none_iff_exists'.mp hboth
      have hconnecting' := (h.sound t task htask).leader mine hmine
      rw [← hname, hconnecting, some_inj] at hconnecting'
      exact hne (h.single t u task other signal htask hu (hconnecting' ▸ hmine) hlead)

theorem pool_sublist (h : s.Flight) (hlater : s.Later s')
    (hsublist : s'.connections.Sublist s.connections) : ∀ entry ∈ s'.connections,
      ∃ c, s'.managed[entry.2]? = some c ∧ s'.Origin entry.1 c := by
  intro entry hentry
  obtain ⟨c, hc, horigin⟩ := h.pool entry (hsublist.subset hentry)
  obtain ⟨c', hc', hconfig, hauthentication, hattempt, -⟩ := hlater.managed entry.2 c hc
  exact ⟨c', hc', horigin.later hlater hconfig hauthentication hattempt⟩

/-- Entries at most leave the pool, and nobody becomes the leader or resigns. -/
theorem Flight.assured_of (h : s.Flight) (htask : s.tasks[t]? = some task) {phase : Phase}
    (hphase : task.phase = phase) : s.Assured t { task with phase } := by
  rw [← hphase]
  exact (h.sound t task htask).assured

theorem Kept.quiet (hkeys : (s.connections.map Prod.fst).Nodup)
    (hconnecting : s'.connecting = s.connecting)
    (hsublist : s'.connections.Sublist s.connections) (name : String) : s.Kept s' name :=
  ⟨congrFun hconnecting name, fun _ ↦ find_of_sublist hkeys hsublist⟩

/-- A call goes on without taking or giving up the lead, and nothing is put in the pool. -/
structure Quiet (s s' : Manager Config) (task task' : Task Config) : Prop where
  sublist : s'.connections.Sublist s.connections
  recorded : s.Recorded s'
  call : task'.call = task.call
  leading : task'.leading = task.leading
  connecting : s'.connecting = s.connecting
  signals : s'.signals = s.signals

theorem quiet_rfl {available : Nat} {tasks : List (Task Config)} {phase : Phase}
    {held discarded met : List Nat} {candidate : Option Nat} {permit : Bool} :
    s.Quiet { s with available, tasks } task
      { task with phase, held, discarded, met, candidate, permit } :=
  ⟨.refl _, .of_eq rfl, rfl, rfl, rfl, rfl⟩

theorem recorded_clients (s : Manager Config) (id : Nat) :
    s.Recorded (s.modify id fun c ↦ { c with clients := c.clients + 1 }) :=
  .modify fun _ ↦ ⟨rfl, rfl, rfl, fun h ↦ h⟩

/-- A step of a task that takes entries out of the pool at most. -/
theorem Flight.quiet (h : s.Flight) (htask : s.tasks[t]? = some task)
    (htasks : s'.tasks = s.tasks.set t task') (hquiet : s.Quiet s' task task')
    (hassured : s.Later s' → (∀ name, s.Kept s' name) → s'.Assured t task') : s'.Flight := by
  obtain ⟨hsublist, hrecorded, hcall, hleading, hconnecting, hsignals⟩ := hquiet
  have hlater : s.Later s' := .set htask htasks hcall hrecorded
  have hkept (name : String) : s.Kept s' name := .quiet h.keys hconnecting hsublist name
  refine h.set htask htasks hlater (fun name _ _ ↦ hkept name)
    (h.keys.sublist (hsublist.map Prod.fst)) (pool_sublist h hlater hsublist) ?_ ?_
    ⟨?_, hassured hlater hkept⟩
  · rw [hconnecting, hsignals]
    exact h.signals
  · rw [hleading]
    exact fun signal ↦ .inl
  · rw [hleading, hcall, hconnecting]
    exact (h.sound t task htask).leader

/-- What happens outside the calls. -/
theorem Flight.outside (h : s.Flight) (htasks : s'.tasks = s.tasks)
    (hconnecting : s'.connecting = s.connecting) (hsignals : s'.signals = s.signals)
    (hconnections : s'.connections = s.connections) (hrecorded : s.Recorded s') : s'.Flight := by
  have hsublist : s'.connections.Sublist s.connections := by rw [hconnections]
  have hlater : s.Later s' := ⟨hrecorded, fun t task htask ↦ ⟨task, htasks ▸ htask, rfl⟩⟩
  refine ⟨?_, pool_sublist h hlater hsublist, ?_, ?_, fun t task htask ↦ ?_⟩
  · rw [hconnections]
    exact h.keys
  · rw [hconnecting, hsignals]
    exact h.signals
  · rw [htasks]
    exact h.single
  · rw [htasks] at htask
    exact (h.sound t task htask).later hlater fun _ ↦ .quiet h.keys hconnecting hsublist _

/-! ## The steps of a call -/

section

variable {place : Lookup} {id : Nat}

theorem afterMiss_assured (hlater : s.Later s') (hkept : s.Kept s' task.call.name)
    (hsearching : s.Searching task) (hplaced : task.Placed place)
    (hfind : place = .leader → s.find task.call.name = none) :
    s'.Assured t { task with phase := place.afterMiss } := by
  have hsearching' : s'.Searching { task with phase := place.afterMiss } :=
    hsearching.later hlater rfl rfl rfl
  cases place with
  | optimistic => exact hsearching'
  | follower => exact ⟨hsearching', trivial⟩
  | leader => exact ⟨hsearching.1, fun _ ↦ ⟨hplaced, hkept.find_none (hfind rfl)⟩⟩
  | plain => exact trivial

theorem evict_flight (h : s.Flight) (htask : s.tasks[t]? = some task)
    (hphase : task.phase = .evict place id) : (s.evict t task place id).Flight := by
  have hassured := h.assured_of htask hphase
  obtain ⟨hsearching, hplaced, ⟨c, hc, hdead⟩, hfind⟩ := hassured
  refine h.quiet htask rfl ⟨filter_sublist, .of_eq rfl, rfl, rfl, rfl, rfl⟩ fun hlater hkept ↦
    ⟨hsearching.later hlater rfl rfl rfl, hplaced, fun hleader ↦ ?_⟩
  -- What is under the name, if anything, is what was observed; it has died and leaves.
  cases hcurrent : (s.evict t task place id).find task.call.name with
  | none => rfl
  | some current =>
      obtain ⟨hbefore, hstays⟩ := find_unlink h.keys hcurrent
      have heq := hfind hleader current hbefore
      rw [heq] at hbefore
      simp [hbefore, alive, hc, hdead] at hstays

theorem reclaim_flight (h : s.Flight) (id : Nat) : (s.reclaim id).Flight := by
  rw [reclaim]
  split
  · exact h.outside rfl rfl rfl rfl (.of_eq rfl)
  · exact h

section

variable (h : s.Flight) (htask : s.tasks[t]? = some task)

include h htask

/-- A call goes on in the same phase, with the same lead. -/
theorem Flight.stay (hcall : task'.call = task.call) (hphase : task'.phase = task.phase)
    (hmet : task'.met = task.met) (hpermit : task'.permit = task.permit)
    (hleading : task'.leading = task.leading) : (s.setTask t task').Flight :=
  h.quiet htask rfl ⟨.refl _, .of_eq rfl, hcall, hleading, rfl, rfl⟩ fun hlater hkept ↦
    (h.sound t task htask).assured.later hlater (fun _ ↦ hkept _) hcall hphase hmet hpermit hleading

theorem dropping_flight {next : Next} (hphase : task.phase = .dropping next) :
    (s.dropping t task next).Flight := by
  have hassured := h.assured_of htask hphase
  unfold dropping
  split
  · next id rest hdiscarded =>
      have hstay : (s.setTask t { task with discarded := rest }).Flight :=
        h.stay htask rfl rfl rfl rfl rfl
      exact reclaim_flight hstay id
  cases next with
  | missed place =>
      obtain ⟨hsearching, hplaced, hfind⟩ := hassured
      exact h.quiet htask rfl quiet_rfl fun hlater hkept ↦
        afterMiss_assured hlater (hkept _) hsearching hplaced hfind
  | acquire =>
      exact h.quiet htask rfl quiet_rfl fun _ _ ↦ hassured
  | inserted id =>
      exact h.quiet htask rfl quiet_rfl fun hlater _ ↦
        ⟨hassured.1, Own.later hlater rfl hassured.2⟩
  | closing existing compatibility => exact hassured.elim

/-- A task becomes the leader, or waits for the one there is. -/
theorem claim_flight (hphase : task.phase = .claim) : (s.claim t task).Flight := by
  have hsearching : s.Searching task := h.assured_of htask hphase
  unfold claim
  split
  · exact h.quiet htask rfl quiet_rfl fun hlater _ ↦
      hsearching.later hlater rfl rfl rfl
  next hvacant =>
  have hlater : s.Later { s with
      signals := s.signals ++ [false]
      connecting := Function.update s.connecting task.call.name (some s.signals.length)
      tasks := s.tasks.set t
        { task with leading := some s.signals.length, phase := .lookup .leader } } :=
    .set htask rfl rfl (.of_eq rfl)
  refine h.set htask rfl hlater (fun name hled _ ↦ ?_) h.keys
    (pool_sublist h hlater (List.Sublist.refl _)) (fun name signal hconnecting ↦ ?_)
    (fun signal hleading ↦ ?_) ⟨fun signal hleading ↦ ?_, ?_⟩
  · have hne : name ≠ task.call.name := fun heq ↦ hled (heq ▸ hvacant)
    exact ⟨Function.update_of_ne hne _ _, fun _ hfind ↦ hfind⟩
  · rw [length_append, length_singleton]
    dsimp only at hconnecting
    by_cases heq : name = task.call.name
    · rw [heq, Function.update_self, some_inj] at hconnecting
      omega
    · rw [Function.update_of_ne heq] at hconnecting
      exact Nat.lt_succ_of_lt (h.signals name signal hconnecting)
  · exact .inr (Nat.le_of_eq (some_inj.mp hleading))
  · exact (Function.update_self _ _ _).trans hleading
  · exact ⟨hsearching.later hlater rfl rfl rfl, some_ne_none _⟩

theorem wait_flight {signal : Nat} (hphase : task.phase = .wait signal)
    (hs : s.wait t task signal = some s') : s'.Flight := by
  have hsearching : s.Searching task := h.assured_of htask hphase
  rw [wait, ite_none_right_eq_some] at hs
  obtain ⟨-, hs⟩ := hs
  cases hs
  refine h.quiet htask rfl quiet_rfl fun hlater _ ↦
    ⟨hsearching.later hlater rfl rfl rfl, ?_⟩
  cases hjump : task.call.isJump with
  | true => exact trivial
  | false => exact hjump

theorem prune_flight (hphase : task.phase = .prune) : (s.prune t task).Flight := by
  have hassured := h.assured_of htask hphase
  obtain ⟨hpermit, hvacant⟩ := hassured
  refine h.quiet htask rfl ⟨filter_sublist, .of_eq rfl, rfl, rfl, rfl, rfl⟩ fun _ hkept ↦ ?_
  cases hcall : task.call with
  | connect name config authentication entry =>
      have hvacant := hvacant (by rw [hcall]; exact trivial)
      simp only [Assured]
      exact ⟨hpermit, hvacant.1, hcall ▸ (hkept _).find_none hvacant.2⟩
  | get | remove | pruneIdle | closeAll => simp [Assured]

theorem acquire_flight (hphase : task.phase = .acquire) : (s.acquire t task).Flight := by
  have hassured := h.assured_of htask hphase
  unfold acquire
  split
  · exact h.quiet htask rfl quiet_rfl fun _ _ ↦
      ⟨rfl, hassured.2⟩
  · exact h.quiet htask rfl quiet_rfl fun _ _ ↦ trivial

/-- A leader has connected. -/
theorem established_flight (hphase : task.phase = .connecting) {name : String} {config : Config}
    {authentication : Authentication} {entry : ConnectEntry}
    (hcall : task.call = .connect name config authentication entry) :
    (s.established t task config authentication).Flight := by
  have hassured := h.assured_of htask hphase
  obtain ⟨-, hvacant⟩ := hassured
  have hrecorded : s.Recorded (s.established t task config authentication) := fun id c hc ↦
    ⟨c, List.getElem?_append_left (List.getElem?_eq_some_iff.mp hc).1 ▸ hc, rfl, rfl, rfl,
      fun h ↦ h⟩
  refine h.quiet htask rfl ⟨.refl _, hrecorded, rfl, rfl, rfl, rfl⟩ fun _ _ ↦
    ⟨rfl, hvacant, _, List.getElem?_concat_length, rfl, ?_⟩
  have hlt : t < s.tasks.length := (List.getElem?_eq_some_iff.mp htask).1
  refine ⟨_, authentication, entry, List.getElem?_set_self hlt, ?_, rfl⟩
  rw [hcall]
  rfl

theorem closing_flight {existing : Nat} {compatibility : Result Unit}
    (hphase : task.phase = .closing existing compatibility) :
    (s.closing t task existing compatibility).Flight := by
  have hassured := h.assured_of htask hphase
  exact hassured.elim

/-- A leader that gives up its place. -/
theorem Flight.resign {signal : Nat} (hlead : task.leading = some signal)
    (hcall : task'.call = task.call) (hleading : task'.leading = none)
    (hassured : ∀ s' : Manager Config, s.Later s' → s'.Assured t task') :
    ((s.resign task.call.name signal).setTask t task').Flight := by
  have hconnecting := (h.sound t task htask).leader signal hlead
  rw [Manager.resign, if_pos hconnecting]
  have hlater : s.Later ({ s with
      signals := s.signals.set signal true
      connecting := Function.update s.connecting task.call.name none }.setTask t task') :=
    .set htask rfl hcall (.of_eq rfl)
  refine h.set htask rfl hlater (fun name _ hown ↦ ?_) h.keys
    (pool_sublist h hlater (List.Sublist.refl _)) (fun name other hother ↦ ?_)
    (fun other hother ↦ ?_) ⟨fun other hother ↦ ?_, hassured _ hlater⟩
  · have hne : name ≠ task.call.name := fun heq ↦ by simp [hown heq] at hlead
    exact ⟨Function.update_of_ne hne _ _, fun _ hfind ↦ hfind⟩
  · show other < (s.signals.set signal true).length
    rw [length_set]
    have hother : Function.update s.connecting task.call.name none name = some other := hother
    by_cases heq : name = task.call.name
    · rw [heq, Function.update_self] at hother
      cases hother
    · rw [Function.update_of_ne heq] at hother
      exact h.signals name other hother
  · rw [hleading] at hother
    cases hother
  · rw [hleading] at hother
    cases hother

theorem returning_flight {source : Source} (hphase : task.phase = .returning id source) :
    (s.returning t task id source).Flight := by
  have hassured := h.assured_of htask hphase
  obtain ⟨hpermit, hanswers⟩ := hassured
  unfold returning
  split
  · exact h.quiet htask rfl ⟨.refl _, recorded_clients s id, rfl, rfl, rfl, rfl⟩ fun hlater _ ↦
      Answers.later hlater rfl rfl hanswers
  split
  · next signal hlead =>
      exact h.resign htask hlead rfl rfl fun _ hlater ↦
        ⟨hpermit, Answers.later hlater rfl rfl hanswers⟩
  · exact h.quiet htask rfl quiet_rfl fun hlater _ ↦
      ⟨hpermit, Answers.later hlater rfl rfl hanswers⟩

theorem handoff_flight {source : Source} (hphase : task.phase = .handoff id source) :
    (s.handoff t task id source).Flight := by
  have hassured := h.assured_of htask hphase
  unfold handoff
  split
  · exact h.quiet htask rfl
      ⟨.refl _, .modify fun _ ↦ ⟨rfl, rfl, rfl, fun h ↦ h⟩, rfl, rfl, rfl, rfl⟩ fun hlater _ ↦
      Answers.later hlater rfl rfl hassured.2
  · exact h.quiet htask rfl ⟨.refl _, recorded_clients s id, rfl, rfl, rfl, rfl⟩ fun hlater _ ↦
      Answers.later hlater rfl rfl hassured.2

theorem remove_flight (hphase : task.phase = .remove) : (s.remove t task).Flight := by
  have hassured := h.assured_of htask hphase
  unfold remove
  split
  · exact h.quiet htask rfl quiet_rfl fun _ _ ↦ trivial
  · exact h.quiet htask rfl ⟨filter_sublist, .of_eq rfl, rfl, rfl, rfl, rfl⟩ fun _ _ ↦ hassured

theorem closeAll_flight (hphase : task.phase = .closeAll) : (s.closeAll t task).Flight := by
  have hassured := h.assured_of htask hphase
  exact h.quiet htask rfl ⟨filter_sublist, .of_eq rfl, rfl, rfl, rfl, rfl⟩ fun _ _ ↦ hassured

theorem unwind_flight {outcome : Outcome} (hphase : task.phase = .unwind outcome) :
    (s.unwind t task outcome).Flight := by
  have hassured := h.assured_of htask hphase
  -- What the call knows of its answer is all that it still relies on.
  have hkeeps {s' : Manager Config} {task' : Task Config} (hlater : s.Later s')
      (hcall : task'.call = task.call) (hmet : task'.met = task.met)
      (hphase' : task'.phase = .unwind outcome ∨ task'.phase = .finished outcome) :
      s'.Assured t task' := by
    cases outcome with
    | transport id source =>
        rcases hphase' with hphase' | hphase' <;> rw [Assured, hphase'] <;>
          exact Answers.later hlater hcall hmet hassured
    | absent | completed | failed | cancelled =>
        rcases hphase' with hphase' | hphase' <;> rw [Assured, hphase'] <;> exact trivial
  have hstay {task' : Task Config} (hcall : task'.call = task.call) (hmet : task'.met = task.met)
      (hleading : task'.leading = task.leading)
      (hphase' : task'.phase = .unwind outcome ∨ task'.phase = .finished outcome) :
      (s.setTask t task').Flight :=
    h.quiet htask rfl ⟨.refl _, .of_eq rfl, hcall, hleading, rfl, rfl⟩ fun hlater _ ↦
      hkeeps hlater hcall hmet hphase'
  unfold unwind
  split
  · exact h.quiet htask rfl quiet_rfl fun hlater _ ↦
      hkeeps hlater rfl rfl (.inl hphase)
  split
  · next id rest hdiscarded =>
      have hdrop : (s.setTask t { task with discarded := rest }).Flight :=
        hstay rfl rfl rfl (.inl hphase)
      exact reclaim_flight hdrop id
  · next id rest hdiscarded hheld =>
      have hdrop : (s.setTask t { task with held := rest }).Flight :=
        hstay rfl rfl rfl (.inl hphase)
      exact reclaim_flight hdrop id
  · exact hstay rfl rfl rfl (.inl hphase)
  · next signal hdiscarded hheld hcandidate hlead =>
      exact h.resign htask hlead rfl rfl fun _ hlater ↦ hkeeps hlater rfl rfl (.inl hphase)
  · exact hstay rfl rfl rfl (.inr rfl)

end

theorem mem_link {name : String} {new : Nat} {entry : String × Nat}
    (hentry : entry ∈ (s.link name new).connections) :
    entry = (name, new) ∨ entry ∈ s.connections :=
  (mem_cons.mp hentry).imp_right mem_of_mem_filter

variable [DecidableEq Config]

/-- A connection that is found and accepted suits the call, if none that it has met is alive. -/
theorem suits_of_accepts {call : Call Config} {existing : ManagedConnection Config} {met : List Nat}
    (haccepts : call.accepts place existing = .ok ())
    (hfollower : place = .follower → call.isJump = false ∧ (call.Secret → id ∉ met)) :
    call.Suits place met id existing := by
  cases call with
  | get | remove | pruneIdle | closeAll => exact trivial
  | connect name config authentication entry =>
      simp only [Call.accepts, checkReusable] at haccepts
      split at haccepts
      · next hcompatible =>
          rw [ensureConfigMatches, Result.bailIf_eq_ok, not_not] at haccepts
          refine ⟨haccepts, ?_⟩
          rcases Bool.or_eq_true_iff.mp hcompatible with hreuse | hpair
          · exact .inl hreuse
          · simp only [Bool.and_eq_true, decide_eq_true_eq] at hpair
            obtain ⟨⟨hplace, hexisting⟩, hkey⟩ := hpair
            obtain ⟨hentry, hmet⟩ := hfollower hplace
            simp only [Call.isJump, decide_eq_false_iff_not] at hentry
            exact .inr ⟨hplace, hentry, hexisting, hkey, hmet hkey⟩
      · next hcompatible =>
          simp only [ensureReusable, Result.bind_eq_ok, Result.bailIf_eq_ok] at haccepts
          obtain ⟨-, -, hreuse⟩ := haccepts
          simp only [Bool.or_eq_true, not_or] at hcompatible
          simp [hcompatible.1] at hreuse

theorem lookup_flight (h : s.Flight) (htask : s.tasks[t]? = some task)
    (hphase : task.phase = .lookup place) (hs : s.lookup t task place = some s') : s'.Flight := by
  have hassured := h.assured_of htask hphase
  obtain ⟨hsearching, hplaced⟩ := hassured
  unfold lookup at hs
  split at hs
  · next hfind =>
      cases hs
      exact h.quiet htask rfl quiet_rfl fun hlater hkept ↦
        afterMiss_assured hlater (hkept _) hsearching hplaced fun _ ↦ hfind
  next id hfind =>
  obtain ⟨existing, hexisting, rfl⟩ := map_eq_some_iff.mp hs
  simp only [meet]
  split
  · next hdead =>
      have hdead : s.Dead id := ⟨existing, hexisting, by simpa using hdead⟩
      refine h.quiet htask rfl quiet_rfl fun hlater _ ↦
        ⟨⟨hsearching.1, fun hsecret other hother ↦ ?_⟩, hplaced, hdead.later hlater,
          fun _ current hcurrent ↦ (some_inj.mp (hfind.symm.trans hcurrent)).symm⟩
      have hmet : other = id ∨ other ∈ task.met := by
        dsimp only at hother
        split at hother
        · exact .inr hother
        · exact mem_cons.mp hother
      rcases hmet with heq | hmem
      · exact heq ▸ hdead.later hlater
      · exact (hsearching.2 hsecret other hmem).later hlater
  next halive =>
  split
  · exact h.quiet htask rfl quiet_rfl fun _ _ ↦ trivial
  · next haccepts =>
      have hrecorded : s.Recorded (s.touch id) := .modify fun _ ↦ ⟨rfl, rfl, rfl, fun h ↦ h⟩
      obtain ⟨origin, horigin, hfrom⟩ := h.pool _ ((find_eq_some_iff h.keys).mp hfind)
      have heq : origin = existing := some_inj.mp (horigin.symm.trans hexisting)
      refine h.quiet htask rfl ⟨.refl _, hrecorded, rfl, rfl, rfl, rfl⟩ fun hlater _ ↦
        ⟨hsearching.1, ?_⟩
      have hanswers : s.Answers t { task with
          met := if place = .follower then task.met else id :: task.met } id (.found place) := by
        refine ⟨existing, hexisting, heq ▸ hfrom, suits_of_accepts haccepts fun hplace ↦ ?_⟩
        rw [hplace] at hplaced
        refine ⟨hplaced, fun hsecret hmem ↦ ?_⟩
        rw [if_pos hplace] at hmem
        obtain ⟨c, hc, hdead⟩ := hsearching.2 hsecret id hmem
        rw [hexisting, some_inj] at hc
        simp [hc, hdead] at halive
      exact Answers.later hlater rfl rfl hanswers

/-- A connection is put into the pool, where there was none under its name. -/
theorem insert_flight (h : s.Flight) (htask : s.tasks[t]? = some task)
    (hphase : task.phase = .insert id) (hs : s.insert t task id = some s') : s'.Flight := by
  have hassured := h.assured_of htask hphase
  obtain ⟨hpermit, hvacant, hown⟩ := hassured
  rw [insert, hvacant.2] at hs
  cases hs
  have hlater : s.Later ((s.link task.call.name id).setTask t
      { task with phase := .dropping (.inserted id) }) := .set htask rfl rfl (.of_eq rfl)
  refine h.set htask rfl hlater (fun name _ hother ↦ ?_) (keys_link h.keys task.call.name id)
    (fun entry hentry ↦ ?_) h.signals (fun _ ↦ .inl)
    ⟨(h.sound t task htask).leader, hpermit, Own.later hlater rfl hown⟩
  · have hne : name ≠ task.call.name := fun heq ↦ hvacant.1 (hother heq)
    exact ⟨rfl, fun _ ↦ find_link_of_ne h.keys hne⟩
  · rcases mem_link hentry with rfl | hentry
    · obtain ⟨c, hc, -, horigin⟩ := hown
      exact ⟨c, hc, horigin.later hlater rfl rfl rfl⟩
    · obtain ⟨c, hc, horigin⟩ := h.pool entry hentry
      exact ⟨c, hc, horigin.later hlater rfl rfl rfl⟩

/-- Each step of a task keeps what holds of the pool and of the tasks. -/
theorem advance_flight (h : s.Flight) (htask : s.tasks[t]? = some task)
    (hs : s.advance t task = some s') : s'.Flight := by
  unfold advance at hs
  split at hs
  · next hphase => exact lookup_flight h htask hphase hs
  · next hphase =>
      cases hs
      exact evict_flight h htask hphase
  · next hphase =>
      cases hs
      exact dropping_flight h htask hphase
  · next hphase =>
      cases hs
      exact claim_flight h htask hphase
  · next hphase => exact wait_flight h htask hphase hs
  · next hphase =>
      cases hs
      exact prune_flight h htask hphase
  · next hphase =>
      cases hs
      exact acquire_flight h htask hphase
  · next hphase => exact insert_flight h htask hphase hs
  · next hphase =>
      cases hs
      exact closing_flight h htask hphase
  · next hphase =>
      cases hs
      exact returning_flight h htask hphase
  · next hphase =>
      cases hs
      exact handoff_flight h htask hphase
  · next hphase =>
      cases hs
      exact remove_flight h htask hphase
  · next hphase =>
      cases hs
      exact closeAll_flight h htask hphase
  · cases hs
    exact h.quiet htask rfl quiet_rfl fun _ _ ↦ trivial
  · next hphase =>
      cases hs
      exact unwind_flight h htask hphase
  · cases hs
  · cases hs

end

/-! ## Runs -/

theorem begin_assured (call : Call Config) : s.Assured t (Task.new call) := by
  cases call with
  | connect name config authentication entry =>
      by_cases hname : name = ""
      · simp [Assured, Task.new, Call.begin, hname]
      · simp [Assured, Task.new, Call.begin, hname, Searching, Task.Placed]
  | get name lease => simp [Assured, Task.new, Call.begin, Searching, Task.Placed]
  | pruneIdle => exact ⟨rfl, False.elim⟩
  | remove name => rfl
  | closeAll => rfl

theorem getElem?_spawn {call : Call Config} (htask : (s.tasks ++ [.new call])[t]? = some task) :
    s.tasks[t]? = some task ∨ task = .new call := by
  rw [List.getElem?_append] at htask
  split at htask
  · exact .inl htask
  · have hmem := mem_of_getElem? htask
    exact .inr (mem_singleton.mp hmem)

theorem spawn_flight (h : s.Flight) (call : Call Config) :
    ({ s with tasks := s.tasks ++ [.new call] } : Manager Config).Flight := by
  have hlater : s.Later { s with tasks := s.tasks ++ [.new call] } := by
    refine ⟨.of_eq rfl, fun t task htask ↦ ⟨task, ?_, rfl⟩⟩
    exact List.getElem?_append_left (List.getElem?_eq_some_iff.mp htask).1 ▸ htask
  refine ⟨h.keys, pool_sublist h hlater (List.Sublist.refl _), h.signals,
    fun t u task other signal htask hother hlead hlead' ↦ ?_, fun t task htask ↦ ?_⟩
  · rcases getElem?_spawn htask with htask | rfl
    · rcases getElem?_spawn hother with hother | rfl
      · exact h.single t u task other signal htask hother hlead hlead'
      · cases hlead'
    · cases hlead
  · rcases getElem?_spawn htask with htask | rfl
    · exact (h.sound t task htask).later hlater fun _ ↦ ⟨rfl, fun _ hfind ↦ hfind⟩
    · exact ⟨fun _ hlead ↦ (some_ne_none _ hlead.symm).elim, begin_assured call⟩

theorem modify_congr {id : Nat} {c : ManagedConnection Config}
    {f g : ManagedConnection Config → ManagedConnection Config} (hc : s.managed[id]? = some c)
    (heq : f c = g c) : s.modify id f = s.modify id g := by
  have hmanaged : s.managed.modify id f = s.managed.modify id g := by
    refine ext_getElem? fun other ↦ ?_
    rw [List.getElem?_modify, List.getElem?_modify]
    by_cases hother : id = other
    · rw [← hother, hc]
      simp [heq]
    · simp [hother]
  rw [Manager.modify, Manager.modify, hmanaged]

/-- What an event does. -/
inductive Effect (s : Manager Config) [DecidableEq Config] :
    ManagerEvent Config → Manager Config → Prop
  | spawn (call : Call Config) : s.Effect (.spawn call) { s with tasks := s.tasks ++ [.new call] }
  | advance {t : Nat} {task : Task Config} {s' : Manager Config} (htask : s.tasks[t]? = some task)
      (hs : s.advance t task = some s') : s.Effect (.advance t) s'
  | established {t : Nat} {task : Task Config} {name : String} {config : Config}
      {authentication : Authentication} {entry : ConnectEntry} {e : ManagerEvent Config}
      (htask : s.tasks[t]? = some task) (hphase : task.phase = .connecting)
      (hcall : task.call = .connect name config authentication entry) :
      s.Effect e (s.established t task config authentication)
  /-- A call ends without an answer. -/
  | stop {t : Nat} {task : Task Config} {outcome : Outcome} {e : ManagerEvent Config}
      (htask : s.tasks[t]? = some task)
      (houtcome : outcome = .cancelled ∨ ∃ error, outcome = .failed error) :
      s.Effect e (s.setTask t { task with phase := .unwind outcome })
  /-- A connection is used, without a change to its owners. -/
  | use {id : Nat} {f : ManagedConnection Config → ManagedConnection Config}
      {e : ManagerEvent Config}
      (hleases : ∀ c, s.managed[id]? = some c →
        (f c).leases + (f c).releasing = c.leases + c.releasing)
      (hrecord : ∀ c, (f c).config = c.config ∧ (f c).authentication = c.authentication ∧
        (f c).attempt = c.attempt ∧ (c.alive = false → (f c).alive = false)) :
      s.Effect e (s.modify id f)
  | cloneLease {id : Nat} {c : ManagedConnection Config} {e : ManagerEvent Config}
      (hc : s.managed[id]? = some c) (hleases : 0 < c.leases) :
      s.Effect e (s.modify id fun c ↦ { c with
        leases := c.leases + 1
        activeLeases := c.activeLeases + 1
        lastUsed := s.now })
  | dropLease {id : Nat} {c : ManagedConnection Config} {e : ManagerEvent Config}
      (hc : s.managed[id]? = some c) (hreleasing : 0 < c.releasing) :
      s.Effect e ((s.modify id fun c ↦ { c with releasing := c.releasing - 1 }).reclaim id)
  | elapse {duration : Nat} {e : ManagerEvent Config} :
      s.Effect e { s with now := s.now + duration }

variable [DecidableEq Config]

/-- The effect of any event. -/
theorem step_effect (hs : s.step e = some s') : s.Effect e s' := by
  cases e with
  | spawn call =>
      cases hs
      exact .spawn call
  | advance t =>
      obtain ⟨task, htask, hs⟩ := bind_eq_some_iff.mp hs
      exact .advance htask hs
  | connected t result =>
      obtain ⟨task, htask, hs⟩ := bind_eq_some_iff.mp hs
      split at hs
      · next hphase hcall _ =>
          cases hs
          exact .established htask hphase hcall
      · cases hs
        exact .stop htask (.inr ⟨_, rfl⟩)
      · cases hs
  | cancel t =>
      obtain ⟨task, htask, hs⟩ := bind_eq_some_iff.mp hs
      obtain ⟨-, hs⟩ := ite_none_right_eq_some.mp hs
      cases hs
      exact .stop htask (.inl rfl)
  | die id =>
      cases hs
      exact .use (fun _ _ ↦ rfl) fun _ ↦ ⟨rfl, rfl, rfl, fun _ ↦ rfl⟩
  | cloneClient id | dropClient id =>
      obtain ⟨c, hc, hs⟩ := bind_eq_some_iff.mp hs
      obtain ⟨-, hs⟩ := ite_none_right_eq_some.mp hs
      cases hs
      exact .use (fun _ _ ↦ rfl) fun _ ↦ ⟨rfl, rfl, rfl, fun h ↦ h⟩
  | cloneLease id =>
      obtain ⟨c, hc, hs⟩ := bind_eq_some_iff.mp hs
      obtain ⟨hleases, hs⟩ := ite_none_right_eq_some.mp hs
      cases hs
      refine (congrArg (s.Effect _) (modify_congr hc ?_)).mpr (.cloneLease hc hleases)
      rfl
  | releaseLease id =>
      obtain ⟨c, hc, hs⟩ := bind_eq_some_iff.mp hs
      obtain ⟨hleases, hs⟩ := ite_none_right_eq_some.mp hs
      cases hs
      refine .use (fun d hd ↦ ?_) fun _ ↦ ⟨rfl, rfl, rfl, fun h ↦ h⟩
      rw [hc, some_inj] at hd
      rw [← hd]
      dsimp only
      omega
  | dropLease id =>
      obtain ⟨c, hc, hs⟩ := bind_eq_some_iff.mp hs
      obtain ⟨hreleasing, hs⟩ := ite_none_right_eq_some.mp hs
      cases hs
      refine (congrArg (fun u ↦ s.Effect _ (u.reclaim id)) (modify_congr hc ?_)).mpr
        (.dropLease hc hreleasing)
      rfl
  | elapse duration =>
      cases hs
      exact .elapse

/-- Each event keeps what holds of the pool and of the tasks. -/
theorem step_flight (h : s.Flight) (hs : s.step e = some s') : s'.Flight := by
  cases step_effect hs with
  | spawn call => exact spawn_flight h call
  | advance htask hs => exact advance_flight h htask hs
  | established htask hphase hcall => exact established_flight h htask hphase hcall
  | stop htask houtcome =>
      refine h.quiet htask rfl quiet_rfl fun _ _ ↦ ?_
      obtain rfl | ⟨error, rfl⟩ := houtcome <;> exact trivial
  | use hleases hrecord => exact h.outside rfl rfl rfl rfl (.modify hrecord)
  | cloneLease hc hleases =>
      exact h.outside rfl rfl rfl rfl (.modify fun _ ↦ ⟨rfl, rfl, rfl, fun h ↦ h⟩)
  | dropLease hc hreleasing =>
      refine reclaim_flight ?_ _
      exact h.outside rfl rfl rfl rfl (.modify fun _ ↦ ⟨rfl, rfl, rfl, fun h ↦ h⟩)
  | elapse => exact h.outside rfl rfl rfl rfl (.of_eq rfl)

theorem step_keeps {total : Nat} (h : s.Conserved total) (hflight : s.Flight)
    (hs : s.step e = some s') : s.Keeps total s' := by
  have hpermit {t : Nat} {task : Task Config} (htask : s.tasks[t]? = some task) :
      (task.phase = .acquire → task.permit = false) ∧
        (task.phase = .connecting → task.permit = true) := by
    have hassured := (hflight.sound t task htask).assured
    rw [Assured] at hassured
    constructor <;>
    · intro hphase
      rw [hphase] at hassured
      exact hassured.1
  cases step_effect hs with
  | spawn call => exact spawn_conserved h call
  | advance htask hs => exact advance_conserved h htask (hpermit htask).1 hs
  | established htask hphase hcall =>
      exact established_conserved h htask hphase ((hpermit htask).2 hphase) _ _
  | stop htask houtcome =>
      exact h.stay htask rfl rfl rfl rfl (fun _ ↦ rfl) (fun _ ↦ rfl) trivial
  | use hleases hrecord => exact h.modify hleases
  | cloneLease hc hleases =>
      exact cloneLease_conserved h hc hleases fun _ ↦ Nat.add_right_comm _ _ _
  | dropLease hc hreleasing => exact dropLease_conserved h hc hreleasing
  | elapse => exact h.outside rfl rfl rfl fun _ ↦ Iff.rfl

end Manager

end KaduoxSsh.Core
