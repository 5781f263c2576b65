import KaduoxSsh.Core.ConnectionManager
import KaduoxSsh.Lib.Permits

/-!
# The permits of the connection manager

The manager keeps a ledger of permits and owners (`ledger`), which every event keeps
balanced: most of them move references from one owner to another, a look-up and an
insertion add one to a connection that has owners, an attempt that succeeds turns its
permit into a connection, and references are dropped one by one. Beside it each call
is tidy: what its next step needs is among what it owns, and a call that has finished
owns nothing.
-/

namespace KaduoxSsh.Core

open List

variable {Config : Type}

/-- The connection that the rest of a call needs. -/
def Next.needs : Next → Option Nat
  | inserted id => some id
  | closing existing _ => some existing
  | missed _ | acquire => none

/-- A call owns what its next step needs, and has nothing set aside that would be forgotten. -/
def Task.Tidy (task : Task Config) : Prop :=
  match task.phase with
  | .lookup _ | .claim | .wait _ | .prune | .acquire | .connecting | .close => task.discarded = []
  | .evict _ id | .insert id | .closing id _ | .returning id _ | .handoff id _ =>
      task.discarded = [] ∧ id ∈ task.held
  | .dropping next => ∀ id, next.needs = some id → id ∈ task.held
  | .remove | .closeAll => task.discarded = [] ∧ task.held = []
  | .unwind _ => True
  | .finished _ =>
      task.discarded = [] ∧ task.held = [] ∧ task.permit = false ∧ task.leading = none

theorem Task.tidy_new (call : Call Config) : (Task.new call).Tidy := by
  cases call with
  | connect name config authentication entry =>
      by_cases hname : name = "" <;> simp [Task.new, Task.Tidy, Call.begin, hname]
  | get name lease => rfl
  | remove name => exact ⟨rfl, rfl⟩
  | pruneIdle => rfl
  | closeAll => exact ⟨rfl, rfl⟩

namespace Manager

/-- The calls that have a permit for a connection that they have not established yet. -/
def inFlight (s : Manager Config) : Nat := (s.tasks.map (·.permit.toNat)).sum

def ledger (s : Manager Config) : Ledger where
  available := s.available
  pending := s.inFlight
  size := s.managed.length
  owners := s.strongCount

structure Conserved (total : Nat) (s : Manager Config) : Prop where
  balanced : s.ledger.Balanced total
  tidy : ∀ task ∈ s.tasks, task.Tidy

/-- The ledger stays balanced, and a connection whose owners have all gone never has one again. -/
structure Keeps (total : Nat) (s s' : Manager Config) : Prop where
  conserved : s'.Conserved total
  gone : ∀ id < s.managed.length, s.strongCount id = 0 → s'.strongCount id = 0

variable {total : Nat} {s s' : Manager Config} {t : Nat} {task task' : Task Config}
  {f : ManagedConnection Config → ManagedConnection Config} {id : Nat}
  {c : ManagedConnection Config}

/-! ## Counting -/

theorem strongCount_set (htask : s.tasks[t]? = some task) (htasks : s'.tasks = s.tasks.set t task')
    (id : Nat) : s'.strongCount id + task.owned id + s.shared id =
      s.strongCount id + task'.owned id + s'.shared id := by
  have hsum : ((s.tasks.set t task').map (·.owned id)).sum + task.owned id =
      (s.tasks.map (·.owned id)).sum + task'.owned id := sum_map_set htask
  rw [strongCount, strongCount, htasks]
  omega

theorem inFlight_set (htask : s.tasks[t]? = some task) (htasks : s'.tasks = s.tasks.set t task') :
    s'.inFlight + task.permit.toNat = s.inFlight + task'.permit.toNat := by
  have hsum : ((s.tasks.set t task').map (·.permit.toNat)).sum + task.permit.toNat =
      (s.tasks.map (·.permit.toNat)).sum + task'.permit.toNat := sum_map_set htask
  rw [inFlight, inFlight, htasks, hsum]

theorem tidy_set (h : s.Conserved total) (htasks : s'.tasks = s.tasks.set t task')
    (htidy : task'.Tidy) : ∀ other ∈ s'.tasks, other.Tidy := by
  intro other hother
  rw [htasks] at hother
  rcases mem_or_eq_of_mem_set hother with hother | rfl
  · exact h.tidy other hother
  · exact htidy

theorem Conserved.tidy_of (h : s.Conserved total) (htask : s.tasks[t]? = some task) {phase : Phase}
    (hphase : task.phase = phase) : ({ task with phase } : Task Config).Tidy := by
  rw [← hphase]
  exact h.tidy task (mem_of_getElem? htask)

/-- References only move from one owner to another. -/
theorem Conserved.transfer (h : s.Conserved total) (htask : s.tasks[t]? = some task)
    (htasks : s'.tasks = s.tasks.set t task') (hmanaged : s'.managed.length = s.managed.length)
    (hpermits : s'.available + task'.permit.toNat = s.available + task.permit.toNat)
    (howners : ∀ id, s'.shared id + task'.owned id = s.shared id + task.owned id)
    (htidy : task'.Tidy) : s.Keeps total s' := by
  have hcount (id : Nat) : s'.strongCount id = s.strongCount id := by
    have hcount := strongCount_set htask htasks id
    have howned := howners id
    omega
  refine ⟨⟨h.balanced.of_owners ?_ hmanaged fun id ↦ ?_, tidy_set h htasks htidy⟩, fun id _ hid ↦ ?_⟩
  · have hflight := inFlight_set htask htasks
    show s'.available + s'.inFlight = s.available + s.inFlight
    omega
  · show 0 < s'.strongCount id ↔ 0 < s.strongCount id
    rw [hcount]
  · rw [hcount, hid]

/-- A connection that has an owner gets one more. -/
theorem Conserved.share (h : s.Conserved total) (htask : s.tasks[t]? = some task)
    (htasks : s'.tasks = s.tasks.set t task') (hmanaged : s'.managed.length = s.managed.length)
    (havailable : s'.available = s.available) (hpermit : task'.permit = task.permit)
    (hid : 0 < s.strongCount id)
    (howners : ∀ other, s'.shared other + task'.owned other = s.shared other + task.owned other + if other = id then 1 else 0)
    (htidy : task'.Tidy) : s.Keeps total s' := by
  have hcount (other : Nat) : 0 < s'.strongCount other ↔ 0 < s.strongCount other := by
    have hcount := strongCount_set htask htasks other
    have howned := howners other
    split at howned
    · next heq =>
        rw [heq] at hcount howned ⊢
        omega
    · omega
  refine ⟨⟨h.balanced.of_owners ?_ hmanaged hcount, tidy_set h htasks htidy⟩, fun other _ hzero ↦ ?_⟩
  · have hflight := inFlight_set htask htasks
    show s'.available + s'.inFlight = s.available + s.inFlight
    rw [hpermit] at hflight
    omega
  · have hcount := hcount other
    omega

theorem strongCount_reclaim (id other : Nat) :
    (s.reclaim id).strongCount other = s.strongCount other := by
  rw [reclaim]
  split <;> rfl

/-- A call drops a reference. -/
theorem Conserved.release (h : s.Conserved total) (htask : s.tasks[t]? = some task)
    (howned : ∀ other, task'.owned other + (if other = id then 1 else 0) = task.owned other)
    (hpermit : task'.permit = task.permit) (htidy : task'.Tidy) :
    s.Keeps total ((s.setTask t task').reclaim id) := by
  have hcount (other : Nat) : ((s.setTask t task').reclaim id).strongCount other +
      (if other = id then 1 else 0) = s.strongCount other := by
    have hcount : (s.setTask t task').strongCount other + task.owned other + s.shared other =
      s.strongCount other + task'.owned other + s.shared other := strongCount_set htask rfl other
    have howned := howned other
    rw [strongCount_reclaim]
    omega
  have hflight : (s.setTask t task').inFlight + task.permit.toNat =
    s.inFlight + task'.permit.toNat := inFlight_set htask rfl
  have htasks : ((s.setTask t task').reclaim id).tasks = s.tasks.set t task' := by
    rw [reclaim]
    split <;> rfl
  have hone : ((s.setTask t task').reclaim id).strongCount id + 1 = s.strongCount id := by
    rw [← hcount id, if_pos rfl]
  refine ⟨⟨h.balanced.drop hone (fun other hother ↦ ?_) ?_ ?_ ?_, tidy_set h htasks htidy⟩,
    fun other _ hzero ↦ ?_⟩
  · show ((s.setTask t task').reclaim id).strongCount other = s.strongCount other
    rw [← hcount other, if_neg hother, Nat.add_zero]
  · show ((s.setTask t task').reclaim id).available = s.available +
      if ((s.setTask t task').reclaim id).strongCount id = 0 then 1 else 0
    rw [strongCount_reclaim, reclaim]
    split <;> rfl
  · show ((s.setTask t task').reclaim id).inFlight = s.inFlight
    rw [inFlight, htasks]
    rw [hpermit] at hflight
    exact Nat.add_right_cancel hflight
  · show ((s.setTask t task').reclaim id).managed.length = s.managed.length
    rw [reclaim]
    split <;> rfl
  · have hcount := hcount other
    omega

/-! ## Owners outside the calls -/

theorem count_cons_if (a b : Nat) (l : List Nat) :
    (a :: l).count b = l.count b + if b = a then 1 else 0 := by
  rw [count_cons]
  exact congrArg _ (if_congr (beq_iff_eq.trans eq_comm) rfl rfl)

theorem shared_unlink (s : Manager Config) (p : String × Nat → Bool) (id : Nat) :
    (s.unlink p).shared id + (s.unlinked p).count id = s.shared id := by
  have hsplit := ((filter_append_perm p s.connections).map Prod.snd).count_eq id
  rw [map_append, count_append] at hsplit
  show ((s.connections.filter (!p ·)).map Prod.snd).count id + s.leased id +
    ((s.connections.filter p).map Prod.snd).count id = (s.connections.map Prod.snd).count id +
      s.leased id
  omega

theorem shared_link (s : Manager Config) (name : String) (new id : Nat) :
    (s.link name new).shared id + (s.unlinked (·.1 = name)).count id =
      s.shared id + if id = new then 1 else 0 := by
  have hunlink := shared_unlink s (·.1 = name) id
  have hlink : (s.link name new).shared id =
      (s.unlink (·.1 = name)).shared id + if id = new then 1 else 0 := by
    have hfilter : s.connections.filter (fun entry ↦ entry.1 ≠ name) =
        s.connections.filter (fun entry ↦ !decide (entry.1 = name)) :=
      filter_congr fun entry _ ↦ decide_not
    show ((((name, new) :: s.connections.filter (fun entry ↦ entry.1 ≠ name)).map Prod.snd).count
      id) + s.leased id = ((s.connections.filter (fun entry ↦ !decide (entry.1 = name))).map
        Prod.snd).count id + s.leased id + _
    rw [hfilter, map_cons, count_cons_if]
    exact Nat.add_right_comm _ _ _
  omega

theorem leased_modify (s : Manager Config) (id other : Nat)
    (f : ManagedConnection Config → ManagedConnection Config) :
    (s.modify id f).leased other = s.managed[other]?.elim 0 fun c ↦
      if id = other then (f c).leases + (f c).releasing else c.leases + c.releasing := by
  show (s.managed.modify id f)[other]?.elim 0 _ = _
  rw [List.getElem?_modify]
  cases s.managed[other]? with
  | none => rfl
  | some c =>
      by_cases heq : id = other
      · simp [heq]
      · simp [heq]

theorem shared_modify (s : Manager Config) (id other : Nat)
    (hf : ∀ c, s.managed[id]? = some c → (f c).leases + (f c).releasing = c.leases + c.releasing) :
    (s.modify id f).shared other = s.shared other := by
  have hleased : (s.modify id f).leased other = s.leased other := by
    rw [leased_modify, leased]
    cases hc : s.managed[other]? with
    | none => rfl
    | some c =>
        by_cases heq : id = other
        · simp only [Option.elim_some, if_pos heq]
          exact hf c (heq ▸ hc)
        · simp only [Option.elim_some, if_neg heq]
  rw [shared, shared, hleased]
  rfl

/-- A connection has one more lease. -/
theorem shared_modify_succ (s : Manager Config) (hid : id < s.managed.length)
    (hf : ∀ c, (f c).leases + (f c).releasing = c.leases + c.releasing + 1) (other : Nat) :
    (s.modify id f).shared other = s.shared other + if other = id then 1 else 0 := by
  have hleased : (s.modify id f).leased other = s.leased other + if other = id then 1 else 0 := by
    rw [leased_modify, leased]
    by_cases heq : other = id
    · rw [heq, List.getElem?_eq_getElem hid, if_pos rfl, Option.elim_some, Option.elim_some,
        if_pos rfl, hf]
    · simp only [if_neg heq, if_neg (Ne.symm heq), Nat.add_zero]
  rw [shared, shared, hleased]
  exact (Nat.add_assoc _ _ _).symm

theorem shared_touch (s : Manager Config) (id other : Nat) :
    (s.touch id).shared other = s.shared other := shared_modify s id other fun _ _ ↦ rfl

theorem shared_resign (s : Manager Config) (name : String) (signal id : Nat) :
    (s.resign name signal).shared id = s.shared id := by
  rw [resign]
  split <;> rfl

theorem count_erase_add {held : List Nat} (h : id ∈ held) (other : Nat) :
    (held.erase id).count other + (if other = id then 1 else 0) = held.count other := by
  rw [count_erase]
  by_cases heq : other = id
  · have hpos := count_pos_iff.mpr h
    simp only [heq, beq_self_eq_true, if_true]
    omega
  · have hne : id ≠ other := Ne.symm heq
    simp [heq, hne]

/-- A connection that a call holds has an owner. -/
theorem strongCount_pos_of_mem (htask : s.tasks[t]? = some task) (h : id ∈ task.held) :
    0 < s.strongCount id := by
  have hmem : task.owned id ∈ s.tasks.map (·.owned id) :=
    mem_map_of_mem (mem_of_getElem? htask)
  have hle := single_le_sum (fun _ _ ↦ Nat.zero_le _) _ hmem
  have hpos := count_pos_iff.mpr h
  rw [strongCount, Task.owned] at *
  omega

theorem strongCount_pos_of_find {name : String} (h : s.find name = some id) :
    0 < s.strongCount id := by
  obtain ⟨before, after, hconnections, -⟩ := lookup_eq_some_iff.mp h
  have hmem : id ∈ s.connections.map Prod.snd := by
    rw [hconnections]
    simp
  have hpos := count_pos_iff.mpr hmem
  rw [strongCount, shared]
  omega

/-! ## The steps of a call -/

/-- Nothing changes for the calls, and the same connections have owners. -/
theorem Conserved.outside (h : s.Conserved total) (htasks : s'.tasks = s.tasks)
    (hmanaged : s'.managed.length = s.managed.length) (havailable : s'.available = s.available)
    (howners : ∀ id, 0 < s'.strongCount id ↔ 0 < s.strongCount id) : s.Keeps total s' := by
  refine ⟨⟨h.balanced.of_owners ?_ hmanaged howners, htasks ▸ h.tidy⟩, fun id _ hid ↦ ?_⟩
  · show s'.available + s'.inFlight = s.available + s.inFlight
    rw [havailable, inFlight, inFlight, htasks]
  · have howners := howners id
    omega

theorem Conserved.modify (h : s.Conserved total)
    (hf : ∀ c, s.managed[id]? = some c → (f c).leases + (f c).releasing = c.leases + c.releasing) :
    s.Keeps total (s.modify id f) := by
  refine h.outside rfl (length_modify _ _ _) rfl fun other ↦ ?_
  show 0 < (s.modify id f).shared other + _ ↔ 0 < s.shared other + _
  rw [shared_modify s id other hf]
  rfl

theorem tidy_afterMiss {place : Lookup} (hphase : task'.phase = place.afterMiss)
    (hdiscarded : task'.discarded = []) : task'.Tidy := by
  rw [Task.Tidy, hphase]
  cases place with
  | plain => exact trivial
  | optimistic | follower | leader => exact hdiscarded

theorem touch_managed_length (s : Manager Config) (id : Nat) :
    (s.touch id).managed.length = s.managed.length := length_modify _ _ _

theorem elim_concat {l : List (ManagedConnection Config)} {f : ManagedConnection Config → Nat}
    (hc : f c = 0) : (l ++ [c])[id]?.elim 0 f = l[id]?.elim 0 f := by
  rcases Nat.lt_trichotomy id l.length with hlt | heq | hgt
  · rw [List.getElem?_append_left hlt]
  · rw [heq, List.getElem?_concat_length, List.getElem?_eq_none (Nat.le_refl _)]
    exact hc
  · rw [List.getElem?_eq_none (by rw [length_append]; exact hgt),
      List.getElem?_eq_none (Nat.le_of_lt hgt)]

theorem resign_managed (s : Manager Config) (name : String) (signal : Nat) :
    (s.resign name signal).managed = s.managed := by
  rw [resign]
  split <;> rfl

theorem resign_available (s : Manager Config) (name : String) (signal : Nat) :
    (s.resign name signal).available = s.available := by
  rw [resign]
  split <;> rfl

theorem resign_tasks (s : Manager Config) (name : String) (signal : Nat) :
    (s.resign name signal).tasks = s.tasks := by
  rw [resign]
  split <;> rfl

theorem resign_connections (s : Manager Config) (name : String) (signal : Nat) :
    (s.resign name signal).connections = s.connections := by
  rw [resign]
  split <;> rfl

section

variable (h : s.Conserved total) (htask : s.tasks[t]? = some task)

include h htask

/-- Only the phase of a call changes, and things that own no connection. -/
theorem Conserved.stay (htasks : s'.tasks = s.tasks.set t task')
    (hmanaged : s'.managed.length = s.managed.length) (havailable : s'.available = s.available)
    (hpermit : task'.permit = task.permit) (hshared : ∀ id, s'.shared id = s.shared id)
    (howned : ∀ id, task'.owned id = task.owned id) (htidy : task'.Tidy) : s.Keeps total s' :=
  h.transfer htask htasks hmanaged (by rw [havailable, hpermit])
    (fun id ↦ by rw [hshared, howned]) htidy

/-- A call goes on, and nothing that the ledger counts changes. -/
theorem Conserved.goOn {connecting : String → Option Nat} {signals : List Bool} {phase : Phase}
    {candidate leading : Option Nat} {met : List Nat}
    (htidy : ({ task with phase, candidate, leading, met } : Task Config).Tidy) :
    s.Keeps total { s with
      connecting, signals
      tasks := s.tasks.set t { task with phase, candidate, leading, met } } :=
  h.stay htask rfl rfl rfl rfl (fun _ ↦ rfl) (fun _ ↦ rfl) htidy

theorem evict_conserved {place : Lookup} {observed : Nat}
    (hphase : task.phase = .evict place observed) :
    s.Keeps total (s.evict t task place observed) := by
  obtain ⟨hdiscarded, hheld⟩ : task.discarded = [] ∧ observed ∈ task.held :=
    h.tidy_of htask hphase
  refine h.transfer htask rfl rfl rfl (fun id ↦ ?_) (fun id hid ↦ by cases hid)
  have hunlink := shared_unlink s (fun entry ↦ (s.find task.call.name = some observed &&
    !s.alive observed : Bool) && entry.1 = task.call.name) id
  have herase := count_erase_add hheld id
  show (s.unlink _).shared id + ((task.held.erase observed).count id +
    (s.unlinked _ ++ [observed]).count id) = s.shared id +
      (task.held.count id + task.discarded.count id)
  rw [hdiscarded, count_append, count_cons_if, count_nil]
  omega

theorem dropping_conserved {next : Next} (hphase : task.phase = .dropping next) :
    s.Keeps total (s.dropping t task next) := by
  have htidy := h.tidy_of htask hphase
  unfold dropping
  split
  · next id rest hdiscarded =>
      refine h.release htask (fun other ↦ ?_) rfl ?_
      · show task.held.count other + rest.count other + _ =
          task.held.count other + task.discarded.count other
        rw [hdiscarded, count_cons_if, Nat.add_assoc]
      · rw [Task.Tidy, hphase]
        exact htidy
  · next hdiscarded =>
      cases next with
      | missed place =>
          exact h.goOn htask (tidy_afterMiss rfl hdiscarded)
      | acquire => exact h.goOn htask hdiscarded
      | inserted id =>
          exact h.goOn htask ⟨hdiscarded, htidy id rfl⟩
      | closing existing compatibility =>
          exact h.goOn htask ⟨hdiscarded, htidy existing rfl⟩

theorem claim_conserved (hphase : task.phase = .claim) : s.Keeps total (s.claim t task) := by
  have htidy := h.tidy_of htask hphase
  unfold claim
  split
  · exact h.goOn htask htidy
  · exact h.goOn htask htidy

theorem prune_conserved (hphase : task.phase = .prune) : s.Keeps total (s.prune t task) := by
  have htidy : task.discarded = [] := h.tidy_of htask hphase
  refine h.transfer htask rfl rfl rfl (fun id ↦ ?_) ?_
  · have hunlink := shared_unlink s s.expired id
    show (s.unlink _).shared id + (task.held.count id + (s.unlinked _).count id) = s.shared id +
      (task.held.count id + task.discarded.count id)
    rw [htidy, count_nil]
    omega
  · cases hcall : task.call with
    | connect => simp [Task.Tidy, Next.needs]
    | get | remove | pruneIdle | closeAll => simp [Task.Tidy]

theorem acquire_conserved (hphase : task.phase = .acquire) (hpermit : task.permit = false) :
    s.Keeps total (s.acquire t task) := by
  have htidy := h.tidy_of htask hphase
  unfold acquire
  split
  · next havailable =>
      refine h.transfer htask rfl rfl ?_ (fun _ ↦ rfl) htidy
      rw [hpermit]
      exact Nat.sub_add_cancel havailable
  · exact h.goOn htask trivial

theorem established_conserved (hphase : task.phase = .connecting) (hpermit : task.permit = true)
    (config : Config) (authentication : Authentication) :
    s.Keeps total (s.established t task config authentication) := by
  have htidy := h.tidy_of htask hphase
  have htasks : (s.established t task config authentication).tasks = s.tasks.set t { task with
    permit := false
    held := s.managed.length :: task.held
    candidate := some s.managed.length
    phase := .insert s.managed.length } := rfl
  have hcount (id : Nat) : (s.established t task config authentication).strongCount id =
      s.strongCount id + if id = s.managed.length then 1 else 0 := by
    have hshared : (s.established t task config authentication).shared id = s.shared id :=
      congrArg _ (elim_concat rfl)
    have hcount : (s.established t task config authentication).strongCount id + task.owned id +
        s.shared id = s.strongCount id + ((s.managed.length :: task.held).count id +
          task.discarded.count id) + (s.established t task config authentication).shared id :=
      strongCount_set htask htasks id
    rw [hshared, count_cons_if] at hcount
    rw [Task.owned] at hcount
    omega
  refine ⟨⟨h.balanced.create rfl ?_ length_append hcount,
    tidy_set h rfl ⟨htidy, mem_cons_self⟩⟩, fun id hid hzero ↦ ?_⟩
  · have hflight : (s.established t task config authentication).inFlight + task.permit.toNat =
      s.inFlight + false.toNat := inFlight_set htask htasks
    rw [hpermit] at hflight
    exact hflight
  · rw [hcount, hzero, if_neg (Nat.ne_of_lt hid)]

theorem wait_conserved {signal : Nat} (hphase : task.phase = .wait signal)
    (hs : s.wait t task signal = some s') : s.Keeps total s' := by
  have htidy := h.tidy_of htask hphase
  rw [wait, Option.ite_none_right_eq_some] at hs
  obtain ⟨-, hs⟩ := hs
  cases hs
  exact h.goOn htask htidy

theorem closing_conserved {existing : Nat} {compatibility : Result Unit}
    (hphase : task.phase = .closing existing compatibility) :
    s.Keeps total (s.closing t task existing compatibility) := by
  have htidy := h.tidy_of htask hphase
  cases compatibility with
  | error e => exact h.goOn htask trivial
  | ok =>
      exact h.stay htask rfl (touch_managed_length s existing) rfl rfl (shared_touch s existing)
        (fun _ ↦ rfl) htidy

theorem Conserved.resign {signal : Nat} (hpermit : task'.permit = task.permit)
    (howned : ∀ id, task'.owned id = task.owned id) (htidy : task'.Tidy) :
    s.Keeps total ((s.resign task.call.name signal).setTask t task') := by
  refine h.stay htask ?_ ?_ ?_ hpermit (shared_resign s task.call.name signal) howned htidy
  · exact congrArg (List.set · t task') (resign_tasks s task.call.name signal)
  · exact congrArg List.length (resign_managed s task.call.name signal)
  · exact resign_available s task.call.name signal

theorem returning_conserved {source : Source} (hphase : task.phase = .returning id source) :
    s.Keeps total (s.returning t task id source) := by
  have htidy := h.tidy_of htask hphase
  unfold returning
  split
  · exact h.stay htask rfl (length_modify _ _ _) rfl rfl
      (fun other ↦ shared_modify s id other fun _ _ ↦ rfl) (fun _ ↦ rfl) trivial
  split
  · exact h.resign htask rfl (fun _ ↦ rfl) htidy
  · exact h.goOn htask htidy

theorem handoff_conserved {source : Source} (hphase : task.phase = .handoff id source) :
    s.Keeps total (s.handoff t task id source) := by
  have hheld : id ∈ task.held := (h.tidy_of htask hphase).2
  unfold handoff
  split
  · refine h.transfer htask rfl (length_modify _ _ _) rfl (fun other ↦ ?_) trivial
    have herase := count_erase_add hheld other
    have hlt : id < s.managed.length := h.balanced.lt_size (strongCount_pos_of_mem htask hheld)
    show (s.modify id _).shared other + ((task.held.erase id).count other +
      task.discarded.count other) = s.shared other + (task.held.count other +
        task.discarded.count other)
    rw [shared_modify_succ s hlt fun c ↦ by dsimp only; omega]
    omega
  · exact h.stay htask rfl (length_modify _ _ _) rfl rfl
      (fun other ↦ shared_modify s id other fun _ _ ↦ rfl) (fun _ ↦ rfl) trivial

/-- Entries leave the pool, and the call has nothing but their connections then. -/
theorem Conserved.takeOut (hdiscarded : task.discarded = []) (hheld : task.held = [])
    (p : String × Nat → Bool) :
    s.Keeps total ((s.unlink p).setTask t { task with held := s.unlinked p, phase := .close }) := by
  refine h.transfer htask rfl rfl rfl (fun id ↦ ?_) hdiscarded
  have hunlink := shared_unlink s p id
  show (s.unlink p).shared id + ((s.unlinked p).count id + task.discarded.count id) =
    s.shared id + (task.held.count id + task.discarded.count id)
  rw [hheld, count_nil]
  omega

theorem remove_conserved (hphase : task.phase = .remove) : s.Keeps total (s.remove t task) := by
  have htidy := h.tidy_of htask hphase
  unfold remove
  split
  · exact h.goOn htask trivial
  · exact h.takeOut htask htidy.1 htidy.2 _

theorem unwind_conserved {outcome : Outcome} (hphase : task.phase = .unwind outcome) :
    s.Keeps total (s.unwind t task outcome) := by
  have htidy {task' : Task Config} (hphase' : task'.phase = task.phase) : task'.Tidy := by
    rw [Task.Tidy, hphase', hphase]
    exact trivial
  unfold unwind
  split
  · next hpermit =>
      refine h.transfer htask rfl rfl ?_ (fun _ ↦ rfl) (htidy rfl)
      rw [hpermit]
      rfl
  next hpermit =>
  split
  · next id rest hdiscarded =>
      refine h.release htask (fun other ↦ ?_) rfl (htidy rfl)
      show task.held.count other + rest.count other + _ =
        task.held.count other + task.discarded.count other
      rw [hdiscarded, count_cons_if, Nat.add_assoc]
  · next id rest hdiscarded hheld =>
      refine h.release htask (fun other ↦ ?_) rfl (htidy rfl)
      show rest.count other + task.discarded.count other + _ =
        task.held.count other + task.discarded.count other
      rw [hheld, count_cons_if]
      omega
  · exact h.goOn htask (htidy rfl)
  · exact h.resign htask rfl (fun _ ↦ rfl) (htidy rfl)
  · next hdiscarded hheld hcandidate hleading =>
      exact h.goOn htask ⟨hdiscarded, hheld, Bool.eq_false_iff.mpr hpermit, hleading⟩

end

/-! ## Calls that begin, and what callers do -/

theorem spawn_conserved (h : s.Conserved total) (call : Call Config) :
    s.Keeps total ({ s with tasks := s.tasks ++ [.new call] } : Manager Config) := by
  have hcount (id : Nat) : ({ s with tasks := s.tasks ++ [.new call] } : Manager Config).strongCount
      id = s.strongCount id := by
    show s.shared id + ((s.tasks ++ [_]).map _).sum = s.shared id + (s.tasks.map _).sum
    simp [Task.new, Task.owned]
  refine ⟨⟨h.balanced.of_owners ?_ rfl fun id ↦ ?_, ?_⟩, fun id _ hid ↦ (hcount id).trans hid⟩
  · show s.available + ((s.tasks ++ [_]).map _).sum = s.available + (s.tasks.map _).sum
    simp [Task.new]
  · exact iff_of_eq (congrArg (0 < ·) (hcount id))
  · intro task htask
    rcases mem_append.mp htask with htask | htask
    · exact h.tidy task htask
    · rw [mem_singleton.mp htask]
      exact Task.tidy_new call

theorem cloneLease_conserved (h : s.Conserved total) (hc : s.managed[id]? = some c)
    (hleases : 0 < c.leases)
    (hf : ∀ c, (f c).leases + (f c).releasing = c.leases + c.releasing + 1) :
    s.Keeps total (s.modify id f) := by
  have hid : id < s.managed.length := (List.getElem?_eq_some_iff.mp hc).1
  have hpos : 0 < s.shared id := by
    rw [shared, leased, hc, Option.elim_some]
    omega
  refine h.outside rfl (length_modify _ _ _) rfl fun other ↦ ?_
  show 0 < (s.modify id f).shared other + (s.tasks.map _).sum ↔
    0 < s.shared other + (s.tasks.map _).sum
  rw [shared_modify_succ s hid hf]
  by_cases heq : other = id
  · rw [heq]
    omega
  · rw [if_neg heq]
    rfl

theorem dropLease_conserved (h : s.Conserved total) (hc : s.managed[id]? = some c)
    (hreleasing : 0 < c.releasing) :
    s.Keeps total ((s.modify id fun c ↦ { c with releasing := c.releasing - 1 }).reclaim id) := by
  have hid : id < s.managed.length := (List.getElem?_eq_some_iff.mp hc).1
  have hleased (other : Nat) : (s.modify id fun c ↦ { c with releasing := c.releasing - 1 }).leased
      other + (if other = id then 1 else 0) = s.leased other := by
    rw [leased_modify, leased]
    by_cases heq : other = id
    · simp only [heq, hc, Option.elim_some, if_true]
      omega
    · simp only [if_neg heq, if_neg (Ne.symm heq), Nat.add_zero]
  have hcount (other : Nat) : ((s.modify id fun c ↦ { c with
      releasing := c.releasing - 1 }).reclaim id).strongCount other +
        (if other = id then 1 else 0) = s.strongCount other := by
    have hleased := hleased other
    rw [strongCount_reclaim]
    show (s.connections.map Prod.snd).count other + (s.modify id _).leased other +
      (s.tasks.map _).sum + _ = (s.connections.map Prod.snd).count other + s.leased other +
        (s.tasks.map _).sum
    omega
  have hone : ((s.modify id fun c ↦ { c with
      releasing := c.releasing - 1 }).reclaim id).strongCount id + 1 = s.strongCount id := by
    rw [← hcount id, if_pos rfl]
  refine ⟨⟨h.balanced.drop hone (fun other hne ↦ ?_) ?_ ?_ ?_, ?_⟩, fun other _ hzero ↦ ?_⟩
  · show ((s.modify id _).reclaim id).strongCount other = s.strongCount other
    rw [← hcount other, if_neg hne, Nat.add_zero]
  · show ((s.modify id _).reclaim id).available = s.available +
      if ((s.modify id _).reclaim id).strongCount id = 0 then 1 else 0
    rw [strongCount_reclaim, reclaim]
    split <;> rfl
  · show ((s.modify id _).reclaim id).inFlight = s.inFlight
    rw [reclaim]
    split <;> rfl
  · show ((s.modify id _).reclaim id).managed.length = s.managed.length
    rw [reclaim]
    split <;> exact length_modify _ _ _
  · have htasks : ((s.modify id fun c ↦ { c with
        releasing := c.releasing - 1 }).reclaim id).tasks = s.tasks := by
      rw [reclaim]
      split <;> rfl
    rw [htasks]
    exact h.tidy
  · have hcount := hcount other
    omega

section

variable [DecidableEq Config]

theorem lookup_conserved (h : s.Conserved total) (htask : s.tasks[t]? = some task) {place : Lookup}
    (hphase : task.phase = .lookup place) (hs : s.lookup t task place = some s') :
    s.Keeps total s' := by
  have htidy := h.tidy_of htask hphase
  unfold lookup at hs
  split at hs
  · cases hs
    exact h.goOn htask (tidy_afterMiss rfl htidy)
  next id hfind =>
  obtain ⟨existing, hexisting, rfl⟩ := Option.map_eq_some_iff.mp hs
  have howned (other : Nat) : s.shared other + ((id :: task.held).count other +
      task.discarded.count other) = s.shared other + task.owned other +
        if other = id then 1 else 0 := by
    rw [count_cons_if, Task.owned]
    omega
  simp only [meet]
  split
  · exact h.share htask rfl rfl rfl rfl (strongCount_pos_of_find hfind) howned
      ⟨htidy, mem_cons_self⟩
  split
  · exact h.goOn htask trivial
  · refine h.share htask rfl (touch_managed_length s id) rfl rfl (strongCount_pos_of_find hfind)
      (fun other ↦ ?_) ⟨htidy, mem_cons_self⟩
    show (s.touch id).shared other + _ = _
    rw [shared_touch]
    exact howned other

theorem insert_conserved (h : s.Conserved total) (htask : s.tasks[t]? = some task) {id : Nat}
    (hphase : task.phase = .insert id) (hs : s.insert t task id = some s') :
    s.Keeps total s' := by
  obtain ⟨hdiscarded, hheld⟩ : task.discarded = [] ∧ id ∈ task.held :=
    h.tidy_of htask hphase
  have hneeds : ∀ other, (Next.inserted id).needs = some other → other ∈ task.held := by
    rintro other ⟨⟩
    exact hheld
  have hlink (other : Nat) := shared_link s task.call.name id other
  unfold insert at hs
  split at hs
  · next hfind =>
      cases hs
      have hnone : s.unlinked (fun entry ↦ decide (entry.1 = task.call.name)) = [] := by
        rw [unlinked, map_eq_nil_iff, filter_eq_nil_iff]
        intro entry hentry
        have hkey := lookup_eq_none_iff.mp hfind entry hentry
        simpa using Ne.symm (bne_iff_ne.mp hkey)
      refine h.share htask rfl rfl rfl rfl (strongCount_pos_of_mem htask hheld) (fun other ↦ ?_)
        hneeds
      have hlink := hlink other
      rw [hnone, count_nil] at hlink
      show (s.link task.call.name id).shared other + task.owned other = _
      omega
  next current hfind =>
  split at hs
  · next existing own hexisting hown =>
      split at hs
      · cases hs
        refine h.share htask rfl rfl rfl rfl (strongCount_pos_of_find hfind) (fun other ↦ ?_) ?_
        · have herase := count_erase_add hheld other
          show s.shared other + ((current :: task.held.erase id).count other +
            [id].count other) = s.shared other + (task.held.count other +
              task.discarded.count other) + _
          rw [hdiscarded, count_cons_if, count_cons_if, count_nil]
          omega
        · rintro other ⟨⟩
          exact mem_cons_self
      · cases hs
        refine h.share htask rfl rfl rfl rfl (strongCount_pos_of_mem htask hheld) (fun other ↦ ?_)
          hneeds
        have hlink := hlink other
        show (s.link task.call.name id).shared other + (task.held.count other +
          (s.unlinked (fun entry ↦ decide (entry.1 = task.call.name))).count other) =
            s.shared other + (task.held.count other + task.discarded.count other) + _
        rw [hdiscarded, count_nil]
        omega
  · cases hs

theorem advance_conserved (h : s.Conserved total) (htask : s.tasks[t]? = some task)
    (hpermit : task.phase = .acquire → task.permit = false) (hs : s.advance t task = some s') :
    s.Keeps total s' := by
  unfold advance at hs
  split at hs
  · next hphase => exact lookup_conserved h htask hphase hs
  · next hphase =>
      cases hs
      exact evict_conserved h htask hphase
  · next hphase =>
      cases hs
      exact dropping_conserved h htask hphase
  · next hphase =>
      cases hs
      exact claim_conserved h htask hphase
  · next hphase => exact wait_conserved h htask hphase hs
  · next hphase =>
      cases hs
      exact prune_conserved h htask hphase
  · next hphase =>
      cases hs
      exact acquire_conserved h htask hphase (hpermit hphase)
  · next hphase => exact insert_conserved h htask hphase hs
  · next hphase =>
      cases hs
      exact closing_conserved h htask hphase
  · next hphase =>
      cases hs
      exact returning_conserved h htask hphase
  · next hphase =>
      cases hs
      exact handoff_conserved h htask hphase
  · next hphase =>
      cases hs
      exact remove_conserved h htask hphase
  · next hphase =>
      cases hs
      exact h.takeOut htask (h.tidy_of htask hphase).1 (h.tidy_of htask hphase).2 _
  · cases hs
    exact h.goOn htask trivial
  · next hphase =>
      cases hs
      exact unwind_conserved h htask hphase
  · cases hs
  · cases hs

end

end Manager

end KaduoxSsh.Core
