import KaduoxSsh.Hosts.Store

/-!
# The invariant of the store

One lemma for each operation says that it is `Sound`: the database it leaves
behind is valid, and is the old one when the operation fails. The operations that
try a candidate get both from the check of the candidate, those that remove a
record from what they look for before they remove it.
-/

namespace KaduoxSsh.Hosts

open Text Result SortedMap

/-! ## Changes that are undone -/
theorem HostStore.undoInsert_insert {ν : Type} (map : SortedMap String ν) (key : String) (value : ν) :
    HostStore.undoInsert (map.insert key value) key (map.get? key) = map := by
  cases hget : map.get? key with
  | none => exact erase_insert_of_get?_none value hget
  | some old => rw [HostStore.undoInsert, insert_insert, insert_get?_self hget]

/-- A record that is looked up and taken out: without it there is nothing to take out. -/
theorem HostStore.erase_of_ofOption_error {ν : Type} {map : SortedMap String ν} {key text : String}
    {e : AnyError} (h : ofOption text (map.get? key) = .error e) : map.erase key = map := by
  cases hget : map.get? key with
  | some value =>
      rw [hget] at h
      cases h
  | none =>
      refine ext_get? fun k ↦ ?_
      rw [get?_erase]
      split
      · next hk => rw [hk, hget]
      · rfl

/-- A counted connection changes the record. -/
theorem HostRecord.count_ne (host : HostRecord) :
    { host with stats.connectionCount := host.stats.connectionCount + 1 } ≠ host := by
  intro heq
  have hcount : host.stats.connectionCount + 1 = host.stats.connectionCount :=
    congrArg (fun host ↦ host.stats.connectionCount) heq
  simp at hcount

/-! ## Changes that keep a database valid -/

section

variable [Unicode]

namespace HostDatabase

variable {database : HostDatabase}

theorem valid_default : HostDatabase.default.Valid := validate_eq_ok.mp rfl

theorem Valid.eraseHost (h : database.Valid) {hostAlias : String}
    (hunused : ∀ k chain, database.chains.get? k = some chain → .host hostAlias ∉ chain.hops) :
    { database with hosts := database.hosts.erase hostAlias }.Valid := by
  have hget {k : String} {host : HostRecord}
      (hk : (database.hosts.erase hostAlias).get? k = some host) :
      database.hosts.get? k = some host := by
    rw [get?_erase] at hk
    split at hk
    · cases hk
    · exact hk
  exact { h with
    hostCount := (database.hosts.size_erase_le hostAlias).trans h.hostCount
    hostKey := fun k host hk ↦ h.hostKey k host (hget hk)
    hostRecord := fun k host hk ↦ h.hostRecord k host (hget hk)
    hostChain := fun k host chain hk ↦ h.hostChain k host chain (hget hk)
    hopHost := by
      intro k chain name hchain hmem
      obtain ⟨host, hhost, hrole⟩ := h.hopHost k chain name hchain hmem
      have hne : name ≠ hostAlias := by
        rintro rfl
        exact hunused k chain hchain hmem
      exact ⟨host, by rwa [get?_erase, if_neg hne], hrole⟩
    noLoop := fun k host chain hk ↦ h.noLoop k host chain (hget hk) }

theorem Valid.eraseChain (h : database.Valid) {name : String}
    (hunused : ∀ k host, database.hosts.get? k = some host → host.jumpChain ≠ some name) :
    { database with chains := database.chains.erase name }.Valid := by
  have hget {k : String} {chain : JumpChain}
      (hk : (database.chains.erase name).get? k = some chain) :
      database.chains.get? k = some chain := by
    rw [get?_erase] at hk
    split at hk
    · cases hk
    · exact hk
  exact { h with
    chainCount := (database.chains.size_erase_le name).trans h.chainCount
    hostChain := by
      intro k host chain hk hchain
      have hne : chain ≠ name := by
        rintro rfl
        exact hunused k host hk hchain
      rw [contains, get?_erase, if_neg hne]
      exact h.hostChain k host chain hk hchain
    chainKey := fun k chain hk ↦ h.chainKey k chain (hget hk)
    chainRecord := fun k chain hk ↦ h.chainRecord k chain (hget hk)
    hopHost := fun k chain hostAlias hk ↦ h.hopHost k chain hostAlias (hget hk)
    noLoop := by
      intro k host chain hk hbind
      obtain ⟨c, hc, hcget⟩ := Option.bind_eq_some_iff.mp hbind
      exact h.noLoop k host chain hk (Option.bind_eq_some_iff.mpr ⟨c, hc, hget hcget⟩) }

/-- The statistics of a host are of no concern to the checks. -/
theorem Valid.putStats (h : database.Valid) {hostAlias : String} {host : HostRecord}
    (hhost : database.hosts.get? hostAlias = some host) (stats : HostStats) :
    { database with
      hosts := database.hosts.insert hostAlias { host with stats } }.Valid := by
  -- Every host of the new database is one of the old with other statistics.
  have hget {k : String} {new : HostRecord}
      (hk : (database.hosts.insert hostAlias { host with stats }).get? k = some new) :
      ∃ old, database.hosts.get? k = some old ∧ new = { old with stats := new.stats } := by
    rw [get?_insert] at hk
    split at hk
    · next heq =>
        cases hk
        exact ⟨host, heq ▸ hhost, rfl⟩
    · exact ⟨new, hk, rfl⟩
  refine { h with
    hostCount := ?_, hostKey := ?_, hostRecord := ?_, hostChain := ?_, hopHost := ?_, noLoop := ?_ }
  · have hkeys (k : String) :
        (database.hosts.insert hostAlias { host with stats }).contains k =
          database.hosts.contains k := by
      rw [contains, contains, get?_insert]
      split
      · next heq =>
          rw [heq, hhost]
          rfl
      · rfl
    rw [size_congr hkeys]
    exact h.hostCount
  · intro k new hk
    obtain ⟨old, hold, heq⟩ := hget hk
    rw [heq]
    exact h.hostKey k old hold
  · intro k new hk
    obtain ⟨old, hold, heq⟩ := hget hk
    rw [heq]
    exact h.hostRecord k old hold
  · intro k new chain hk hchain
    obtain ⟨old, hold, heq⟩ := hget hk
    rw [heq] at hchain
    exact h.hostChain k old chain hold hchain
  · intro k chain name hchain hmem
    obtain ⟨old, hold, hrole⟩ := h.hopHost k chain name hchain hmem
    by_cases heq : name = hostAlias
    · subst heq
      rw [hhost] at hold
      cases hold
      exact ⟨_, get?_insert_self _ _ _, hrole⟩
    · exact ⟨old, by rwa [get?_insert_of_ne _ _ heq], hrole⟩
  · intro k new chain hk hbind
    obtain ⟨old, hold, heq⟩ := hget hk
    rw [heq] at hbind ⊢
    exact h.noLoop k old chain hold hbind

end HostDatabase

/-! ## Soundness of the operations -/

namespace HostStore

/-- An operation leaves a valid database behind, and the old one when it fails. -/
structure Sound {α : Type} (store : HostStore) (outcome : Result α × HostStore) : Prop where
  valid : outcome.2.database.Valid
  unchanged : ∀ e, outcome.1 = .error e → outcome.2 = store

variable {α β : Type} {store : HostStore}

omit [Unicode] in
/-- An operation that succeeds has passed each of its checks. -/
theorem attempt_eq_ok {x : Result α} {f : α → Result β × HostStore} {b : β}
    {changed : HostStore} : store.attempt x f = (.ok b, changed) ↔
      ∃ a, x = .ok a ∧ f a = (.ok b, changed) := by
  cases x with
  | ok a => simp [attempt]
  | error e => simp [attempt]

theorem sound_ok (a : α) {changed : HostStore} (h : changed.database.Valid) :
    Sound store (.ok a, changed) :=
  ⟨h, nofun⟩

section

variable (h : store.database.Valid)

include h

theorem sound_attempt {x : Result α} {f : α → Result β × HostStore}
    (hf : ∀ a, x = .ok a → Sound store (f a)) : Sound store (store.attempt x f) := by
  cases hx : x with
  | ok a => exact hf a hx
  | error e => exact ⟨h, fun _ _ ↦ rfl⟩

/-- A candidate that takes the place of the database when it passes the checks. -/
theorem sound_candidate (a : α) (changed : HostStore) :
    Sound store (store.attempt changed.database.validate fun _ ↦ (.ok a, changed)) :=
  sound_attempt h fun _ hvalid ↦ sound_ok a (HostDatabase.validate_eq_ok.mp hvalid)

theorem saveFolder_sound (name : String) (originalName : Option String) (role : String) :
    Sound store (store.saveFolder name originalName role) := by
  refine sound_attempt h fun _ _ ↦ sound_attempt h fun _ _ ↦ sound_attempt h fun _ _ ↦
    sound_attempt h fun _ _ ↦ ?_
  exact sound_candidate h () { store with
    database := withFolder store.database name originalName role }

theorem removeFolder_sound (name : String) : Sound store (store.removeFolder name) := by
  refine sound_attempt h fun _ _ ↦ sound_attempt h fun _ _ ↦ ?_
  exact sound_candidate h _ { store with database := _ }

theorem upsertHost_sound (host : HostRecord) : Sound store (store.upsertHost host) := by
  refine sound_attempt h fun _ _ ↦ sound_attempt h fun _ _ ↦ ?_
  simp only [setHosts, undoInsert_insert]
  exact sound_candidate h _ (store.setHosts (store.database.hosts.insert host.hostAlias host))

theorem insertHost_sound (host : HostRecord) : Sound store (store.insertHost host) := by
  refine sound_attempt h fun _ hnew ↦ sound_attempt h fun _ _ ↦ ?_
  have hnone : store.database.hosts.get? host.hostAlias = none := by
    rw [bailIf_eq_ok, Bool.not_eq_true, contains_eq_false_iff] at hnew
    exact hnew
  simp only [setHosts, erase_insert_of_get?_none _ hnone]
  exact sound_candidate h _ (store.setHosts (store.database.hosts.insert host.hostAlias host))

theorem upsertChain_sound (chain : JumpChain) : Sound store (store.upsertChain chain) := by
  refine sound_attempt h fun _ _ ↦ ?_
  simp only [setChains, undoInsert_insert]
  exact sound_candidate h _ (store.setChains (store.database.chains.insert chain.name chain))

theorem insertChain_sound (chain : JumpChain) : Sound store (store.insertChain chain) := by
  refine sound_attempt h fun _ hnew ↦ ?_
  have hnone : store.database.chains.get? chain.name = none := by
    rw [bailIf_eq_ok, Bool.not_eq_true, contains_eq_false_iff] at hnew
    exact hnew
  simp only [setChains, erase_insert_of_get?_none _ hnone]
  exact sound_candidate h _ (store.setChains (store.database.chains.insert chain.name chain))

theorem removeHost_sound (hostAlias : String) : Sound store (store.removeHost hostAlias) := by
  refine sound_attempt h fun _ hunused ↦ ⟨?_, ?_⟩
  · refine h.eraseHost fun k chain hget ↦ ?_
    rw [checkUnused, forM_eq_ok] at hunused
    exact bailIf_eq_ok.mp (hunused chain (mem_values.mpr ⟨k, hget⟩))
  · intro e he
    show store.setHosts (store.database.hosts.erase hostAlias) = store
    rw [erase_of_ofOption_error he]
    rfl

theorem removeChain_sound (name : String) : Sound store (store.removeChain name) := by
  refine sound_attempt h fun _ hunused ↦ ⟨?_, ?_⟩
  · refine h.eraseChain fun k host hget hchain ↦ ?_
    rw [optionForM_eq_ok] at hunused
    cases hfind : store.database.hosts.values.find? fun host ↦ host.jumpChain = some name with
    | some bound => exact absurd (hunused bound hfind) (bail_ne_ok _ _)
    | none =>
        have := List.find?_eq_none.mp hfind host (mem_values.mpr ⟨k, hget⟩)
        exact this (decide_eq_true hchain)
  · intro e he
    show store.setChains (store.database.chains.erase name) = store
    rw [erase_of_ofOption_error he]
    rfl

/-- The statistics are kept in the end when the clock gives a time. -/
theorem recordSuccess_valid (hostAlias : String) (method : StoredAuthMethod) (clock : Int) :
    (store.recordSuccess hostAlias method clock).2.database.Valid := by
  rw [recordSuccess]
  cases hget : store.database.hosts.get? hostAlias with
  | none => exact h
  | some host =>
      rw [ofOption, attempt]
      cases checkedAdd host.stats.connectionCount 1 with
      | none => exact h
      | some count =>
          rw [ofOption, attempt]
          cases nowUnix clock with
          | error e => exact h.putStats hget _
          | ok now => exact h.putStats hget _

end

end HostStore

/-! ## Runs of operations -/

/-- An operation of the store with its arguments, for the statistics with the time of the clock. -/
inductive Operation where
  | upsertHost (host : HostRecord)
  | insertHost (host : HostRecord)
  | removeHost (hostAlias : String)
  | upsertChain (chain : JumpChain)
  | insertChain (chain : JumpChain)
  | removeChain (name : String)
  | saveFolder (name : String) (originalName : Option String) (role : String)
  | removeFolder (name : String)
  | recordSuccess (hostAlias : String) (method : StoredAuthMethod) (clock : Int)
deriving DecidableEq

namespace Operation

/-- Whether the operation succeeds, and the store it leaves behind. -/
def run (operation : Operation) (store : HostStore) : Result Unit × HostStore :=
  let done {α : Type} (outcome : Result α × HostStore) : Result Unit × HostStore :=
    (outcome.1.map fun _ ↦ (), outcome.2)
  match operation with
  | .upsertHost host => done (store.upsertHost host)
  | .insertHost host => done (store.insertHost host)
  | .removeHost hostAlias => done (store.removeHost hostAlias)
  | .upsertChain chain => done (store.upsertChain chain)
  | .insertChain chain => done (store.insertChain chain)
  | .removeChain name => done (store.removeChain name)
  | .saveFolder name originalName role => done (store.saveFolder name originalName role)
  | .removeFolder name => done (store.removeFolder name)
  | .recordSuccess hostAlias method clock => done (store.recordSuccess hostAlias method clock)

/-- The operation counts a connection and then finds the clock before the epoch. -/
def CountsOnly (store : HostStore) : Operation → Prop
  | .recordSuccess hostAlias _ clock =>
      clock < 0 ∧ ∃ host, store.database.hosts.get? hostAlias = some host ∧
        host.stats.connectionCount.toNat + 1 < 2 ^ 64
  | _ => False

/-- The next store, whether or not the operation succeeds. -/
def step (store : HostStore) (operation : Operation) : Option HostStore :=
  some (operation.run store).2

section

variable {store : HostStore}

/-- What a sound operation gives a run that only asks whether it succeeded. -/
theorem unchanged_of_sound {α : Type} {outcome : Result α × HostStore} (h : store.Sound outcome) :
    (∃ e, outcome.1.map (fun _ ↦ ()) = .error e) → outcome.2.database = store.database := by
  rintro ⟨e, he⟩
  obtain ⟨result, changed⟩ := outcome
  cases result with
  | ok a => cases he
  | error e => rw [h.unchanged e rfl]

theorem run_valid (h : store.database.Valid) (operation : Operation) :
    (operation.run store).2.database.Valid := by
  cases operation with
  | upsertHost host => exact (HostStore.upsertHost_sound h host).valid
  | insertHost host => exact (HostStore.insertHost_sound h host).valid
  | removeHost hostAlias => exact (HostStore.removeHost_sound h hostAlias).valid
  | upsertChain chain => exact (HostStore.upsertChain_sound h chain).valid
  | insertChain chain => exact (HostStore.insertChain_sound h chain).valid
  | removeChain name => exact (HostStore.removeChain_sound h name).valid
  | saveFolder name originalName role =>
      exact (HostStore.saveFolder_sound h name originalName role).valid
  | removeFolder name => exact (HostStore.removeFolder_sound h name).valid
  | recordSuccess hostAlias method clock =>
      exact HostStore.recordSuccess_valid h hostAlias method clock

omit [Unicode] in
/-- A failure after the counter was put in place is one that `CountsOnly` describes. -/
theorem recordSuccess_unchanged_iff (hostAlias : String) (method : StoredAuthMethod) (clock : Int) :
    ((∃ e, (store.recordSuccess hostAlias method clock).1.map (fun _ ↦ ()) = .error e) →
        (store.recordSuccess hostAlias method clock).2.database = store.database) ↔
      ¬(recordSuccess hostAlias method clock).CountsOnly store := by
  rw [HostStore.recordSuccess, CountsOnly]
  cases hget : store.database.hosts.get? hostAlias with
  | none => simp [ofOption, HostStore.attempt, bail]
  | some host =>
      rw [ofOption, HostStore.attempt, HostStore.checkedAdd]
      by_cases hlt : host.stats.connectionCount.toNat + 1 < 2 ^ 64
      · rw [if_pos (by simpa using hlt), ofOption, HostStore.attempt, HostStore.nowUnix]
        by_cases hclock : clock < 0
        · rw [if_pos hclock]
          refine iff_of_false (fun h ↦ ?_) (not_not.mpr ⟨hclock, host, rfl, hlt⟩)
          have hput : (store.database.hosts.insert hostAlias
                { host with stats.connectionCount := host.stats.connectionCount + 1 }).get? hostAlias =
              store.database.hosts.get? hostAlias :=
            congrArg (fun database ↦ database.hosts.get? hostAlias) (h ⟨_, rfl⟩)
          rw [get?_insert_self, hget] at hput
          exact host.count_ne (Option.some.inj hput)
        · rw [if_neg hclock]
          refine iff_of_true ?_ fun h ↦ hclock h.1
          rintro ⟨e, he⟩
          cases he
      · rw [if_neg (by simpa using hlt)]
        refine iff_of_true (fun _ ↦ rfl) ?_
        rintro ⟨-, host', hhost', hlt'⟩
        cases hhost'
        exact hlt hlt'

theorem run_unchanged_iff (h : store.database.Valid) (operation : Operation) :
    ((∃ e, (operation.run store).1 = .error e) →
        (operation.run store).2.database = store.database) ↔ ¬operation.CountsOnly store := by
  have hsound {α : Type} {outcome : Result α × HostStore} (h : store.Sound outcome) :
      ((∃ e, outcome.1.map (fun _ ↦ ()) = .error e) → outcome.2.database = store.database) ↔
        ¬False :=
    iff_of_true (unchanged_of_sound h) not_false
  cases operation with
  | upsertHost host => exact hsound (HostStore.upsertHost_sound h host)
  | insertHost host => exact hsound (HostStore.insertHost_sound h host)
  | removeHost hostAlias => exact hsound (HostStore.removeHost_sound h hostAlias)
  | upsertChain chain => exact hsound (HostStore.upsertChain_sound h chain)
  | insertChain chain => exact hsound (HostStore.insertChain_sound h chain)
  | removeChain name => exact hsound (HostStore.removeChain_sound h name)
  | saveFolder name originalName role =>
      exact hsound (HostStore.saveFolder_sound h name originalName role)
  | removeFolder name => exact hsound (HostStore.removeFolder_sound h name)
  | recordSuccess hostAlias method clock =>
      exact recordSuccess_unchanged_iff hostAlias method clock

end

end Operation

theorem decode_valid {input : String} {database : HostDatabase}
    (h : decode input = .ok database) : database.Valid := by
  rw [decode, ite_bail_eq_ok] at h
  obtain ⟨-, h⟩ := h
  obtain ⟨document, -, h⟩ := bind_eq_ok.mp h
  obtain ⟨root, -, h⟩ := bind_eq_ok.mp h
  obtain ⟨loading, -, h⟩ := bind_eq_ok.mp h
  obtain ⟨chains, -, h⟩ := bind_eq_ok.mp h
  obtain ⟨hvalid, heq⟩ := check_bind_eq_ok.mp h
  cases heq
  exact HostDatabase.validate_eq_ok.mp hvalid

/-- A store that is opened has a valid database. -/
theorem HostStore.open_valid {path : PathBuf} {metadata : Except IoErrorKind StoreEntry}
    {store : HostStore} (h : HostStore.open path metadata = .ok store) : store.database.Valid := by
  rw [HostStore.open.eq_def] at h
  split at h
  · next entry =>
      obtain ⟨database, hload, hstore⟩ := bind_eq_ok.mp h
      cases hstore
      rw [loadDatabase] at hload
      simp only [bind_eq_ok, context_eq_ok] at hload
      obtain ⟨-, -, -, -, -, -, -, -, input, -, hdecode⟩ := hload
      exact decode_valid hdecode
  · cases h
    exact HostDatabase.valid_default
  · rw [context_eq_ok] at h
    cases h

theorem reaches_valid {start store : HostStore} (hstart : start.database.Valid)
    (hreach : Reaches Operation.step (fun _ _ ↦ True) start store) : store.database.Valid := by
  let Inv (store : HostStore) : Prop := store.database.Valid
  refine hreach.invariant (show Inv start from hstart) fun current operation next hcurrent _ hstep ↦ ?_
  cases hstep
  exact Operation.run_valid hcurrent operation

/-- In every state that a run from an opened store reaches, the database passes the checks, and an
operation that fails there leaves the database as it was exactly when it does not stop between the
counter and the clock. -/
theorem store_runs_sound {path : PathBuf} {metadata : Except IoErrorKind StoreEntry}
    {start store : HostStore} (hopen : HostStore.open path metadata = .ok start)
    (hreach : Reaches Operation.step (fun _ _ ↦ True) start store) :
    store.database.validate = .ok () ∧
      ∀ operation : Operation,
        ((∃ e, (operation.run store).1 = .error e) →
            (operation.run store).2.database = store.database) ↔ ¬operation.CountsOnly store := by
  have hvalid := reaches_valid (HostStore.open_valid hopen) hreach
  exact ⟨HostDatabase.validate_eq_ok.mpr hvalid, Operation.run_unchanged_iff hvalid⟩

end

/-- A store whose file is not there yet. -/
def sampleEmpty : HostStore := ⟨.ofString "/home/ops/hosts.toml", .default⟩

/-- The store after a host was added. -/
def sampleStore : HostStore := sampleEmpty.setHosts
  (empty.insert "web" (HostRecord.new "web" "10.0.0.5" "deploy"))

theorem sampleStore_reached :
    Reaches (@Operation.step asciiLetters) (fun _ _ ↦ True) sampleEmpty sampleStore := by
  refine .next (e := .insertHost (HostRecord.new "web" "10.0.0.5" "deploy")) .start trivial ?_
  decide

theorem store_runs_sound_sample :
    @HostDatabase.validate asciiLetters sampleStore.database = .ok () ∧
      (@Operation.run asciiLetters (.removeHost "db") sampleStore).1.isOk = false ∧
      (@Operation.run asciiLetters (.removeHost "db") sampleStore).2.database =
        sampleStore.database := by
  have hopen : @HostStore.open asciiLetters sampleEmpty.path (.error .notFound) =
      .ok sampleEmpty := rfl
  obtain ⟨hvalid, hatomic⟩ := @store_runs_sound asciiLetters _ _ _ _ hopen sampleStore_reached
  exact ⟨hvalid, by decide, (hatomic (.removeHost "db")).mpr id ⟨_, rfl⟩⟩

/-- With a clock before the epoch the operation fails and the connection is counted. -/
theorem recordSuccess_counts_before_epoch :
    @HostStore.open asciiLetters sampleEmpty.path (.error .notFound) = .ok sampleEmpty ∧
      Reaches (@Operation.step asciiLetters) (fun _ _ ↦ True) sampleEmpty sampleStore ∧
      (@Operation.run asciiLetters (.recordSuccess "web" .agent (-1)) sampleStore).1.isOk = false ∧
      (@Operation.run asciiLetters (.recordSuccess "web" .agent (-1)) sampleStore).2.database ≠
        sampleStore.database :=
  ⟨rfl, sampleStore_reached, by decide, by decide⟩

end KaduoxSsh.Hosts
