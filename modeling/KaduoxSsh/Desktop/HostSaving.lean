import KaduoxSsh.Desktop.HostCommands

/-!
# What saving a host changes

A host that is saved takes the place of the record that its request edits, and no other record
is touched. A request without an original alias is one for a new host, but it takes the place of
a host as well when there is one with its alias. That is the only thing that goes wrong, and it
does whenever the new record is one that the library accepts.
-/

namespace KaduoxSsh.Desktop

open Hosts Text Result
open KaduoxSsh.Core (ConnectionConfig)
open Sessions (trimmed)

section

variable [Unicode] {store changed : HostStore} {α β : Type}

/-! ## Operations of the store -/

omit [Unicode] in
theorem behind_eq_ok {outcome : Result α × HostStore} :
    behind outcome = .ok changed ↔ ∃ a, outcome = (.ok a, changed) := by
  obtain ⟨result, store⟩ := outcome
  rw [behind, map_eq_ok]
  constructor
  · rintro ⟨a, rfl, rfl⟩
    exact ⟨a, rfl⟩
  · rintro ⟨a, h⟩
    cases h
    exact ⟨a, rfl, rfl⟩

/-- A host is put in place when the library is valid with it. -/
theorem behind_upsertHost {host : HostRecord} : behind (store.upsertHost host) = .ok changed ↔
    (store.setHosts (store.database.hosts.insert host.hostAlias host)).database.Valid ∧
      changed = store.setHosts (store.database.hosts.insert host.hostAlias host) := by
  constructor
  · intro h
    obtain ⟨previous, hupsert⟩ := behind_eq_ok.mp h
    obtain ⟨-, -, hupsert⟩ := HostStore.attempt_eq_ok.mp hupsert
    obtain ⟨-, -, hupsert⟩ := HostStore.attempt_eq_ok.mp hupsert
    obtain ⟨_, hvalid, hupsert⟩ := HostStore.attempt_eq_ok.mp hupsert
    exact ⟨HostDatabase.validate_eq_ok.mp hvalid, (Prod.mk.inj hupsert).2.symm⟩
  · rintro ⟨hvalid, rfl⟩
    have hget := store.database.hosts.get?_insert_self host.hostAlias host
    have hchain : (host.jumpChain.forM fun chain ↦
        bailIf (¬store.database.chains.contains chain)
          s!"host {host.hostAlias} references missing jump chain {chain}") = .ok () :=
      optionForM_eq_ok.mpr fun chain hchain ↦ bailIf_eq_ok.mpr
        (not_not.mpr (hvalid.hostChain _ _ chain hget hchain))
    exact behind_eq_ok.mpr ⟨_, HostStore.attempt_eq_ok.mpr ⟨(), hvalid.hostRecord _ _ hget,
      HostStore.attempt_eq_ok.mpr ⟨(), hchain, HostStore.attempt_eq_ok.mpr
        ⟨(), HostDatabase.validate_eq_ok.mpr hvalid, rfl⟩⟩⟩⟩

/-- A chain is put in place when the library is valid with it. -/
theorem behind_upsertChain {chain : JumpChain} : behind (store.upsertChain chain) = .ok changed ↔
    (store.setChains (store.database.chains.insert chain.name chain)).database.Valid ∧
      changed = store.setChains (store.database.chains.insert chain.name chain) := by
  constructor
  · intro h
    obtain ⟨previous, hupsert⟩ := behind_eq_ok.mp h
    obtain ⟨-, -, hupsert⟩ := HostStore.attempt_eq_ok.mp hupsert
    obtain ⟨_, hvalid, hupsert⟩ := HostStore.attempt_eq_ok.mp hupsert
    exact ⟨HostDatabase.validate_eq_ok.mp hvalid, (Prod.mk.inj hupsert).2.symm⟩
  · rintro ⟨hvalid, rfl⟩
    have hget := store.database.chains.get?_insert_self chain.name chain
    exact behind_eq_ok.mpr ⟨_, HostStore.attempt_eq_ok.mpr ⟨(), hvalid.chainRecord _ _ hget,
      HostStore.attempt_eq_ok.mpr ⟨(), HostDatabase.validate_eq_ok.mpr hvalid, rfl⟩⟩⟩

omit [Unicode] in
/-- A host is removed that is there and is not used by a chain. -/
theorem behind_removeHost {hostAlias : String}
    (h : behind (store.removeHost hostAlias) = .ok changed) :
    (∀ k chain, store.database.chains.get? k = some chain → .host hostAlias ∉ chain.hops) ∧
      changed = store.setHosts (store.database.hosts.erase hostAlias) := by
  obtain ⟨host, hremove⟩ := behind_eq_ok.mp h
  obtain ⟨_, hunused, hpair⟩ := HostStore.attempt_eq_ok.mp hremove
  refine ⟨fun k chain hget ↦ ?_, (Prod.mk.inj hpair).2.symm⟩
  rw [HostStore.checkUnused, forM_eq_ok] at hunused
  exact bailIf_eq_ok.mp (hunused chain (SortedMap.mem_values.mpr ⟨k, hget⟩))

omit [Unicode] in
/-- A chain is removed that no host is bound to. -/
theorem behind_removeChain {name : String} (h : behind (store.removeChain name) = .ok changed) :
    changed = store.setChains (store.database.chains.erase name) := by
  obtain ⟨chain, hremove⟩ := behind_eq_ok.mp h
  obtain ⟨-, -, hpair⟩ := HostStore.attempt_eq_ok.mp hremove
  exact (Prod.mk.inj hpair).2.symm

/-! ## Saving -/

variable {w : HostSurroundings} {updated : Result HostStore} {next : HostStore → Result α}
  {saved : HostDatabase}

/-- What is in the file is the changed library. -/
theorem persisted_saving (h : (saving w updated next).2 = some saved) :
    ∃ store, updated = .ok store ∧ (∃ text, store.encoded = .ok text) ∧ saved = store.database := by
  cases updated with
  | error e => cases h
  | ok store =>
      refine ⟨store, rfl, ?_⟩
      rw [saving, save] at h
      cases hencoded : store.encoded with
      | error e =>
          rw [hencoded] at h
          cases h
      | ok text =>
          rw [hencoded] at h
          refine ⟨⟨text, rfl⟩, ?_⟩
          cases hwriting : w.writing with
          | failed =>
              rw [hwriting] at h
              cases h
          | failedAfterRename =>
              rw [hwriting] at h
              exact (Option.some.inj h).symm
          | written =>
              rw [hwriting] at h
              exact (Option.some.inj h).symm

theorem persisted_written (hwriting : w.writing = .written) {text : String}
    (h : store.encoded = .ok text) : (saving w (.ok store) next).2 = some store.database := by
  rw [saving, save, h, hwriting]

/-- With an error from behind the renaming the changed library is in the file. -/
theorem saving_afterRename (hwriting : w.writing = .failedAfterRename) {text : String}
    (h : store.encoded = .ok text) :
    saving w (.ok store) next = (.error w.writeError, some store.database) := by
  rw [saving, save, h, hwriting]
  rfl

/-- Nothing is in the file when there is nothing to be written. -/
theorem saving_of_error {e : AnyError} (h : (updated >>= fun store ↦ store.encoded) = .error e) :
    saving w updated next = (.error e, none) := by
  cases updated with
  | error e' =>
      cases h
      rfl
  | ok store =>
      have hencoded : store.encoded = .error e := h
      rw [saving, save, hencoded]
      rfl

end

/-! ## Hosts -/

section

variable [Unicode] {store updated : HostStore} {request : HostSaveRequest}
  {previous : Option HostRecord} {host : HostRecord} {saved : HostDatabase}

omit [Unicode] in
/-- A record has the alias of its request, and the statistics of the record there was. -/
theorem record_eq_ok (h : request.record previous = .ok host) : host.hostAlias = request.name ∧
    host.stats = previous.elim .default HostRecord.stats := by
  rw [HostSaveRequest.record] at h
  obtain ⟨role, -, h⟩ := bind_eq_ok.mp h
  obtain ⟨policy, -, h⟩ := bind_eq_ok.mp h
  obtain ⟨osType, -, h⟩ := bind_eq_ok.mp h
  obtain rfl := Except.ok.inj h
  exact ⟨rfl, rfl⟩

/-- The library without the host that is renamed. -/
def withoutOld (store : HostStore) (request : HostSaveRequest) : HostStore :=
  match request.oldName with
  | some old => store.setHosts (store.database.hosts.erase old)
  | none => store

/-- What is behind an update that succeeds. -/
theorem updateHost_eq_ok (h : updateHost store request = .ok updated) :
    (request.oldName.isSome = true → store.database.hosts.contains request.name = false) ∧
      ∃ host, request.record (request.previous store.database) = .ok host ∧
        updated = (withoutOld store request).setHosts
          ((withoutOld store request).database.hosts.insert request.name host) ∧
        updated.database.Valid := by
  rw [updateHost, check_bind_eq_ok, bailIf_eq_ok] at h
  obtain ⟨hfree, h⟩ := h
  obtain ⟨host, hrecord, h⟩ := bind_eq_ok.mp h
  rw [check_bind_eq_ok] at h
  obtain ⟨base, hbase, h⟩ := bind_eq_ok.mp h.2
  have hwithout : base = withoutOld store request := by
    rw [withoutOld]
    cases hold : request.oldName with
    | some old =>
        rw [hold, removeOld] at hbase
        exact (behind_removeHost hbase).2
    | none =>
        rw [hold, removeOld] at hbase
        exact (Except.ok.inj hbase).symm
  obtain ⟨hvalid, rfl⟩ := behind_upsertHost.mp h
  rw [hwithout, (record_eq_ok hrecord).1] at hvalid ⊢
  refine ⟨fun hold ↦ ?_, host, hrecord, rfl, hvalid⟩
  exact Bool.not_eq_true _ ▸ fun hcontains ↦ hfree ⟨hold, hcontains⟩

/-- What is to hold of a library in which the host of a request has been saved. -/
structure HostSaved (database : HostDatabase) (request : HostSaveRequest)
    (saved : HostDatabase) : Prop where
  hosts : ∀ k, k ≠ request.name → request.oldName ≠ some k →
    saved.hosts.get? k = database.hosts.get? k
  chains : saved.chains = database.chains
  folders : saved.folders = database.folders ∧ saved.jumpFolders = database.jumpFolders
  version : saved.version = database.version
  renamed : ∀ old, request.oldName = some old → saved.hosts.get? old = none
  record : ∃ host, request.record (request.previous database) = .ok host ∧
    saved.hosts.get? request.name = some host
  stats : ∀ host edited, saved.hosts.get? request.name = some host →
    request.original.bind database.hosts.get? = some edited → host.stats = edited.stats
  valid : saved.Valid
  fresh : request.original = none → database.hosts.get? request.name = none

omit [Unicode] in
theorem ne_of_oldName {old : String} (h : request.oldName = some old) : old ≠ request.name := by
  rw [HostSaveRequest.oldName, Option.filter_eq_some_iff] at h
  exact of_decide_eq_true h.2

omit [Unicode] in
theorem get?_withoutOld {k : String} (h : request.oldName ≠ some k) :
    (withoutOld store request).database.hosts.get? k = store.database.hosts.get? k := by
  rw [withoutOld]
  cases hold : request.oldName with
  | none => rfl
  | some old =>
      refine (SortedMap.get?_erase ..).trans (if_neg fun hk ↦ h ?_)
      rw [hold, hk]

omit [Unicode] in
/-- The record that a request edits is the one whose statistics are kept. -/
theorem previous_eq_some {edited : HostRecord}
    (h : request.original.bind store.database.hosts.get? = some edited) :
    request.previous store.database = some edited := by
  rw [HostSaveRequest.previous, h, Option.some_or]

/-- All of it holds of an update, unless a host with the alias of a new one is replaced. -/
theorem hostSaved_of_update (h : updateHost store request = .ok updated)
    (hfresh : request.original = none → store.database.hosts.get? request.name = none) :
    HostSaved store.database request updated.database := by
  obtain ⟨-, host, hrecord, rfl, hvalid⟩ := updateHost_eq_ok h
  have hget : ((withoutOld store request).database.hosts.insert request.name host).get?
      request.name = some host := SortedMap.get?_insert_self ..
  refine ⟨fun k hk hold ↦ ?_, ?_, ?_, ?_, fun old hold ↦ ?_, ⟨host, hrecord, hget⟩,
    fun saved edited hsaved hedited ↦ ?_, hvalid, hfresh⟩
  · exact (SortedMap.get?_insert_of_ne _ _ hk).trans (get?_withoutOld hold)
  · rw [withoutOld]
    split <;> rfl
  · rw [withoutOld]
    split <;> exact ⟨rfl, rfl⟩
  · rw [withoutOld]
    split <;> rfl
  · refine (SortedMap.get?_insert_of_ne _ _ (ne_of_oldName hold)).trans ?_
    rw [withoutOld, hold]
    exact (SortedMap.get?_erase ..).trans (if_pos rfl)
  · obtain rfl := Option.some.inj (hget.symm.trans hsaved)
    rw [(record_eq_ok hrecord).2, previous_eq_some hedited]
    rfl

/-- Saving a host changes nothing but its record, keeps the statistics, and leaves the file as it
was when it fails before the writing. -/
structure SavesHost (store : HostStore) (request : HostSaveRequest) : Prop where
  persisted : ∀ w saved, (saveHostInner w store request).2 = some saved →
    HostSaved store.database request saved
  unchanged : ∀ w e, (updateHost store request >>= fun updated ↦ updated.encoded) = .error e →
    saveHostInner w store request = (.error e, none)

/-- The record of a new host is one with which the library can be written. -/
def Accepted (store : HostStore) (request : HostSaveRequest) : Prop :=
  ∃ host, request.record (request.previous store.database) = .ok host ∧
    ∃ text, (store.setHosts (store.database.hosts.insert request.name host)).encoded = .ok text

omit [Unicode] in
theorem oldName_of_new (hnew : request.original = none) : request.oldName = none := by
  rw [HostSaveRequest.oldName, hnew]
  rfl

theorem updateHost_of_accepted (hnew : request.original = none) (h : Accepted store request) :
    ∃ updated, updateHost store request = .ok updated ∧ ∃ text, updated.encoded = .ok text := by
  obtain ⟨host, hrecord, text, htext⟩ := h
  refine ⟨_, ?_, text, htext⟩
  have hold := oldName_of_new hnew
  have hvalid : (store.setHosts
      (store.database.hosts.insert host.hostAlias host)).database.Valid := by
    rw [(record_eq_ok hrecord).1]
    rw [HostStore.encoded, check_bind_eq_ok] at htext
    exact HostDatabase.validate_eq_ok.mp htext.1
  have hhost : host.validate = .ok () :=
    hvalid.hostRecord _ _ (store.database.hosts.get?_insert_self host.hostAlias host)
  rw [updateHost, check_bind_eq_ok]
  refine ⟨bailIf_of_not (fun h ↦ ?_) _, bind_eq_ok.mpr ⟨host, hrecord, ?_⟩⟩
  · rw [hold] at h
    exact Bool.false_ne_true h.1
  · rw [check_bind_eq_ok]
    refine ⟨hhost, bind_eq_ok.mpr ⟨store, by rw [hold, removeOld], ?_⟩⟩
    rw [← (record_eq_ok hrecord).1]
    exact behind_upsertHost.mpr ⟨hvalid, rfl⟩

theorem accepted_of_updateHost (hnew : request.original = none)
    (h : updateHost store request = .ok updated) {text : String}
    (htext : updated.encoded = .ok text) : Accepted store request := by
  obtain ⟨-, host, hrecord, rfl, -⟩ := updateHost_eq_ok h
  rw [withoutOld, oldName_of_new hnew] at htext
  exact ⟨host, hrecord, text, htext⟩

/-- Surroundings in which everything goes well. -/
def quietSurroundings : HostSurroundings where
  home _ := bail "no configuration"
  writing := .written
  writeError := ⟨[]⟩
  savePassword _ _ := .ok ()

/-- Saving a host is as it should be except where a request for a new host has the alias of one
that is there, and the library can be written with the new record in its place. -/
theorem savesHost_iff (store : HostStore) (request : HostSaveRequest) :
    SavesHost store request ↔ request.original ≠ none ∨
      store.database.hosts.get? request.name = none ∨ ¬Accepted store request := by
  constructor
  · intro h
    by_contra hnot
    push Not at hnot
    obtain ⟨hnew, hthere, haccepted⟩ := hnot
    obtain ⟨updated, hupdate, text, htext⟩ := updateHost_of_accepted hnew haccepted
    have hsaved : (saveHostInner quietSurroundings store request).2 = some updated.database := by
      rw [saveHostInner, hupdate]
      exact persisted_written rfl htext
    exact hthere ((h.persisted _ _ hsaved).fresh hnew)
  · intro h
    refine ⟨fun w saved hsaved ↦ ?_, fun w e he ↦ saving_of_error he⟩
    obtain ⟨updated, hupdate, ⟨text, htext⟩, rfl⟩ := persisted_saving hsaved
    refine hostSaved_of_update hupdate fun hnew ↦ ?_
    rcases h with hedit | hfree | hrefused
    · exact absurd hnew hedit
    · exact hfree
    · exact absurd (accepted_of_updateHost hnew hupdate htext) hrefused

end

/-- A new host under the alias of another one. -/
def newWeb : HostSaveRequest where
  password := none
  role := none
  originalAlias := none
  hostAlias := "web"
  address := "192.0.2.7"
  port := 2222
  user := "root"
  identityFile := none
  groups := []
  tags := []
  note := none
  hostKeyPolicy := "strict"
  jumpChain := none
  osType := none

/-- The host that was there is gone. -/
theorem new_host_replaces : ¬∀ (_ : Unicode) (store : HostStore) (request : HostSaveRequest),
    store.database.Valid → SavesHost store request := by
  intro h
  let _ : Unicode := asciiLetters
  have hvalid : sampleStore.database.Valid := HostDatabase.validate_eq_ok.mp (by decide)
  have haccepted : Accepted sampleStore newWeb := by
    refine ⟨{ HostRecord.new "web" "192.0.2.7" "root" with port := 2222, hostKeyPolicy := .strict },
      by decide, _,
      Storable.encoded_eq ⟨by decide, ⟨by decide, by decide⟩, ?_, by decide +kernel⟩ _⟩
    unfold HasReadableNotes
    decide +kernel
  obtain ⟨updated, hupdate, text, htext⟩ := updateHost_of_accepted (by decide) haccepted
  have hsaved : (saveHostInner quietSurroundings sampleStore newWeb).2 =
      some updated.database := by
    rw [saveHostInner, hupdate]
    exact persisted_written rfl htext
  have hfresh := ((h _ sampleStore newWeb hvalid).persisted _ _ hsaved).fresh (by decide)
  exact absurd hfresh (by decide)

end KaduoxSsh.Desktop
