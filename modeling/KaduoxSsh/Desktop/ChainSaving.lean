import KaduoxSsh.Desktop.HostSaving

/-!
# What saving a chain changes

A chain that is saved has the hops that were asked for, and those that it had before are what
they were. When it gets another name, the hosts that were bound to it are bound to it still, and
no other host or chain is touched.

The file is left as it was when there is an error, unless the error comes when the new file is in
place already.
-/

namespace KaduoxSsh.Desktop

open Hosts Text SortedMap List
open Sessions (trimmed)

section

variable [Unicode] {store updated : HostStore} {request : JumpChainSaveRequest}
  {database saved : HostDatabase}

/-! ## Hops -/

omit [Unicode] in
/-- In a valid library a hop is shown with its own name. -/
theorem hopAlias_eq (hkeys : ∀ k host, store.database.hosts.get? k = some host →
    host.hostAlias = k) (hop : JumpHop) : hopAlias store hop = hop.displayName := by
  cases hop with
  | host hostAlias =>
      rw [hopAlias]
      cases hget : store.database.hosts.get? hostAlias with
      | none => rfl
      | some host => exact hkeys _ _ hget
  | openSshAlias hostAlias => rfl
  | inline jump => rfl

/-- The hops that the chain of a request had. -/
def formerHops (database : HostDatabase) (request : JumpChainSaveRequest) : List JumpHop :=
  (request.original.bind database.chains.get?).elim [] JumpChain.hops

/-- What becomes of an alias that is asked for: the hop that the chain had under it, or a host of
the library. -/
structure HopFor (database saved : HostDatabase) (request : JumpChainSaveRequest)
    (hostAlias : String) (hop : JumpHop) : Prop where
  name : hop.displayName = trimmed hostAlias
  kept : ∀ old ∈ formerHops database request, old.displayName = trimmed hostAlias → hop = old
  new : (∀ old ∈ formerHops database request, old.displayName ≠ trimmed hostAlias) →
    hop = .host (trimmed hostAlias) ∧ ∃ host, saved.hosts.get? (trimmed hostAlias) = some host

/-- The hop for an alias. -/
def hopFor (store : HostStore) (request : JumpChainSaveRequest) (hostAlias : String) : JumpHop :=
  ((formerHops store.database request).find? fun old ↦
    hopAlias store old = trimmed hostAlias).getD (.host (trimmed hostAlias))

omit [Unicode] in
theorem chainHops_eq : request.chainHops store = request.hops.map (hopFor store request) := by
  refine map_congr_left fun hop _ ↦ ?_
  rw [hopFor, formerHops]
  cases request.original.bind store.database.chains.get? with
  | none => rfl
  | some chain => rfl

/-- What is to hold of a library in which the chain of a request has been saved. -/
structure ChainSaved (database : HostDatabase) (request : JumpChainSaveRequest)
    (saved : HostDatabase) : Prop where
  chain : ∃ chain, saved.chains.get? request.newName = some chain ∧
    List.Forall₂ (HopFor database saved request) request.hops chain.hops
  chains : ∀ k, k ≠ request.newName → request.oldName ≠ some k →
    saved.chains.get? k = database.chains.get? k
  renamed : ∀ old, request.oldName = some old → saved.chains.get? old = none
  hosts : ∀ k, saved.hosts.get? k = (database.hosts.get? k).map fun host ↦
    if request.oldName.isSome ∧ host.jumpChain = request.oldName then
      { host with jumpChain := some request.newName } else host
  folders : saved.folders = database.folders ∧ saved.jumpFolders = database.jumpFolders
  version : saved.version = database.version
  valid : saved.validate = .ok ()

/-! ## Binding -/

/-- The host with its chain under another name. -/
def rebound (name : String) (host : HostRecord) : HostRecord := { host with jumpChain := some name }

/-- Each host lies under its alias. -/
def Keyed (store : HostStore) : Prop :=
  ∀ k host, store.database.hosts.get? k = some host → host.hostAlias = k

omit [Unicode] in
theorem Keyed.rebound (h : Keyed store) (name : String) (host : HostRecord) :
    Keyed (store.setHosts (store.database.hosts.insert host.hostAlias (rebound name host))) := by
  intro k other hget
  change (store.database.hosts.insert _ _).get? k = some other at hget
  rw [get?_insert] at hget
  split at hget
  · next hk =>
    obtain rfl := Option.some.inj hget
    exact hk.symm
  · exact h k other hget

/-- Hosts that are bound to a chain one after the other are changed, and nothing else. -/
theorem rebind_eq_ok {name : String} {bound : List HostRecord} (hkeyed : Keyed store)
    (hget : ∀ host ∈ bound, store.database.hosts.get? host.hostAlias = some host)
    (hnodup : (bound.map HostRecord.hostAlias).Nodup)
    (h : rebind name store bound = .ok updated) :
    updated = store.setHosts updated.database.hosts ∧
      ∀ k, updated.database.hosts.get? k = (store.database.hosts.get? k).map fun host ↦
        if host ∈ bound then rebound name host else host := by
  induction bound generalizing store with
  | nil =>
      obtain rfl := Except.ok.inj h
      refine ⟨rfl, fun k ↦ ?_⟩
      simp
  | cons host bound ih =>
      rw [rebind, foldlM_cons] at h
      obtain ⟨middle, hmiddle, hrest⟩ := Result.bind_eq_ok.mp h
      obtain ⟨-, rfl⟩ := behind_upsertHost.mp hmiddle
      obtain ⟨hfresh, hnodup⟩ := nodup_cons.mp hnodup
      have hmiddleGet : ∀ k, (store.setHosts (store.database.hosts.insert host.hostAlias
          (rebound name host))).database.hosts.get? k =
            if k = host.hostAlias then some (rebound name host)
            else store.database.hosts.get? k := fun k ↦ get?_insert _ _ _ _
      have hbehind : ∀ other ∈ bound, other.hostAlias ≠ host.hostAlias :=
        fun other hmem heq ↦ hfresh (heq ▸ mem_map_of_mem hmem)
      obtain ⟨hsame, hgets⟩ := ih (hkeyed.rebound name host) (fun other hmem ↦ by
        rw [hmiddleGet, if_neg (hbehind other hmem)]
        exact hget other (mem_cons_of_mem host hmem)) hnodup hrest
      refine ⟨hsame, fun k ↦ ?_⟩
      rw [hgets, hmiddleGet]
      split
      · next hk =>
        have hout : rebound name host ∉ bound := fun hmem ↦ hbehind _ hmem rfl
        rw [hk, hget host mem_cons_self, Option.map_some, Option.map_some, if_neg hout,
          if_pos mem_cons_self]
      · next hk =>
        refine Option.map_congr fun other hother ↦ ?_
        have hne : other ≠ host := by
          rintro rfl
          exact hk (hkeyed k other hother).symm
        exact if_congr (mem_cons.trans (or_iff_right hne)).symm rfl rfl

/-! ## Chains -/

theorem updateChain_eq_ok (h : updateChain store request = .ok updated) :
    (request.oldName.isSome = true → store.database.chains.contains request.newName = false) ∧
      match request.oldName with
      | some old => ∃ middle bound,
          behind (store.upsertChain ⟨request.newName, request.chainHops store⟩) = .ok middle ∧
          rebind request.newName middle
            (middle.database.hosts.values.filter fun host ↦ host.jumpChain = some old) = .ok bound ∧
          behind (bound.removeChain old) = .ok updated
      | none =>
          behind (store.upsertChain ⟨request.newName, request.chainHops store⟩) = .ok updated := by
  rw [updateChain] at h
  dsimp only at h
  iterate 6 rw [Result.check_bind_eq_ok] at h
  obtain ⟨-, -, -, -, hfree, -, h⟩ := h
  refine ⟨fun hold ↦ Bool.not_eq_true _ ▸ fun hpresent ↦
    Result.bailIf_eq_ok.mp hfree ⟨hold, hpresent⟩, ?_⟩
  cases hold : request.oldName with
  | none =>
      rw [hold] at h
      exact h
  | some old =>
      rw [hold] at h
      obtain ⟨middle, hmiddle, h⟩ := Result.bind_eq_ok.mp h
      obtain ⟨bound, hbound, hremove⟩ := Result.bind_eq_ok.mp h
      exact ⟨middle, bound, hmiddle, hbound, hremove⟩

omit [Unicode] in
theorem ne_of_oldChain {old : String} (h : request.oldName = some old) : old ≠ request.newName := by
  rw [JumpChainSaveRequest.oldName, Option.filter_eq_some_iff] at h
  exact of_decide_eq_true h.2

/-- The hop that is found for an alias is the one the chain had under it. -/
theorem hopFor_spec (hvalid : store.database.Valid) (hsaved : saved.Valid) {chain : JumpChain}
    {k hostAlias : String} (hchain : saved.chains.get? k = some chain)
    (hmem : hopFor store request hostAlias ∈ chain.hops) :
    HopFor store.database saved request hostAlias (hopFor store request hostAlias) := by
  have halias : ∀ hop, hopAlias store hop = hop.displayName := hopAlias_eq hvalid.hostKey
  have hnodup : ((formerHops store.database request).map JumpHop.displayName).Nodup := by
    rw [formerHops]
    cases hformer : request.original.bind store.database.chains.get? with
    | none => exact nodup_nil
    | some former =>
        obtain ⟨name, -, hget⟩ := Option.bind_eq_some_iff.mp hformer
        exact (JumpChain.validate_eq_ok.mp (hvalid.chainRecord name former hget)).2.2.2.2
  rw [hopFor] at hmem ⊢
  cases hfind : (formerHops store.database request).find? fun old ↦
      hopAlias store old = trimmed hostAlias with
  | some hop =>
      have hshown := List.find?_some hfind
      have hname : hop.displayName = trimmed hostAlias :=
        (halias hop).symm.trans (of_decide_eq_true hshown)
      have hformer := mem_of_find?_eq_some hfind
      refine ⟨hname, fun old hold heq ↦ ?_, fun hnone ↦ absurd hname (hnone hop hformer)⟩
      exact inj_on_of_nodup_map hnodup hformer hold (hname.trans heq.symm)
  | none =>
      have hnone : ∀ old ∈ formerHops store.database request,
          old.displayName ≠ trimmed hostAlias := by
        intro old hold
        rw [← halias old]
        exact fun heq ↦ List.find?_eq_none.mp hfind old hold (decide_eq_true heq)
      rw [hfind] at hmem
      refine ⟨rfl, fun old hold heq ↦ absurd heq (hnone old hold), fun _ ↦ ⟨rfl, ?_⟩⟩
      obtain ⟨host, hget, -⟩ := hsaved.hopHost k chain _ hchain hmem
      exact ⟨host, hget⟩

/-- The hosts that are bound to a chain lie under their aliases, which are different. -/
theorem bound_get? (hvalid : store.database.Valid) {old : String} {host : HostRecord}
    (hmem : host ∈ store.database.hosts.values.filter fun host ↦ host.jumpChain = some old) :
    store.database.hosts.get? host.hostAlias = some host := by
  obtain ⟨k, hget⟩ := mem_values.mp (mem_of_mem_filter hmem)
  rw [hvalid.hostKey k host hget]
  exact hget

theorem bound_nodup (hvalid : store.database.Valid) (old : String) :
    ((store.database.hosts.values.filter fun host ↦ host.jumpChain = some old).map
      HostRecord.hostAlias).Nodup := by
  have hall : (store.database.hosts.values.map HostRecord.hostAlias).Nodup := by
    rw [map_key_values hvalid.hostKey]
    exact keys_nodup _
  exact hall.sublist (filter_sublist.map _)

/-- The hops of the saved chain, in the order that was asked for. -/
theorem hops_saved (hvalid : store.database.Valid) (hsaved : saved.Valid)
    (hchain : saved.chains.get? request.newName =
      some ⟨request.newName, request.chainHops store⟩) :
    List.Forall₂ (HopFor store.database saved request) request.hops (request.chainHops store) := by
  rw [chainHops_eq, forall₂_map_right_iff, forall₂_same]
  intro hop hmem
  refine hopFor_spec hvalid hsaved hchain ?_
  rw [chainHops_eq]
  exact mem_map_of_mem hmem

/-- All of it holds of an update whose outcome passes the checks. -/
theorem chainSaved_of_update (hvalid : store.database.Valid)
    (h : updateChain store request = .ok updated) (hsaved : updated.database.validate = .ok ()) :
    ChainSaved store.database request updated.database := by
  have hsavedValid := HostDatabase.validate_eq_ok.mp hsaved
  obtain ⟨-, h⟩ := updateChain_eq_ok h
  cases hold : request.oldName with
  | none =>
      rw [hold] at h
      obtain ⟨-, rfl⟩ := behind_upsertChain.mp h
      have hget := store.database.chains.get?_insert_self request.newName
        ⟨request.newName, request.chainHops store⟩
      refine ⟨⟨_, hget, hops_saved hvalid hsavedValid hget⟩, fun k hk _ ↦ ?_, ?_, fun k ↦ ?_,
        ⟨rfl, rfl⟩, rfl, hsaved⟩
      · exact get?_insert_of_ne _ _ hk
      · intro old hsome
        rw [hold] at hsome
        cases hsome
      · rw [hold]
        simp
        rfl
  | some old =>
      rw [hold] at h
      obtain ⟨middle, bound, hmiddle, hbound, hremove⟩ := h
      obtain ⟨hmiddleValid, rfl⟩ := behind_upsertChain.mp hmiddle
      obtain ⟨hsame, hhosts⟩ := rebind_eq_ok hmiddleValid.hostKey
        (fun host ↦ bound_get? hmiddleValid) (bound_nodup hmiddleValid old) hbound
      obtain rfl := behind_removeChain hremove
      rw [hsame] at hsavedValid hsaved ⊢
      have hne := ne_of_oldChain hold
      have hchains : ∀ k, k ≠ old →
          ((store.database.chains.insert request.newName
            ⟨request.newName, request.chainHops store⟩).erase old).get? k =
          (store.database.chains.insert request.newName
            ⟨request.newName, request.chainHops store⟩).get? k :=
        fun k hk ↦ (get?_erase ..).trans (if_neg hk)
      have hget := (hchains request.newName hne.symm).trans
        (store.database.chains.get?_insert_self request.newName
          ⟨request.newName, request.chainHops store⟩)
      refine ⟨⟨_, hget, hops_saved hvalid hsavedValid hget⟩, fun k hk hkold ↦ ?_, ?_, fun k ↦ ?_,
        ⟨rfl, rfl⟩, rfl, hsaved⟩
      · have hkne : k ≠ old := fun heq ↦ hkold (heq ▸ hold)
        exact (hchains k hkne).trans (get?_insert_of_ne _ _ hk)
      · intro other hother
        obtain rfl := Option.some.inj (hold.symm.trans hother)
        exact (get?_erase ..).trans (if_pos rfl)
      · refine (hhosts k).trans (Option.map_congr fun host hhost ↦ ?_)
        have hmem : host ∈ store.database.hosts.values := mem_values.mpr ⟨k, hhost⟩
        refine if_congr (mem_filter.trans ?_) rfl rfl
        rw [hold]
        exact ⟨fun h ↦ ⟨rfl, of_decide_eq_true h.2⟩, fun h ↦ ⟨hmem, decide_eq_true h.2⟩⟩

/-! ## Saving -/

/-- Saving a chain changes what it should, and leaves the file as it was on an error. -/
structure SavesChain (w : HostSurroundings) (store : HostStore)
    (request : JumpChainSaveRequest) : Prop where
  persisted : ∀ saved, (saveChainInner w store request).2 = some saved →
    ChainSaved store.database request saved
  unchanged : ∀ e, (saveChainInner w store request).1 = .error e →
    (saveChainInner w store request).2 = none

theorem chainSaved_of_encoded (hvalid : store.database.Valid)
    (h : updateChain store request = .ok updated) {text : String}
    (hencoded : updated.encoded = .ok text) :
    ChainSaved store.database request updated.database := by
  rw [HostStore.encoded, Result.check_bind_eq_ok] at hencoded
  exact chainSaved_of_update hvalid h hencoded.1

/-- A saved chain is what it should be. When there is an error and the file is another one, the
error comes from behind the renaming that put the new file in place. -/
theorem saveChain_sound (w : HostSurroundings) (store : HostStore) (request : JumpChainSaveRequest)
    (hvalid : store.database.Valid) :
    (∀ saved, (saveChainInner w store request).2 = some saved →
      ChainSaved store.database request saved) ∧
    ∀ e, (saveChainInner w store request).1 = .error e →
      (saveChainInner w store request).2 = none ∨
        w.writing = .failedAfterRename ∧ e = w.writeError := by
  refine ⟨fun saved hsaved ↦ ?_, fun e herror ↦ ?_⟩
  · obtain ⟨updated, hupdate, ⟨text, htext⟩, rfl⟩ := persisted_saving hsaved
    exact chainSaved_of_encoded hvalid hupdate htext
  · rw [saveChainInner] at herror ⊢
    cases hupdate : updateChain store request with
    | error _ => exact .inl rfl
    | ok updated =>
        cases hencoded : updated.encoded with
        | error _ =>
            rw [saving, save, hencoded]
            exact .inl rfl
        | ok text =>
            obtain ⟨chain, hget, -⟩ := (chainSaved_of_encoded hvalid hupdate hencoded).chain
            rw [hupdate, saving, save, hencoded] at herror
            rw [saving, save, hencoded]
            cases hwriting : w.writing with
            | failed => exact .inl rfl
            | failedAfterRename =>
                rw [hwriting] at herror
                exact .inr ⟨rfl, (Except.error.inj herror).symm⟩
            | written =>
                rw [hwriting] at herror
                dsimp only [Except.bind] at herror
                rw [hget] at herror
                cases herror

end

/-- A library with a host behind a chain. -/
def routedStore : HostStore :=
  (sampleStore.setHosts (sampleStore.database.hosts.insert "db"
    { HostRecord.new "db" "10.0.0.8" "deploy" with jumpChain := some "edge" })).setChains
      (empty.insert "edge" ⟨"edge", [.host "web"]⟩)

/-- The chain gets another name, and another hop. -/
def renamedEdge : JumpChainSaveRequest where
  originalName := some "edge"
  name := "dmz "
  hops := ["web"]

/-- The library with the chain under its new name. -/
def renamedStore : HostStore :=
  (sampleStore.setHosts (sampleStore.database.hosts.insert "db"
    { HostRecord.new "db" "10.0.0.8" "deploy" with jumpChain := some "dmz" })).setChains
      (empty.insert "dmz" ⟨"dmz", [.host "web"]⟩)

theorem updateChain_renamed : @updateChain asciiLetters routedStore renamedEdge =
    .ok renamedStore := by
  decide

theorem storable_renamed : @Storable asciiLetters renamedStore.database :=
  @Storable.mk asciiLetters _ (by decide) ⟨by decide, by decide⟩
    (by unfold HasReadableNotes; decide +kernel) (by decide +kernel)

theorem routedStore_valid : @HostDatabase.Valid asciiLetters routedStore.database :=
  (@HostDatabase.validate_eq_ok asciiLetters _).mp (by decide)

theorem saveChain_sound_renamed :
    (@saveChainInner asciiLetters quietSurroundings routedStore renamedEdge).2 =
        some renamedStore.database ∧
      @ChainSaved asciiLetters routedStore.database renamedEdge renamedStore.database := by
  let _ : Unicode := asciiLetters
  have hsaved : (saveChainInner quietSurroundings routedStore renamedEdge).2 =
      some renamedStore.database := by
    rw [saveChainInner, updateChain_renamed]
    exact persisted_written rfl (storable_renamed.encoded_eq _)
  exact ⟨hsaved, (saveChain_sound _ _ _ routedStore_valid).1 _ hsaved⟩

/-- With an error from behind the renaming the chain is in the file. -/
theorem error_after_rename : ¬∀ (_ : Unicode) (w : HostSurroundings) (store : HostStore)
    (request : JumpChainSaveRequest), store.database.Valid → SavesChain w store request := by
  intro h
  let _ : Unicode := asciiLetters
  have hsave : saveChainInner { quietSurroundings with writing := .failedAfterRename } routedStore
      renamedEdge = (.error ⟨[]⟩, some renamedStore.database) := by
    rw [saveChainInner, updateChain_renamed]
    exact saving_afterRename rfl (storable_renamed.encoded_eq _)
  have hnone := (h _ _ _ _ routedStore_valid).unchanged _ (congrArg Prod.fst hsave)
  rw [hsave] at hnone
  cases hnone

end KaduoxSsh.Desktop
