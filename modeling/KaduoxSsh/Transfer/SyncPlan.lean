import Mathlib.Data.Prod.Lex
import KaduoxSsh.Lib.SortedMap
import KaduoxSsh.Transfer.Options
import KaduoxSsh.Transfer.RemotePath

/-!
# The push plan

`build_push_plan` of `sync.rs`: two passes over two snapshots gather four lists
of actions, which are sorted (deletions of directories from the deepest up,
creations from the shallowest down) and put one after the other.

The second half says what the four lists hold.  The two passes push onto
accumulators; `collect_eq_ok` turns them into four `filterMap`s over the
snapshots' entries, and the `mem_` lemmas read those as conditions on the two
snapshots at a path.
-/

namespace KaduoxSsh.Transfer

open Text Result List SortedMap

inductive EntryKind where
  | file
  | directory
  | other
deriving DecidableEq, Repr

structure SnapshotEntry where
  kind : EntryKind
  len : Nat
  mtime : Option Nat
deriving DecidableEq, Repr

/-- A scanned tree: relative path to entry. -/
abbrev Snapshot := SortedMap String SnapshotEntry

inductive SyncActionKind where
  | deleteRemoteFile
  | deleteRemoteDirectory
  | createRemoteDirectory
  | uploadFile
deriving DecidableEq, Repr

structure SyncAction where
  kind : SyncActionKind
  /-- Relative to the synchronization root. -/
  path : String
  bytes : Nat
deriving DecidableEq, Repr

structure SyncPlan where
  actions : List SyncAction
  bytesToUpload : Nat
  filesToUpload : Nat
  entriesToDelete : Nat
  directoriesToCreate : Nat
deriving DecidableEq, Repr

/-- `u32::abs_diff`. -/
def absDiff (a b : Nat) : Nat := if a < b then b - a else a - b

/-- `files_match`. -/
def filesMatch (localEntry remoteEntry : SnapshotEntry) (sizeOnly : Bool) : Bool :=
  if localEntry.len ≠ remoteEntry.len then false
  else if sizeOnly then true
  else match localEntry.mtime, remoteEntry.mtime with
    | some l, some r => absDiff l r ≤ 1
    | _, _ => false

/-- All that is compared of a remote file is its size and its time. -/
theorem filesMatch_congr {l r r' : SnapshotEntry} (hlen : r.len = r'.len)
    (hmtime : r.mtime = r'.mtime) (sizeOnly : Bool) :
    filesMatch l r sizeOnly = filesMatch l r' sizeOnly := by
  rw [filesMatch, filesMatch, hlen, hmtime]

theorem mtime_of_filesMatch {l r : SnapshotEntry} {sizeOnly : Bool}
    (h : filesMatch l r sizeOnly = true) : sizeOnly = true ∨ l.mtime ≠ none := by
  cases sizeOnly with
  | true => exact .inl rfl
  | false =>
      refine .inr fun hnone ↦ ?_
      simp [filesMatch, hnone] at h

/-! ## The two passes -/

/-- The four vectors the passes push onto. -/
structure PlanLists where
  deleteFiles : List SyncAction
  deleteDirectories : List SyncAction
  createDirectories : List SyncAction
  uploads : List SyncAction
deriving DecidableEq

namespace PlanLists

def empty : PlanLists := ⟨[], [], [], []⟩

/-- The deletion of what a remote path holds. -/
def pushDelete (acc : PlanLists) (kind : EntryKind) (path : String) : PlanLists :=
  match kind with
  | .directory => { acc with
      deleteDirectories := acc.deleteDirectories ++ [⟨.deleteRemoteDirectory, path, 0⟩] }
  | .file | .other => { acc with
      deleteFiles := acc.deleteFiles ++ [⟨.deleteRemoteFile, path, 0⟩] }

/-- The creation of what a local path holds. -/
def pushCreate (acc : PlanLists) (kind : EntryKind) (path : String) (len : Nat) : PlanLists :=
  match kind with
  | .directory => { acc with
      createDirectories := acc.createDirectories ++ [⟨.createRemoteDirectory, path, 0⟩] }
  | .file => { acc with uploads := acc.uploads ++ [⟨.uploadFile, path, len⟩] }
  | .other => acc

end PlanLists

/-- The body of the pass over the local snapshot. -/
def planLocalEntry (remote : Snapshot) (options : SyncOptions) (acc : PlanLists)
    (entry : String × SnapshotEntry) : Result PlanLists :=
  match remote.get? entry.1 with
  | none => .ok (acc.pushCreate entry.2.kind entry.1 entry.2.len)
  | some remoteEntry =>
      if remoteEntry.kind = entry.2.kind then
        if entry.2.kind = .file ∧ filesMatch entry.2 remoteEntry options.sizeOnly = false then
          .ok { acc with uploads := acc.uploads ++ [⟨.uploadFile, entry.1, entry.2.len⟩] }
        else .ok acc
      else if options.delete = false then
        bail
          s!"sync type conflict at {entry.1}; rerun with --delete to permit replacement"
      else .ok ((acc.pushDelete remoteEntry.kind entry.1).pushCreate
        entry.2.kind entry.1 entry.2.len)

/-- The body of the pass over the remote snapshot. -/
def planRemoteEntry (localSnapshot : Snapshot) (acc : PlanLists)
    (entry : String × SnapshotEntry) : PlanLists :=
  if localSnapshot.contains entry.1 then acc
  else acc.pushDelete entry.2.kind entry.1

/-- Both passes; the second one only when deleting is allowed. -/
def collectLists (localSnapshot remote : Snapshot) (options : SyncOptions) :
    Result PlanLists := do
  let acc ← localSnapshot.entries.foldlM (planLocalEntry remote options) PlanLists.empty
  return if options.delete then
    remote.entries.foldl (planRemoteEntry localSnapshot) acc
  else acc

/-! ## Sorting and counting -/

/-- The order of deletions and creations of directories: by depth, then by path. -/
def depthKey (a : SyncAction) : ℕ ×ₗ String := toLex (pathDepth a.path, a.path)

def sortByPath : List SyncAction → List SyncAction :=
  List.insertionSort fun left right ↦ left.path ≤ right.path

def sortDeepestFirst : List SyncAction → List SyncAction :=
  List.insertionSort fun left right ↦ depthKey right ≤ depthKey left

def sortShallowestFirst : List SyncAction → List SyncAction :=
  List.insertionSort fun left right ↦ depthKey left ≤ depthKey right

/-- `checked_add` on 64-bit counters. -/
def checkedAdd (a b : Nat) : Option Nat := if a + b < 2 ^ 64 then some (a + b) else none

/-- `build_push_plan`. -/
def buildPushPlan (localSnapshot remote : Snapshot) (options : SyncOptions) :
    Result SyncPlan := do
  let lists ← collectLists localSnapshot remote options
  let deleteFiles := sortByPath lists.deleteFiles
  let deleteDirectories := sortDeepestFirst lists.deleteDirectories
  let createDirectories := sortShallowestFirst lists.createDirectories
  let uploads := sortByPath lists.uploads
  let deleteCount ← ofOption "sync delete action count overflow"
    (checkedAdd deleteFiles.length deleteDirectories.length)
  let bytesToUpload ← uploads.foldlM
    (fun total action ↦ ofOption "sync upload byte counter overflow"
      (checkedAdd total action.bytes)) 0
  let _ ← ofOption "sync total action count overflow"
    ((checkedAdd deleteCount createDirectories.length).bind fun total ↦
      checkedAdd total uploads.length)
  return {
    actions := deleteFiles ++ deleteDirectories ++ createDirectories ++ uploads
    bytesToUpload := bytesToUpload
    filesToUpload := uploads.length
    entriesToDelete := deleteCount
    directoriesToCreate := createDirectories.length }

/-! ## What the passes collect

Each list is a `filterMap` over the entries of one snapshot, one optional action
for an entry. -/

def EntryKind.isDirectory : EntryKind → Bool
  | .directory => true
  | .file | .other => false

/-- The action that removes an object of a kind. -/
def deletion (kind : EntryKind) (path : String) : SyncAction :=
  if kind.isDirectory then ⟨.deleteRemoteDirectory, path, 0⟩ else ⟨.deleteRemoteFile, path, 0⟩

section Contributions

variable (remote : Snapshot) (options : SyncOptions) (entry : String × SnapshotEntry)

/-- The remote object at an entry's path is of another kind. -/
def Conflicts : Prop := ∃ r, remote.get? entry.1 = some r ∧ r.kind ≠ entry.2.kind

/-- The removal of the object at an entry's path that is in the way, if its kind is wanted. -/
def localDelete (wanted : EntryKind → Bool) : Option SyncAction :=
  match remote.get? entry.1 with
  | some r => if r.kind ≠ entry.2.kind ∧ wanted r.kind = true then
      some (deletion r.kind entry.1) else none
  | none => none

def localCreateDirectory : Option SyncAction :=
  if entry.2.kind = .directory ∧ ∀ r, remote.get? entry.1 = some r → r.kind ≠ .directory then
    some ⟨.createRemoteDirectory, entry.1, 0⟩ else none

def localUpload : Option SyncAction :=
  if entry.2.kind = .file ∧ ∀ r, remote.get? entry.1 = some r →
      r.kind = .file → filesMatch entry.2 r options.sizeOnly = false then
    some ⟨.uploadFile, entry.1, entry.2.len⟩ else none

/-- The removal of a remote entry that is not there locally, if its kind is wanted. -/
def remoteDelete (wanted : EntryKind → Bool) (localSnapshot : Snapshot) : Option SyncAction :=
  if localSnapshot.get? entry.1 = none ∧ wanted entry.2.kind = true then
    some (deletion entry.2.kind entry.1) else none

end Contributions

section Passes

variable {localSnapshot remote : Snapshot} {options : SyncOptions} {a : SyncAction}

/-- One step of the local pass pushes what the entry contributes, unless it is a
conflict that may not be resolved. -/
theorem planLocalEntry_eq {entry : String × SnapshotEntry}
    (h : Conflicts remote entry → options.delete = true) (acc : PlanLists) :
    planLocalEntry remote options acc entry = .ok
      { deleteFiles := acc.deleteFiles ++ (localDelete remote entry fun k ↦ !k.isDirectory).toList
        deleteDirectories :=
          acc.deleteDirectories ++ (localDelete remote entry EntryKind.isDirectory).toList
        createDirectories :=
          acc.createDirectories ++ (localCreateDirectory remote entry).toList
        uploads := acc.uploads ++ (localUpload remote options entry).toList } := by
  obtain ⟨path, e⟩ := entry
  cases hr : remote.get? path with
  | none =>
      simp only [planLocalEntry, hr, localDelete]
      cases hk : e.kind <;>
        simp [PlanLists.pushCreate, localCreateDirectory, localUpload, hr, hk]
  | some r =>
      by_cases hsame : r.kind = e.kind
      · by_cases hup : e.kind = .file ∧ filesMatch e r options.sizeOnly = false
        · simp [planLocalEntry, hr, localDelete, EntryKind.isDirectory, hsame, hup,
            localCreateDirectory, localUpload]
        · have hup' : ¬(e.kind = .file ∧ (e.kind = .file →
              filesMatch e r options.sizeOnly = false)) := fun hc ↦ hup ⟨hc.1, hc.2 hc.1⟩
          simp [planLocalEntry, hr, localDelete, EntryKind.isDirectory, hsame, hup, hup',
            localCreateDirectory, localUpload]
      · have hdel : options.delete = true := h ⟨r, hr, hsame⟩
        cases hk : e.kind <;> cases hrk : r.kind <;>
          simp_all [planLocalEntry, localDelete, deletion, EntryKind.isDirectory, localCreateDirectory,
            localUpload, PlanLists.pushDelete, PlanLists.pushCreate]

/-- The local pass, as four `filterMap`s. -/
theorem foldlM_planLocalEntry {entries : List (String × SnapshotEntry)}
    (h : ∀ e ∈ entries, Conflicts remote e → options.delete = true) (acc : PlanLists) :
    entries.foldlM (planLocalEntry remote options) acc = .ok
      { deleteFiles := acc.deleteFiles ++ entries.filterMap (localDelete remote · fun k ↦ !k.isDirectory)
        deleteDirectories :=
          acc.deleteDirectories ++ entries.filterMap (localDelete remote · EntryKind.isDirectory)
        createDirectories :=
          acc.createDirectories ++ entries.filterMap (localCreateDirectory remote)
        uploads := acc.uploads ++ entries.filterMap (localUpload remote options) } := by
  induction entries generalizing acc with
  | nil => simp
  | cons e rest ih =>
      rw [foldlM_cons, planLocalEntry_eq (h e mem_cons_self), bind_ok,
        ih fun x hx ↦ h x (mem_cons_of_mem e hx)]
      simp only [filterMap_eq_flatMap_toList, flatMap_cons, append_assoc]

/-- A conflict that may not be resolved stops the local pass. -/
theorem foldlM_planLocalEntry_conflict {entries : List (String × SnapshotEntry)}
    (hdel : options.delete = false) {e : String × SnapshotEntry} (he : e ∈ entries)
    (hc : Conflicts remote e) (acc : PlanLists) :
    ∃ err, entries.foldlM (planLocalEntry remote options) acc = .error err := by
  induction entries generalizing acc with
  | nil => simp at he
  | cons x rest ih =>
      rw [foldlM_cons]
      cases hx : planLocalEntry remote options acc x with
      | error err => exact ⟨err, rfl⟩
      | ok acc' =>
          rcases mem_cons.mp he with rfl | he
          · obtain ⟨r, hr, hne⟩ := hc
            simp [planLocalEntry, hr, hne, hdel, bail] at hx
          · exact ih he acc'

/-- The remote pass, as two `filterMap`s. -/
theorem foldl_planRemoteEntry (entries : List (String × SnapshotEntry)) (acc : PlanLists) :
    entries.foldl (planRemoteEntry localSnapshot) acc =
      { acc with
        deleteFiles := acc.deleteFiles ++
          entries.filterMap (remoteDelete · (fun k ↦ !k.isDirectory) localSnapshot)
        deleteDirectories := acc.deleteDirectories ++
          entries.filterMap (remoteDelete · EntryKind.isDirectory localSnapshot) } := by
  induction entries generalizing acc with
  | nil => simp
  | cons e rest ih =>
      have hstep : planRemoteEntry localSnapshot acc e =
          { acc with
            deleteFiles := acc.deleteFiles ++ (remoteDelete e (fun k ↦ !k.isDirectory) localSnapshot).toList
            deleteDirectories :=
              acc.deleteDirectories ++ (remoteDelete e EntryKind.isDirectory localSnapshot).toList } := by
        cases hl : localSnapshot.get? e.1 with
        | some l =>
            have hcon : localSnapshot.contains e.1 = true := contains_iff.mpr ⟨l, hl⟩
            simp [planRemoteEntry, hcon, remoteDelete, EntryKind.isDirectory, hl]
        | none =>
            have hcon := contains_eq_false_iff.mpr hl
            cases hk : e.2.kind <;>
              simp [planRemoteEntry, hcon, remoteDelete, deletion, EntryKind.isDirectory, hl, hk,
                PlanLists.pushDelete]
      rw [foldl_cons, hstep, ih]
      simp only [filterMap_eq_flatMap_toList, flatMap_cons, append_assoc]

/-- What the two passes collect. -/
def collected (localSnapshot remote : Snapshot) (options : SyncOptions) : PlanLists where
  deleteFiles := localSnapshot.entries.filterMap (localDelete remote · fun k ↦ !k.isDirectory) ++
    if options.delete then remote.entries.filterMap (remoteDelete · (fun k ↦ !k.isDirectory) localSnapshot) else []
  deleteDirectories := localSnapshot.entries.filterMap (localDelete remote · EntryKind.isDirectory) ++
    if options.delete then remote.entries.filterMap (remoteDelete · EntryKind.isDirectory localSnapshot)
    else []
  createDirectories := localSnapshot.entries.filterMap (localCreateDirectory remote)
  uploads := localSnapshot.entries.filterMap (localUpload remote options)

/-- No conflict stands in the way of planning. -/
def Resolvable (localSnapshot remote : Snapshot) (options : SyncOptions) : Prop :=
  ∀ p l r, localSnapshot.get? p = some l → remote.get? p = some r → r.kind ≠ l.kind →
    options.delete = true

theorem collectLists_eq (h : Resolvable localSnapshot remote options) :
    collectLists localSnapshot remote options =
      .ok (collected localSnapshot remote options) := by
  have h' : ∀ e ∈ localSnapshot.entries, Conflicts remote e → options.delete = true := by
    rintro ⟨p, l⟩ he ⟨r, hr, hne⟩
    exact h p l r (get?_eq_some_iff.mpr he) hr hne
  rw [collectLists, foldlM_planLocalEntry h', bind_ok]
  by_cases hd : options.delete = true
  · simp [hd, foldl_planRemoteEntry, collected, PlanLists.empty]
  · simp [hd, collected, PlanLists.empty]

/-- Planning fails on a conflict when deleting is not allowed. -/
theorem collectLists_conflict (h : ¬Resolvable localSnapshot remote options) :
    ∃ err, collectLists localSnapshot remote options = .error err := by
  simp only [Resolvable, not_forall] at h
  obtain ⟨p, l, r, hl, hr, hne, hd⟩ := h
  have hd' : options.delete = false := by simpa using hd
  obtain ⟨err, herr⟩ := foldlM_planLocalEntry_conflict hd'
    (get?_eq_some_iff.mp hl) ⟨r, hr, hne⟩ PlanLists.empty
  exact ⟨err, by rw [collectLists, herr, bind_error]⟩

/-! ## The lists, as conditions on the two snapshots -/

@[simp] theorem deletion_path (kind : EntryKind) (path : String) :
    (deletion kind path).path = path := by
  unfold deletion
  split <;> rfl

theorem deletion_kind_ne (kind : EntryKind) (path : String) :
    (deletion kind path).kind ≠ .uploadFile := by
  unfold deletion
  split <;> simp

/-- A removal is planned for exactly the remote entries of the wanted kinds whose
path is absent locally or of another kind there. -/
theorem mem_deletions {wanted : EntryKind → Bool} :
    a ∈ localSnapshot.entries.filterMap (localDelete remote · wanted) ++
        remote.entries.filterMap (remoteDelete · wanted localSnapshot) ↔
      ∃ r, remote.get? a.path = some r ∧ wanted r.kind = true ∧ a = deletion r.kind a.path ∧
        ∀ l, localSnapshot.get? a.path = some l → l.kind ≠ r.kind := by
  simp only [mem_append, mem_filterMap, Prod.exists, ← get?_eq_some_iff]
  constructor
  · rintro (⟨p, l, hl, ha⟩ | ⟨p, r, hr, ha⟩)
    · simp only [localDelete] at ha
      cases hr : remote.get? p with
      | none => simp [hr] at ha
      | some r =>
          simp only [hr, Option.ite_none_right_eq_some, Option.some.injEq] at ha
          obtain ⟨⟨hne, hw⟩, rfl⟩ := ha
          simp only [deletion_path]
          refine ⟨r, hr, hw, rfl, fun l' hl' ↦ ?_⟩
          rw [hl] at hl'
          exact Option.some.inj hl' ▸ Ne.symm hne
    · simp only [remoteDelete, Option.ite_none_right_eq_some, Option.some.injEq] at ha
      obtain ⟨⟨hl, hw⟩, rfl⟩ := ha
      simp only [deletion_path]
      exact ⟨r, hr, hw, rfl, fun l hl' ↦ by simp [hl] at hl'⟩
  · rintro ⟨r, hr, hw, ha, hl⟩
    cases hloc : localSnapshot.get? a.path with
    | none => exact Or.inr ⟨a.path, r, hr, by simp [remoteDelete, hloc, hw, ← ha]⟩
    | some l =>
        have hne := Ne.symm (hl l hloc)
        exact Or.inl ⟨a.path, l, hloc, by simp [localDelete, hr, hw, hne, ← ha]⟩

theorem mem_createDirectories :
    a ∈ (collected localSnapshot remote options).createDirectories ↔
      a = ⟨.createRemoteDirectory, a.path, 0⟩ ∧ ∃ l, localSnapshot.get? a.path = some l ∧
        l.kind = .directory ∧ ∀ r, remote.get? a.path = some r → r.kind ≠ .directory := by
  simp only [collected, mem_filterMap, Prod.exists, localCreateDirectory,
    Option.ite_none_right_eq_some, Option.some.injEq, ← get?_eq_some_iff]
  constructor
  · rintro ⟨p, l, hl, ⟨hdir, hr⟩, rfl⟩
    exact ⟨rfl, l, hl, hdir, hr⟩
  · rintro ⟨ha, l, hl, hdir, hr⟩
    exact ⟨a.path, l, hl, ⟨hdir, hr⟩, ha.symm⟩

theorem mem_uploads :
    a ∈ (collected localSnapshot remote options).uploads ↔
      ∃ l, localSnapshot.get? a.path = some l ∧ a = ⟨.uploadFile, a.path, l.len⟩ ∧
        l.kind = .file ∧ ∀ r, remote.get? a.path = some r → r.kind = .file →
          filesMatch l r options.sizeOnly = false := by
  simp only [collected, mem_filterMap, Prod.exists, localUpload,
    Option.ite_none_right_eq_some, Option.some.injEq, ← get?_eq_some_iff]
  constructor
  · rintro ⟨p, l, hl, ⟨hfile, hr⟩, rfl⟩
    exact ⟨l, hl, rfl, hfile, hr⟩
  · rintro ⟨l, hl, ha, hfile, hr⟩
    exact ⟨a.path, l, hl, ⟨hfile, hr⟩, ha.symm⟩

end Passes

/-! ## The plan as a whole -/

/-- The four lists in the order they are carried out. -/
def PlanLists.ordered (lists : PlanLists) : List SyncAction :=
  sortByPath lists.deleteFiles ++ sortDeepestFirst lists.deleteDirectories ++
    sortShallowestFirst lists.createDirectories ++ sortByPath lists.uploads

theorem mem_ordered {lists : PlanLists} {a : SyncAction} :
    a ∈ lists.ordered ↔ a ∈ lists.deleteFiles ∨ a ∈ lists.deleteDirectories ∨
      a ∈ lists.createDirectories ∨ a ∈ lists.uploads := by
  simp only [PlanLists.ordered, sortByPath, sortDeepestFirst, sortShallowestFirst,
    mem_append, mem_insertionSort, or_assoc]

/-- A plan is made only when every conflict may be resolved, and its actions are
the collected ones in their order. -/
theorem buildPushPlan_ok {localSnapshot remote : Snapshot} {options : SyncOptions}
    {plan : SyncPlan} (h : buildPushPlan localSnapshot remote options = .ok plan) :
    Resolvable localSnapshot remote options ∧
      plan.actions = (collected localSnapshot remote options).ordered := by
  have hres : Resolvable localSnapshot remote options := by
    by_contra hc
    obtain ⟨err, herr⟩ := collectLists_conflict hc
    rw [buildPushPlan, herr, bind_error] at h
    cases h
  refine ⟨hres, ?_⟩
  rw [buildPushPlan, collectLists_eq hres, bind_ok] at h
  obtain ⟨_, -, h⟩ := bind_eq_ok.mp h
  obtain ⟨_, -, h⟩ := bind_eq_ok.mp h
  obtain ⟨_, -, h⟩ := bind_eq_ok.mp h
  cases h
  rfl

/-- Nothing collected gives the plan without actions. -/
theorem buildPushPlan_empty {localSnapshot remote : Snapshot} {options : SyncOptions}
    (hres : Resolvable localSnapshot remote options)
    (h : collected localSnapshot remote options = .empty) :
    buildPushPlan localSnapshot remote options = .ok ⟨[], 0, 0, 0, 0⟩ := by
  rw [buildPushPlan, collectLists_eq hres, h]
  rfl

/-! ## The orders of the four lists -/

/-- Each list names a path at most once. -/
theorem filterMap_paths_sublist {entries : List (String × SnapshotEntry)}
    {f : String × SnapshotEntry → Option SyncAction}
    (hf : ∀ e a, f e = some a → a.path = e.1) :
    ((entries.filterMap f).map SyncAction.path).Sublist (entries.map Prod.fst) := by
  induction entries with
  | nil => simp
  | cons e rest ih =>
      cases he : f e with
      | none => rw [filterMap_cons_none he]; exact ih.cons _
      | some a =>
          rw [filterMap_cons_some he, map_cons, map_cons, hf e a he]
          exact ih.cons_cons _

theorem keys_nodup (s : Snapshot) : (s.entries.map Prod.fst).Nodup :=
  pairwise_map.mpr (s.sorted.imp ne_of_lt)

section Orders

variable {localSnapshot remote : Snapshot} {options : SyncOptions}

theorem localDelete_path {wanted : EntryKind → Bool} (e : String × SnapshotEntry)
    (a : SyncAction) (h : localDelete remote e wanted = some a) : a.path = e.1 := by
  unfold localDelete at h
  cases hr : remote.get? e.1 with
  | none => simp [hr] at h
  | some r =>
      simp only [hr, Option.ite_none_right_eq_some, Option.some.injEq] at h
      rw [← h.2, deletion_path]

theorem remoteDelete_path {wanted : EntryKind → Bool} (e : String × SnapshotEntry)
    (a : SyncAction) (h : remoteDelete e wanted localSnapshot = some a) : a.path = e.1 := by
  simp only [remoteDelete, Option.ite_none_right_eq_some, Option.some.injEq] at h
  rw [← h.2, deletion_path]

/-- The two passes never plan the removal of the same path: the first one looks at
paths that are there locally, the second one at paths that are not. -/
theorem deletions_nodup (wanted : EntryKind → Bool) :
    ((localSnapshot.entries.filterMap (localDelete remote · wanted) ++
      remote.entries.filterMap (remoteDelete · wanted localSnapshot)).map
        SyncAction.path).Nodup := by
  rw [map_append]
  refine nodup_append.mpr ⟨?_, ?_, ?_⟩
  · exact (filterMap_paths_sublist localDelete_path).nodup (keys_nodup localSnapshot)
  · exact (filterMap_paths_sublist remoteDelete_path).nodup (keys_nodup remote)
  · intro p hp q hq hpq
    obtain ⟨a, ha, rfl⟩ := mem_map.mp hp
    obtain ⟨b, hb, rfl⟩ := mem_map.mp hq
    obtain ⟨e, he, hea⟩ := mem_filterMap.mp ha
    obtain ⟨f, -, hfb⟩ := mem_filterMap.mp hb
    have hloc : localSnapshot.get? f.1 = none := by
      simp only [remoteDelete, Option.ite_none_right_eq_some] at hfb
      exact hfb.1.1
    rw [← remoteDelete_path f b hfb, ← hpq, localDelete_path e a hea] at hloc
    exact get?_eq_none_iff.mp hloc e.2 he

/-- Without permission to delete, fewer removals are planned. -/
theorem deletions_sublist (wanted : EntryKind → Bool) :
    (localSnapshot.entries.filterMap (localDelete remote · wanted) ++
      if options.delete then remote.entries.filterMap (remoteDelete · wanted localSnapshot)
      else []).Sublist
    (localSnapshot.entries.filterMap (localDelete remote · wanted) ++
      remote.entries.filterMap (remoteDelete · wanted localSnapshot)) := by
  split
  · exact .refl _
  · rw [append_nil]
    exact sublist_append_left _ _

theorem createDirectories_nodup :
    ((collected localSnapshot remote options).createDirectories.map SyncAction.path).Nodup := by
  refine (filterMap_paths_sublist fun e a h ↦ ?_).nodup (keys_nodup localSnapshot)
  simp only [localCreateDirectory, Option.ite_none_right_eq_some, Option.some.injEq] at h
  exact h.2 ▸ rfl

theorem uploads_nodup :
    ((collected localSnapshot remote options).uploads.map SyncAction.path).Nodup := by
  refine (filterMap_paths_sublist fun e a h ↦ ?_).nodup (keys_nodup localSnapshot)
  simp only [localUpload, Option.ite_none_right_eq_some, Option.some.injEq] at h
  exact h.2 ▸ rfl

end Orders

theorem sortByPath_perm (l : List SyncAction) : (sortByPath l).Perm l :=
  perm_insertionSort _ l

theorem sortDeepestFirst_perm (l : List SyncAction) : (sortDeepestFirst l).Perm l :=
  perm_insertionSort _ l

theorem sortShallowestFirst_perm (l : List SyncAction) : (sortShallowestFirst l).Perm l :=
  perm_insertionSort _ l

theorem pathDepth_le_of_depthKey_le {a b : SyncAction} (h : depthKey a ≤ depthKey b) :
    pathDepth a.path ≤ pathDepth b.path := by
  rcases Prod.Lex.le_iff.mp h with h | h
  · exact h.le
  · exact h.1.le

theorem sortDeepestFirst_depth (l : List SyncAction) :
    (sortDeepestFirst l).Pairwise fun a b ↦ pathDepth b.path ≤ pathDepth a.path := by
  have htotal : Std.Total fun a b : SyncAction ↦ depthKey b ≤ depthKey a :=
    ⟨fun a b ↦ le_total _ _⟩
  have htrans : IsTrans SyncAction fun a b ↦ depthKey b ≤ depthKey a :=
    ⟨fun a b c hab hbc ↦ le_trans hbc hab⟩
  exact (pairwise_insertionSort _ l).imp pathDepth_le_of_depthKey_le

theorem sortShallowestFirst_depth (l : List SyncAction) :
    (sortShallowestFirst l).Pairwise fun a b ↦ pathDepth a.path ≤ pathDepth b.path := by
  have htotal : Std.Total fun a b : SyncAction ↦ depthKey a ≤ depthKey b :=
    ⟨fun a b ↦ le_total _ _⟩
  have htrans : IsTrans SyncAction fun a b ↦ depthKey a ≤ depthKey b :=
    ⟨fun a b c hab hbc ↦ le_trans hab hbc⟩
  exact (pairwise_insertionSort _ l).imp pathDepth_le_of_depthKey_le

end KaduoxSsh.Transfer
