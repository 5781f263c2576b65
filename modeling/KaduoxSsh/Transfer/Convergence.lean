import KaduoxSsh.Lib.FileTree
import KaduoxSsh.Transfer.SyncPlan

/-!
# A push plan makes the remote tree equal to the local one

The actions of a plan are carried out on a file tree whose changes have the
preconditions of a real server.  For two arbitrary trees the argument is about
order only:

* removed files go first, then removed directories from the deepest up; whatever
  lies below a removed directory is not there locally, so it is removed as well,
  and it is deeper;
* what is left is exactly what both sides hold with the same kind, so every name
  that is to be created is free;
* created directories come from the shallowest down; the parent of a created
  directory is a local directory, so it is left over or created earlier;
* by then every local directory is there, and uploads find their parents.

`kept` names the paths that survive the removals, and the four phase lemmas say
what the tree holds after each phase.
-/

namespace KaduoxSsh.Transfer

open List SortedMap

universe u

/-- A remote regular file. -/
structure RemoteFile (β : Type u) where
  len : Nat
  mtime : Option Nat
  content : β
deriving DecidableEq, Repr

abbrev RemoteTree (β : Type u) := FileTree String (RemoteFile β)

/-- A scanned tree is well-formed: its paths have no empty component, the parent
of an entry is there as a directory, and entries are directories or files, the
latter with a modification time. -/
structure Snapshot.WellFormed (s : Snapshot) : Prop where
  path : ∀ e ∈ s.entries, ∀ c ∈ e.1.toList.splitOn '/', c ≠ []
  parent : ∀ e ∈ s.entries, ∀ q, parentPath e.1 = some q →
    (s.get? q).map SnapshotEntry.kind = some .directory
  kind : ∀ e ∈ s.entries, e.2.kind ≠ .other
  mtime : ∀ e ∈ s.entries, e.2.kind = .file → e.2.mtime ≠ none

variable {β : Type u}

/-- An entry of a scan describes what the tree holds. -/
def Agrees : Node (RemoteFile β) → SnapshotEntry → Prop
  | .dir, e => e.kind = .directory
  | .file d, e => e.kind = .file ∧ e.len = d.len ∧ e.mtime = d.mtime

/-- A snapshot is a scan of a tree. -/
def Represents (t : RemoteTree β) (s : Snapshot) : Prop :=
  ∀ p, Option.Rel Agrees (t.get? p) (s.get? p)

/-- What an upload leaves: the local file's size and modification time, and its
content. -/
def uploaded (localSnapshot : Snapshot) (content : String → β) (path : String) : RemoteFile β where
  len := ((localSnapshot.get? path).map SnapshotEntry.len).getD 0
  mtime := (localSnapshot.get? path).bind SnapshotEntry.mtime
  content := content path

/-- Carry out one action. -/
def applyAction (localSnapshot : Snapshot) (content : String → β) (t : RemoteTree β)
    (a : SyncAction) : Except TreeError (RemoteTree β) :=
  match a.kind with
  | .deleteRemoteFile => FileTree.unlink t a.path
  | .deleteRemoteDirectory => FileTree.rmdir parentPath t a.path
  | .createRemoteDirectory => FileTree.mkdir parentPath t a.path
  | .uploadFile => FileTree.put parentPath t a.path (uploaded localSnapshot content a.path)

def applyActions (localSnapshot : Snapshot) (content : String → β) :
    List SyncAction → RemoteTree β → Except TreeError (RemoteTree β) :=
  FileTree.foldChanges (applyAction localSnapshot content)

def nodeKind : Node (RemoteFile β) → EntryKind
  | .dir => .directory
  | .file _ => .file

def nodeEntry : Node (RemoteFile β) → SnapshotEntry
  | .dir => ⟨.directory, 0, none⟩
  | .file d => ⟨.file, d.len, d.mtime⟩

/-- A scan of a tree. -/
def scanTree (t : RemoteTree β) : Snapshot := t.mapVal nodeEntry

/-! ## Well-formed trees -/

/-- A directory is shallower than what lies in it. -/
theorem pathDepth_parent_lt {p q : String} (hp : ∀ c ∈ p.toList.splitOn '/', c ≠ [])
    (hq : parentPath p = some q) : pathDepth q < pathDepth p := by
  obtain ⟨⟨a, b⟩, hab, rfl⟩ := Option.map_eq_some_iff.mp hq
  obtain ⟨hl, hb⟩ := Text.rsplitOnce_eq_some hab
  have hsplit : p.toList.splitOn '/' = a.splitOn '/' ++ [b] := by
    rw [hl, splitOn_append_cons_self, splitOn_eq_singleton hb]
  have hbne : b ≠ [] := hp b (by simp [hsplit])
  simp [pathDepth, hsplit, hbne]

namespace Snapshot.WellFormed

variable {s : Snapshot} (h : s.WellFormed) {p q : String} {e : SnapshotEntry}

include h

theorem parent_directory (hp : s.get? p = some e) (hq : parentPath p = some q) :
    ∃ d, s.get? q = some d ∧ d.kind = .directory :=
  Option.map_eq_some_iff.mp (h.parent (p, e) (get?_eq_some_iff.mp hp) q hq)

theorem depth_lt (hp : s.get? p = some e) (hq : parentPath p = some q) :
    pathDepth q < pathDepth p :=
  pathDepth_parent_lt (h.path (p, e) (get?_eq_some_iff.mp hp)) hq

theorem file_or_directory (hp : s.get? p = some e) : e.kind = .file ∨ e.kind = .directory := by
  have hk := h.kind (p, e) (get?_eq_some_iff.mp hp)
  cases hkind : e.kind with
  | file => exact Or.inl rfl
  | directory => exact Or.inr rfl
  | other => exact absurd hkind hk

theorem file_mtime (hp : s.get? p = some e) (hf : e.kind = .file) : ∃ m, e.mtime = some m :=
  Option.ne_none_iff_exists'.mp (h.mtime (p, e) (get?_eq_some_iff.mp hp) hf)

end Snapshot.WellFormed

namespace Represents

variable {t : RemoteTree β} {s : Snapshot} (h : Represents t s) {p : String}

include h

theorem get?_none (hp : s.get? p = none) : t.get? p = none := by
  have hrel := h p
  rw [hp] at hrel
  cases ht : t.get? p with
  | none => rfl
  | some n => rw [ht] at hrel; cases hrel

theorem get?_directory {e : SnapshotEntry} (hp : s.get? p = some e) (hk : e.kind = .directory) :
    t.get? p = some .dir := by
  have hrel := h p
  rw [hp] at hrel
  cases ht : t.get? p with
  | none => rw [ht] at hrel; cases hrel
  | some n =>
      rw [ht] at hrel
      cases hrel with
      | some ha =>
          cases n with
          | dir => rfl
          | file d => rw [Agrees, hk] at ha; exact absurd ha.1 (by decide)

theorem get?_file {e : SnapshotEntry} (hp : s.get? p = some e) (hk : e.kind = .file) :
    ∃ d, t.get? p = some (.file d) ∧ e.len = d.len ∧ e.mtime = d.mtime := by
  have hrel := h p
  rw [hp] at hrel
  cases ht : t.get? p with
  | none => rw [ht] at hrel; cases hrel
  | some n =>
      rw [ht] at hrel
      cases hrel with
      | some ha =>
          cases n with
          | dir => rw [Agrees, hk] at ha; exact absurd ha (by decide)
          | file d => exact ⟨d, rfl, ha.2⟩

end Represents

/-! ## The four phases -/

section Phases

variable {localSnapshot remote : Snapshot} {options : SyncOptions} {t : RemoteTree β}
  {content : String → β}

/-- The paths that both sides hold with the same kind: no removal touches them. -/
def Kept (localSnapshot remote : Snapshot) (p : String) : Prop :=
  ∃ l r, localSnapshot.get? p = some l ∧ remote.get? p = some r ∧ l.kind = r.kind

theorem paths_nodup {l l' : List SyncAction} (hperm : l'.Perm l)
    (hnd : (l.map SyncAction.path).Nodup) : (l'.map SyncAction.path).Nodup :=
  (hperm.map SyncAction.path).nodup_iff.mpr hnd

/-- The paths of planned removals of the wanted kinds. -/
theorem mem_deletion_paths {wanted : EntryKind → Bool} {p : String} :
    p ∈ (localSnapshot.entries.filterMap (localDelete remote · wanted) ++
        remote.entries.filterMap (remoteDelete · wanted localSnapshot)).map SyncAction.path ↔
      ∃ r, remote.get? p = some r ∧ wanted r.kind = true ∧ ¬Kept localSnapshot remote p := by
  rw [mem_map]
  constructor
  · rintro ⟨a, ha, rfl⟩
    obtain ⟨r, hr, hw, -, hl⟩ := mem_deletions.mp ha
    refine ⟨r, hr, hw, ?_⟩
    rintro ⟨l, r', hl', hr', hk⟩
    rw [hr] at hr'
    exact hl l hl' (Option.some.inj hr' ▸ hk)
  · rintro ⟨r, hr, hw, hkept⟩
    refine ⟨deletion r.kind p, mem_deletions.mpr ?_, deletion_path _ _⟩
    rw [deletion_path]
    exact ⟨r, hr, hw, rfl, fun l hl hk ↦ hkept ⟨l, r, hl, hr, hk⟩⟩

theorem collected_deleteFiles (hd : options.delete = true) :
    (collected localSnapshot remote options).deleteFiles =
      localSnapshot.entries.filterMap (localDelete remote · fun k ↦ !k.isDirectory) ++
        remote.entries.filterMap (remoteDelete · (fun k ↦ !k.isDirectory) localSnapshot) := by
  simp [collected, hd]

theorem collected_deleteDirectories (hd : options.delete = true) :
    (collected localSnapshot remote options).deleteDirectories =
      localSnapshot.entries.filterMap (localDelete remote · EntryKind.isDirectory) ++
        remote.entries.filterMap (remoteDelete · EntryKind.isDirectory localSnapshot) := by
  simp [collected, hd]

variable (localSnapshot options content)

open scoped Classical in
/-- First phase: the files in the way, and the files that are gone locally. -/
theorem phase_deleteFiles (hr : remote.WellFormed) (ht : Represents t remote)
    (hd : options.delete = true) :
    ∃ t', applyActions localSnapshot content
        (sortByPath (collected localSnapshot remote options).deleteFiles) t = .ok t' ∧
      ∀ p, t'.get? p = if ∃ r, remote.get? p = some r ∧ r.kind = .file ∧
        ¬Kept localSnapshot remote p then none else t.get? p := by
  set U := (sortByPath (collected localSnapshot remote options).deleteFiles).map SyncAction.path
    with hU
  have hmem : ∀ p, p ∈ U ↔ ∃ r, remote.get? p = some r ∧ r.kind = .file ∧
      ¬Kept localSnapshot remote p := by
    intro p
    rw [hU, ((sortByPath_perm _).map SyncAction.path).mem_iff, collected_deleteFiles hd,
      mem_deletion_paths]
    refine exists_congr fun r ↦ and_congr_right fun hrp ↦ and_congr_left fun _ ↦ ?_
    rcases hr.file_or_directory hrp with hk | hk <;> simp [hk, EntryKind.isDirectory]
  have hnd : U.Nodup := paths_nodup (sortByPath_perm _)
    (by rw [collected_deleteFiles hd]; exact deletions_nodup _)
  obtain ⟨t', hrun, hget⟩ := FileTree.foldChanges_unlink (t := t) hnd fun p hp ↦ by
    obtain ⟨r, hrp, hk, -⟩ := (hmem p).mp hp
    obtain ⟨d, hdata, -⟩ := ht.get?_file hrp hk
    exact ⟨d, hdata⟩
  refine ⟨t', ?_, fun p ↦ ?_⟩
  · rw [applyActions, FileTree.foldChanges_map FileTree.unlink SyncAction.path fun a ha t ↦ ?_]
    · exact hrun
    · have ha' := (sortByPath_perm _).mem_iff.mp ha
      rw [collected_deleteFiles hd] at ha'
      obtain ⟨r, hrp, hw, hdel, -⟩ := mem_deletions.mp ha'
      have hk : a.kind = .deleteRemoteFile := by
        rw [hdel, deletion, if_neg (by simpa using hw)]
      rw [applyAction, hk]
  · rw [hget p]
    exact if_congr (hmem p) rfl rfl

open scoped Classical in
/-- Second phase: the directories in the way, and those that are gone locally.
Afterwards the tree holds exactly the kept paths. -/
theorem phase_deleteDirectories (hl : localSnapshot.WellFormed) (hr : remote.WellFormed)
    (ht : Represents t remote) (hd : options.delete = true) {t₁ : RemoteTree β}
    (h₁ : ∀ p, t₁.get? p = if ∃ r, remote.get? p = some r ∧ r.kind = .file ∧
      ¬Kept localSnapshot remote p then none else t.get? p) :
    ∃ t', applyActions localSnapshot content
        (sortDeepestFirst (collected localSnapshot remote options).deleteDirectories) t₁ =
          .ok t' ∧
      ∀ p, t'.get? p = if Kept localSnapshot remote p then t.get? p else none := by
  set D := (sortDeepestFirst (collected localSnapshot remote options).deleteDirectories).map
    SyncAction.path with hD
  have hmem : ∀ p, p ∈ D ↔ ∃ r, remote.get? p = some r ∧ r.kind = .directory ∧
      ¬Kept localSnapshot remote p := by
    intro p
    rw [hD, ((sortDeepestFirst_perm _).map SyncAction.path).mem_iff,
      collected_deleteDirectories hd, mem_deletion_paths]
    refine exists_congr fun r ↦ and_congr_right fun hrp ↦ and_congr_left fun _ ↦ ?_
    rcases hr.file_or_directory hrp with hk | hk <;> simp [hk, EntryKind.isDirectory]
  have hnd : D.Nodup := paths_nodup (sortDeepestFirst_perm _)
    (by rw [collected_deleteDirectories hd]; exact deletions_nodup _)
  -- What is still there was there in the beginning, and is no file to be removed.
  have hpresent : ∀ q, t₁.get? q ≠ none → ∃ r, remote.get? q = some r ∧
      ¬(r.kind = .file ∧ ¬Kept localSnapshot remote q) := by
    intro q hq
    rw [h₁] at hq
    by_cases hc : ∃ r, remote.get? q = some r ∧ r.kind = .file ∧ ¬Kept localSnapshot remote q
    · exact absurd (if_pos hc) hq
    · rw [if_neg hc] at hq
      cases hrq : remote.get? q with
      | none => exact absurd (ht.get?_none hrq) hq
      | some r => exact ⟨r, rfl, fun h ↦ hc ⟨r, hrq, h⟩⟩
  have hdir : ∀ p ∈ D, t₁.get? p = some .dir := by
    intro p hp
    obtain ⟨r, hrp, hk, -⟩ := (hmem p).mp hp
    rw [h₁, if_neg]
    · exact ht.get?_directory hrp hk
    · rintro ⟨r', hrp', hk', -⟩
      rw [hrp] at hrp'
      rw [← Option.some.inj hrp', hk] at hk'
      exact absurd hk' (by decide)
  -- Below a removed directory nothing is there locally, so nothing is kept.
  have hclosed : ∀ p ∈ D, ∀ q, parentPath q = some p → t₁.get? q ≠ none → q ∈ D := by
    intro p hp q hq hne
    obtain ⟨r, hrp, hk, hkept⟩ := (hmem p).mp hp
    obtain ⟨rq, hrq, hfile⟩ := hpresent q hne
    have hnot : ¬Kept localSnapshot remote q := by
      rintro ⟨l, -, hlq, -, -⟩
      obtain ⟨d, hdp, hdk⟩ := hl.parent_directory hlq hq
      exact hkept ⟨d, r, hdp, hrp, hdk.trans hk.symm⟩
    refine (hmem q).mpr ⟨rq, hrq, ?_, hnot⟩
    rcases hr.file_or_directory hrq with hkq | hkq
    · exact absurd ⟨hkq, hnot⟩ hfile
    · exact hkq
  obtain ⟨t', hrun, hget⟩ := FileTree.foldChanges_rmdir parentPath pathDepth hnd
    (pairwise_map.mpr (sortDeepestFirst_depth _)) hdir
    (fun p _ q hq hne ↦ by
      obtain ⟨rq, hrq, -⟩ := hpresent q hne
      exact hr.depth_lt hrq hq)
    hclosed
  refine ⟨t', ?_, fun p ↦ ?_⟩
  · rw [applyActions, FileTree.foldChanges_map (FileTree.rmdir parentPath) SyncAction.path
      fun a ha t ↦ ?_]
    · exact hrun
    · have ha' := (sortDeepestFirst_perm _).mem_iff.mp ha
      rw [collected_deleteDirectories hd] at ha'
      obtain ⟨r, hrp, hw, hdel, -⟩ := mem_deletions.mp ha'
      have hk : a.kind = .deleteRemoteDirectory := by rw [hdel, deletion, if_pos hw]
      rw [applyAction, hk]
  · rw [hget p, h₁ p]
    by_cases hkept : Kept localSnapshot remote p
    · rw [if_neg (fun hp ↦ ((hmem p).mp hp).elim fun r h ↦ h.2.2 hkept),
        if_neg (fun h ↦ h.elim fun r h ↦ h.2.2 hkept), if_pos hkept]
    · rw [if_neg hkept]
      cases hrp : remote.get? p with
      | none => simp [ht.get?_none hrp]
      | some r =>
          rcases hr.file_or_directory hrp with hk | hk
          · rw [if_pos (c := ∃ r', some r = some r' ∧ _) ⟨r, rfl, hk, hkept⟩, ite_self]
          · rw [if_pos ((hmem p).mpr ⟨r, hrp, hk, hkept⟩)]

/-- Third phase: the directories that are missing.  Afterwards every local
directory is there, and nothing else has changed. -/
theorem phase_createDirectories (hl : localSnapshot.WellFormed) (ht : Represents t remote)
    {t₂ : RemoteTree β} (hkept : ∀ p, Kept localSnapshot remote p → t₂.get? p = t.get? p)
    (hgone : ∀ p, ¬Kept localSnapshot remote p → t₂.get? p = none) :
    ∃ t', applyActions localSnapshot content
        (sortShallowestFirst (collected localSnapshot remote options).createDirectories) t₂ =
          .ok t' ∧
      (∀ p l, localSnapshot.get? p = some l → l.kind = .directory → t'.get? p = some .dir) ∧
      ∀ p, (∀ l, localSnapshot.get? p = some l → l.kind ≠ .directory) →
        t'.get? p = t₂.get? p := by
  set M := (sortShallowestFirst (collected localSnapshot remote options).createDirectories).map
    SyncAction.path with hM
  have hmem : ∀ p, p ∈ M ↔ ∃ l, localSnapshot.get? p = some l ∧ l.kind = .directory ∧
      ∀ r, remote.get? p = some r → r.kind ≠ .directory := by
    intro p
    rw [hM, ((sortShallowestFirst_perm _).map SyncAction.path).mem_iff, mem_map]
    constructor
    · rintro ⟨a, ha, rfl⟩
      exact (mem_createDirectories.mp ha).2
    · exact fun h ↦ ⟨⟨.createRemoteDirectory, p, 0⟩, mem_createDirectories.mpr ⟨rfl, h⟩, rfl⟩
  have hnd : M.Nodup := paths_nodup (sortShallowestFirst_perm _) createDirectories_nodup
  -- A local directory is created, or it is there already because it was kept.
  have hthere : ∀ p l, localSnapshot.get? p = some l → l.kind = .directory →
      t₂.get? p = some .dir ∨ p ∈ M := by
    intro p l hlp hk
    by_cases hr : ∀ r, remote.get? p = some r → r.kind ≠ .directory
    · exact Or.inr ((hmem p).mpr ⟨l, hlp, hk, hr⟩)
    · simp only [not_forall, not_not] at hr
      obtain ⟨r, hrp, hrk⟩ := hr
      refine Or.inl ?_
      rw [hkept p ⟨l, r, hlp, hrp, hk.trans hrk.symm⟩]
      exact ht.get?_directory hrp hrk
  obtain ⟨t', hrun, hget⟩ := FileTree.foldChanges_mkdir parentPath pathDepth
    (t := t₂) hnd (pairwise_map.mpr (sortShallowestFirst_depth _))
    (fun p hp ↦ by
      obtain ⟨l, hlp, hk, hr⟩ := (hmem p).mp hp
      refine hgone p ?_
      rintro ⟨l', r, hlp', hrp, hsame⟩
      rw [hlp] at hlp'
      exact hr r hrp (hsame ▸ Option.some.inj hlp' ▸ hk))
    (fun p hp q hq ↦ by
      obtain ⟨l, hlp, -, -⟩ := (hmem p).mp hp
      exact hl.depth_lt hlp hq)
    (fun p hp q hq ↦ by
      obtain ⟨l, hlp, -, -⟩ := (hmem p).mp hp
      obtain ⟨d, hdq, hdk⟩ := hl.parent_directory hlp hq
      exact hthere q d hdq hdk)
  refine ⟨t', ?_, fun p l hlp hk ↦ ?_, fun p hp ↦ ?_⟩
  · rw [applyActions, FileTree.foldChanges_map (FileTree.mkdir parentPath) SyncAction.path
      fun a ha t ↦ ?_]
    · exact hrun
    · have ha' := mem_createDirectories.mp ((sortShallowestFirst_perm _).mem_iff.mp ha)
      have hk : a.kind = .createRemoteDirectory := by rw [ha'.1]
      rw [applyAction, hk]
  · rw [hget p]
    rcases hthere p l hlp hk with h | h
    · simp [h]
    · exact if_pos h
  · rw [hget p, if_neg]
    intro hmemp
    obtain ⟨l, hlp, hk, -⟩ := (hmem p).mp hmemp
    exact hp l hlp hk

variable (remote)

/-- Fourth phase: the uploads. -/
theorem phase_uploads (hl : localSnapshot.WellFormed) {t₃ : RemoteTree β}
    (hdirs : ∀ p l, localSnapshot.get? p = some l → l.kind = .directory → t₃.get? p = some .dir)
    (hfiles : ∀ p l, localSnapshot.get? p = some l → l.kind = .file → t₃.get? p ≠ some .dir) :
    ∃ t', applyActions localSnapshot content
        (sortByPath (collected localSnapshot remote options).uploads) t₃ = .ok t' ∧
      (∀ a ∈ (collected localSnapshot remote options).uploads,
        t'.get? a.path = some (.file (uploaded localSnapshot content a.path))) ∧
      ∀ p, (∀ a ∈ (collected localSnapshot remote options).uploads, a.path ≠ p) →
        t'.get? p = t₃.get? p := by
  let file : SyncAction → String × RemoteFile β := fun a ↦
    (a.path, uploaded localSnapshot content a.path)
  set W := (sortByPath (collected localSnapshot remote options).uploads).map file with hW
  have hfst : W.map Prod.fst =
      (sortByPath (collected localSnapshot remote options).uploads).map SyncAction.path := by
    rw [hW, map_map]
    rfl
  have hlocal : ∀ e ∈ W, ∃ l, localSnapshot.get? e.1 = some l ∧ l.kind = .file := by
    intro e he
    obtain ⟨a, ha, rfl⟩ := mem_map.mp he
    obtain ⟨l, hla, -, hk, -⟩ := mem_uploads.mp ((sortByPath_perm _).mem_iff.mp ha)
    exact ⟨l, hla, hk⟩
  obtain ⟨t', hrun, hput, hsame⟩ := FileTree.foldChanges_put parentPath (l := W) (t := t₃)
    (by rw [hfst]; exact paths_nodup (sortByPath_perm _) uploads_nodup)
    (fun e he q hq ↦ by
      obtain ⟨l, hle, -⟩ := hlocal e he
      obtain ⟨d, hdq, hdk⟩ := hl.parent_directory hle hq
      exact hdirs q d hdq hdk)
    (fun e he ↦ by
      obtain ⟨l, hle, hk⟩ := hlocal e he
      exact hfiles e.1 l hle hk)
  refine ⟨t', ?_, fun a ha ↦ ?_, fun p hp ↦ ?_⟩
  · rw [applyActions, FileTree.foldChanges_map
      (fun t e ↦ FileTree.put parentPath t e.1 e.2) file fun a ha t ↦ ?_]
    · exact hrun
    · obtain ⟨l, -, hla, -, -⟩ := mem_uploads.mp ((sortByPath_perm _).mem_iff.mp ha)
      have hk : a.kind = .uploadFile := by rw [hla]
      rw [applyAction, hk]
  · exact hput (file a) (mem_map_of_mem ((sortByPath_perm _).mem_iff.mpr ha))
  · refine hsame p ?_
    rw [hfst, mem_map]
    rintro ⟨a, ha, rfl⟩
    exact hp a ((sortByPath_perm _).mem_iff.mp ha) rfl

end Phases

/-! ## The plan as a whole -/

/-- A tree that has become equal to the local one: the same paths with the same
kinds, and no file that a comparison would tell from the local one. -/
structure InSync (localSnapshot : Snapshot) (sizeOnly : Bool) (t : RemoteTree β) : Prop where
  kinds : ∀ p, (t.get? p).map nodeKind = (localSnapshot.get? p).map SnapshotEntry.kind
  files : ∀ p l d, localSnapshot.get? p = some l → t.get? p = some (.file d) →
    filesMatch l (nodeEntry (.file d)) sizeOnly = true

section Whole

variable {localSnapshot remote : Snapshot} {options : SyncOptions} {t : RemoteTree β}
  {content : String → β} {t' : RemoteTree β}

theorem filesMatch_self {l r : SnapshotEntry} {sizeOnly : Bool} {m : Nat} (hm : l.mtime = some m)
    (hlen : r.len = l.len) (hmtime : r.mtime = l.mtime) : filesMatch l r sizeOnly = true := by
  simp [filesMatch, hlen, hmtime, hm, absDiff]

/-- A local file that is not uploaded has a remote counterpart that matches it. -/
theorem exists_match_of_notMem_uploads {p : String} {l : SnapshotEntry}
    (hlp : localSnapshot.get? p = some l) (hk : l.kind = .file)
    (hup : ∀ a ∈ (collected localSnapshot remote options).uploads, a.path ≠ p) :
    ∃ r, remote.get? p = some r ∧ r.kind = .file ∧ filesMatch l r options.sizeOnly = true := by
  by_contra hno
  refine hup ⟨.uploadFile, p, l.len⟩ (mem_uploads.mpr ⟨l, hlp, rfl, hk, fun r hrp hrk ↦ ?_⟩) rfl
  by_contra hmatch
  exact hno ⟨r, hrp, hrk, by simpa using hmatch⟩

/-- What a tree holds after the collected actions, path by path. -/
structure PushResult (localSnapshot remote : Snapshot) (options : SyncOptions) (content : String → β)
    (t t' : RemoteTree β) : Prop where
  directory : ∀ p l, localSnapshot.get? p = some l → l.kind = .directory → t'.get? p = some .dir
  upload : ∀ a ∈ (collected localSnapshot remote options).uploads,
    t'.get? a.path = some (.file (uploaded localSnapshot content a.path))
  unchanged : ∀ p l, localSnapshot.get? p = some l → l.kind = .file →
    (∀ a ∈ (collected localSnapshot remote options).uploads, a.path ≠ p) → t'.get? p = t.get? p
  absent : ∀ p, localSnapshot.get? p = none → t'.get? p = none

/-- Carried out from a scanned tree, the collected actions all succeed. -/
theorem applyActions_ordered (hl : localSnapshot.WellFormed) (hr : remote.WellFormed)
    (ht : Represents t remote) (hd : options.delete = true) (content : String → β) :
    ∃ t', applyActions localSnapshot content
        (collected localSnapshot remote options).ordered t = .ok t' ∧
      PushResult localSnapshot remote options content t t' := by
  classical
  obtain ⟨t₁, hrun₁, h₁⟩ := phase_deleteFiles localSnapshot options content hr ht hd
  obtain ⟨t₂, hrun₂, h₂⟩ := phase_deleteDirectories localSnapshot options content hl hr ht hd h₁
  have hkept : ∀ p, Kept localSnapshot remote p → t₂.get? p = t.get? p := fun p hp ↦ by
    rw [h₂, if_pos hp]
  have hgone : ∀ p, ¬Kept localSnapshot remote p → t₂.get? p = none := fun p hp ↦ by
    rw [h₂, if_neg hp]
  obtain ⟨t₃, hrun₃, hdirs, hrest⟩ :=
    phase_createDirectories localSnapshot options content hl ht hkept hgone
  -- A local file is untouched so far: its remote counterpart if there is one.
  have hfile : ∀ p l, localSnapshot.get? p = some l → l.kind = .file →
      t₃.get? p = t₂.get? p := fun p l hlp hk ↦
    hrest p fun l' hlp' ↦ by
      rw [hlp] at hlp'
      rw [← Option.some.inj hlp', hk]
      decide
  have hnodir : ∀ p l, localSnapshot.get? p = some l → l.kind = .file →
      t₃.get? p ≠ some .dir := by
    intro p l hlp hk hdirp
    rw [hfile p l hlp hk] at hdirp
    by_cases hkp : Kept localSnapshot remote p
    · obtain ⟨l', r, hlp', hrp, hsame⟩ := id hkp
      rw [hlp] at hlp'
      have hrk : r.kind = .file := hsame ▸ Option.some.inj hlp' ▸ hk
      obtain ⟨d, hdata, -⟩ := ht.get?_file hrp hrk
      rw [hkept p hkp, hdata] at hdirp
      cases hdirp
    · rw [hgone p hkp] at hdirp
      cases hdirp
  obtain ⟨t₄, hrun₄, hput, hsame⟩ :=
    phase_uploads localSnapshot remote options content hl hdirs hnodir
  refine ⟨t₄, ?_, ⟨fun p l hlp hk ↦ ?_, hput, fun p l hlp hk hup ↦ ?_, fun p hlp ↦ ?_⟩⟩
  · rw [applyActions, PlanLists.ordered, append_assoc, append_assoc,
      FileTree.foldChanges_append hrun₁, FileTree.foldChanges_append hrun₂,
      FileTree.foldChanges_append hrun₃]
    exact hrun₄
  · rw [hsame p, hdirs p l hlp hk]
    rintro a ha rfl
    obtain ⟨l', hl', -, hk', -⟩ := mem_uploads.mp ha
    rw [hlp] at hl'
    rw [← Option.some.inj hl', hk] at hk'
    cases hk'
  · obtain ⟨r, hrp, hrk, -⟩ := exists_match_of_notMem_uploads hlp hk hup
    rw [hsame p hup, hfile p l hlp hk, hkept p ⟨l, r, hlp, hrp, hk.trans hrk.symm⟩]
  · have hno : ∀ l, localSnapshot.get? p ≠ some l := fun l hl' ↦ by
      rw [hlp] at hl'
      cases hl'
    rw [hsame p, hrest p fun l hl' ↦ absurd hl' (hno l), hgone p]
    · rintro ⟨l, -, hl', -, -⟩
      exact hno l hl'
    · rintro a ha rfl
      obtain ⟨l, hl', -⟩ := mem_uploads.mp ha
      exact hno l hl'

/-- After the collected actions the tree is in sync. -/
theorem PushResult.inSync (hl : localSnapshot.WellFormed) (ht : Represents t remote)
    (h : PushResult localSnapshot remote options content t t') :
    InSync localSnapshot options.sizeOnly t' := by
  -- A local file is either uploaded, or its remote counterpart matched and stays.
  have hfile : ∀ p l, localSnapshot.get? p = some l → l.kind = .file →
      ∃ d, t'.get? p = some (.file d) ∧
        filesMatch l (nodeEntry (.file d)) options.sizeOnly = true := by
    intro p l hlp hk
    by_cases hup : ∃ a ∈ (collected localSnapshot remote options).uploads, a.path = p
    · obtain ⟨a, ha, rfl⟩ := hup
      obtain ⟨m, hm⟩ := hl.file_mtime hlp hk
      exact ⟨_, h.upload a ha, filesMatch_self hm (by simp [nodeEntry, uploaded, hlp])
        (by simp [nodeEntry, uploaded, hlp])⟩
    · simp only [not_exists, not_and] at hup
      obtain ⟨r, hrp, hrk, hmatch⟩ := exists_match_of_notMem_uploads hlp hk hup
      obtain ⟨d, hdata, hlen, hmtime⟩ := ht.get?_file hrp hrk
      refine ⟨d, (h.unchanged p l hlp hk hup).trans hdata, ?_⟩
      simpa [filesMatch, nodeEntry, ← hlen, ← hmtime] using hmatch
  refine ⟨fun p ↦ ?_, fun p l d hlp hdp ↦ ?_⟩
  · cases hlp : localSnapshot.get? p with
    | none => rw [h.absent p hlp]; rfl
    | some l =>
        rcases hl.file_or_directory hlp with hk | hk
        · obtain ⟨d, hd, -⟩ := hfile p l hlp hk
          rw [hd, Option.map_some, Option.map_some, hk]
          rfl
        · rw [h.directory p l hlp hk, Option.map_some, Option.map_some, hk]
          rfl
  · rcases hl.file_or_directory hlp with hk | hk
    · obtain ⟨d', hd', hmatch⟩ := hfile p l hlp hk
      rw [hdp] at hd'
      cases hd'
      exact hmatch
    · rw [h.directory p l hlp hk] at hdp
      cases hdp

/-- A removal that is planned, with or without permission to delete. -/
theorem mem_deleted {a : SyncAction}
    (ha : a ∈ (collected localSnapshot remote options).deleteFiles ++
      (collected localSnapshot remote options).deleteDirectories) :
    ∃ r, remote.get? a.path = some r ∧ a = deletion r.kind a.path ∧
      (∀ l, localSnapshot.get? a.path = some l → l.kind ≠ r.kind) ∧
      (localSnapshot.get? a.path = none → options.delete = true) := by
  have hsub (wanted : EntryKind → Bool)
      (ha : a ∈ localSnapshot.entries.filterMap (localDelete remote · wanted) ++
        if options.delete then remote.entries.filterMap (remoteDelete · wanted localSnapshot) else []) :
      a ∈ localSnapshot.entries.filterMap (localDelete remote · wanted) ++
          remote.entries.filterMap (remoteDelete · wanted localSnapshot) ∧
        (localSnapshot.get? a.path = none → options.delete = true) := by
    rcases mem_append.mp ha with h | h
    · refine ⟨mem_append_left _ h, fun hnone ↦ ?_⟩
      obtain ⟨⟨q, l⟩, he, hdel⟩ := mem_filterMap.mp h
      rw [localDelete_path _ a hdel, get?_eq_some_iff.mpr he] at hnone
      cases hnone
    · split at h
      · next hdelete => exact ⟨mem_append_right _ h, fun _ ↦ hdelete⟩
      · cases h
  have hread (wanted : EntryKind → Bool)
      (ha : a ∈ localSnapshot.entries.filterMap (localDelete remote · wanted) ++
        if options.delete then remote.entries.filterMap (remoteDelete · wanted localSnapshot) else []) :
      ∃ r, remote.get? a.path = some r ∧ a = deletion r.kind a.path ∧
        (∀ l, localSnapshot.get? a.path = some l → l.kind ≠ r.kind) ∧
        (localSnapshot.get? a.path = none → options.delete = true) := by
    obtain ⟨hmem, hnone⟩ := hsub wanted ha
    obtain ⟨r, hr, -, hdel, hl⟩ := mem_deletions.mp hmem
    exact ⟨r, hr, hdel, hl, hnone⟩
  rcases mem_append.mp ha with h | h
  · exact hread _ h
  · exact hread _ h

/-- A tree that a plan would leave as it is. -/
structure Matches (localSnapshot : Snapshot) (options : SyncOptions) (t : RemoteTree β) : Prop where
  kind : ∀ p l, localSnapshot.get? p = some l → l.kind ≠ .other
  directory : ∀ p l, localSnapshot.get? p = some l → l.kind = .directory → t.get? p = some .dir
  file : ∀ p l, localSnapshot.get? p = some l → l.kind = .file →
    ∃ d, t.get? p = some (.file d) ∧ filesMatch l (nodeEntry (.file d)) options.sizeOnly = true
  absent : options.delete = true → ∀ p, localSnapshot.get? p = none → t.get? p = none

theorem get?_scanTree (t : RemoteTree β) (p : String) :
    (scanTree t).get? p = (t.get? p).map nodeEntry := get?_mapVal _ _ _

/-- What is there locally has the same kind in the scan. -/
theorem Matches.kind_eq (h : Matches localSnapshot options t) {p : String} {l r : SnapshotEntry}
    (hl : localSnapshot.get? p = some l) (hr : (scanTree t).get? p = some r) : l.kind = r.kind := by
  rw [get?_scanTree] at hr
  cases hkind : l.kind with
  | directory =>
      rw [h.directory p l hl hkind] at hr
      cases hr
      rfl
  | file =>
      obtain ⟨d, hd, -⟩ := h.file p l hl hkind
      rw [hd] at hr
      cases hr
      rfl
  | other => exact absurd hkind (h.kind p l hl)

/-- Planning against a tree that matches gives no action. -/
theorem Matches.replan (h : Matches localSnapshot options t) :
    buildPushPlan localSnapshot (scanTree t) options = .ok ⟨[], 0, 0, 0, 0⟩ := by
  have hdelete : (collected localSnapshot (scanTree t) options).deleteFiles ++
      (collected localSnapshot (scanTree t) options).deleteDirectories = [] := by
    refine eq_nil_iff_forall_not_mem.mpr fun a ha ↦ ?_
    obtain ⟨r, hr, -, hne, hnone⟩ := mem_deleted ha
    cases hl : localSnapshot.get? a.path with
    | some l => exact hne l hl (h.kind_eq hl hr)
    | none =>
        rw [get?_scanTree, h.absent (hnone hl) _ hl] at hr
        cases hr
  have hcreate : (collected localSnapshot (scanTree t) options).createDirectories = [] := by
    refine eq_nil_iff_forall_not_mem.mpr fun a ha ↦ ?_
    obtain ⟨-, l, hl, hkind, hr⟩ := mem_createDirectories.mp ha
    refine hr (nodeEntry (.dir : Node (RemoteFile β))) ?_ rfl
    rw [get?_scanTree, h.directory _ l hl hkind]
    rfl
  have hupload : (collected localSnapshot (scanTree t) options).uploads = [] := by
    refine eq_nil_iff_forall_not_mem.mpr fun a ha ↦ ?_
    obtain ⟨l, hl, -, hkind, hr⟩ := mem_uploads.mp ha
    obtain ⟨d, hd, hmatch⟩ := h.file _ l hl hkind
    have hno := hr (nodeEntry (.file d)) (by rw [get?_scanTree, hd]; rfl) rfl
    rw [hmatch] at hno
    cases hno
  obtain ⟨hfiles, hdirectories⟩ := append_eq_nil_iff.mp hdelete
  apply buildPushPlan_empty
  · intro p l r hl hr hne
    exact absurd (h.kind_eq hl hr).symm hne
  · cases hlists : collected localSnapshot (scanTree t) options
    rw [hlists] at hfiles hdirectories hcreate hupload
    dsimp only at hfiles hdirectories hcreate hupload
    rw [hfiles, hdirectories, hcreate, hupload, PlanLists.empty]

/-- Planning against a tree that is in sync gives no action. -/
theorem InSync.replan (h : InSync localSnapshot options.sizeOnly t') :
    buildPushPlan localSnapshot (scanTree t') options = .ok ⟨[], 0, 0, 0, 0⟩ := by
  have hnode : ∀ p l, localSnapshot.get? p = some l →
      ∃ n, t'.get? p = some n ∧ nodeKind n = l.kind := by
    intro p l hl
    have hk := h.kinds p
    rw [hl, Option.map_some] at hk
    exact Option.map_eq_some_iff.mp hk
  refine Matches.replan ⟨fun p l hl ↦ ?_, fun p l hl hkind ↦ ?_, fun p l hl hkind ↦ ?_,
    fun _ p hl ↦ ?_⟩
  · obtain ⟨n, -, hn⟩ := hnode p l hl
    rw [← hn]
    cases n <;> simp [nodeKind]
  · obtain ⟨n, hn, hnk⟩ := hnode p l hl
    cases n with
    | dir => exact hn
    | file d => rw [hkind] at hnk; cases hnk
  · obtain ⟨n, hn, hnk⟩ := hnode p l hl
    cases n with
    | dir => rw [hkind] at hnk; cases hnk
    | file d => exact ⟨d, hn, h.files p l d hl hn⟩
  · have hk := h.kinds p
    rw [hl] at hk
    exact Option.map_eq_none_iff.mp hk

/-- Without permission to delete, no removal is planned. -/
theorem not_delete_of_mem_ordered (hres : Resolvable localSnapshot remote options)
    (hd : options.delete = false) {a : SyncAction}
    (ha : a ∈ (collected localSnapshot remote options).ordered) :
    a.kind = .createRemoteDirectory ∨ a.kind = .uploadFile := by
  have hno : ∀ wanted, localSnapshot.entries.filterMap (localDelete remote · wanted) = [] := by
    refine fun wanted ↦ eq_nil_iff_forall_not_mem.mpr fun b hb ↦ ?_
    obtain ⟨r, hr, -, -, hne⟩ := mem_deletions.mp (mem_append_left _ hb)
    obtain ⟨⟨q, l⟩, he, hdel⟩ := mem_filterMap.mp hb
    have hlq : localSnapshot.get? b.path = some l := by
      rw [localDelete_path _ b hdel]
      exact get?_eq_some_iff.mpr he
    have hdt := hres b.path l r hlq hr (Ne.symm (hne l hlq))
    rw [hd] at hdt
    cases hdt
  rcases mem_ordered.mp ha with h | h | h | h
  · simp [collected, hd, hno] at h
  · simp [collected, hd, hno] at h
  · exact Or.inl (by rw [(mem_createDirectories.mp h).1])
  · obtain ⟨l, -, hla, -⟩ := mem_uploads.mp h
    exact Or.inr (by rw [hla])

/-- Creations and uploads never make a name disappear. -/
theorem applyActions_present {actions : List SyncAction}
    (hkinds : ∀ a ∈ actions, a.kind = .createRemoteDirectory ∨ a.kind = .uploadFile)
    (h : applyActions localSnapshot content actions t = .ok t') {p : String}
    (hp : t.get? p ≠ none) : t'.get? p ≠ none := by
  induction actions generalizing t with
  | nil => cases h; exact hp
  | cons a rest ih =>
      rw [applyActions, FileTree.foldChanges] at h
      cases hs : applyAction localSnapshot content t a with
      | error e => rw [hs] at h; cases h
      | ok t₁ =>
          rw [hs] at h
          refine ih (fun b hb ↦ hkinds b (mem_cons_of_mem a hb)) h ?_
          obtain ⟨n, rfl⟩ : ∃ n, t₁ = t.insert a.path n := by
            rcases hkinds a mem_cons_self with hk | hk
            · rw [applyAction, hk] at hs
              exact ⟨_, FileTree.mkdir_ok hs⟩
            · rw [applyAction, hk] at hs
              exact ⟨_, FileTree.put_ok hs⟩
          rw [get?_insert]
          split
          · simp
          · exact hp

end Whole

/-- Synchronization converges.  With permission to delete, every plan made for two
well-formed trees runs to its end, leaves exactly the local paths and kinds with
the local content at every uploaded path, and planning again gives no action.
Without it, no planned action removes anything, whatever part of the plan has
been carried out, and every conflict of kinds makes planning fail. -/
theorem sync_converges (localSnapshot remote : Snapshot) (options : SyncOptions)
    (content : String → β) (t : RemoteTree β) (hl : localSnapshot.WellFormed)
    (hr : remote.WellFormed) (ht : Represents t remote) :
    (options.delete = true →
      ∀ plan, buildPushPlan localSnapshot remote options = .ok plan →
        ∃ t', applyActions localSnapshot content plan.actions t = .ok t' ∧
          (∀ p, (t'.get? p).map nodeKind =
            (localSnapshot.get? p).map SnapshotEntry.kind) ∧
          (∀ a ∈ plan.actions, a.kind = .uploadFile →
            t'.get? a.path = some (.file (uploaded localSnapshot content a.path))) ∧
          ∃ plan', buildPushPlan localSnapshot (scanTree t') options = .ok plan' ∧
            plan'.actions = []) ∧
    (options.delete = false →
      (∀ plan, buildPushPlan localSnapshot remote options = .ok plan →
        (∀ a ∈ plan.actions,
          a.kind ≠ .deleteRemoteFile ∧ a.kind ≠ .deleteRemoteDirectory) ∧
        ∀ actions t', actions <+: plan.actions →
          applyActions localSnapshot content actions t = .ok t' →
          ∀ p, t.get? p ≠ none → t'.get? p ≠ none) ∧
      ((∃ p l r, localSnapshot.get? p = some l ∧ remote.get? p = some r ∧ l.kind ≠ r.kind) →
        ∃ err, buildPushPlan localSnapshot remote options = .error err)) := by
  refine ⟨fun hd plan hplan ↦ ?_, fun hd ↦ ⟨fun plan hplan ↦ ?_, ?_⟩⟩
  · obtain ⟨-, hactions⟩ := buildPushPlan_ok hplan
    obtain ⟨t', hrun, hresult⟩ := applyActions_ordered hl hr ht hd content
    have hsync := hresult.inSync hl ht
    refine ⟨t', hactions ▸ hrun, hsync.kinds, fun a ha hk ↦ ?_, _, hsync.replan, rfl⟩
    rw [hactions] at ha
    rcases mem_ordered.mp ha with h | h | h | h
    · rw [collected_deleteFiles hd] at h
      obtain ⟨r, -, -, hdel, -⟩ := mem_deletions.mp h
      exact absurd hk (hdel ▸ deletion_kind_ne r.kind a.path)
    · rw [collected_deleteDirectories hd] at h
      obtain ⟨r, -, -, hdel, -⟩ := mem_deletions.mp h
      exact absurd hk (hdel ▸ deletion_kind_ne r.kind a.path)
    · rw [(mem_createDirectories.mp h).1] at hk
      cases hk
    · exact hresult.upload a h
  · obtain ⟨hres, hactions⟩ := buildPushPlan_ok hplan
    have hkinds : ∀ a ∈ plan.actions,
        a.kind = .createRemoteDirectory ∨ a.kind = .uploadFile := fun a ha ↦
      not_delete_of_mem_ordered hres hd (hactions ▸ ha)
    refine ⟨fun a ha ↦ ?_, fun actions t' hpre hrun p hp ↦
      applyActions_present (fun a ha ↦ hkinds a (hpre.subset ha)) hrun hp⟩
    rcases hkinds a ha with hk | hk <;> simp [hk]
  · rintro ⟨p, l, r, hlp, hrp, hne⟩
    have hres : ¬Resolvable localSnapshot remote options := fun h ↦ by
      have hdt := h p l r hlp hrp hne.symm
      rw [hd] at hdt
      cases hdt
    obtain ⟨err, herr⟩ := collectLists_conflict hres
    exact ⟨err, by rw [buildPushPlan, herr, Result.bind_error]⟩

/-! A file is replaced by a directory and a directory by a file. -/

def swapLocal : Snapshot :=
  ⟨[("a", ⟨.directory, 0, none⟩), ("a/f", ⟨.file, 3, some 7⟩), ("b", ⟨.file, 1, some 9⟩)],
    by decide⟩

def swapRemote : Snapshot :=
  ⟨[("a", ⟨.file, 2, some 4⟩), ("b", ⟨.directory, 0, none⟩), ("b/x", ⟨.file, 5, some 5⟩)],
    by decide⟩

def swapTree : RemoteTree String :=
  ⟨[("a", .file ⟨2, some 4, "ab"⟩), ("b", .dir), ("b/x", .file ⟨5, some 5, "hello"⟩)],
    by decide⟩

theorem swapLocal_wellFormed : swapLocal.WellFormed := by
  constructor <;> decide

theorem swapRemote_wellFormed : swapRemote.WellFormed := by
  constructor <;> decide

theorem swapTree_represents : Represents swapTree swapRemote := by
  intro p
  by_cases ha : p = "a"
  · subst ha
    exact .some ⟨rfl, rfl, rfl⟩
  by_cases hb : p = "b"
  · subst hb
    exact .some rfl
  by_cases hx : p = "b/x"
  · subst hx
    exact .some ⟨rfl, rfl, rfl⟩
  have htree : swapTree.get? p = none := by
    simp [swapTree, get?, Ne.symm ha, Ne.symm hb, Ne.symm hx]
  have hsnap : swapRemote.get? p = none := by
    simp [swapRemote, get?, Ne.symm ha, Ne.symm hb, Ne.symm hx]
  rw [htree, hsnap]
  exact .none

theorem sync_converges_swap :
    ∃ t', applyActions swapLocal (fun _ ↦ "new")
        [⟨.deleteRemoteFile, "a", 0⟩, ⟨.deleteRemoteFile, "b/x", 0⟩,
          ⟨.deleteRemoteDirectory, "b", 0⟩, ⟨.createRemoteDirectory, "a", 0⟩,
          ⟨.uploadFile, "a/f", 3⟩, ⟨.uploadFile, "b", 1⟩] swapTree = .ok t' ∧
      ∀ p, (t'.get? p).map nodeKind = (swapLocal.get? p).map SnapshotEntry.kind := by
  obtain ⟨t', hrun, hkinds, -⟩ := (sync_converges swapLocal swapRemote
    ⟨true, false, .default⟩ (fun _ ↦ "new") swapTree swapLocal_wellFormed
    swapRemote_wellFormed swapTree_represents).1 rfl
    ⟨[⟨.deleteRemoteFile, "a", 0⟩, ⟨.deleteRemoteFile, "b/x", 0⟩,
      ⟨.deleteRemoteDirectory, "b", 0⟩, ⟨.createRemoteDirectory, "a", 0⟩,
      ⟨.uploadFile, "a/f", 3⟩, ⟨.uploadFile, "b", 1⟩], 4, 2, 3, 1⟩ (by decide)
  exact ⟨t', hrun, hkinds⟩

end KaduoxSsh.Transfer
