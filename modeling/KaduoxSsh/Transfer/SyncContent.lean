import KaduoxSsh.Transfer.Convergence
import KaduoxSsh.Transfer.Interleaved

/-!
# What a synchronization leaves in the remote files

`apply_sync_to_remote` of `sync.rs`: the removals and the directories of a plan
one after the other, then all its uploads at the same time, request by request. The
checks that come before the first change can only refuse the plan, so they are not
repeated here; what they make sure of and what the uploads find for themselves is the
same. Permissions are nothing that a plan looks at, and they are left out.

Planning and uploading decide from different data. A file is uploaded because its
size or its time differs, and it is uploaded from the end of whatever stands in
the file to write to. `sync_content_iff` says when the two decisions fit.
-/

namespace KaduoxSsh.Transfer

open Resume FileTransfer SortedMap List

/-! ## The files of a tree -/

def objectOf : Node (RemoteFile Bytes) → Object
  | .dir => ⟨.directory, none, none⟩
  | .file d => ⟨.regular d.content, d.mtime, none⟩
/-- Nothing but directories and regular files comes from a tree, and an upload makes nothing else. -/
def nodeOf (object : Object) : Node (RemoteFile Bytes) :=
  match object.kind with
  | .directory => .dir
  | .regular bytes => .file ⟨bytes.length, object.mtime, bytes⟩
  | .symlink | .other => .file ⟨0, object.mtime, []⟩

def filesOf (t : RemoteTree Bytes) : Files String := t.mapVal objectOf

/-- The tree of the files that transfers have made. -/
def Interleaved.tree {K : Type} (s : Interleaved K String) : RemoteTree Bytes := s.files.mapVal nodeOf
section

variable (options : SyncOptions) (fresh : String → String) (localSnapshot : Snapshot)
  (bytes : String → Bytes)

/-- The file that an upload writes to. -/
def workPath (path : String) : String :=
  if options.transfer.atomic then
    if options.transfer.resume then path ++ ".kaduox.part" else fresh path
  else path

/-- The upload of a local file. -/
def uploadOf (path : String) : FileTransfer String where
  direction := .upload
  path := path
  work := workPath options fresh path
  source := bytes path
  mtime := (localSnapshot.get? path).bind SnapshotEntry.mtime
  mode := none

/-- The paths that a plan uploads. -/
def SyncPlan.uploadPaths (plan : SyncPlan) : List String :=
  (plan.actions.filter fun a ↦ a.kind = .uploadFile).map SyncAction.path

abbrev SyncPlan.UploadPath (plan : SyncPlan) : Type := {path // path ∈ plan.uploadPaths}

/-- The actions of a plan that are carried out before the uploads. -/
def SyncPlan.structureActions (plan : SyncPlan) : List SyncAction :=
  plan.actions.filter fun a ↦ a.kind ≠ .uploadFile

/-- A snapshot describes local files of some bytes. -/
structure LocalScan : Prop where
  kind : ∀ p l, localSnapshot.get? p = some l → l.kind ≠ .other
  len : ∀ p l, localSnapshot.get? p = some l → l.kind = .file → l.len = (bytes p).length

/-- A plan was carried out: the tree after its removals and directories, and the state in which
all its uploads are done. -/
structure Applied (plan : SyncPlan) (t t₁ : RemoteTree Bytes)
    (s : Interleaved plan.UploadPath String) : Prop where
  structure_ok : applyActions localSnapshot bytes plan.structureActions t = .ok t₁
  uploads : Reaches (Interleaved.step options.transfer fun p : plan.UploadPath ↦
      uploadOf options fresh localSnapshot bytes p.1) (fun _ _ ↦ True)
    (Interleaved.start (filesOf t₁)) s
  done : ∀ p, s.phase p = .done

/-- No staging file has the name of a local file or of another staging file. -/
structure NoCollision (paths : List String) : Prop where
  notLocal : options.transfer.atomic = true →
    ∀ p ∈ paths, localSnapshot.get? (workPath options fresh p) = none
  distinct : options.transfer.atomic = true →
    ∀ p ∈ paths, ∀ q ∈ paths, workPath options fresh p = workPath options fresh q → p = q

/-- What an upload resumes from is the beginning of the local file, and there is something left to
do, unless the file is renamed anyway. A file that is compared by its time has one. -/
structure Resumable (found : Option (Node (RemoteFile Bytes))) (path : String) : Prop where
  isPrefix : options.transfer.resume = true → ∀ d, found = some (.file d) →
    d.len ≤ (bytes path).length → d.content <+: bytes path
  unfinished : options.transfer.resume = true → options.transfer.atomic = false →
    ∀ d, found = some (.file d) → d.len = (bytes path).length → bytes path = []
  mtime : options.sizeOnly = true ∨ (localSnapshot.get? path).bind SnapshotEntry.mtime ≠ none

end

variable {options : SyncOptions} {fresh : String → String} {localSnapshot remote : Snapshot}
  {bytes : String → Bytes} {plan : SyncPlan} {t t₁ : RemoteTree Bytes}
  {s : Interleaved plan.UploadPath String}

/-! ## Before the uploads -/

/-- The paths that a plan removes, in the order of the removals. -/
def deletedPaths (lists : PlanLists) : List String :=
  (sortByPath lists.deleteFiles ++ sortDeepestFirst lists.deleteDirectories).map SyncAction.path

def createdPaths (lists : PlanLists) : List String :=
  (sortShallowestFirst lists.createDirectories).map SyncAction.path

theorem mem_sorted_deletions {lists : PlanLists} {a : SyncAction} :
    a ∈ sortByPath lists.deleteFiles ++ sortDeepestFirst lists.deleteDirectories ↔
      a ∈ lists.deleteFiles ++ lists.deleteDirectories := by
  rw [mem_append, mem_append, (sortByPath_perm _).mem_iff,
    (sortDeepestFirst_perm _).mem_iff]
theorem structureActions_eq (hactions : plan.actions = (collected localSnapshot remote options).ordered) :
    plan.structureActions =
      sortByPath (collected localSnapshot remote options).deleteFiles ++
        sortDeepestFirst (collected localSnapshot remote options).deleteDirectories ++
        sortShallowestFirst (collected localSnapshot remote options).createDirectories := by
  rw [SyncPlan.structureActions, hactions, PlanLists.ordered, filter_append]
  have huploads : (sortByPath (collected localSnapshot remote options).uploads).filter
      (fun a ↦ a.kind ≠ .uploadFile) = [] := by
    rw [filter_eq_nil_iff]
    intro a ha
    obtain ⟨l, -, hla, -⟩ := mem_uploads.mp ((sortByPath_perm _).mem_iff.mp ha)
    rw [hla]
    simp
  rw [huploads, append_nil, filter_eq_self]
  intro a ha
  rcases mem_append.mp ha with h | h
  · obtain ⟨r, -, hdel, -, -⟩ := mem_deleted (mem_sorted_deletions.mp h)
    rw [hdel]
    simpa using deletion_kind_ne r.kind a.path
  · rw [(mem_createDirectories.mp ((sortShallowestFirst_perm _).mem_iff.mp h)).1]
    simp

theorem applyAction_deletion {kind : EntryKind} {path : String} {t' : RemoteTree Bytes}
    (h : applyAction localSnapshot bytes t (deletion kind path) = .ok t') : t' = t.erase path := by
  cases hdir : kind.isDirectory with
  | true =>
      rw [deletion, if_pos hdir] at h
      exact FileTree.rmdir_ok h
  | false =>
      rw [deletion, if_neg (Bool.not_eq_true _ ▸ hdir)] at h
      exact FileTree.unlink_ok h

/-- What the tree holds before the uploads, path by path. -/
theorem get?_after_structure
    (hactions : plan.actions = (collected localSnapshot remote options).ordered)
    (hrun : applyActions localSnapshot bytes plan.structureActions t = .ok t₁) (p : String) :
    t₁.get? p =
      if p ∈ createdPaths (collected localSnapshot remote options) then some .dir
      else if p ∈ deletedPaths (collected localSnapshot remote options) then none
      else t.get? p := by
  rw [structureActions_eq hactions, applyActions] at hrun
  obtain ⟨t₂, hdelete, hcreate⟩ := FileTree.foldChanges_append_ok hrun
  rw [FileTree.foldChanges_effect SyncAction.path (some .dir) ?_ hcreate p,
    FileTree.foldChanges_effect SyncAction.path none ?_ hdelete p]
  · rfl
  · intro a ha u u' hu q
    obtain ⟨r, -, hdel, -, -⟩ := mem_deleted (mem_sorted_deletions.mp ha)
    rw [hdel] at hu
    rw [applyAction_deletion hu, get?_erase]
  · intro a ha u u' hu q
    have hkind := (mem_createDirectories.mp ((sortShallowestFirst_perm _).mem_iff.mp ha)).1
    have hu' : u' = u.insert a.path .dir := by
      unfold applyAction at hu
      rw [hkind] at hu
      exact FileTree.mkdir_ok hu
    rw [hu', get?_insert]

section Structure

variable (hactions : plan.actions = (collected localSnapshot remote options).ordered)
  (hrun : applyActions localSnapshot bytes plan.structureActions t = .ok t₁)

theorem mem_createdPaths {p : String} :
    p ∈ createdPaths (collected localSnapshot remote options) ↔
      ∃ l, localSnapshot.get? p = some l ∧ l.kind = .directory ∧
        ∀ r, remote.get? p = some r → r.kind ≠ .directory := by
  rw [createdPaths, ((sortShallowestFirst_perm _).map SyncAction.path).mem_iff, mem_map]
  constructor
  · rintro ⟨a, ha, rfl⟩
    exact (mem_createDirectories.mp ha).2
  · exact fun h ↦ ⟨⟨.createRemoteDirectory, p, 0⟩, mem_createDirectories.mpr ⟨rfl, h⟩, rfl⟩

/-- A path that both sides hold with the same kind is not removed. -/
theorem notMem_deletedPaths {p : String} (hkept : Kept localSnapshot remote p) :
    p ∉ deletedPaths (collected localSnapshot remote options) := by
  intro hp
  obtain ⟨a, ha, rfl⟩ := mem_map.mp hp
  obtain ⟨r, hr, -, hne, -⟩ := mem_deleted (mem_sorted_deletions.mp ha)
  obtain ⟨l, r', hl, hr', hkind⟩ := hkept
  rw [hr] at hr'
  cases hr'
  exact hne l hl hkind

include hactions hrun

/-- A file that is there before the uploads was there in the beginning. -/
theorem get?_file_of_structure {p : String} {d : RemoteFile Bytes}
    (hd : t₁.get? p = some (.file d)) : t.get? p = some (.file d) := by
  rw [get?_after_structure hactions hrun] at hd
  split at hd
  · cases hd
  · split at hd
    · cases hd
    · exact hd

/-- Every local directory is there before the uploads. -/
theorem get?_directory_of_structure (ht : Represents t remote) {p : String} {l : SnapshotEntry}
    (hl : localSnapshot.get? p = some l) (hkind : l.kind = .directory) :
    t₁.get? p = some .dir := by
  rw [get?_after_structure hactions hrun]
  split
  · rfl
  next hcreated =>
  rw [mem_createdPaths] at hcreated
  simp only [not_exists, not_and, not_forall, not_not] at hcreated
  obtain ⟨r, hr, hrkind⟩ := hcreated l hl hkind
  rw [if_neg (notMem_deletedPaths ⟨l, r, hl, hr, hkind.trans hrkind.symm⟩)]
  exact ht.get?_directory hr hrkind

/-- A file that both sides hold stays. -/
theorem get?_of_kept {p : String} {l : SnapshotEntry} (hl : localSnapshot.get? p = some l)
    (hkind : l.kind = .file) (hkept : Kept localSnapshot remote p) : t₁.get? p = t.get? p := by
  rw [get?_after_structure hactions hrun, if_neg, if_neg (notMem_deletedPaths hkept)]
  rw [mem_createdPaths]
  rintro ⟨l', hl', hdir, -⟩
  rw [hl] at hl'
  cases hl'
  rw [hkind] at hdir
  cases hdir

/-- With permission to delete, nothing is left that is not there locally. -/
theorem get?_none_of_structure (ht : Represents t remote) (hdelete : options.delete = true)
    {p : String} (hl : localSnapshot.get? p = none) : t₁.get? p = none := by
  rw [get?_after_structure hactions hrun]
  split
  · next hcreated =>
    obtain ⟨l, hl', -⟩ := mem_createdPaths.mp hcreated
    rw [hl] at hl'
    cases hl'
  · split
    · rfl
    next hdeleted =>
    cases hr : remote.get? p with
    | none => exact ht.get?_none hr
    | some r =>
        refine absurd ?_ hdeleted
        have hnot : ¬Kept localSnapshot remote p := by
          rintro ⟨l, -, hl', -⟩
          rw [hl] at hl'
          cases hl'
        rw [deletedPaths, map_append, mem_append,
          ((sortByPath_perm _).map SyncAction.path).mem_iff,
          ((sortDeepestFirst_perm _).map SyncAction.path).mem_iff, collected_deleteFiles hdelete,
          collected_deleteDirectories hdelete, mem_deletion_paths, mem_deletion_paths]
        cases hdir : r.kind.isDirectory with
        | true => exact .inr ⟨r, hr, hdir, hnot⟩
        | false => exact .inl ⟨r, hr, by simp [hdir], hnot⟩

end Structure

/-! ## After the uploads -/

theorem mem_uploadPaths (hactions : plan.actions = (collected localSnapshot remote options).ordered)
    {p : String} :
    p ∈ plan.uploadPaths ↔ ∃ l, localSnapshot.get? p = some l ∧ l.kind = .file ∧
      ∀ r, remote.get? p = some r → r.kind = .file → filesMatch l r options.sizeOnly = false := by
  rw [SyncPlan.uploadPaths, hactions, mem_map]
  constructor
  · rintro ⟨a, ha, rfl⟩
    obtain ⟨ha, hkind⟩ := mem_filter.mp ha
    rw [decide_eq_true_eq] at hkind
    rcases mem_ordered.mp ha with h | h | h | h
    · obtain ⟨r, -, hdel, -⟩ := mem_deleted (mem_append_left _ h)
      exact absurd (hdel ▸ hkind) (deletion_kind_ne r.kind a.path)
    · obtain ⟨r, -, hdel, -⟩ := mem_deleted (mem_append_right _ h)
      exact absurd (hdel ▸ hkind) (deletion_kind_ne r.kind a.path)
    · rw [(mem_createDirectories.mp h).1] at hkind
      cases hkind
    · obtain ⟨l, hl, -, hfile, hr⟩ := mem_uploads.mp h
      exact ⟨l, hl, hfile, hr⟩
  · rintro ⟨l, hl, hfile, hr⟩
    refine ⟨⟨.uploadFile, p, l.len⟩, mem_filter.mpr ⟨?_, by simp⟩, rfl⟩
    rw [mem_ordered]
    exact .inr (.inr (.inr (mem_uploads.mpr ⟨l, hl, rfl, hfile, hr⟩)))

theorem target_uploadOf (path : String) :
    (uploadOf options fresh localSnapshot bytes path).target options.transfer =
      workPath options fresh path := by
  cases hatomic : options.transfer.atomic with
  | true => exact if_pos hatomic
  | false =>
      have hplain : ¬options.transfer.atomic = true := Bool.eq_false_iff.mp hatomic
      rw [target, workPath, if_neg hplain, if_neg hplain]
      rfl

theorem disjoint_uploadOf (hlocal : ∀ p ∈ plan.uploadPaths, localSnapshot.get? p ≠ none)
    (hnames : NoCollision options fresh localSnapshot plan.uploadPaths) :
    Interleaved.Disjoint options.transfer fun p : plan.UploadPath ↦
      uploadOf options fresh localSnapshot bytes p.1 where
  wellPlaced p hatomic heq := by
    have heq : workPath options fresh p.1 = p.1 := heq
    exact hlocal p.1 p.2 (heq ▸ hnames.notLocal hatomic p.1 p.2)
  path p q hne heq := hne (Subtype.ext heq)
  target p q hne := by
    rw [target_uploadOf, target_uploadOf]
    show workPath options fresh p.1 ≠ q.1 ∧ workPath options fresh p.1 ≠ workPath options fresh q.1
    cases hmode : options.transfer.atomic with
    | false =>
        have hwork (p : String) : workPath options fresh p = p := by
          rw [workPath, if_neg (Bool.not_eq_true _ ▸ hmode)]
        rw [hwork, hwork]
        exact ⟨fun heq ↦ hne (Subtype.ext heq), fun heq ↦ hne (Subtype.ext heq)⟩
    | true =>
        refine ⟨fun heq ↦ ?_, fun heq ↦ hne (Subtype.ext ?_)⟩
        · exact hlocal q.1 q.2 (heq ▸ hnames.notLocal hmode p.1 p.2)
        · exact hnames.distinct hmode p.1 p.2 q.1 q.2 heq

section Found

variable {found : Option (Node (RemoteFile Bytes))}

theorem bytes?_objectOf {content : Bytes} : (found.map objectOf).bind Object.bytes? = some content ↔
    ∃ d, found = some (.file d) ∧ d.content = content := by
  cases found with
  | none => exact iff_of_false nofun (by rintro ⟨d, h, -⟩; cases h)
  | some node =>
      cases node with
      | dir => exact iff_of_false nofun (by rintro ⟨d, h, -⟩; cases h)
      | file d =>
          refine ⟨fun h ↦ ⟨d, rfl, Option.some.inj h⟩, ?_⟩
          rintro ⟨d', h, rfl⟩
          cases h
          rfl

variable (hsize : ∀ d, found = some (.file d) → d.len = d.content.length)

include hsize

theorem map_nodeOf_objectOf : (found.map objectOf).map nodeOf = found := by
  cases hfound : found with
  | none => rfl
  | some node =>
      cases node with
      | dir => rfl
      | file d =>
          show some (Node.file (⟨d.content.length, d.mtime, d.content⟩ : RemoteFile Bytes)) = _
          rw [← hsize d hfound]

theorem harmless_objectOf {source : Bytes} : Harmless source (found.map objectOf) ↔
    ∀ d, found = some (.file d) → d.len ≤ source.length → d.content <+: source := by
  constructor
  · intro h d hd hlen
    exact h d.content (bytes?_objectOf.mpr ⟨d, hd, rfl⟩) (hsize d hd ▸ hlen)
  · intro h content hcontent hlen
    obtain ⟨d, hd, rfl⟩ := bytes?_objectOf.mp hcontent
    exact h d hd ((hsize d hd).trans_le hlen)

theorem not_untouched_iff {o : TransferOptions} {job : FileTransfer String} :
    ¬job.Untouched o (found.map objectOf) ↔ (o.resume = true → o.atomic = false →
      ∀ d, found = some (.file d) → d.len = job.source.length → job.source = []) := by
  constructor
  · intro h hresume hatomic d hd hlen
    by_contra hne
    refine h ⟨hatomic, mt eq_nil_of_length_eq_zero hne, ?_⟩
    have hle : d.content.length ≤ job.total := (hsize d hd ▸ hlen).le
    have hbytes : (found.map objectOf).bind Object.bytes? = some d.content :=
      bytes?_objectOf.mpr ⟨d, hd, rfl⟩
    rw [kept, if_pos hresume, hbytes]
    exact (congrArg List.length (if_pos hle)).trans (hsize d hd ▸ hlen)
  · rintro h ⟨hatomic, htotal, hlength⟩
    have hkept : job.kept o (found.map objectOf) ≠ [] := by
      intro hnil
      rw [hnil] at hlength
      exact htotal hlength.symm
    have hresume : o.resume = true := by
      by_contra hfresh
      exact hkept (if_neg hfresh)
    obtain ⟨d, hd, hcontent⟩ := bytes?_objectOf.mp ((kept_eq_nil_or o job _).resolve_left hkept)
    rw [total, h hresume hatomic d hd (by rw [hsize d hd, hcontent, hlength]; rfl)] at htotal
    exact htotal rfl

variable (fresh) in
/-- What an upload resumes from is right exactly when the upload leaves the local bytes. -/
theorem resumable_iff {p : String} :
    Resumable options localSnapshot bytes found p ↔
      completed ((uploadOf options fresh localSnapshot bytes p).kept options.transfer
          (found.map objectOf)) (bytes p) = bytes p ∧
        ¬(uploadOf options fresh localSnapshot bytes p).Untouched options.transfer
          (found.map objectOf) ∧
        (options.sizeOnly = true ∨ (localSnapshot.get? p).bind SnapshotEntry.mtime ≠ none) := by
  have hcompleted : completed ((uploadOf options fresh localSnapshot bytes p).kept options.transfer
        (found.map objectOf)) (bytes p) = bytes p ↔
      (options.transfer.resume = true → Harmless (bytes p) (found.map objectOf)) :=
    completed_kept_eq_iff
  have huntouched : ¬(uploadOf options fresh localSnapshot bytes p).Untouched options.transfer
      (found.map objectOf) ↔ _ := not_untouched_iff hsize
  rw [harmless_objectOf hsize] at hcompleted
  constructor
  · rintro ⟨hcontent, hunfinished, hmtime⟩
    exact ⟨hcompleted.mpr hcontent, huntouched.mpr hunfinished, hmtime⟩
  · rintro ⟨hcontent, hunfinished, hmtime⟩
    exact ⟨hcompleted.mp hcontent, huntouched.mp hunfinished, hmtime⟩

end Found

/-- A file for which planning again gives no action matches the local one. -/
theorem filesMatch_of_replan {t : RemoteTree Bytes} {plan : SyncPlan}
    (hplan : buildPushPlan localSnapshot (scanTree t) options = .ok plan) (hempty : plan.actions = [])
    {p : String} {l : SnapshotEntry} (hl : localSnapshot.get? p = some l) (hkind : l.kind = .file)
    {d : RemoteFile Bytes} (hd : t.get? p = some (.file d)) :
    filesMatch l (nodeEntry (.file d)) options.sizeOnly = true := by
  by_contra hno
  have hupload : (⟨.uploadFile, p, l.len⟩ : SyncAction) ∈
      (collected localSnapshot (scanTree t) options).ordered := by
    rw [mem_ordered]
    refine .inr (.inr (.inr (mem_uploads.mpr ⟨l, hl, rfl, hkind, ?_⟩)))
    intro r hr _
    rw [get?_scanTree, hd] at hr
    cases hr
    exact Bool.not_eq_true _ ▸ hno
  rw [← (buildPushPlan_ok hplan).2, hempty] at hupload
  cases hupload

section Applied

variable (hlocal : LocalScan localSnapshot bytes) (ht : Represents t remote)
  (hsizes : ∀ p d, t.get? p = some (.file d) → d.len = d.content.length)
  (hactions : plan.actions = (collected localSnapshot remote options).ordered)
  (hnames : NoCollision options fresh localSnapshot plan.uploadPaths)
  (happlied : Applied options fresh localSnapshot bytes plan t t₁ s)

include hactions in
theorem local_of_uploadPath {p : String} (hp : p ∈ plan.uploadPaths) :
    localSnapshot.get? p ≠ none := by
  obtain ⟨l, hl, -⟩ := (mem_uploadPaths hactions).mp hp
  rw [hl]
  simp

include hactions hnames in
theorem disjoint_of_actions : Interleaved.Disjoint options.transfer fun p : plan.UploadPath ↦
    uploadOf options fresh localSnapshot bytes p.1 :=
  disjoint_uploadOf (fun _ hp ↦ local_of_uploadPath hactions hp) hnames

include hsizes hactions happlied

theorem Applied.size (p : String) {d : RemoteFile Bytes} (hd : t₁.get? p = some (.file d)) :
    d.len = d.content.length :=
  hsizes p d (get?_file_of_structure hactions happlied.structure_ok hd)

include hnames

/-- The uploads leave alone what they neither write to nor replace. -/
theorem Applied.get?_tree {p : String}
    (hp : ∀ q ∈ plan.uploadPaths, p ≠ q ∧ p ≠ workPath options fresh q) :
    s.tree.get? p = t₁.get? p := by
  have hframe := Interleaved.frame_of_reaches (disjoint_of_actions hactions hnames)
    happlied.uploads (q := p) fun q ↦
      ⟨(hp q.1 q.2).1, (target_uploadOf q.1).symm ▸ (hp q.1 q.2).2⟩
  rw [Interleaved.tree, get?_mapVal, hframe, filesOf, get?_mapVal]
  exact map_nodeOf_objectOf fun d ↦ Applied.size hsizes hactions happlied p

/-- What is there locally and not uploaded is untouched by the uploads. -/
theorem Applied.frame {p : String} (hp : localSnapshot.get? p ≠ none) (hnot : p ∉ plan.uploadPaths) :
    s.tree.get? p = t₁.get? p := by
  apply Applied.get?_tree hsizes hactions hnames happlied
  intro q hq
  refine ⟨fun h ↦ hnot (h ▸ hq), fun h ↦ ?_⟩
  cases hmode : options.transfer.atomic with
  | true => exact hp (h ▸ hnames.notLocal hmode q hq)
  | false =>
      rw [workPath, if_neg (Bool.not_eq_true _ ▸ hmode)] at h
      exact hnot (h ▸ hq)

variable (fresh localSnapshot bytes) in
/-- What an upload leaves of what it found to write to. -/
structure Uploaded (options : SyncOptions) (found : Option (Node (RemoteFile Bytes)))
    (tree : RemoteTree Bytes) (p : String) : Prop where
  untouched : (uploadOf options fresh localSnapshot bytes p).Untouched options.transfer
    (found.map objectOf) → tree.get? p = found
  written : ∃ d, tree.get? p = some (.file d) ∧ d.len = d.content.length ∧
    d.content = completed ((uploadOf options fresh localSnapshot bytes p).kept options.transfer
      (found.map objectOf)) (bytes p) ∧
    (¬(uploadOf options fresh localSnapshot bytes p).Untouched options.transfer
      (found.map objectOf) → ∀ m, (localSnapshot.get? p).bind SnapshotEntry.mtime = some m →
        d.mtime = some m)
  staging : options.transfer.atomic = true → tree.get? (workPath options fresh p) = none

/-- An uploaded file in the end, with what the upload found to write to. -/
theorem Applied.uploaded {p : String} (hp : p ∈ plan.uploadPaths) :
    Uploaded fresh localSnapshot bytes options (t₁.get? (workPath options fresh p)) s.tree p := by
  have hdisjoint : Interleaved.Disjoint options.transfer fun p : plan.UploadPath ↦
      uploadOf options fresh localSnapshot bytes p.1 := disjoint_of_actions hactions hnames
  have hprogress := Interleaved.inv_of_reaches hdisjoint happlied.uploads ⟨p, hp⟩
  have hbytes := Interleaved.bytes_of_done hdisjoint happlied.uploads (happlied.done ⟨p, hp⟩)
  rw [happlied.done ⟨p, hp⟩] at hprogress
  simp only [target_uploadOf, filesOf, get?_mapVal] at hprogress hbytes
  obtain ⟨huntouched, htime⟩ := hprogress.time rfl
  constructor
  · intro h
    rw [Interleaved.tree, get?_mapVal]
    refine (congrArg (Option.map nodeOf) (huntouched h)).trans ?_
    exact map_nodeOf_objectOf fun d ↦ Applied.size hsizes hactions happlied _
  · obtain ⟨object, hobject, hkind⟩ := get?_of_bytesAt hbytes
    have hnode : s.tree.get? p = some (nodeOf object) := by
      rw [Interleaved.tree, get?_mapVal]
      exact congrArg (Option.map nodeOf) hobject
    rw [nodeOf, hkind] at hnode
    refine ⟨_, hnode, rfl, rfl, fun h m hm ↦ ?_⟩
    have hmtime := htime h m hm
    rw [hobject] at hmtime
    exact hmtime
  · intro hatomic
    rw [Interleaved.tree, get?_mapVal]
    exact congrArg (Option.map nodeOf) (hprogress.path hatomic).2

include hlocal ht

/-- After uploads that resume from the right bytes, planning again gives no action. -/
theorem Applied.matches
    (hresumable : ∀ p ∈ plan.uploadPaths,
      Resumable options localSnapshot bytes (t₁.get? (workPath options fresh p)) p) :
    Matches localSnapshot options s.tree := by
  refine ⟨hlocal.kind, fun p l hl hkind ↦ ?_, fun p l hl hkind ↦ ?_, fun hdelete p hl ↦ ?_⟩
  · rw [Applied.frame hsizes hactions hnames happlied (by rw [hl]; simp) ?_]
    · exact get?_directory_of_structure hactions happlied.structure_ok ht hl hkind
    · intro hp
      obtain ⟨l', hl', hfile, -⟩ := (mem_uploadPaths hactions).mp hp
      rw [hl] at hl'
      cases hl'
      rw [hkind] at hfile
      cases hfile
  · by_cases hp : p ∈ plan.uploadPaths
    · obtain ⟨d, hd, hlen, hcontent, htime⟩ :=
        (Applied.uploaded hsizes hactions hnames happlied hp).written
      obtain ⟨hmerged, huntouched, hmtime⟩ :=
        (resumable_iff fresh fun d ↦ Applied.size hsizes hactions happlied _).mp
          (hresumable p hp)
      have hlen' : d.len = l.len := by
        rw [hlen, hcontent, hmerged, hlocal.len p l hl hkind]
      refine ⟨d, hd, ?_⟩
      rcases hmtime with hsize | hsome
      · simp [filesMatch, nodeEntry, hlen', hsize]
      · obtain ⟨m, hm⟩ := Option.ne_none_iff_exists'.mp hsome
        have hlm : l.mtime = some m := by rwa [hl] at hm
        exact filesMatch_self hlm hlen' ((htime huntouched m hm).trans hlm.symm)
    · have hmatch : ∃ r, remote.get? p = some r ∧ r.kind = .file ∧
          filesMatch l r options.sizeOnly = true := by
        by_contra hno
        refine hp ((mem_uploadPaths hactions).mpr ⟨l, hl, hkind, fun r hr hrk ↦ ?_⟩)
        by_contra hmatch
        exact hno ⟨r, hr, hrk, by simpa using hmatch⟩
      obtain ⟨r, hr, hrk, hmatch⟩ := hmatch
      obtain ⟨d, hd, hlen, hmtime⟩ := ht.get?_file hr hrk
      refine ⟨d, ?_, ?_⟩
      · rw [Applied.frame hsizes hactions hnames happlied (by rw [hl]; simp) hp,
          get?_of_kept hactions happlied.structure_ok hl hkind
            ⟨l, r, hl, hr, hkind.trans hrk.symm⟩, hd]
      · rw [← hmatch]
        exact filesMatch_congr hlen.symm hmtime.symm options.sizeOnly
  · by_cases hwork : ∃ q ∈ plan.uploadPaths, p = workPath options fresh q
    · obtain ⟨q, hq, rfl⟩ := hwork
      cases hmode : options.transfer.atomic with
      | true => exact (Applied.uploaded hsizes hactions hnames happlied hq).staging hmode
      | false =>
          rw [workPath, if_neg (Bool.not_eq_true _ ▸ hmode)] at hl
          exact absurd hl (local_of_uploadPath hactions hq)
    · rw [Applied.get?_tree hsizes hactions hnames happlied]
      · exact get?_none_of_structure hactions happlied.structure_ok ht hdelete hl
      · intro q hq
        exact ⟨fun h ↦ local_of_uploadPath hactions hq (h ▸ hl), fun h ↦ hwork ⟨q, hq, h⟩⟩

omit hlocal in
/-- An upload after which planning again gives no action has written to its file. -/
theorem Applied.not_untouched {plan' : SyncPlan} {p : String} (hp : p ∈ plan.uploadPaths)
    (hplan' : buildPushPlan localSnapshot (scanTree s.tree) options = .ok plan')
    (hempty : plan'.actions = []) :
    ¬(uploadOf options fresh localSnapshot bytes p).Untouched options.transfer
      ((t₁.get? (workPath options fresh p)).map objectOf) := by
  intro huntouched
  have huploaded := Applied.uploaded hsizes hactions hnames happlied hp
  obtain ⟨d, hpath, -⟩ := huploaded.written
  have hd := (huploaded.untouched huntouched).symm.trans hpath
  rw [workPath, if_neg (Bool.not_eq_true _ ▸ huntouched.1)] at hd
  obtain ⟨l, hl, hkind, hr⟩ := (mem_uploadPaths hactions).mp hp
  have hmatch := filesMatch_of_replan hplan' hempty hl hkind hpath
  -- The file is as it was when the plan was made, and then it did not match.
  have hrel := ht p
  rw [get?_file_of_structure hactions happlied.structure_ok hd] at hrel
  cases hrp : remote.get? p with
  | none => rw [hrp] at hrel; cases hrel
  | some r =>
      rw [hrp] at hrel
      cases hrel with
      | some hagrees =>
          obtain ⟨hrk, hlen, hmtime⟩ := hagrees
          have hsame : filesMatch l (nodeEntry (.file d)) options.sizeOnly =
              filesMatch l r options.sizeOnly := filesMatch_congr hlen.symm hmtime.symm _
          rw [hsame, hr r hrp hrk] at hmatch
          cases hmatch

end Applied

/-- A plan that was carried out leaves the local bytes in every uploaded file and nothing to do for
the next one, exactly when each upload resumed from a beginning of the local file. -/
theorem sync_content_iff (hlocal : LocalScan localSnapshot bytes) (ht : Represents t remote)
    (hsizes : ∀ p d, t.get? p = some (.file d) → d.len = d.content.length)
    (hplan : buildPushPlan localSnapshot remote options = .ok plan)
    (hnames : NoCollision options fresh localSnapshot plan.uploadPaths)
    (happlied : Applied options fresh localSnapshot bytes plan t t₁ s) :
    ((∀ p ∈ plan.uploadPaths, ∃ d, s.tree.get? p = some (.file d) ∧ d.content = bytes p) ∧
        ∃ plan', buildPushPlan localSnapshot (scanTree s.tree) options = .ok plan' ∧
          plan'.actions = []) ↔
      ∀ p ∈ plan.uploadPaths,
        Resumable options localSnapshot bytes (t₁.get? (workPath options fresh p)) p := by
  obtain ⟨-, hactions⟩ := buildPushPlan_ok hplan
  constructor
  · rintro ⟨hcontent, plan', hplan', hempty⟩ p hp
    have huntouched :=
      Applied.not_untouched ht hsizes hactions hnames happlied hp hplan' hempty
    obtain ⟨d, hd, -, hmerged, -⟩ := (Applied.uploaded hsizes hactions hnames happlied hp).written
    obtain ⟨d', hd', hbytes⟩ := hcontent p hp
    have heq : d' = d := by
      have h := hd'.symm.trans hd
      cases h
      rfl
    refine (resumable_iff fresh fun d ↦ Applied.size hsizes hactions happlied _).mpr
      ⟨?_, huntouched, ?_⟩
    · rw [← hmerged, ← heq, hbytes]
    · obtain ⟨l, hl, hkind, -⟩ := (mem_uploadPaths hactions).mp hp
      rw [hl]
      exact mtime_of_filesMatch (filesMatch_of_replan hplan' hempty hl hkind hd')
  · intro hresumable
    refine ⟨fun p hp ↦ ?_, _,
      (Applied.matches hlocal ht hsizes hactions hnames happlied hresumable).replan, rfl⟩
    obtain ⟨d, hd, -, hcontent, -⟩ :=
      (Applied.uploaded hsizes hactions hnames happlied hp).written
    obtain ⟨hmerged, -⟩ :=
      (resumable_iff fresh fun d ↦ Applied.size hsizes hactions happlied _).mp
        (hresumable p hp)
    exact ⟨d, hd, hcontent.trans hmerged⟩

/-! A file of three bytes is uploaded to where there are the first two of them, and to where there
are three others. -/

def oneFile (len : Nat) (mtime : Option Nat) : Snapshot := ⟨[("f", ⟨.file, len, mtime⟩)], by simp⟩

def oneFileTree (file : RemoteFile Bytes) : RemoteTree Bytes := ⟨[("f", .file file)], by simp⟩

def resumeInPlace : SyncOptions :=
  ⟨false, false, { TransferOptions.default with resume := true, atomic := false }⟩

def oneFilePlan : SyncPlan := ⟨[⟨.uploadFile, "f", 3⟩], 3, 1, 0, 0⟩

def oneFilePath : oneFilePlan.UploadPath := ⟨"f", by decide⟩

/-- The state in which the one upload of the plan has come to its end. -/
def oneFileEnd (file : RemoteFile Bytes) : Interleaved oneFilePlan.UploadPath String where
  files := filesOf (oneFileTree file)
  phase _ := .done

theorem localScan_oneFile : LocalScan (oneFile 3 (some 9)) (fun _ ↦ [2, 2, 2]) := by
  constructor
  · intro p l hl
    obtain rfl : l = ⟨.file, 3, some 9⟩ := by
      have := get?_eq_some_iff.mp hl
      simp_all [oneFile]
    decide
  · intro p l hl _
    obtain rfl : l = ⟨.file, 3, some 9⟩ := by
      have := get?_eq_some_iff.mp hl
      simp_all [oneFile]
    rfl

theorem represents_oneFile (file : RemoteFile Bytes) :
    Represents (oneFileTree file) (oneFile file.len file.mtime) := by
  intro p
  by_cases hp : p = "f"
  · subst hp
    exact .some ⟨rfl, rfl, rfl⟩
  · have htree : (oneFileTree file).get? p = none := by
      simp [oneFileTree, get?, Ne.symm hp]
    have hsnap : (oneFile file.len file.mtime).get? p = none := by
      simp [oneFile, get?, Ne.symm hp]
    rw [htree, hsnap]
    exact .none

/-- The requests of its upload carry out the plan. -/
theorem applied_oneFile {found file : RemoteFile Bytes} (requests : List FileRequest)
    (hrun : ∃ s, runEvents (Interleaved.step resumeInPlace.transfer fun p : oneFilePlan.UploadPath ↦
        uploadOf resumeInPlace id (oneFile 3 (some 9)) (fun _ ↦ [2, 2, 2]) p.1)
      (Interleaved.start (filesOf (oneFileTree found))) (requests.map fun r ↦ (oneFilePath, r)) =
        some s ∧ s.files = filesOf (oneFileTree file) ∧ s.phase oneFilePath = .done) :
    Applied resumeInPlace id (oneFile 3 (some 9)) (fun _ ↦ [2, 2, 2]) oneFilePlan
      (oneFileTree found) (oneFileTree found) (oneFileEnd file) where
  structure_ok := rfl
  uploads := by
    obtain ⟨⟨files, phase⟩, hrun, rfl, hphase⟩ := hrun
    have hdone : phase = fun _ ↦ .done := by
      funext p
      have hmem : p.1 ∈ ["f"] := p.2
      have hp : p = oneFilePath := Subtype.ext (mem_singleton.mp hmem)
      exact hp ▸ hphase
    subst hdone
    exact Reaches.start.runEvents _ hrun
  done _ := rfl

theorem resumed_applied :
    Applied resumeInPlace id (oneFile 3 (some 9)) (fun _ ↦ [2, 2, 2]) oneFilePlan
      (oneFileTree ⟨2, some 5, [2, 2]⟩) (oneFileTree ⟨2, some 5, [2, 2]⟩)
      (oneFileEnd ⟨3, some 9, [2, 2, 2]⟩) :=
  applied_oneFile [.inspect, .create none none, .send 1, .write (some 12), .close, .stamp]
    ⟨_, rfl, rfl, rfl⟩

/-- A transfer in place has no staging files. -/
theorem noCollision_in_place (snapshot : Snapshot) (paths : List String) :
    NoCollision resumeInPlace id snapshot paths where
  notLocal h := by cases h
  distinct h := by cases h

theorem oneFileTree_sizes {file : RemoteFile Bytes} (hfile : file.len = file.content.length)
    (p : String) (d : RemoteFile Bytes) (hd : (oneFileTree file).get? p = some (.file d)) :
    d.len = d.content.length := by
  have hmem := get?_eq_some_iff.mp hd
  simp only [oneFileTree, mem_singleton, Prod.mk.injEq, Node.file.injEq] at hmem
  rw [hmem.2]
  exact hfile

theorem sync_content_resumed :
    (∀ p ∈ oneFilePlan.uploadPaths,
        ∃ d, (oneFileEnd ⟨3, some 9, [2, 2, 2]⟩).tree.get? p = some (.file d) ∧
          d.content = [2, 2, 2]) ∧
      ∃ plan, buildPushPlan (oneFile 3 (some 9))
          (scanTree (oneFileEnd ⟨3, some 9, [2, 2, 2]⟩).tree) resumeInPlace = .ok plan ∧
        plan.actions = [] := by
  have hplan : buildPushPlan (oneFile 3 (some 9)) (oneFile 2 (some 5)) resumeInPlace =
      .ok oneFilePlan := by decide
  refine (sync_content_iff localScan_oneFile (represents_oneFile ⟨2, some 5, [2, 2]⟩)
    (oneFileTree_sizes rfl) hplan (noCollision_in_place _ _) resumed_applied).mpr ?_
  intro p hp
  obtain rfl : p = "f" := by simpa [oneFilePlan, SyncPlan.uploadPaths] using hp
  refine ⟨fun _ d hd _ ↦ ?_, fun _ _ d hd hlen ↦ ?_, .inr (by decide)⟩
  · have hfile : (⟨2, some 5, [2, 2]⟩ : RemoteFile Bytes) = d := by
      have h : some (Node.file ⟨2, some 5, [2, 2]⟩) = some (Node.file d) := hd
      cases h
      rfl
    rw [← hfile]
    decide
  · have h : some (Node.file (⟨2, some 5, [2, 2]⟩ : RemoteFile Bytes)) = some (Node.file d) := hd
    cases h
    cases hlen

theorem stale_applied :
    Applied resumeInPlace id (oneFile 3 (some 9)) (fun _ ↦ [2, 2, 2]) oneFilePlan
      (oneFileTree ⟨3, some 5, [1, 1, 1]⟩) (oneFileTree ⟨3, some 5, [1, 1, 1]⟩)
      (oneFileEnd ⟨3, some 5, [1, 1, 1]⟩) :=
  applied_oneFile [.inspect, .skip] ⟨_, rfl, rfl, rfl⟩

/-- The plan uploads the file because it is older, and the upload leaves it because it is as long:
the transfer succeeds and the old bytes stay. -/
theorem stale_bytes_stay :
    buildPushPlan (oneFile 3 (some 9)) (oneFile 3 (some 5)) resumeInPlace = .ok oneFilePlan ∧
      Represents (oneFileTree ⟨3, some 5, [1, 1, 1]⟩) (oneFile 3 (some 5)) ∧
      Applied resumeInPlace id (oneFile 3 (some 9)) (fun _ ↦ [2, 2, 2]) oneFilePlan
        (oneFileTree ⟨3, some 5, [1, 1, 1]⟩) (oneFileTree ⟨3, some 5, [1, 1, 1]⟩)
        (oneFileEnd ⟨3, some 5, [1, 1, 1]⟩) ∧
      ¬((∀ p ∈ oneFilePlan.uploadPaths,
          ∃ d, (oneFileEnd ⟨3, some 5, [1, 1, 1]⟩).tree.get? p = some (.file d) ∧
            d.content = [2, 2, 2]) ∧
        ∃ plan, buildPushPlan (oneFile 3 (some 9))
          (scanTree (oneFileEnd ⟨3, some 5, [1, 1, 1]⟩).tree) resumeInPlace = .ok plan ∧
          plan.actions = []) := by
  refine ⟨by decide, represents_oneFile ⟨3, some 5, [1, 1, 1]⟩, stale_applied, ?_⟩
  rintro ⟨hcontent, -⟩
  obtain ⟨d, hd, hbytes⟩ := hcontent "f" (by decide)
  have h : some (Node.file (⟨3, some 5, [1, 1, 1]⟩ : RemoteFile Bytes)) = some (Node.file d) := hd
  cases h
  cases hbytes

end KaduoxSsh.Transfer
