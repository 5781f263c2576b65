import KaduoxSsh.Transfer.GeneratedPlans

/-!
# The preflight of a generated plan

Along the way to a destination there are local directories. Where the server has none,
nothing is known to be below, and the rest of the way is new; where it has something else,
the plan replaces it. So what can stop an upload is a file of the same name that is to
stay, or a root that is refused.
-/

namespace KaduoxSsh.Transfer

open Text Hierarchy Result List

/-! ## The two trees -/

/-- What a scan finds: names that may be part of a path, and everything in a directory. -/
structure Snapshot.Scanned (s : Snapshot) : Prop where
  path : ∀ e ∈ s.entries, validateRemoteRelativePath e.1 = .ok ()
  parent : ∀ e ∈ s.entries, ∀ q, parentPath e.1 = some q →
    (s.get? q).map SnapshotEntry.kind = some .directory

section

variable {s : Snapshot} {names front back : List String} {name : String}

theorem parentPath_join {relative : String} (hname : SingleName name) :
    parentPath (relative ++ "/" ++ name) = some relative := by
  have htext : (relative ++ "/" ++ name).toList = relative.toList ++ '/' :: name.toList := by
    rw [String.toList_append, String.toList_append, append_assoc]
    rfl
  rw [parentPath, htext, rsplitOnce_append _ hname.2, Option.map_some, String.ofList_toList]

/-- The directory of an entry is the text without the last name. -/
theorem parentPath_relativeText
    (hnames : ∀ n ∈ names ++ [name], validateRemoteChildName n = .ok ()) (hne : names ≠ []) :
    parentPath (relativeText (names ++ [name])) = some (relativeText names) := by
  have hvalid := valid_foldl_joinRelative (fun n hn ↦ hnames n (mem_append_left _ hn)) hne
  have hrelative : relativeText names ≠ "" := by
    intro heq
    rw [← relativeText, heq] at hvalid
    cases hvalid
  rw [relativeText_concat, joinRelative_eq hrelative]
  exact parentPath_join (plainName_of_valid (hnames name (by simp))).singleName

/-- Above an entry there are directories. -/
theorem Snapshot.Scanned.directory_of_prefix (h : s.Scanned)
    (hnames : ∀ name ∈ front ++ back, validateRemoteChildName name = .ok ()) (hfront : front ≠ [])
    (hback : back ≠ []) (hpresent : s.get? (relativeText (front ++ back)) ≠ none) :
    ∃ r, s.get? (relativeText front) = some r ∧ r.kind = .directory := by
  induction back using List.reverseRecOn with
  | nil => exact absurd rfl hback
  | append_singleton between last ih =>
      rw [← append_assoc] at hnames hpresent
      obtain ⟨e, he⟩ := Option.ne_none_iff_exists'.mp hpresent
      have hparent := h.parent _ (SortedMap.get?_eq_some_iff.mp he) _
        (parentPath_relativeText hnames (by simp [hfront]))
      obtain ⟨r, hr, hdirectory⟩ := Option.map_eq_some_iff.mp hparent
      by_cases hnil : between = []
      · rw [hnil, append_nil] at hr
        exact ⟨r, hr, hdirectory⟩
      · refine ih (fun name hname ↦ hnames name (mem_append_left _ hname)) hnil ?_
        rw [hr]
        exact Option.some_ne_none r

end

/-- What a scan tells of an object. -/
def entryKind (object : Object) : EntryKind :=
  match object.kind with
  | .directory => .directory
  | .regular _ => .file
  | .symlink | .other => .other

/-- The names of the segments that a way leads by. -/
def wayNames (names : List String) : List String := names.filter fun name ↦ name ≠ "."

/-- Down to where nothing is there, a way leads by directories only, and never up. -/
def WayOpen (t : ServerFiles) (done rest : List String) : Prop :=
  ∀ front segment back, rest = front ++ segment :: back →
    DirectoryAt IsDirectoryObject t (wayNames (done ++ front)) →
      segment ≠ ".." ∧ ¬Blocked IsDirectoryObject t (wayNames (done ++ front ++ [segment]))

structure RootAccepted (t : ServerFiles) (root : String) : Prop where
  noNul : '\x00' ∉ root.toList
  way : WayOpen t [] (segments root)

/-- A snapshot tells what is below a remote root. -/
def Snapshot.Shows (s : Snapshot) (t : ServerFiles) (root : String) : Prop :=
  ∀ path, validateRemoteRelativePath path = .ok () →
    (t.get? (place root path)).map entryKind = (s.get? path).map SnapshotEntry.kind

/-- A snapshot is a scan of a remote root. Where the way there leads through a link or up, the scan
has been made elsewhere. -/
def ScanOf (t : ServerFiles) (root : String) (s : Snapshot) : Prop :=
  RootAccepted t root → s.Shows t root

section

variable {t : ServerFiles} {root current segment : String} {done rest : List String}

theorem wayOpen_cons : WayOpen t done (segment :: rest) ↔
    (DirectoryAt IsDirectoryObject t (wayNames done) →
      segment ≠ ".." ∧ ¬Blocked IsDirectoryObject t (wayNames (done ++ [segment]))) ∧
    WayOpen t (done ++ [segment]) rest := by
  constructor
  · refine fun h ↦ ⟨fun hdirectory ↦ ?_, fun front name back hrest hdirectory ↦ ?_⟩
    · have hfirst := h [] segment rest rfl
      rw [append_nil] at hfirst
      exact hfirst hdirectory
    · have hnext := h (segment :: front) name back (by rw [hrest]; rfl)
      rw [append_cons done segment front] at hnext
      exact hnext hdirectory
  · rintro ⟨hfirst, hnext⟩ front name back hrest hdirectory
    cases front with
    | nil =>
        obtain ⟨rfl, rfl⟩ := cons_eq_cons.mp hrest
        rw [append_nil] at hdirectory ⊢
        exact hfirst hdirectory
    | cons first front =>
        obtain ⟨rfl, htail⟩ := cons_eq_cons.mp hrest
        rw [append_cons done segment front] at hdirectory ⊢
        exact hnext front name back htail hdirectory

theorem wayNames_dot (done : List String) : wayNames (done ++ ["."]) = wayNames done := by
  rw [wayNames, filter_append]
  exact append_nil _

theorem wayNames_name (done : List String) (h : segment ≠ ".") :
    wayNames (done ++ [segment]) = wayNames done ++ [segment] := by
  rw [wayNames, filter_append, filter_cons_of_pos (by simp [h])]
  rfl

theorem wayNames_begins (done rest : List String) : wayNames done <+: wayNames (done ++ rest) := by
  rw [wayNames, wayNames, filter_append]
  exact prefix_append _ _

/-- The walk to a root comes to an end exactly on an open way. -/
theorem rootSegmentsExist_iff (hwf : WellFormed IsDirectoryObject t)
    (hnames : ∀ name ∈ rest, SingleName name) (hcurrent : remoteComponents current = wayNames done)
    (hdone : DirectoryAt IsDirectoryObject t (wayNames done)) :
    (∃ found, rootSegmentsExist t root current rest = .ok found) ↔ WayOpen t done rest := by
  induction rest generalizing current done with
  | nil => exact ⟨fun _ front segment back h ↦ by simp at h, fun _ ↦ ⟨true, rfl⟩⟩
  | cons segment rest ih =>
      obtain ⟨hname, hrest⟩ := forall_mem_cons.mp hnames
      rw [wayOpen_cons, rootSegmentsExist]
      by_cases hdot : segment = "."
      · subst hdot
        rw [if_pos rfl, ih hrest (hcurrent.trans (wayNames_dot done).symm)
          ((wayNames_dot done).symm ▸ hdone), wayNames_dot]
        refine ⟨fun h ↦ ⟨fun _ ↦ ⟨by decide, fun hblocked ↦ ?_⟩, h⟩, And.right⟩
        exact hblocked.not_directoryAt hwf hdone
      · have hhere : remoteComponents (joinRemoteComponent current segment) =
            wayNames (done ++ [segment]) := by
          rw [remoteComponents_join hname hdot, hcurrent, wayNames_name done hdot]
        rw [if_neg hdot]
        by_cases hup : segment = ".."
        · rw [if_pos hup]
          exact ⟨by rintro ⟨_, ⟨⟩⟩, fun h ↦ absurd hup (h.1 hdone).1⟩
        · rw [if_neg hup]
          dsimp only
          rw [remoteNodeKindIfExists, hhere]
          cases hkind : (t.get? (wayNames (done ++ [segment]))).map remoteNodeKind with
          | none =>
              have hnone := Option.map_eq_none_iff.mp hkind
              refine ⟨fun _ ↦ ⟨fun _ ↦ ⟨hup, fun hblocked ↦ hblocked.ne_none hnone⟩, ?_⟩,
                fun _ ↦ ⟨false, rfl⟩⟩
              intro front name back _ hdirectory
              refine absurd (hwf.directoryAt_of_prefix hdirectory (wayNames_begins _ _))
                (not_directoryAt_of_none ?_ hnone)
              rw [wayNames_name done hdot]
              exact append_ne_nil_of_right_ne_nil _ (cons_ne_nil _ _)
          | some found =>
              cases found with
              | directory =>
                  rw [ih hrest hhere (directoryAt_of_kind hkind)]
                  exact ⟨fun h ↦ ⟨fun _ ↦ ⟨hup, not_blocked_of_kind hkind⟩, h⟩, And.right⟩
              | symlink | other =>
                  refine ⟨by rintro ⟨_, ⟨⟩⟩, fun h ↦ absurd ?_ (h.1 hdone).2⟩
                  exact blocked_of_kind hkind RemoteNodeKind.noConfusion

/-- A root is looked at to the end exactly when it is accepted. -/
theorem remoteRootExists_iff (hwf : WellFormed IsDirectoryObject t) :
    (∃ found, remoteRootExistsWithoutSymlinks t root = .ok found) ↔ RootAccepted t root := by
  have hwalk : (∃ found, rootSegmentsExist t root (walkStart root) (segments root) = .ok found) ↔
      WayOpen t [] (segments root) :=
    rootSegmentsExist_iff hwf (fun name hname ↦ singleName_of_mem_segments hname)
      (remoteComponents_walkStart root) (.inl rfl)
  unfold remoteRootExistsWithoutSymlinks
  split
  · next hroot =>
    refine ⟨fun _ ↦ ⟨?_, hwalk.mp ⟨true, ?_⟩⟩, fun _ ↦ ⟨true, rfl⟩⟩
    · rcases hroot with rfl | rfl | rfl <;> decide
    · rcases hroot with rfl | rfl | rfl <;> rfl
  · split
    · next hnul => exact ⟨fun ⟨_, h⟩ ↦ (nomatch h), fun h ↦ absurd hnul h.noNul⟩
    · next hnul =>
      rw [hwalk]
      exact ⟨fun h ↦ ⟨hnul, h⟩, RootAccepted.way⟩

end

/-! ## The walk to a destination -/

/-- A plan removes what is at a path. -/
def Deletes (plan : SyncPlan) (path : String) : Prop :=
  ∃ action ∈ plan.actions, isDeletion action = true ∧ action.path = path

theorem deletes_iff {plan : SyncPlan} {path : String} : Deletes plan path ↔
    Plans plan .deleteRemoteFile path ∨ Plans plan .deleteRemoteDirectory path := by
  simp only [Deletes, Plans, isDeletion_iff, or_and_right, and_or_left, exists_or]

section

variable {object : Option Object} {entry : Option SnapshotEntry} {found : RemoteNodeKind}

/-- What a scan has seen of what the preflight sees. -/
theorem entry_eq_none (hscan : object.map entryKind = entry.map SnapshotEntry.kind)
    (h : object.map remoteNodeKind = none) : entry = none := by
  rw [Option.map_eq_none_iff.mp h] at hscan
  exact Option.map_eq_none_iff.mp hscan.symm

theorem entry_of_node (hscan : object.map entryKind = entry.map SnapshotEntry.kind)
    (h : object.map remoteNodeKind = some found) :
    ∃ r, entry = some r ∧ (r.kind = .directory ↔ found = .directory) := by
  obtain ⟨o, rfl, rfl⟩ := Option.map_eq_some_iff.mp h
  obtain ⟨r, hr, hkind⟩ := Option.map_eq_some_iff.mp hscan.symm
  refine ⟨r, hr, ?_⟩
  rw [hkind, entryKind, remoteNodeKind]
  cases o.kind <;> simp

end

section

variable {t : ServerFiles} {root path : String} {localSnapshot remote : Snapshot}
  {options : SyncOptions} {plan : SyncPlan} {mutations : Mutations} {l r : SnapshotEntry}
  {done rest : List String}

theorem hasDelete_iff (hcollects : Collects plan mutations) :
    (mutationFor mutations path).hasDelete = true ↔ Deletes plan path := by
  rw [deletes_iff, ← hcollects path .deleteRemoteFile SyncActionKind.noConfusion,
    ← hcollects path .deleteRemoteDirectory SyncActionKind.noConfusion, PlannedMutation.hasDelete,
    Bool.or_eq_true]
  rfl

section

variable (hplan : buildPushPlan localSnapshot remote options = .ok plan)
  (hcollects : Collects plan mutations)

include hplan

theorem not_deletes_of_none (hr : remote.get? path = none) : ¬Deletes plan path := by
  rintro ⟨action, haction, hdeletion, rfl⟩
  obtain ⟨r, hsome, -⟩ := eq_deletion_of_mem hplan haction hdeletion
  rw [hr] at hsome
  cases hsome

theorem not_deletes_of_same (hl : localSnapshot.get? path = some l) (hr : remote.get? path = some r)
    (hsame : l.kind = r.kind) : ¬Deletes plan path := by
  rintro ⟨action, haction, hdeletion, rfl⟩
  obtain ⟨r', hsome, -, hne⟩ := eq_deletion_of_mem hplan haction hdeletion
  rw [hr] at hsome
  cases hsome
  exact hne l hl hsame

/-- What is of another kind is removed. -/
theorem deletes_of_ne (hl : localSnapshot.get? path = some l) (hr : remote.get? path = some r)
    (hne : r.kind ≠ l.kind) : Deletes plan path := by
  obtain ⟨action, haction, hkind, hpath⟩ := plans_deletion hplan hl hr hne
  refine ⟨action, haction, ?_, hpath⟩
  rw [isDeletion, hkind]
  exact isDeletion_deletion r.kind path

include hcollects

theorem createsDirectory_iff : (mutationFor mutations path).createsDirectory = true ↔
    ∃ l, localSnapshot.get? path = some l ∧ l.kind = .directory ∧
      ∀ r, remote.get? path = some r → r.kind ≠ .directory := by
  rw [← plans_createDirectory hplan,
    ← hcollects path .createRemoteDirectory SyncActionKind.noConfusion]
  rfl

theorem not_createsDirectory_of_file (hl : localSnapshot.get? path = some l)
    (hfile : l.kind = .file) :
    ¬(mutationFor mutations path).createsDirectory = true := by
  rw [createsDirectory_iff hplan hcollects]
  rintro ⟨l', hl', hdirectory, -⟩
  rw [hl] at hl'
  cases hl'
  rw [hfile] at hdirectory
  cases hdirectory

/-- What is no directory is removed as a file only. -/
theorem deletesFile_iff_of_other (hr : remote.get? path = some r) (hother : r.kind ≠ .directory) :
    ((mutationFor mutations path).deletesFile = true ↔ Deletes plan path) ∧
      (mutationFor mutations path).deletesDirectory = false := by
  have hnot : ¬Plans plan .deleteRemoteDirectory path := by
    intro hplans
    obtain ⟨r', hr', hdirectory, -⟩ := of_plans_deleteDirectory hplan hplans
    rw [hr] at hr'
    cases hr'
    exact hother hdirectory
  rw [deletes_iff, or_iff_left hnot, ← hcollects path .deleteRemoteFile SyncActionKind.noConfusion]
  rw [← hcollects path .deleteRemoteDirectory SyncActionKind.noConfusion] at hnot
  exact ⟨Iff.rfl, Bool.not_eq_true _ ▸ hnot⟩

theorem deletesDirectory_iff_of_directory (hr : remote.get? path = some r)
    (hdirectory : r.kind = .directory) :
    ((mutationFor mutations path).deletesDirectory = true ↔ Deletes plan path) ∧
      (mutationFor mutations path).deletesFile = false := by
  have hnot : ¬Plans plan .deleteRemoteFile path := by
    intro hplans
    obtain ⟨r', hr', hother, -⟩ := of_plans_deleteFile hplan hplans
    rw [hr] at hr'
    cases hr'
    exact hother hdirectory
  rw [deletes_iff, or_iff_right hnot,
    ← hcollects path .deleteRemoteDirectory SyncActionKind.noConfusion]
  rw [← hcollects path .deleteRemoteFile SyncActionKind.noConfusion] at hnot
  exact ⟨Iff.rfl, Bool.not_eq_true _ ▸ hnot⟩

/-- The last check, at a local file. -/
theorem validateFinal_iff {object : Option Object} {text : String}
    (hl : localSnapshot.get? path = some l) (hfile : l.kind = .file)
    (hscan : object.map entryKind = (remote.get? path).map SnapshotEntry.kind) :
    validateFinalUploadDestination text (object.map remoteNodeKind) (mutationFor mutations path) =
        .ok () ↔ (remote.get? path ≠ none → Deletes plan path) := by
  unfold validateFinalUploadDestination
  rw [if_neg (not_createsDirectory_of_file hplan hcollects hl hfile)]
  cases hnode : object.map remoteNodeKind with
  | none =>
      have hnone := entry_eq_none hscan hnode
      have hdelete := (hasDelete_iff hcollects).not.mpr (not_deletes_of_none hplan hnone)
      exact ⟨fun _ hpresent ↦ absurd hnone hpresent, fun _ ↦ bailIf_of_not hdelete _⟩
  | some found =>
      obtain ⟨r, hr, hdirectory⟩ := entry_of_node hscan hnode
      have hpresent : remote.get? path ≠ none := hr ▸ Option.some_ne_none r
      rw [forall_prop_of_true hpresent]
      cases found with
      | directory =>
          obtain ⟨hdeletes, hnot⟩ :=
            deletesDirectory_iff_of_directory hplan hcollects hr (hdirectory.mpr rfl)
          rw [← hdeletes]
          dsimp only
          rw [hnot]
          cases (mutationFor mutations path).deletesDirectory <;> simp [rejectAtomicOverwrite]
      | symlink | other =>
          obtain ⟨hdeletes, hnot⟩ := deletesFile_iff_of_other hplan hcollects hr
            (hdirectory.not.mpr RemoteNodeKind.noConfusion)
          rw [← hdeletes]
          dsimp only
          rw [hnot]
          cases (mutationFor mutations path).deletesFile <;> simp [rejectAtomicOverwrite]

/-- Below what is no remote directory nothing stops an upload. -/
theorem preflight_fresh (hremote : remote.Scanned)
    (hnames : ∀ name ∈ done ++ rest, validateRemoteChildName name = .ok ()) (hdone : done ≠ [])
    (hfresh : ∀ r, remote.get? (relativeText done) = some r → r.kind ≠ .directory)
    (hl : localSnapshot.get? (relativeText (done ++ rest)) = some l) (hfile : l.kind = .file) :
    preflightUploadComponents t root mutations (relativeText done) true rest = .ok () := by
  induction rest generalizing done with
  | nil => rfl
  | cons name rest ih =>
      rw [append_cons] at hnames hl
      have hnone : remote.get? (relativeText (done ++ [name])) = none := by
        by_contra hpresent
        obtain ⟨r, hr, hdirectory⟩ := hremote.directory_of_prefix
          (fun n hn ↦ hnames n (mem_append_left _ hn)) hdone (cons_ne_nil _ _) hpresent
        exact hfresh r hr hdirectory
      have hdelete := (hasDelete_iff hcollects).not.mpr (not_deletes_of_none hplan hnone)
      rw [preflightUploadComponents, ← relativeText_concat, if_pos rfl]
      by_cases hlast : rest = []
      · subst hlast
        rw [append_nil] at hl
        rw [if_pos rfl, validateUploadBeneathFreshAncestor, if_neg hdelete,
          if_neg (not_createsDirectory_of_file hplan hcollects hl hfile)]
      · rw [if_neg hlast, validateParentBeneathFreshAncestor, bailIf_of_not hdelete,
          bind_ok]
        refine ih hnames (append_ne_nil_of_right_ne_nil _ (cons_ne_nil _ _)) ?_ hl
        rw [hnone]
        exact nofun

/-- Only at its end can the walk to a destination come to a stop. -/
theorem preflightComponents_iff (hlocal : localSnapshot.Scanned) (hremote : remote.Scanned)
    (hscan : remote.Shows t root)
    (hnames : ∀ name ∈ done ++ rest, validateRemoteChildName name = .ok ()) (hrest : rest ≠ [])
    (hl : localSnapshot.get? (relativeText (done ++ rest)) = some l) (hfile : l.kind = .file) :
    preflightUploadComponents t root mutations (relativeText done) false rest = .ok () ↔
      (remote.get? (relativeText (done ++ rest)) ≠ none →
        Deletes plan (relativeText (done ++ rest))) := by
  induction rest generalizing done with
  | nil => exact absurd rfl hrest
  | cons name rest ih =>
      rw [append_cons] at hnames hl ⊢
      have hnil : done ++ [name] ≠ [] := append_ne_nil_of_right_ne_nil _ (cons_ne_nil _ _)
      have hsofar : ∀ n ∈ done ++ [name], validateRemoteChildName n = .ok () := fun n hn ↦
        hnames n (mem_append_left _ hn)
      have hhere : validateRemoteRelativePath (relativeText (done ++ [name])) = .ok () :=
        valid_foldl_joinRelative hsofar hnil
      have hseen := hscan _ hhere
      have hplace : remoteComponents (leading root ++ relativeText (done ++ [name])) =
          place root (relativeText (done ++ [name])) := (joinRemoteUnderRoot_components hhere).1
      rw [preflightUploadComponents, ← relativeText_concat, if_neg Bool.false_ne_true,
        joinRemoteUnderRoot_eq hhere, bind_ok, remoteNodeKindIfExists, hplace]
      by_cases hlast : rest = []
      · subst hlast
        rw [if_pos rfl, append_nil] at *
        exact validateFinal_iff hplan hcollects hl hfile hseen
      · rw [if_neg hlast]
        obtain ⟨directory, hdirectory, hkind⟩ := hlocal.directory_of_prefix hnames hnil hlast
          (hl ▸ Option.some_ne_none l)
        -- Below what is no directory there is nothing, and what comes there is new.
        have hbelow (hother : ∀ r, remote.get? (relativeText (done ++ [name])) = some r →
            r.kind ≠ .directory) :
            preflightUploadComponents t root mutations (relativeText (done ++ [name])) true rest =
                .ok () ↔ (remote.get? (relativeText (done ++ [name] ++ rest)) ≠ none →
                Deletes plan (relativeText (done ++ [name] ++ rest))) := by
          refine iff_of_true ?_ fun hpresent ↦ ?_
          · exact preflight_fresh hplan hcollects hremote hnames hnil hother hl hfile
          · obtain ⟨r, hr, hdirectory⟩ := hremote.directory_of_prefix hnames hnil hlast hpresent
            exact absurd hdirectory (hother r hr)
        cases hnode : (t.get? (place root (relativeText (done ++ [name])))).map remoteNodeKind with
        | none =>
            have hnone := entry_eq_none hseen hnode
            have hdelete := (hasDelete_iff hcollects).not.mpr (not_deletes_of_none hplan hnone)
            dsimp only
            rw [if_neg hdelete]
            refine hbelow fun r hr ↦ ?_
            rw [hnone] at hr
            cases hr
        | some found =>
            obtain ⟨r, hr, hfound⟩ := entry_of_node hseen hnode
            cases found with
            | directory =>
                have hsame : directory.kind = r.kind := hkind.trans (hfound.mpr rfl).symm
                have hdelete := (hasDelete_iff hcollects).not.mpr
                  (not_deletes_of_same hplan hdirectory hr hsame)
                dsimp only
                rw [if_neg hdelete]
                exact ih hnames hlast hl
            | symlink | other =>
                have hother := hfound.not.mpr RemoteNodeKind.noConfusion
                obtain ⟨hdeletes, hnot⟩ := deletesFile_iff_of_other hplan hcollects hr hother
                have hreplaced := hdeletes.mpr (deletes_of_ne hplan hdirectory hr (hkind ▸ hother))
                have honly : ∀ r', remote.get? (relativeText (done ++ [name])) = some r' →
                    r'.kind ≠ .directory := by
                  intro r' hr'
                  rw [hr] at hr'
                  cases hr'
                  exact hother
                have hcreated := (createsDirectory_iff hplan hcollects).mpr
                  ⟨directory, hdirectory, hkind, honly⟩
                dsimp only
                rw [hreplaced, hnot, hcreated]
                exact hbelow honly

/-- The check of one upload below a root that is there. -/
theorem preflightAtomicUploadPath_iff (hlocal : localSnapshot.Scanned) (hremote : remote.Scanned)
    (hscan : remote.Shows t root)
    (hl : localSnapshot.get? path = some l) (hfile : l.kind = .file) :
    preflightAtomicUploadPath t root path mutations = .ok () ↔
      (remote.get? path ≠ none → Deletes plan path) := by
  have hvalid := hlocal.path _ (SortedMap.get?_eq_some_iff.mp hl)
  rw [preflightAtomicUploadPath, hvalid, bind_ok]
  have htext : relativeText ([] ++ splitPath path) = path := relativeText_splitPath hvalid
  have hnames : ∀ name ∈ [] ++ splitPath path, validateRemoteChildName name = .ok () :=
    valid_iff.mp hvalid
  have hwalk := preflightComponents_iff hplan hcollects hlocal hremote hscan hnames
    (splitPath_ne_nil path) (htext.symm ▸ hl) hfile
  rwa [htext] at hwalk

end

/-- Below a root that is not there, a scan finds nothing. -/
theorem scan_empty (hwf : WellFormed IsDirectoryObject t) (hremote : remote.Scanned)
    (hscan : remote.Shows t root)
    (hroot : remoteRootExistsWithoutSymlinks t root = .ok false) (path : String) :
    remote.get? path = none := by
  obtain ⟨dir, hdir, hne, hmissing⟩ := exists_missing hroot
  by_contra hpresent
  obtain ⟨r, hr⟩ := Option.ne_none_iff_exists'.mp hpresent
  have hseen := hscan path (hremote.path _ (SortedMap.get?_eq_some_iff.mp hr))
  have hbelow : t.get? (place root path) = none := by
    refine hwf.eq_none (not_directoryAt_of_none hne hmissing)
      (hdir.trans (prefix_append _ _)) fun heq ↦ ?_
    have hlength := hdir.length_le
    have hpositive := length_pos_iff.mpr (splitPath_ne_nil path)
    rw [heq, place, length_append] at hlength
    omega
  rw [hbelow, hr] at hseen
  cases hseen

/-- Below an accepted root, only a file that is to stay stops an upload. -/
theorem preflightAtomicSync_iff (hwf : WellFormed IsDirectoryObject t)
    (hlocal : localSnapshot.Scanned) (hremote : remote.Scanned)
    (hscan : remote.Shows t root)
    (hplan : buildPushPlan localSnapshot remote options = .ok plan) (hroot : RootAccepted t root) :
    preflightAtomicSync t root plan = .ok () ↔
      ∀ action ∈ plan.uploads, remote.get? action.path ≠ none → Deletes plan action.path := by
  obtain ⟨mutations, hmutations, hcollects⟩ := collects_of_plan hplan
  obtain ⟨found, hfound⟩ := (remoteRootExists_iff hwf).mpr hroot
  rw [preflightAtomicSync, hmutations, bind_ok, hfound, bind_ok]
  cases found with
  | true =>
      rw [if_pos rfl, forM_eq_ok]
      refine forall₂_congr fun action haction ↦ ?_
      obtain ⟨l, hl, hfile⟩ := file_of_mem_uploads hplan haction
      exact preflightAtomicUploadPath_iff hplan hcollects hlocal hremote hscan hl hfile
  | false =>
      have hempty := scan_empty hwf hremote hscan hfound
      have hnone : plan.actions.find? isDeletion = none := by
        refine List.find?_eq_none.mpr fun action haction hdeletion ↦ ?_
        exact not_deletes_of_none hplan (hempty _) ⟨action, haction, hdeletion, rfl⟩
      rw [if_neg Bool.false_ne_true, hnone]
      refine iff_of_true (forM_eq_ok.mpr fun action haction ↦ ?_)
        fun action _ hpresent ↦ absurd (hempty _) hpresent
      obtain ⟨l, hl, hfile⟩ := file_of_mem_uploads hplan haction
      have hdelete := (hasDelete_iff hcollects).not.mpr
        (not_deletes_of_none hplan (hempty action.path))
      rw [validateUploadBeneathFreshAncestor, if_neg hdelete,
        if_neg (not_createsDirectory_of_file hplan hcollects hl hfile)]

/-- The preflight of a plan that was made for what lies on the server passes exactly when the
root is accepted and no upload meets something that stays. So replacements of an object by one of
another kind, and what is new, never stop it. -/
theorem preflightAtomicSync_exact (t : ServerFiles) (root : String)
    (localSnapshot remote : Snapshot) (options : SyncOptions) (plan : SyncPlan)
    (hwf : WellFormed IsDirectoryObject t) (hlocal : localSnapshot.Scanned)
    (hremote : remote.Scanned) (hscan : ScanOf t root remote)
    (hplan : buildPushPlan localSnapshot remote options = .ok plan) :
    (preflightAtomicSync t root plan = .ok () ↔ RootAccepted t root ∧
      ∀ action ∈ plan.uploads, remote.get? action.path ≠ none → Deletes plan action.path) ∧
    (RootAccepted t root →
      (∀ action ∈ plan.uploads, ∀ r, remote.get? action.path = some r → r.kind ≠ .file) →
        preflightAtomicSync t root plan = .ok ()) := by
  constructor
  · constructor
    · intro h
      obtain ⟨mutations, hmutations, hrest⟩ := bind_eq_ok.mp h
      obtain ⟨found, hfound, -⟩ := bind_eq_ok.mp hrest
      have hroot := (remoteRootExists_iff hwf).mp ⟨found, hfound⟩
      exact ⟨hroot, (preflightAtomicSync_iff hwf hlocal hremote (hscan hroot) hplan hroot).mp h⟩
    · rintro ⟨hroot, huploads⟩
      exact (preflightAtomicSync_iff hwf hlocal hremote (hscan hroot) hplan hroot).mpr huploads
  · intro hroot hkinds
    rw [preflightAtomicSync_iff hwf hlocal hremote (hscan hroot) hplan hroot]
    intro action haction hpresent
    obtain ⟨r, hr⟩ := Option.ne_none_iff_exists'.mp hpresent
    obtain ⟨l, hl, hfile⟩ := file_of_mem_uploads hplan haction
    exact deletes_of_ne hplan hl hr (hfile ▸ hkinds action haction r hr)

end

/-! A root that leads up is planned for, and refused. -/

def newFile : Snapshot := ⟨[("a", ⟨.file, 1, none⟩)], by decide⟩

def newFilePlan : SyncPlan := ⟨[⟨.uploadFile, "a", 1⟩], 1, 1, 0, 0⟩

theorem newFile_scanned : newFile.Scanned := by
  constructor <;> decide

theorem scanned_empty : Snapshot.Scanned .empty := by
  constructor <;> decide

theorem preflight_refuses_root :
    ¬∀ (t : ServerFiles) (root : String) (localSnapshot remote : Snapshot) (options : SyncOptions)
      (plan : SyncPlan), WellFormed IsDirectoryObject t → localSnapshot.Scanned → remote.Scanned →
      remote.Shows t root →
      buildPushPlan localSnapshot remote options = .ok plan →
      (preflightAtomicSync t root plan = .ok () ↔
        ∀ action ∈ plan.uploads, remote.get? action.path ≠ none → Deletes plan action.path) := by
  intro h
  have hexact := h .empty "../data" newFile .empty ⟨true, false, .default⟩ newFilePlan .empty
    newFile_scanned scanned_empty (fun _ _ ↦ rfl) (by decide)
  have hrefused : preflightAtomicSync .empty "../data" newFilePlan ≠ .ok () := by decide
  exact hrefused (hexact.mpr fun _ _ hpresent ↦ absurd rfl hpresent)

/-! A file and a directory that change places. -/

def swapFiles : ServerFiles :=
  ⟨[(["a"], ⟨.regular [1, 2], none, none⟩), (["b"], ⟨.directory, none, none⟩),
    (["b", "x"], ⟨.regular [1], none, none⟩)], by decide⟩

def swapPlan : SyncPlan :=
  ⟨[⟨.deleteRemoteFile, "a", 0⟩, ⟨.deleteRemoteFile, "b/x", 0⟩, ⟨.deleteRemoteDirectory, "b", 0⟩,
    ⟨.createRemoteDirectory, "a", 0⟩, ⟨.uploadFile, "a/f", 3⟩, ⟨.uploadFile, "b", 1⟩], 4, 2, 3, 1⟩

theorem swapFiles_wellFormed : WellFormed IsDirectoryObject swapFiles :=
  wellFormed_of_keys (by decide)

theorem swapLocal_scanned : swapLocal.Scanned := by
  constructor <;> decide

theorem swapRemote_scanned : swapRemote.Scanned := by
  constructor <;> decide

theorem swapFiles_scanOf : ScanOf swapFiles "/" swapRemote := by
  intro _ path _
  by_cases ha : path = "a"
  · subst ha
    decide
  by_cases hb : path = "b"
  · subst hb
    decide
  by_cases hx : path = "b/x"
  · subst hx
    decide
  have hplace : place "/" path = splitPath path := rfl
  have htree : swapFiles.get? (splitPath path) = none := by
    have hkeys : ∀ key ∈ swapFiles.keys, key ∈ ["a", "b", "b/x"].map splitPath := by decide
    by_contra hpresent
    have hkey := hkeys _ (SortedMap.mem_keys.mpr
      (SortedMap.contains_iff.mpr (Option.ne_none_iff_exists'.mp hpresent)))
    rw [mem_map_of_injective splitPath_injective] at hkey
    simp [ha, hb, hx] at hkey
  have hsnap : swapRemote.get? path = none := by
    simp [swapRemote, SortedMap.get?, Ne.symm ha, Ne.symm hb, Ne.symm hx]
  rw [hplace, htree, hsnap]
  rfl

theorem preflightAtomicSync_exact_swap : preflightAtomicSync swapFiles "/" swapPlan = .ok () := by
  have hroot : RootAccepted swapFiles "/" :=
    (remoteRootExists_iff swapFiles_wellFormed).mp ⟨true, rfl⟩
  refine (preflightAtomicSync_exact swapFiles "/" swapLocal swapRemote ⟨true, false, .default⟩
    swapPlan swapFiles_wellFormed swapLocal_scanned swapRemote_scanned swapFiles_scanOf
    (by decide)).2 hroot ?_
  have hkinds : ∀ action ∈ swapPlan.uploads,
      (swapRemote.get? action.path).map SnapshotEntry.kind ≠ some .file := by decide
  intro action haction r hr hfile
  refine hkinds action haction ?_
  rw [hr, Option.map_some, hfile]

end KaduoxSsh.Transfer
