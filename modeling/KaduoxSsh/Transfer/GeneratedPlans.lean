import KaduoxSsh.Transfer.AtomicSyncPreflight
import KaduoxSsh.Transfer.Convergence

/-!
# Generated plans

A plan that `build_push_plan` makes has four parts, none of which names a path twice, and
removes before it creates. So the preflight of an atomic synchronization takes it apart
without an error, and what it has noted of a path is what the two snapshots say of it.
-/

namespace KaduoxSsh.Transfer

open Text Hierarchy List

/-! ## The actions of a generated plan -/

/-- The place of a kind in a plan. -/
def SyncActionKind.stage : SyncActionKind → Nat
  | .deleteRemoteFile => 0
  | .deleteRemoteDirectory => 1
  | .createRemoteDirectory => 2
  | .uploadFile => 3

/-- An action comes in an earlier part of a plan, or in the same and at another path. -/
def Precedes (action other : SyncAction) : Prop :=
  action.kind.stage < other.kind.stage ∨ action.kind = other.kind ∧ action.path ≠ other.path

/-- A plan does something of a kind at a path. -/
def Plans (plan : SyncPlan) (kind : SyncActionKind) (path : String) : Prop :=
  ∃ action ∈ plan.actions, action.kind = kind ∧ action.path = path

section

variable {localSnapshot remote : Snapshot} {options : SyncOptions} {action : SyncAction}
  {actions others : List SyncAction}

theorem isDeletion_deletion (kind : EntryKind) (path : String) :
    isDeletion (deletion kind path) = true := by
  cases kind <;> rfl

/-- The next part of a plan. -/
theorem precedes_append {kind : SyncActionKind}
    (h : actions.Pairwise Precedes ∧ ∀ action ∈ actions, action.kind.stage < kind.stage)
    (hkind : ∀ other ∈ others, other.kind = kind) (hpaths : (others.map SyncAction.path).Nodup) :
    (actions ++ others).Pairwise Precedes ∧
      ∀ action ∈ actions ++ others, action.kind.stage < kind.stage + 1 := by
  constructor
  · refine pairwise_append.mpr ⟨h.1, ?_, fun action haction other hother ↦ .inl ?_⟩
    · refine (pairwise_map.mp hpaths).imp_of_mem fun haction hother hne ↦ .inr ⟨?_, hne⟩
      rw [hkind _ haction, hkind _ hother]
    · rw [hkind other hother]
      exact h.2 action haction
  · intro action haction
    rcases mem_append.mp haction with haction | haction
    · exact (h.2 action haction).trans (Nat.lt_succ_self _)
    · rw [hkind action haction]
      exact Nat.lt_succ_self _

/-- The removals of what is wanted are of one kind. -/
theorem kind_of_mem_deletions {wanted : EntryKind → Bool} {kind : SyncActionKind}
    (hwanted : ∀ found path, wanted found = true → (deletion found path).kind = kind)
    (h : action ∈ localSnapshot.entries.filterMap (localDelete remote · wanted) ++
      if options.delete then remote.entries.filterMap (remoteDelete · wanted localSnapshot)
      else []) : action.kind = kind := by
  obtain ⟨found, -, hfound, heq, -⟩ := mem_deletions.mp ((deletions_sublist wanted).subset h)
  rw [heq]
  exact hwanted found.kind action.path hfound

theorem kind_of_mem_deleteFiles
    (h : action ∈ (collected localSnapshot remote options).deleteFiles) :
    action.kind = .deleteRemoteFile := by
  refine kind_of_mem_deletions (fun found path hfound ↦ ?_) h
  cases found with
  | file | other => rfl
  | directory => cases hfound

theorem kind_of_mem_deleteDirectories
    (h : action ∈ (collected localSnapshot remote options).deleteDirectories) :
    action.kind = .deleteRemoteDirectory := by
  refine kind_of_mem_deletions (fun found path hfound ↦ ?_) h
  cases found with
  | directory => rfl
  | file | other => cases hfound

theorem kind_of_mem_createDirectories
    (h : action ∈ (collected localSnapshot remote options).createDirectories) :
    action.kind = .createRemoteDirectory := by
  rw [(mem_createDirectories.mp h).1]

theorem kind_of_mem_uploads (h : action ∈ (collected localSnapshot remote options).uploads) :
    action.kind = .uploadFile := by
  obtain ⟨l, -, heq, -⟩ := mem_uploads.mp h
  rw [heq]

/-- The part of a plan with the actions of a kind. -/
def PlanLists.part (lists : PlanLists) : SyncActionKind → List SyncAction
  | .deleteRemoteFile => lists.deleteFiles
  | .deleteRemoteDirectory => lists.deleteDirectories
  | .createRemoteDirectory => lists.createDirectories
  | .uploadFile => lists.uploads

theorem mem_ordered_iff : action ∈ (collected localSnapshot remote options).ordered ↔
    action ∈ (collected localSnapshot remote options).part action.kind := by
  rw [mem_ordered]
  constructor
  · rintro (h | h | h | h)
    · rwa [kind_of_mem_deleteFiles h]
    · rwa [kind_of_mem_deleteDirectories h]
    · rwa [kind_of_mem_createDirectories h]
    · rwa [kind_of_mem_uploads h]
  · intro h
    cases hkind : action.kind with
    | deleteRemoteFile => exact .inl (by rwa [hkind] at h)
    | deleteRemoteDirectory => exact .inr (.inl (by rwa [hkind] at h))
    | createRemoteDirectory => exact .inr (.inr (.inl (by rwa [hkind] at h)))
    | uploadFile => exact .inr (.inr (.inr (by rwa [hkind] at h)))

/-- A plan has four parts, and none of them names a path twice. -/
theorem ordered_precedes (localSnapshot remote : Snapshot) (options : SyncOptions) :
    (collected localSnapshot remote options).ordered.Pairwise Precedes := by
  have hdeletions : ∀ wanted, ((localSnapshot.entries.filterMap (localDelete remote · wanted) ++
      if options.delete then remote.entries.filterMap (remoteDelete · wanted localSnapshot)
      else []).map SyncAction.path).Nodup := fun wanted ↦
    ((deletions_sublist wanted).map _).nodup (deletions_nodup wanted)
  -- Sorting moves no action to another part.
  have hsorted : ∀ {sorted before collected : List SyncAction} {kind : SyncActionKind},
      sorted.Perm collected → (∀ action ∈ collected, action.kind = kind) →
      (collected.map SyncAction.path).Nodup →
      (before.Pairwise Precedes ∧ ∀ action ∈ before, action.kind.stage < kind.stage) →
      (before ++ sorted).Pairwise Precedes ∧
        ∀ action ∈ before ++ sorted, action.kind.stage < kind.stage + 1 := by
    intro sorted before collected kind hperm hkind hpaths hbefore
    refine precedes_append hbefore (fun action h ↦ hkind action (hperm.mem_iff.mp h)) ?_
    exact (hperm.map _).nodup_iff.mpr hpaths
  have hfiles : (sortByPath (collected localSnapshot remote options).deleteFiles).Pairwise
      Precedes ∧ ∀ action ∈ sortByPath (collected localSnapshot remote options).deleteFiles,
        action.kind.stage < 1 :=
    hsorted (sortByPath_perm _) (fun _ ↦ kind_of_mem_deleteFiles) (hdeletions _) ⟨.nil, nofun⟩
  rw [PlanLists.ordered]
  apply And.left
  apply hsorted (sortByPath_perm _) (fun _ ↦ kind_of_mem_uploads) uploads_nodup
  apply hsorted (sortShallowestFirst_perm _) (fun _ ↦ kind_of_mem_createDirectories)
    createDirectories_nodup
  exact hsorted (sortDeepestFirst_perm _) (fun _ ↦ kind_of_mem_deleteDirectories) (hdeletions _)
    hfiles

end

/-! ## The mutations of a generated plan -/

/-- The number that is kept for a kind of action. -/
def PlannedMutation.slot (mutation : PlannedMutation) : SyncActionKind → Option Nat
  | .deleteRemoteFile => mutation.deleteFile
  | .deleteRemoteDirectory => mutation.deleteDirectory
  | .createRemoteDirectory => mutation.createDirectory
  | .uploadFile => none

section

variable {mutations : Mutations} {e : SyncAction × Nat} {actions : List (SyncAction × Nat)}

/-- An action whose slot is free takes it. -/
theorem collectMutation_ok (hfree : (mutationFor mutations e.1.path).slot e.1.kind = none) :
    ∃ mutation, collectMutation mutations e = .ok (mutations.insert e.1.path mutation) ∧
      ∀ kind i, mutation.slot kind = some i ↔ (mutationFor mutations e.1.path).slot kind = some i ∨
        e.1.kind = kind ∧ kind ≠ .uploadFile ∧ e.2 = i := by
  rw [collectMutation]
  generalize mutationFor mutations e.1.path = mutation at *
  cases hkind : e.1.kind with
  | uploadFile =>
      refine ⟨_, rfl, fun kind i ↦ ?_⟩
      rw [iff_self_or]
      rintro ⟨rfl, hne, -⟩
      exact absurd rfl hne
  | deleteRemoteFile =>
      have hfree : mutation.deleteFile = none := by rwa [hkind] at hfree
      refine ⟨{ mutation with deleteFile := some e.2 }, ?_, fun kind i ↦ ?_⟩
      · simp [PlannedMutation.deletesFile, hfree]
      · cases kind <;> simp [PlannedMutation.slot, hfree]
  | deleteRemoteDirectory =>
      have hfree : mutation.deleteDirectory = none := by rwa [hkind] at hfree
      refine ⟨{ mutation with deleteDirectory := some e.2 }, ?_, fun kind i ↦ ?_⟩
      · simp [PlannedMutation.deletesDirectory, hfree]
      · cases kind <;> simp [PlannedMutation.slot, hfree]
  | createRemoteDirectory =>
      have hfree : mutation.createDirectory = none := by rwa [hkind] at hfree
      refine ⟨{ mutation with createDirectory := some e.2 }, ?_, fun kind i ↦ ?_⟩
      · simp [PlannedMutation.createsDirectory, hfree]
      · cases kind <;> simp [PlannedMutation.slot, hfree]

/-- Actions that do nothing twice are collected, each in its slot. -/
theorem foldlM_collectMutation_ok
    (hapart : actions.Pairwise fun e f ↦ e.1.kind = f.1.kind → e.1.path ≠ f.1.path)
    (hfree : ∀ e ∈ actions, (mutationFor mutations e.1.path).slot e.1.kind = none) :
    ∃ mutations', actions.foldlM collectMutation mutations = .ok mutations' ∧
      ∀ path kind i, (mutationFor mutations' path).slot kind = some i ↔
        (mutationFor mutations path).slot kind = some i ∨
          kind ≠ .uploadFile ∧ ∃ e ∈ actions, e.1.kind = kind ∧ e.1.path = path ∧ e.2 = i := by
  induction actions generalizing mutations with
  | nil =>
      refine ⟨mutations, rfl, fun path kind i ↦ ?_⟩
      simp
  | cons first rest ih =>
      obtain ⟨hfirst, hrest⟩ := pairwise_cons.mp hapart
      obtain ⟨hslot, hslots⟩ := forall_mem_cons.mp hfree
      obtain ⟨mutation, hstep, hmutation⟩ := collectMutation_ok hslot
      have hstill : ∀ e ∈ rest, (mutationFor (mutations.insert first.1.path mutation) e.1.path).slot
          e.1.kind = none := by
        intro e he
        rw [mutationFor_insert]
        split
        · next hpath =>
          refine Option.eq_none_iff_forall_ne_some.mpr fun i hi ↦ ?_
          rcases (hmutation _ _).mp hi with hold | ⟨hkind, -⟩
          · rw [← hpath, hslots e he] at hold
            cases hold
          · exact hfirst e he hkind hpath.symm
        · exact hslots e he
      obtain ⟨mutations', hrun, hmutations'⟩ := ih hrest hstill
      refine ⟨mutations', ?_, fun path kind i ↦ ?_⟩
      · rw [foldlM_cons, hstep, Result.bind_ok, hrun]
      · rw [hmutations', mutationFor_insert]
        by_cases hpath : path = first.1.path
        · subst hpath
          rw [if_pos rfl, hmutation]
          simp only [mem_cons, exists_eq_or_imp, true_and]
          tauto
        · rw [if_neg hpath]
          simp only [mem_cons, exists_eq_or_imp, Ne.symm hpath, false_and, and_false, false_or]

/-- A path is removed as one kind of object, and before it is made a directory. -/
theorem checkMutation_ok {entry : String × PlannedMutation}
    (hone : entry.2.deletesFile = true → ¬entry.2.deletesDirectory = true)
    (horder : ∀ i j, entry.2.deleteFile = some i ∨ entry.2.deleteDirectory = some i →
      entry.2.createDirectory = some j → i < j) : checkMutation entry = .ok () := by
  unfold checkMutation
  rw [if_neg fun hboth ↦ hone (Bool.and_eq_true_iff.mp hboth).1 (Bool.and_eq_true_iff.mp hboth).2]
  split
  · next j i hcreate hdelete =>
    refine Result.bailIf_of_not (Nat.not_le.mpr (horder i j ?_ hcreate)) _
    rw [Option.orElse_eq_orElse, Option.orElse_eq_or] at hdelete
    rcases Option.or_eq_some_iff.mp hdelete with hfile | ⟨-, hdirectory⟩
    · exact .inl hfile
    · exact .inr hdirectory
  · rfl

variable {plan : SyncPlan}

theorem pairwise_numbered (h : plan.actions.Pairwise Precedes) :
    plan.numbered.Pairwise fun e f ↦ Precedes e.1 f.1 := by
  have hfst : plan.numbered.map Prod.fst = plan.actions := zipIdx_map_fst 0 plan.actions
  rw [← hfst] at h
  exact pairwise_map.mp h

/-- A removal has a smaller number than a new directory. -/
theorem lt_of_precedes {action other : SyncAction} {i j : Nat}
    (h : plan.actions.Pairwise Precedes) (haction : (action, i) ∈ plan.numbered)
    (hother : (other, j) ∈ plan.numbered) (hstage : action.kind.stage < other.kind.stage) :
    i < j := by
  obtain ⟨hi, hi'⟩ := List.getElem?_eq_some_iff.mp (mem_zipIdx_iff_getElem?.mp haction)
  obtain ⟨hj, hj'⟩ := List.getElem?_eq_some_iff.mp (mem_zipIdx_iff_getElem?.mp hother)
  dsimp only at hi hi' hj hj'
  rcases lt_trichotomy i j with hlt | rfl | hgt
  · exact hlt
  · rw [hi'] at hj'
    rw [hj'] at hstage
    exact absurd hstage (Nat.lt_irrefl _)
  · have hprecedes := pairwise_iff_getElem.mp h j i hj hi hgt
    rw [hi', hj'] at hprecedes
    rcases hprecedes with hlt | ⟨heq, -⟩
    · exact absurd hlt hstage.asymm
    · rw [heq] at hstage
      exact absurd hstage (Nat.lt_irrefl _)

/-- What a preflight takes from a plan: each slot says whether there is such an action. -/
def Collects (plan : SyncPlan) (mutations : Mutations) : Prop :=
  ∀ path kind, kind ≠ .uploadFile →
    (((mutationFor mutations path).slot kind).isSome = true ↔ Plans plan kind path)

/-- A plan in order is taken apart without an error. -/
theorem collectPlannedMutations_ok (h : plan.actions.Pairwise Precedes)
    (hone : ∀ path, Plans plan .deleteRemoteFile path → ¬Plans plan .deleteRemoteDirectory path) :
    ∃ mutations, collectPlannedMutations plan = .ok mutations ∧ Collects plan mutations := by
  have hapart : plan.numbered.Pairwise fun e f ↦ e.1.kind = f.1.kind → e.1.path ≠ f.1.path := by
    refine (pairwise_numbered h).imp fun hprecedes heq ↦ ?_
    rcases hprecedes with hlt | ⟨-, hne⟩
    · rw [heq] at hlt
      exact absurd hlt (Nat.lt_irrefl _)
    · exact hne
  have hfree : ∀ e ∈ plan.numbered, (mutationFor .empty e.1.path).slot e.1.kind = none := by
    intro e _
    cases e.1.kind <;> rfl
  obtain ⟨mutations, hrun, hslots⟩ := foldlM_collectMutation_ok hapart hfree
  have hslot : ∀ {path kind i}, (mutationFor mutations path).slot kind = some i →
      ∃ action, (action, i) ∈ plan.numbered ∧ action.kind = kind ∧ action.path = path := by
    intro path kind i hi
    rcases (hslots path kind i).mp hi with hempty | ⟨-, ⟨action, n⟩, hmem, hkind, hpath, rfl⟩
    · cases kind <;> cases hempty
    · exact ⟨action, hmem, hkind, hpath⟩
  have hcollects : Collects plan mutations := by
    intro path kind hkind
    rw [Option.isSome_iff_exists]
    constructor
    · rintro ⟨i, hi⟩
      obtain ⟨action, hmem, haction⟩ := hslot hi
      exact ⟨action, fst_mem_of_mem_zipIdx hmem, haction⟩
    · rintro ⟨action, hmem, haction⟩
      obtain ⟨i, hi⟩ := exists_numbered hmem
      exact ⟨i, (hslots path kind i).mpr (.inr ⟨hkind, _, hi, haction.1, haction.2, rfl⟩)⟩
  refine ⟨mutations, ?_, hcollects⟩
  rw [collectPlannedMutations, hrun, Result.bind_ok]
  refine Result.check_bind_eq_ok.mpr ⟨Result.forM_eq_ok.mpr fun entry hentry ↦ ?_, rfl⟩
  have hentry : entry.2 = mutationFor mutations entry.1 := by
    rw [mutationFor, SortedMap.get?_eq_some_iff.mpr hentry]
    rfl
  refine checkMutation_ok (fun hfile hdirectory ↦ ?_) fun i j hdelete hcreate ↦ ?_
  · rw [hentry] at hfile hdirectory
    exact hone entry.1 ((hcollects _ .deleteRemoteFile SyncActionKind.noConfusion).mp hfile)
      ((hcollects _ .deleteRemoteDirectory SyncActionKind.noConfusion).mp hdirectory)
  · rw [hentry] at hdelete hcreate
    obtain ⟨other, hother, hotherKind, -⟩ := @hslot _ .createRemoteDirectory _ hcreate
    rcases hdelete with hdelete | hdelete
    · obtain ⟨action, haction, hkind, -⟩ := @hslot _ .deleteRemoteFile _ hdelete
      refine lt_of_precedes h haction hother ?_
      rw [hkind, hotherKind]
      decide
    · obtain ⟨action, haction, hkind, -⟩ := @hslot _ .deleteRemoteDirectory _ hdelete
      refine lt_of_precedes h haction hother ?_
      rw [hkind, hotherKind]
      decide

end

/-! ## What a plan says about a path -/

section

variable {localSnapshot remote : Snapshot} {options : SyncOptions} {plan : SyncPlan}
  {action : SyncAction} {path : String} {l r : SnapshotEntry}

section

variable (hplan : buildPushPlan localSnapshot remote options = .ok plan)

include hplan

theorem plan_precedes : plan.actions.Pairwise Precedes := by
  rw [(buildPushPlan_ok hplan).2]
  exact ordered_precedes localSnapshot remote options

theorem mem_actions :
    action ∈ plan.actions ↔ action ∈ (collected localSnapshot remote options).part action.kind := by
  rw [(buildPushPlan_ok hplan).2]
  exact mem_ordered_iff

/-- What is removed is there, and not of the same kind locally. -/
theorem eq_deletion_of_mem (haction : action ∈ plan.actions)
    (hdeletion : isDeletion action = true) :
    ∃ r, remote.get? action.path = some r ∧ action = deletion r.kind action.path ∧
      ∀ l, localSnapshot.get? action.path = some l → l.kind ≠ r.kind := by
  rw [mem_actions hplan] at haction
  have hlists : action ∈ (collected localSnapshot remote options).deleteFiles ++
      (collected localSnapshot remote options).deleteDirectories := by
    rw [mem_append]
    rcases isDeletion_iff.mp hdeletion with hkind | hkind
    · exact .inl (by rwa [hkind] at haction)
    · exact .inr (by rwa [hkind] at haction)
  obtain ⟨r, hr, heq, hne, -⟩ := mem_deleted hlists
  exact ⟨r, hr, heq, hne⟩

theorem of_plans_deleteFile (h : Plans plan .deleteRemoteFile path) :
    ∃ r, remote.get? path = some r ∧
      r.kind ≠ .directory ∧ ∀ l, localSnapshot.get? path = some l → l.kind ≠ r.kind := by
  obtain ⟨action, haction, hkind, rfl⟩ := h
  obtain ⟨r, hr, heq, hne⟩ := eq_deletion_of_mem hplan haction (isDeletion_iff.mpr (.inl hkind))
  refine ⟨r, hr, fun hdirectory ↦ ?_, hne⟩
  rw [heq, hdirectory] at hkind
  cases hkind

theorem of_plans_deleteDirectory (h : Plans plan .deleteRemoteDirectory path) :
    ∃ r, remote.get? path = some r ∧
      r.kind = .directory ∧ ∀ l, localSnapshot.get? path = some l → l.kind ≠ .directory := by
  obtain ⟨action, haction, hkind, rfl⟩ := h
  obtain ⟨r, hr, heq, hne⟩ := eq_deletion_of_mem hplan haction (isDeletion_iff.mpr (.inr hkind))
  have hdirectory : r.kind = .directory := by
    rw [heq] at hkind
    cases hr' : r.kind with
    | directory => rfl
    | file | other =>
        rw [hr'] at hkind
        cases hkind
  rw [hdirectory] at hne
  exact ⟨r, hr, hdirectory, hne⟩

/-- What is of another kind locally is removed. -/
theorem plans_deletion (hl : localSnapshot.get? path = some l) (hr : remote.get? path = some r)
    (hne : r.kind ≠ l.kind) : Plans plan (deletion r.kind path).kind path := by
  refine ⟨deletion r.kind path, ?_, rfl, deletion_path _ _⟩
  have hmem : ∀ wanted, wanted r.kind = true →
      deletion r.kind path ∈ localSnapshot.entries.filterMap (localDelete remote · wanted) := by
    intro wanted hwanted
    refine mem_filterMap.mpr ⟨(path, l), SortedMap.get?_eq_some_iff.mp hl, ?_⟩
    rw [localDelete, hr]
    exact if_pos ⟨hne, hwanted⟩
  rw [(buildPushPlan_ok hplan).2, mem_ordered]
  cases hkind : r.kind.isDirectory with
  | false =>
      refine .inl (mem_append_left _ (hmem (fun k ↦ !k.isDirectory) ?_))
      rw [hkind]
      rfl
  | true => exact .inr (.inl (mem_append_left _ (hmem EntryKind.isDirectory hkind)))

theorem plans_createDirectory :
    Plans plan .createRemoteDirectory path ↔ ∃ l, localSnapshot.get? path = some l ∧
      l.kind = .directory ∧ ∀ r, remote.get? path = some r → r.kind ≠ .directory := by
  constructor
  · rintro ⟨action, haction, hkind, rfl⟩
    rw [mem_actions hplan, hkind] at haction
    exact (mem_createDirectories.mp haction).2
  · intro h
    refine ⟨⟨.createRemoteDirectory, path, 0⟩, ?_, rfl, rfl⟩
    rw [mem_actions hplan]
    exact mem_createDirectories.mpr ⟨rfl, h⟩

/-- What is uploaded is a local file. -/
theorem file_of_mem_uploads (haction : action ∈ plan.uploads) :
    ∃ l, localSnapshot.get? action.path = some l ∧ l.kind = .file := by
  obtain ⟨hmem, hkind⟩ := mem_filter.mp haction
  rw [mem_actions hplan, of_decide_eq_true hkind] at hmem
  obtain ⟨l, hl, -, hfile, -⟩ := mem_uploads.mp hmem
  exact ⟨l, hl, hfile⟩

/-- A generated plan is taken apart without an error. -/
theorem collects_of_plan :
    ∃ mutations, collectPlannedMutations plan = .ok mutations ∧ Collects plan mutations := by
  refine collectPlannedMutations_ok (plan_precedes hplan) fun path hfile hdirectory ↦ ?_
  obtain ⟨r, hr, hne, -⟩ := of_plans_deleteFile hplan hfile
  obtain ⟨r', hr', heq, -⟩ := of_plans_deleteDirectory hplan hdirectory
  rw [hr] at hr'
  cases hr'
  exact hne heq

end

end

end KaduoxSsh.Transfer
