import KaduoxSsh.Transfer.AtomicSync

/-!
# What the preflight of an atomic synchronization ensures

The checks of a plan look at single paths. Followed through the removals and the new
directories, they tell what is left above the destination of an upload, and at it.
-/

namespace KaduoxSsh.Transfer

open Text Hierarchy FileTransfer Result List SortedMap

variable {paths : PathResolution} {t t' : ServerFiles} {path dir : List String}
  {name text : String} {plan : SyncPlan} {platform : Platform}

/-! ## Single requests -/

theorem hasDirectory_iff : hasDirectory t path = true ↔ DirectoryAt IsDirectoryObject t path := by
  rw [hasDirectory, Bool.or_eq_true, decide_eq_true_eq, Option.any_eq_true]
  simp only [decide_eq_true_eq, DirectoryAt, IsDirectoryObject]

/-- It can be checked whether everything lies in a directory. -/
theorem wellFormed_of_keys
    (h : ∀ path ∈ t.keys, path ≠ [] ∧ hasDirectory t path.dropLast = true) :
    WellFormed IsDirectoryObject t := by
  have hkeys : ∀ {path}, t.get? path ≠ none → path ∈ t.keys := fun hpresent ↦
    mem_keys.mpr (contains_iff.mpr (Option.ne_none_iff_exists'.mp hpresent))
  constructor
  · by_contra hroot
    exact (h [] (hkeys hroot)).1 rfl
  · intro dir name hpresent
    have hparent := (h _ (hkeys hpresent)).2
    rw [dropLast_concat] at hparent
    exact hasDirectory_iff.mp hparent

theorem createDir_eq_ok (h : createDir t path = .ok t') : ∃ dir name, path = dir ++ [name] ∧
    t.get? path = none ∧ DirectoryAt IsDirectoryObject t dir ∧
    t' = t.insert path ⟨.directory, none, none⟩ := by
  unfold createDir at h
  split at h
  · next hfree =>
    cases h
    obtain ⟨hne, hnone, hparent⟩ := hfree
    exact ⟨path.dropLast, path.getLast hne, (dropLast_append_getLast hne).symm, hnone,
      hasDirectory_iff.mp hparent, rfl⟩
  · cases h

/-- A new directory is one, and the others stay. -/
theorem directoryAt_of_createDir (h : createDir t path = .ok t') :
    DirectoryAt IsDirectoryObject t' path ∧
      ∀ dir, DirectoryAt IsDirectoryObject t dir → DirectoryAt IsDirectoryObject t' dir := by
  obtain ⟨_, _, -, -, -, rfl⟩ := createDir_eq_ok h
  have hpath : DirectoryAt IsDirectoryObject (t.insert path ⟨.directory, none, none⟩) path :=
    .inr ⟨_, get?_insert_self _ _ _, rfl⟩
  refine ⟨hpath, fun dir hdir ↦ ?_⟩
  by_cases heq : dir = path
  · rw [heq]
    exact hpath
  · exact hdir.congr (get?_insert_of_ne _ _ heq)

theorem directoryAt_of_kind (h : (t.get? path).map remoteNodeKind = some .directory) :
    DirectoryAt IsDirectoryObject t path := by
  obtain ⟨object, hget, hkind⟩ := Option.map_eq_some_iff.mp h
  refine .inr ⟨object, hget, ?_⟩
  unfold remoteNodeKind at hkind
  split at hkind
  · cases hkind
  · assumption
  · cases hkind
  · cases hkind

theorem not_blocked_of_kind (h : (t.get? path).map remoteNodeKind = some .directory) :
    ¬Blocked IsDirectoryObject t path := by
  rintro ⟨object, hget, hnot⟩
  rw [hget, Option.map_some] at h
  unfold remoteNodeKind at h
  split at h
  · cases h
  · next hkind => exact hnot hkind
  · cases h
  · cases h

theorem blocked_of_kind {found : RemoteNodeKind} (h : (t.get? path).map remoteNodeKind = some found)
    (hfound : found ≠ .directory) : Blocked IsDirectoryObject t path := by
  obtain ⟨object, hget, rfl⟩ := Option.map_eq_some_iff.mp h
  refine ⟨object, hget, fun hdirectory ↦ hfound ?_⟩
  rw [remoteNodeKind, hdirectory]

theorem not_directoryAt_of_kind (hne : path ≠ [])
    (h : (t.get? path).map remoteNodeKind ≠ some .directory) : ¬DirectoryAt IsDirectoryObject t path := by
  rintro (hnil | ⟨object, hget, hkind⟩)
  · exact hne hnil
  · rw [hget, Option.map_some, remoteNodeKind, hkind] at h
    exact h rfl

/-! ## Changes before the uploads -/

/-- A change that makes nothing but directories, and those at some paths. -/
structure Restructured (created : List String → Prop) (t t' : ServerFiles) : Prop where
  wellFormed : WellFormed IsDirectoryObject t → WellFormed IsDirectoryObject t'
  at_path : ∀ path, t'.get? path = t.get? path ∨ t'.get? path = none ∨
    DirectoryAt IsDirectoryObject t' path ∧ created path

namespace Restructured

variable {created created' : List String → Prop} {t'' : ServerFiles}

theorem refl (t : ServerFiles) : Restructured created t t := ⟨id, fun _ ↦ .inl rfl⟩

theorem trans (h : Restructured created t t') (h' : Restructured created t' t'') :
    Restructured created t t'' where
  wellFormed hwf := h'.wellFormed (h.wellFormed hwf)
  at_path path := by
    rcases h'.at_path path with heq | hnone | hmade
    · rcases h.at_path path with heq' | hnone | ⟨hdirectory, hcreated⟩
      · exact .inl (heq.trans heq')
      · exact .inr (.inl (heq.trans hnone))
      · exact .inr (.inr ⟨hdirectory.congr heq, hcreated⟩)
    · exact .inr (.inl hnone)
    · exact .inr (.inr hmade)

theorem mono (h : Restructured created t t') (hcreated : ∀ path, created path → created' path) :
    Restructured created' t t' :=
  ⟨h.wellFormed, fun path ↦ (h.at_path path).imp_right (.imp_right (.imp_right (hcreated path)))⟩

theorem absent (h : Restructured created t t') (hnone : t.get? path = none) (hnot : ¬created path) :
    t'.get? path = none := by
  rcases h.at_path path with heq | hnone' | ⟨-, hcreated⟩
  · exact heq.trans hnone
  · exact hnone'
  · exact absurd hcreated hnot

theorem not_blocked (h : Restructured created t t') (hwf : WellFormed IsDirectoryObject t)
    (hnot : ¬Blocked IsDirectoryObject t path) : ¬Blocked IsDirectoryObject t' path := by
  intro hblocked
  rcases h.at_path path with heq | hnone | ⟨hdirectory, -⟩
  · exact hnot (hblocked.congr heq)
  · exact hblocked.ne_none hnone
  · exact hblocked.not_directoryAt (h.wellFormed hwf) hdirectory
theorem of_erase (hempty : WellFormed IsDirectoryObject t → ∀ name, t.get? (path ++ [name]) = none) :
    Restructured created t (t.erase path) where
  wellFormed hwf := hwf.erase (hempty hwf)
  at_path place := by
    rw [get?_erase]
    split
    · exact .inr (.inl rfl)
    · exact .inl rfl

theorem of_createDir (h : createDir t path = .ok t') (hcreated : created path) :
    Restructured created t t' := by
  obtain ⟨dir, name, rfl, -, hparent, rfl⟩ := createDir_eq_ok h
  refine ⟨fun hwf ↦ hwf.insert hparent fun _ ↦ rfl, fun place ↦ ?_⟩
  by_cases hplace : place = dir ++ [name]
  · subst hplace
    exact .inr (.inr ⟨.inr ⟨_, get?_insert_self _ _ _, rfl⟩, hcreated⟩)
  · exact .inl (get?_insert_of_ne _ _ hplace)

end Restructured


/-- A removal: nothing happens here, or what a path leads to is gone, and nothing was below it. -/
def Removed (paths : PathResolution) (path : List String) (t t' : ServerFiles) : Prop :=
  paths.resolve t path = none ∧ t' = t ∨
    ∃ place, paths.resolve t path = some place ∧ t' = t.erase place ∧
      (WellFormed IsDirectoryObject t → ∀ name, t.get? (place ++ [name]) = none)

theorem removed_of_removeFile (h : removeFile paths t path = .ok t') : Removed paths path t t' := by
  unfold removeFile at h
  split at h
  · next hresolve =>
    cases h
    exact .inl ⟨hresolve, rfl⟩
  · next place hresolve =>
    split at h
    · cases h
    · next object hget =>
      split at h
      · cases h
      · next hkind =>
        cases h
        refine .inr ⟨place, hresolve, rfl, fun hwf name ↦ ?_⟩
        have hblocked : Blocked IsDirectoryObject t place := ⟨object, hget, hkind⟩
        exact hwf.eq_none (hblocked.not_directoryAt hwf) (prefix_append _ _) (by simp)

theorem removed_of_removeDir (h : removeDir paths t path = .ok t') : Removed paths path t t' := by
  unfold removeDir at h
  split at h
  · next hresolve =>
    cases h
    exact .inl ⟨hresolve, rfl⟩
  · next place hresolve =>
    split at h
    · cases h
    · split at h
      · next hempty =>
        cases h
        refine .inr ⟨place, hresolve, rfl, fun _ name ↦ ?_⟩
        by_contra hpresent
        refine hempty.2 (place ++ [name]) ?_ dropLast_concat
        exact mem_keys.mpr (contains_iff.mpr (Option.ne_none_iff_exists'.mp hpresent))
      · cases h

theorem Removed.restructured {created : List String → Prop} (h : Removed paths path t t') :
    Restructured created t t' := by
  rcases h with ⟨-, rfl⟩ | ⟨place, -, rfl, hempty⟩
  · exact .refl t'
  · exact .of_erase hempty

/-- What was removed is not there. A path that something lies at leads there. -/
theorem Removed.absent (h : Removed paths path t t') (hwf : WellFormed IsDirectoryObject t) :
    t'.get? path = none := by
  by_cases hpresent : t.get? path = none
  · have hrestructured : Restructured (fun _ ↦ False) t t' := h.restructured
    exact hrestructured.absent hpresent id
  · have hresolve := paths.real t path fun dir hdir hne ↦ hwf.ancestor hpresent hdir hne
    rcases h with ⟨hnone, -⟩ | ⟨place, hplace, rfl, -⟩
    · rw [hresolve] at hnone
      cases hnone
    · rw [hresolve] at hplace
      cases hplace
      rw [get?_erase, if_pos rfl]

/-! ## New directories -/

theorem remoteComponents_leading {root relative : String}
    (h : ∀ name ∈ splitPath relative, name ≠ "" ∧ name ≠ ".") :
    remoteComponents (leading root ++ relative) = remoteComponents root ++ splitPath relative := by
  have hrelative : remoteComponents relative = splitPath relative :=
    filter_eq_self.mpr fun name hname ↦ decide_eq_true (h name hname)
  rcases leading_eq root with ⟨hlead, hroot, -⟩ | ⟨directory, hlead, hroot, -⟩
  · rw [hlead, hroot, String.empty_append, hrelative]
    rfl
  · rw [hlead, hroot, remoteComponents, splitPath_append, filter_append]
    exact congrArg (remoteComponents directory ++ ·) hrelative

theorem remoteComponents_join {current segment : String} (hname : SingleName segment)
    (hdot : segment ≠ ".") :
    remoteComponents (joinRemoteComponent current segment) = remoteComponents current ++ [segment] := by
  rw [joinRemoteComponent, remoteComponents_leading, hname.splitPath]
  rw [hname.splitPath]
  exact fun name hmem ↦ mem_singleton.mp hmem ▸ ⟨hname.1, hdot⟩

/-- A walk by segments goes one name further. -/
theorem remoteComponents_walk {current segment : String} {rest whole : List String}
    (hname : SingleName segment) (hdot : segment ≠ ".")
    (hwhole : remoteComponents current ++ (segment :: rest).filter (fun segment ↦ segment ≠ ".") = whole) :
    remoteComponents (joinRemoteComponent current segment) ++
      rest.filter (fun segment ↦ segment ≠ ".") = whole := by
  rw [← hwhole, remoteComponents_join hname hdot, append_assoc,
    filter_cons_of_pos (by simp [hdot])]
  rfl

/-- The directories on the way are there in the end, and nothing else was made. -/
theorem ensureSegments_eq_ok {current : String} {rest whole : List String}
    (hnames : ∀ name ∈ rest, SingleName name)
    (hwhole : remoteComponents current ++ rest.filter (fun segment ↦ segment ≠ ".") = whole)
    (hcurrent : ∀ dir, dir <+: remoteComponents current → DirectoryAt IsDirectoryObject t dir)
    (h : ensureSegments text t current rest = .ok t') :
    Restructured (· <+: whole) t t' ∧ ∀ dir, dir <+: whole → DirectoryAt IsDirectoryObject t' dir := by
  induction rest generalizing t current with
  | nil =>
      cases h
      rw [← hwhole, filter_nil, append_nil]
      exact ⟨.refl t', hcurrent⟩
  | cons segment rest ih =>
      obtain ⟨hname, hrest⟩ := forall_mem_cons.mp hnames
      unfold ensureSegments at h
      split at h
      · next hdot =>
        rw [filter_cons_of_neg (by simp [hdot])] at hwhole
        exact ih hrest hwhole hcurrent h
      · next hdot =>
        have hhere : remoteComponents (joinRemoteComponent current segment) =
            remoteComponents current ++ [segment] := remoteComponents_join hname hdot
        have hwhole' := remoteComponents_walk hname hdot hwhole
        split at h
        · cases h
        · dsimp only at h
          split at h
          · cases h
          · cases h
          · next hkind =>
            refine ih hrest hwhole' (fun dir hdir ↦ ?_) h
            rw [hhere, prefix_concat_iff] at hdir
            rcases hdir with rfl | hdir
            · rw [← hhere]
              exact directoryAt_of_kind hkind
            · exact hcurrent dir hdir
          · obtain ⟨t₁, hcreate, h⟩ := bind_eq_ok.mp h
            have hmade : Restructured (· <+: whole) t t₁ := by
              refine .of_createDir hcreate ?_
              rw [← hwhole']
              exact prefix_append _ _
            obtain ⟨hnew, hkept⟩ := directoryAt_of_createDir hcreate
            have hthere : ∀ dir, dir <+: remoteComponents (joinRemoteComponent current segment) →
                DirectoryAt IsDirectoryObject t₁ dir := by
              intro dir hdir
              rw [hhere, prefix_concat_iff] at hdir
              rcases hdir with rfl | hdir
              · rw [← hhere]
                exact hnew
              · exact hkept dir (hcurrent dir hdir)
            obtain ⟨hrestructured, hdirectories⟩ := ih hrest hwhole' hthere h
            exact ⟨hmade.trans hrestructured, hdirectories⟩

theorem singleName_of_mem_segments {segment : String} (h : segment ∈ segments text) :
    SingleName segment := by
  obtain ⟨hmem, hne⟩ := mem_filter.mp h
  exact ⟨of_decide_eq_true hne, slash_not_mem_splitPath hmem⟩

theorem remoteComponents_walkStart (text : String) : remoteComponents (walkStart text) = [] := by
  unfold walkStart
  split <;> rfl

theorem remoteComponents_eq (text : String) :
    remoteComponents text = (segments text).filter fun segment ↦ segment ≠ "." := by
  rw [segments, filter_filter, remoteComponents]
  refine filter_congr fun name _ ↦ ?_
  rw [← Bool.decide_and, decide_eq_decide]
  exact and_comm

/-- What `ensure_remote_dir` leaves. -/
theorem ensureRemoteDir_eq_ok (h : ensureRemoteDir t text = .ok t') :
    Restructured (· <+: remoteComponents text) t t' ∧
      ∀ dir, dir <+: remoteComponents text → DirectoryAt IsDirectoryObject t' dir := by
  unfold ensureRemoteDir at h
  split at h
  · next hroot =>
    cases h
    have hnil : remoteComponents text = [] := by
      rcases hroot with rfl | rfl | rfl <;> rfl
    refine ⟨.refl t, fun dir hdir ↦ ?_⟩
    rw [hnil, prefix_nil] at hdir
    exact .inl hdir
  · refine ensureSegments_eq_ok (fun name hname ↦ singleName_of_mem_segments hname) ?_
      (fun dir hdir ↦ ?_) h
    · rw [remoteComponents_walkStart, nil_append, ← remoteComponents_eq]
    · rw [remoteComponents_walkStart, prefix_nil] at hdir
      exact .inl hdir


/-! ## The actions before the uploads -/

section

variable {root : String} {action : SyncAction} {actions : List SyncAction}

/-- Where an action takes place. -/
def place (root path : String) : List String := remoteComponents root ++ splitPath path

theorem applySyncAction_eq (hvalid : validateRemoteRelativePath action.path = .ok ()) :
    applySyncAction paths root t action = match action.kind with
      | .deleteRemoteFile => removeFile paths t (place root action.path)
      | .deleteRemoteDirectory => removeDir paths t (place root action.path)
      | .createRemoteDirectory => ensureRemoteDir t (leading root ++ action.path)
      | .uploadFile => .ok t := by
  rw [applySyncAction, joinRemoteUnderRoot_eq hvalid, bind_ok,
    (joinRemoteUnderRoot_components hvalid).1]
  rfl

/-- The paths at which an action makes a directory. -/
def Creates (root : String) (action : SyncAction) (path : List String) : Prop :=
  action.kind = .createRemoteDirectory ∧ path <+: place root action.path

theorem isDeletion_iff : isDeletion action = true ↔
    action.kind = .deleteRemoteFile ∨ action.kind = .deleteRemoteDirectory :=
  decide_eq_true_iff

/-- What an action leaves, whatever its kind. -/
structure Acted (root : String) (action : SyncAction) (t t' : ServerFiles) : Prop where
  restructured : Restructured (Creates root action) t t'
  deleted : isDeletion action = true → t'.get? (place root action.path) = none
  created : action.kind = .createRemoteDirectory →
    DirectoryAt IsDirectoryObject t' (place root action.path)

theorem acted (hvalid : validateRemoteRelativePath action.path = .ok ())
    (hwf : WellFormed IsDirectoryObject t) (h : applySyncAction paths root t action = .ok t') :
    Acted root action t t' := by
  rw [applySyncAction_eq hvalid] at h
  cases hkind : action.kind with
  | deleteRemoteFile =>
      rw [hkind] at h
      have hremoved := removed_of_removeFile h
      exact ⟨hremoved.restructured, fun _ ↦ hremoved.absent hwf, fun hcreate ↦ by cases hkind ▸ hcreate⟩
  | deleteRemoteDirectory =>
      rw [hkind] at h
      have hremoved := removed_of_removeDir h
      exact ⟨hremoved.restructured, fun _ ↦ hremoved.absent hwf, fun hcreate ↦ by cases hkind ▸ hcreate⟩
  | createRemoteDirectory =>
      rw [hkind] at h
      obtain ⟨hrestructured, hdirectories⟩ := ensureRemoteDir_eq_ok h
      rw [(joinRemoteUnderRoot_components hvalid).1] at hrestructured hdirectories
      refine ⟨hrestructured.mono fun path hpath ↦ ⟨hkind, hpath⟩, fun hdelete ↦ ?_, fun _ ↦ ?_⟩
      · rw [isDeletion_iff, hkind] at hdelete
        rcases hdelete with hdelete | hdelete <;> cases hdelete
      · exact hdirectories _ (prefix_refl _)
  | uploadFile =>
      rw [hkind] at h
      cases h
      refine ⟨.refl _, fun hdelete ↦ ?_, fun hcreate ↦ by cases hkind ▸ hcreate⟩
      rw [isDeletion_iff, hkind] at hdelete
      rcases hdelete with hdelete | hdelete <;> cases hdelete

/-- What all actions leave. -/
theorem actions_acted (hvalid : ∀ action ∈ actions, validateRemoteRelativePath action.path = .ok ())
    (hwf : WellFormed IsDirectoryObject t)
    (h : actions.foldlM (applySyncAction paths root) t = .ok t') :
    Restructured (fun path ↦ ∃ action ∈ actions, Creates root action path) t t' ∧
      (∀ action ∈ actions, isDeletion action = true →
        (∀ other ∈ actions, ¬Creates root other (place root action.path)) →
          t'.get? (place root action.path) = none) ∧
      ∀ action ∈ actions, action.kind = .createRemoteDirectory →
        ¬Blocked IsDirectoryObject t' (place root action.path) := by
  induction actions generalizing t with
  | nil =>
      cases h
      exact ⟨.refl _, fun _ h ↦ absurd h not_mem_nil, fun _ h ↦ absurd h not_mem_nil⟩
  | cons first rest ih =>
      obtain ⟨hfirst, hrest⟩ := forall_mem_cons.mp hvalid
      rw [foldlM_cons] at h
      obtain ⟨t₁, hstep, h⟩ := bind_eq_ok.mp h
      have hacted := acted hfirst hwf hstep
      have hwf₁ := hacted.restructured.wellFormed hwf
      obtain ⟨hrestructured, hdeleted, hcreated⟩ := ih hrest hwf₁ h
      refine ⟨?_, fun action haction hdelete hnot ↦ ?_, fun action haction hcreate ↦ ?_⟩
      · refine (hacted.restructured.mono fun path hpath ↦ ?_).trans
          (hrestructured.mono fun path hpath ↦ ?_)
        · exact ⟨first, mem_cons_self, hpath⟩
        · obtain ⟨action, haction, hpath⟩ := hpath
          exact ⟨action, mem_cons_of_mem _ haction, hpath⟩
      · rcases mem_cons.mp haction with rfl | haction
        · refine hrestructured.absent (hacted.deleted hdelete) ?_
          rintro ⟨other, hother, hpath⟩
          exact hnot other (mem_cons_of_mem _ hother) hpath
        · exact hdeleted action haction hdelete fun other hother ↦
            hnot other (mem_cons_of_mem _ hother)
      · rcases mem_cons.mp haction with rfl | haction
        · refine hrestructured.not_blocked hwf₁ fun hblocked ↦ ?_
          exact hblocked.not_directoryAt hwf₁ (hacted.created hcreate)
        · exact hcreated action haction hcreate

end

/-! ## What the preflight has seen -/

section
variable {mutations mutations' : Mutations} {e : SyncAction × Nat} {actions : List (SyncAction × Nat)}
  {root : String}

/-- A path is to be made a directory. -/
def ToCreate (mutations : Mutations) (path : String) : Prop :=
  (mutationFor mutations path).createsDirectory = true

def ToDelete (mutations : Mutations) (path : String) : Prop :=
  (mutationFor mutations path).hasDelete = true

theorem mutationFor_insert (path other : String) (mutation : PlannedMutation) :
    mutationFor (mutations.insert path mutation) other =
      if other = path then mutation else mutationFor mutations other := by
  rw [mutationFor, get?_insert]
  split <;> rfl

theorem collectMutation_eq_ok (h : collectMutation mutations e = .ok mutations') :
    ∃ mutation, mutations' = mutations.insert e.1.path mutation ∧
      (mutation.createsDirectory = true ↔
        ToCreate mutations e.1.path ∨ e.1.kind = .createRemoteDirectory) ∧
      (mutation.hasDelete = true ↔ ToDelete mutations e.1.path ∨ isDeletion e.1 = true) := by
  rw [isDeletion_iff]
  unfold collectMutation at h
  dsimp only at h
  cases hkind : e.1.kind with
  | uploadFile =>
      rw [hkind] at h
      cases h
      refine ⟨_, rfl, ?_, ?_⟩ <;> simp [ToCreate, ToDelete]
  | deleteRemoteFile =>
      rw [hkind] at h
      dsimp only at h
      split at h
      · cases h
      · cases h
        refine ⟨_, rfl, ?_, ?_⟩ <;>
          simp [ToCreate, PlannedMutation.createsDirectory, PlannedMutation.hasDelete]
  | deleteRemoteDirectory =>
      rw [hkind] at h
      dsimp only at h
      split at h
      · cases h
      · cases h
        refine ⟨_, rfl, ?_, ?_⟩ <;>
          simp [ToCreate, PlannedMutation.createsDirectory, PlannedMutation.hasDelete]
  | createRemoteDirectory =>
      rw [hkind] at h
      dsimp only at h
      split at h
      · cases h
      · cases h
        refine ⟨_, rfl, ?_, ?_⟩ <;>
          simp [ToDelete, PlannedMutation.createsDirectory, PlannedMutation.hasDelete]

theorem foldlM_collectMutation (h : actions.foldlM collectMutation mutations = .ok mutations')
    (path : String) :
    (ToCreate mutations' path ↔ ToCreate mutations path ∨
      ∃ e ∈ actions, e.1.kind = .createRemoteDirectory ∧ e.1.path = path) ∧
    (ToDelete mutations' path ↔ ToDelete mutations path ∨
      ∃ e ∈ actions, isDeletion e.1 = true ∧ e.1.path = path) := by
  induction actions generalizing mutations with
  | nil =>
      cases h
      simp
  | cons first rest ih =>
      rw [foldlM_cons] at h
      obtain ⟨between, hstep, h⟩ := bind_eq_ok.mp h
      obtain ⟨mutation, rfl, hcreates, hdeletes⟩ := collectMutation_eq_ok hstep
      obtain ⟨hcreate, hdelete⟩ := ih h
      rw [hcreate, hdelete]
      simp only [mem_cons, exists_eq_or_imp, ToCreate, ToDelete, mutationFor_insert]
      by_cases hpath : path = first.1.path
      · subst hpath
        rw [if_pos rfl, hcreates, hdeletes]
        simp only [ToCreate, ToDelete, and_true, or_assoc]
      · rw [if_neg hpath]
        simp only [Ne.symm hpath, and_false, false_or, true_and]

theorem exists_numbered {plan : SyncPlan} {action : SyncAction} (h : action ∈ plan.actions) :
    ∃ i, (action, i) ∈ plan.numbered := by
  obtain ⟨i, hi⟩ := mem_iff_getElem?.mp h
  exact ⟨i, mem_zipIdx_iff_getElem?.mpr hi⟩

/-- What is collected of a plan. -/
theorem collectPlannedMutations_eq_ok {plan : SyncPlan}
    (h : collectPlannedMutations plan = .ok mutations) (path : String) :
    (ToCreate mutations path ↔
      ∃ action ∈ plan.actions, action.kind = .createRemoteDirectory ∧ action.path = path) ∧
    (ToDelete mutations path ↔
      ∃ action ∈ plan.actions, isDeletion action = true ∧ action.path = path) := by
  obtain ⟨collected, hcollected, h⟩ := bind_eq_ok.mp h
  obtain ⟨_, -, h⟩ := bind_eq_ok.mp h
  cases h
  have hnumbered : ∀ P : SyncAction → Prop,
      (∃ e ∈ plan.numbered, P e.1) ↔ ∃ action ∈ plan.actions, P action := by
    intro P
    constructor
    · rintro ⟨e, he, hP⟩
      exact ⟨e.1, fst_mem_of_mem_zipIdx he, hP⟩
    · rintro ⟨action, haction, hP⟩
      obtain ⟨i, hi⟩ := exists_numbered haction
      exact ⟨(action, i), hi, hP⟩
  obtain ⟨hcreate, hdelete⟩ := foldlM_collectMutation hcollected path
  rw [hcreate, hdelete, hnumbered fun action ↦ action.kind = .createRemoteDirectory ∧ action.path = path,
    hnumbered fun action ↦ isDeletion action = true ∧ action.path = path]
  simp [ToCreate, ToDelete, mutationFor, PlannedMutation.default, PlannedMutation.createsDirectory,
    PlannedMutation.hasDelete]

end


/-! ## The walk to a destination -/

section

variable {mutations : Mutations} {root : String} {done rest : List String}

/-- The text of a relative path. -/
def relativeText (names : List String) : String := names.foldl joinRelative ""

theorem relativeText_concat (names : List String) (name : String) :
    relativeText (names ++ [name]) = joinRelative (relativeText names) name := by
  rw [relativeText, foldl_append]
  rfl

theorem relativeText_splitPath {path : String} (h : validateRemoteRelativePath path = .ok ()) :
    relativeText (splitPath path) = path := by
  refine splitPath_injective (splitPath_foldl_joinRelative (fun name hname ↦ ?_) (splitPath_ne_nil path))
  exact (plainName_of_valid_path h name hname).singleName

/-- What a walk ensures about the rest of its way. -/
structure WayChecked (t : ServerFiles) (root : String) (mutations : Mutations) (done rest : List String) :
    Prop where
  /-- What is in the way is replaced by a directory. -/
  replaced : ∀ front back, rest = front ++ back → front ≠ [] → back ≠ [] →
    Blocked IsDirectoryObject t (remoteComponents root ++ (done ++ front)) →
      ToCreate mutations (relativeText (done ++ front))
  notCreated : ¬ToCreate mutations (relativeText (done ++ rest))
  deleted : t.get? (remoteComponents root ++ (done ++ rest)) ≠ none →
    ToDelete mutations (relativeText (done ++ rest))

theorem WayChecked.cons {name : String}
    (h : WayChecked t root mutations (done ++ [name]) rest)
    (hname : Blocked IsDirectoryObject t (remoteComponents root ++ (done ++ [name])) →
      ToCreate mutations (relativeText (done ++ [name]))) :
    WayChecked t root mutations done (name :: rest) := by
  have hassoc : ∀ names, done ++ [name] ++ names = done ++ name :: names := fun names ↦
    append_cons .. |>.symm
  refine ⟨fun front back hrest hfront hback hblocked ↦ ?_, ?_, ?_⟩
  · obtain ⟨first, front', rfl⟩ := exists_cons_of_ne_nil hfront
    obtain ⟨rfl, hrest'⟩ := cons_eq_cons.mp hrest
    by_cases hnil : front' = []
    · subst hnil
      exact hname hblocked
    · rw [← hassoc] at hblocked ⊢
      exact h.replaced front' back hrest' hnil hback hblocked
  · rw [← hassoc]
    exact h.notCreated
  · rw [← hassoc]
    exact h.deleted

theorem WayChecked.last {name : String}
    (hcreate : ¬ToCreate mutations (relativeText (done ++ [name])))
    (hdelete : t.get? (remoteComponents root ++ (done ++ [name])) ≠ none →
      ToDelete mutations (relativeText (done ++ [name]))) :
    WayChecked t root mutations done [name] := by
  refine ⟨fun front back hrest hfront hback ↦ ?_, hcreate, hdelete⟩
  rcases append_eq_singleton_iff.mp hrest.symm with ⟨hnil, -⟩ | ⟨-, hnil⟩
  · exact absurd hnil hfront
  · exact absurd hnil hback

theorem validateUpload_eq_ok {path : String} {mutation : PlannedMutation}
    (h : validateUploadBeneathFreshAncestor path mutation = .ok ()) :
    ¬mutation.createsDirectory = true := by
  intro hcreate
  unfold validateUploadBeneathFreshAncestor at h
  rw [if_pos hcreate] at h
  split at h <;> cases h

/-- What stands at a destination has to be deleted, as what it is. -/
theorem deletes_of_check {deletes deletesOther : Bool} {text path : String}
    (h : (if deletes && !deletesOther then .ok ()
      else if deletesOther then bail text else rejectAtomicOverwrite path) = .ok ()) :
    deletes = true := by
  split at h
  · next hdelete => exact (Bool.and_eq_true_iff.mp hdelete).1
  · split at h <;> cases h

theorem validateFinal_eq_ok {path : String} {current : Option RemoteNodeKind}
    {mutation : PlannedMutation} (h : validateFinalUploadDestination path current mutation = .ok ()) :
    ¬mutation.createsDirectory = true ∧ (current ≠ none → mutation.hasDelete = true) := by
  unfold validateFinalUploadDestination at h
  split at h
  · cases h
  · next hcreate =>
    refine ⟨hcreate, fun hpresent ↦ ?_⟩
    rw [PlannedMutation.hasDelete, Bool.or_eq_true]
    split at h
    · exact absurd rfl hpresent
    · exact .inr (deletes_of_check h)
    · exact .inl (deletes_of_check h)
    · exact .inl (deletes_of_check h)

/-- Nothing is below what is made anew, and nothing is checked there but the plan. -/
theorem wayChecked_fresh (hwf : WellFormed IsDirectoryObject t) (hrest : rest ≠ [])
    (hfresh : ¬DirectoryAt IsDirectoryObject t (remoteComponents root ++ done))
    (h : preflightUploadComponents t root mutations (relativeText done) true rest = .ok ()) :
    WayChecked t root mutations done rest := by
  induction rest generalizing done with
  | nil => exact absurd rfl hrest
  | cons name rest ih =>
      have habsent : t.get? (remoteComponents root ++ (done ++ [name])) = none := by
        rw [← append_assoc]
        exact hwf.eq_none hfresh (prefix_append _ _) (by simp)
      unfold preflightUploadComponents at h
      dsimp only at h
      rw [← relativeText_concat, if_pos rfl] at h
      by_cases hnil : rest = []
      · subst hnil
        rw [if_pos rfl] at h
        exact .last (validateUpload_eq_ok h) fun hpresent ↦ absurd habsent hpresent
      · rw [if_neg hnil] at h
        obtain ⟨_, -, h⟩ := bind_eq_ok.mp h
        refine .cons (ih hnil (not_directoryAt_of_none (by simp) habsent) h) fun hblocked ↦ ?_
        exact absurd habsent hblocked.ne_none

theorem wayChecked (hwf : WellFormed IsDirectoryObject t) (hrest : rest ≠ [])
    (hvalid : ∀ name ∈ done ++ rest, validateRemoteChildName name = .ok ())
    (h : preflightUploadComponents t root mutations (relativeText done) false rest = .ok ()) :
    WayChecked t root mutations done rest := by
  induction rest generalizing done with
  | nil => exact absurd rfl hrest
  | cons name rest ih =>
      have hnames : ∀ n ∈ done ++ [name], validateRemoteChildName n = .ok () := fun n hn ↦
        hvalid n (by simpa using mem_append_left rest hn)
      have hvalid' : ∀ n ∈ done ++ [name] ++ rest, validateRemoteChildName n = .ok () := by
        rw [← append_cons]
        exact hvalid
      have hhere : validateRemoteRelativePath (relativeText (done ++ [name])) = .ok () :=
        valid_foldl_joinRelative hnames (by simp)
      have hplace : remoteComponents (leading root ++ relativeText (done ++ [name])) =
          remoteComponents root ++ (done ++ [name]) := by
        rw [(joinRemoteUnderRoot_components hhere).1, relativeText,
          splitPath_foldl_joinRelative (fun n hn ↦ (plainName_of_valid (hnames n hn)).singleName) (by simp)]
      unfold preflightUploadComponents at h
      dsimp only at h
      rw [← relativeText_concat, if_neg Bool.false_ne_true, joinRemoteUnderRoot_eq hhere, bind_ok,
        remoteNodeKindIfExists, hplace] at h
      by_cases hnil : rest = []
      · subst hnil
        rw [if_pos rfl] at h
        obtain ⟨hcreate, hdelete⟩ := validateFinal_eq_ok h
        refine .last hcreate fun hpresent ↦ hdelete ?_
        rw [ne_eq, Option.map_eq_none_iff]
        exact hpresent
      · rw [if_neg hnil] at h
        -- Where there is no directory, what is below will be made anew.
        have hfresh : (t.get? (remoteComponents root ++ (done ++ [name]))).map remoteNodeKind ≠
            some .directory → preflightUploadComponents t root mutations
              (relativeText (done ++ [name])) true rest = .ok () →
            WayChecked t root mutations (done ++ [name]) rest := fun hkind h ↦
          wayChecked_fresh hwf hnil (not_directoryAt_of_kind (by simp) hkind) h
        have hreplaced : ∀ {found : RemoteNodeKind}, found ≠ .directory →
            (t.get? (remoteComponents root ++ (done ++ [name]))).map remoteNodeKind = some found →
            (mutationFor mutations (relativeText (done ++ [name]))).createsDirectory = true →
            preflightUploadComponents t root mutations (relativeText (done ++ [name])) true rest =
              .ok () → WayChecked t root mutations done (name :: rest) := by
          intro found hfound hkind hcreate h
          refine .cons (hfresh ?_ h) fun _ ↦ hcreate
          rw [hkind]
          exact fun heq ↦ hfound (Option.some.inj heq)
        split at h
        · next hkind =>
          split at h
          · cases h
          · refine .cons (ih hnil hvalid' h) fun hblocked ↦ ?_
            exact absurd hblocked (not_blocked_of_kind hkind)
        · next hkind =>
          split at h
          · next hreplace =>
            exact hreplaced RemoteNodeKind.noConfusion hkind (Bool.and_eq_true_iff.mp hreplace).2 h
          · cases h
        · next hkind =>
          split at h
          · next hreplace =>
            exact hreplaced RemoteNodeKind.noConfusion hkind (Bool.and_eq_true_iff.mp hreplace).2 h
          · cases h
        · next hkind =>
          split at h
          · cases h
          · refine .cons (hfresh ?_ h) fun hblocked ↦ ?_
            · rw [hkind]
              exact fun heq ↦ by cases heq
            · exact absurd (Option.map_eq_none_iff.mp hkind) hblocked.ne_none

end


/-! ## After the actions -/

/-- When the remote root is not there, a directory on the way to it is missing. -/
theorem exists_missing_of_segments {root current : String} {rest whole : List String}
    (hnames : ∀ name ∈ rest, SingleName name)
    (hwhole : remoteComponents current ++ rest.filter (fun segment ↦ segment ≠ ".") = whole)
    (h : rootSegmentsExist t root current rest = .ok false) :
    ∃ dir, dir <+: whole ∧ dir ≠ [] ∧ t.get? dir = none := by
  induction rest generalizing current with
  | nil => cases h
  | cons segment rest ih =>
      obtain ⟨hname, hrest⟩ := forall_mem_cons.mp hnames
      unfold rootSegmentsExist at h
      split at h
      · next hdot =>
        rw [filter_cons_of_neg (by simp [hdot])] at hwhole
        exact ih hrest hwhole h
      · next hdot =>
        have hhere : remoteComponents (joinRemoteComponent current segment) =
            remoteComponents current ++ [segment] := remoteComponents_join hname hdot
        have hwhole' := remoteComponents_walk hname hdot hwhole
        split at h
        · cases h
        · dsimp only at h
          split at h
          · exact ih hrest hwhole' h
          · cases h
          · cases h
          · next hkind =>
            refine ⟨remoteComponents (joinRemoteComponent current segment), ?_, ?_,
              Option.map_eq_none_iff.mp hkind⟩
            · rw [← hwhole']
              exact prefix_append _ _
            · rw [hhere]
              simp

theorem exists_missing {root : String} (h : remoteRootExistsWithoutSymlinks t root = .ok false) :
    ∃ dir, dir <+: remoteComponents root ∧ dir ≠ [] ∧ t.get? dir = none := by
  unfold remoteRootExistsWithoutSymlinks at h
  split at h
  · cases h
  · split at h
    · cases h
    · refine exists_missing_of_segments (fun name hname ↦ singleName_of_mem_segments hname) ?_ h
      rw [remoteComponents_walkStart, nil_append, ← remoteComponents_eq]

/-- What the preflight ensures about an upload, whether the remote root is there or not. -/
theorem wayChecked_of_preflight {root : String} {action : SyncAction}
    (hwf : WellFormed IsDirectoryObject t)
    (hvalid : validateRemoteRelativePath action.path = .ok ())
    (h : preflightAtomicSync t root plan = .ok ()) (haction : action ∈ plan.uploads) :
    ∃ mutations, collectPlannedMutations plan = .ok mutations ∧
      WayChecked t root mutations [] (splitPath action.path) := by
  obtain ⟨mutations, hmutations, h⟩ := bind_eq_ok.mp h
  obtain ⟨rootExists, hroot, h⟩ := bind_eq_ok.mp h
  refine ⟨mutations, hmutations, ?_⟩
  cases rootExists with
  | true =>
      rw [if_pos rfl] at h
      have hupload := forM_eq_ok.mp h action haction
      obtain ⟨_, -, hwalk⟩ := bind_eq_ok.mp hupload
      exact wayChecked hwf (splitPath_ne_nil _) (valid_iff.mp hvalid) hwalk
  | false =>
      rw [if_neg Bool.false_ne_true] at h
      split at h
      · cases h
      · have hupload := forM_eq_ok.mp h action haction
        obtain ⟨dir, hdir, hne, hmissing⟩ := exists_missing hroot
        -- Nothing is below a root that is not there.
        have hbelow : ∀ names, names ≠ [] → t.get? (remoteComponents root ++ names) = none := by
          intro names hnames
          refine hwf.eq_none (not_directoryAt_of_none hne hmissing)
            (hdir.trans (prefix_append _ _)) ?_
          intro heq
          have hlength := hdir.length_le
          rw [heq, length_append] at hlength
          have hpositive := length_pos_iff.mpr hnames
          omega
        refine ⟨fun front back _ hfront _ hblocked ↦ ?_, ?_, fun hpresent ↦ ?_⟩
        · rw [nil_append] at hblocked
          exact absurd (hbelow front hfront) hblocked.ne_none
        · rw [nil_append, relativeText_splitPath hvalid]
          exact validateUpload_eq_ok hupload
        · exact absurd (hbelow _ (splitPath_ne_nil _)) hpresent


theorem valid_of_validateSyncPlan (h : validateSyncPlan platform plan = .ok ()) :
    ∀ action ∈ plan.actions, validateRemoteRelativePath action.path = .ok () := by
  intro action haction
  obtain ⟨i, hmem⟩ := exists_numbered haction
  obtain ⟨_, hpath, -⟩ := bind_eq_ok.mp (forM_eq_ok.mp h _ hmem)
  exact context_eq_ok.mp hpath

theorem wellFormed_of_applyStructure {root : String}
    (hvalid : validateSyncPlan platform plan = .ok ()) (hwf : WellFormed IsDirectoryObject t)
    (happly : applyStructure paths root plan t = .ok t') : WellFormed IsDirectoryObject t' := by
  obtain ⟨t₀, hensure, hactions⟩ := bind_eq_ok.mp happly
  have hwf₀ := (ensureRemoteDir_eq_ok hensure).1.wellFormed hwf
  exact (actions_acted (valid_of_validateSyncPlan hvalid) hwf₀ hactions).1.wellFormed hwf₀

/-- A path is above another one. -/
def IsAbove (path other : String) : Prop := splitPath path <+: splitPath other ∧ path ≠ other

instance decidableIsAbove (path other : String) : Decidable (IsAbove path other) :=
  inferInstanceAs (Decidable (splitPath path <+: splitPath other ∧ path ≠ other))

/-- The way to a destination when the uploads begin. -/
structure Cleared (t : ServerFiles) (root : String) (plan : SyncPlan) (action : SyncAction) : Prop where
  way : ∀ dir, dir <+: place root action.path → dir ≠ place root action.path →
    ¬Blocked IsDirectoryObject t dir
  absent : (∀ other ∈ plan.actions, other.kind = .createRemoteDirectory →
    ¬IsAbove action.path other.path) → t.get? (place root action.path) = none

/-- The removals and the new directories do what the preflight has counted on. -/
theorem cleared {root : String} {action : SyncAction}
    (hvalid : validateSyncPlan platform plan = .ok ()) (hwf : WellFormed IsDirectoryObject t)
    (hpreflight : preflightAtomicSync t root plan = .ok ())
    (happly : applyStructure paths root plan t = .ok t') (haction : action ∈ plan.uploads) :
    Cleared t' root plan action := by
  have hvalid := valid_of_validateSyncPlan hvalid
  have hmem : action ∈ plan.actions := (mem_filter.mp haction).1
  obtain ⟨mutations, hmutations, hway⟩ := wayChecked_of_preflight hwf (hvalid action hmem) hpreflight haction
  have hplanned := collectPlannedMutations_eq_ok hmutations
  obtain ⟨t₀, hensure, hactions⟩ := bind_eq_ok.mp happly
  obtain ⟨hmade, hdirectories⟩ := ensureRemoteDir_eq_ok hensure
  have hwf₀ := hmade.wellFormed hwf
  obtain ⟨hrestructured, hdeleted, hcreated⟩ := actions_acted hvalid hwf₀ hactions
  -- The root is made of directories that lie above everything that the plan names.
  have hbelow : ∀ names, names ≠ [] → t₀.get? (remoteComponents root ++ names) =
      t.get? (remoteComponents root ++ names) ∨ t₀.get? (remoteComponents root ++ names) = none := by
    intro names hnames
    rcases hmade.at_path (remoteComponents root ++ names) with heq | hnone | ⟨-, habove⟩
    · exact .inl heq
    · exact .inr hnone
    · have hlength := habove.length_le
      have hpositive := length_pos_iff.mpr hnames
      rw [length_append] at hlength
      omega
  refine ⟨fun dir hdir hne ↦ ?_, fun hnotAbove ↦ ?_⟩
  · by_cases hroot : dir <+: remoteComponents root
    · refine hrestructured.not_blocked hwf₀ fun hblocked ↦ ?_
      exact hblocked.not_directoryAt hwf₀ (hdirectories dir hroot)
    · obtain ⟨front, rfl⟩ := (List.prefix_or_prefix_of_prefix hdir
        (prefix_append _ _)).resolve_left hroot
      obtain ⟨back, hsplit⟩ := (prefix_append_right_inj _).mp hdir
      by_cases hblocked : Blocked IsDirectoryObject t₀ (remoteComponents root ++ front)
      · have hfront : front ≠ [] := by
          rintro rfl
          exact hroot (by rw [append_nil])
        have hback : back ≠ [] := by
          rintro rfl
          rw [append_nil] at hsplit
          exact hne (by rw [hsplit, place])
        have hblocked' : Blocked IsDirectoryObject t (remoteComponents root ++ front) := by
          rcases hbelow front hfront with heq | hnone
          · exact hblocked.congr heq
          · obtain ⟨object, hget, -⟩ := hblocked
            rw [hnone] at hget
            cases hget
        obtain ⟨other, hother, hkind, hpath⟩ := (hplanned _).1.mp
          (hway.replaced front back hsplit.symm hfront hback hblocked')
        have hplace : splitPath other.path = front := by
          rw [hpath, nil_append, relativeText]
          refine splitPath_foldl_joinRelative (fun name hname ↦ ?_) hfront
          refine (plainName_of_valid_path (hvalid action hmem) name ?_).singleName
          rw [← hsplit]
          exact mem_append_left _ hname
        have hreplaced := hcreated other hother hkind
        rw [place, hplace] at hreplaced
        exact hreplaced
      · exact hrestructured.not_blocked hwf₀ hblocked
  · have htext := relativeText_splitPath (hvalid action hmem)
    have hnot : ∀ other ∈ plan.actions, ¬Creates root other (place root action.path) := by
      rintro other hother ⟨hkind, hplace⟩
      have habove := (prefix_append_right_inj _).mp hplace
      by_cases hpath : action.path = other.path
      · refine hway.notCreated ((hplanned _).1.mpr ⟨other, hother, hkind, ?_⟩)
        rw [nil_append, htext, hpath]
      · exact hnotAbove other hother hkind ⟨habove, hpath⟩
    have habsent : t₀.get? (place root action.path) = none → t'.get? (place root action.path) = none := by
      refine fun hnone ↦ hrestructured.absent hnone ?_
      rintro ⟨other, hother, hcreates⟩
      exact hnot other hother hcreates
    rcases hbelow (splitPath action.path) (splitPath_ne_nil _) with heq | hnone
    · by_cases hnone : t.get? (place root action.path) = none
      · exact habsent (heq.trans hnone)
      · obtain ⟨other, hother, hdelete, hpath⟩ := (hplanned _).2.mp (hway.deleted hnone)
        rw [nil_append, htext] at hpath
        rw [← hpath] at hnot ⊢
        exact hdeleted other hother hdelete hnot
    · exact habsent hnone


/-! ## The local files -/

section

variable {source : SyncSource} {expectedLen : Nat} {current names : List String}

/-- A file is what is to be uploaded, and directories are above it. -/
theorem preflightComponents_eq_ok (hne : names ≠ [])
    (h : source.preflightComponents expectedLen current (names.map .normal) = .ok ()) :
    (∃ object bytes, source.lookup (current ++ names) = some object ∧ object.kind = .regular bytes) ∧
      ∀ front back, names = front ++ back → front ≠ [] → back ≠ [] →
        ∃ object, source.lookup (current ++ front) = some object ∧ object.kind = .directory := by
  induction names generalizing current with
  | nil => exact absurd rfl hne
  | cons name rest ih =>
      rw [map_cons, SyncSource.preflightComponents] at h
      obtain ⟨object, hobject, h⟩ := bind_eq_ok.mp h
      have hlookup : source.lookup (current ++ [name]) = some object := by
        have hobject := context_eq_ok.mp hobject
        unfold SyncSource.symlinkMetadata at hobject
        split at hobject
        · next found hfound =>
          cases hobject
          exact hfound
        · cases hobject
      cases hkind : object.kind with
      | symlink =>
          rw [hkind] at h
          cases h
      | other =>
          rw [hkind] at h
          dsimp only at h
          split at h <;> cases h
      | regular bytes =>
          rw [hkind] at h
          dsimp only at h
          split at h
          · cases h
          · next hrest =>
            rw [not_not, map_eq_nil_iff] at hrest
            subst hrest
            refine ⟨⟨object, bytes, hlookup, hkind⟩, fun front back heq hfront hback ↦ ?_⟩
            rcases append_eq_singleton_iff.mp heq.symm with ⟨hnil, -⟩ | ⟨-, hnil⟩
            · exact absurd hnil hfront
            · exact absurd hnil hback
      | directory =>
          rw [hkind] at h
          dsimp only at h
          split at h
          · cases h
          · next hrest =>
            rw [map_eq_nil_iff] at hrest
            obtain ⟨hfile, hdirectories⟩ := ih hrest h
            rw [← append_cons] at hfile
            refine ⟨hfile, fun front back heq hfront hback ↦ ?_⟩
            obtain ⟨first, front', rfl⟩ := exists_cons_of_ne_nil hfront
            obtain ⟨rfl, heq'⟩ := cons_eq_cons.mp heq
            by_cases hnil : front' = []
            · subst hnil
              exact ⟨object, hlookup, hkind⟩
            · rw [append_cons]
              exact hdirectories front' back heq' hnil hback

/-- No file that is uploaded is above another one. -/
theorem not_isAbove_of_sources {platform : Platform} {plan : SyncPlan} {action other : SyncAction}
    (hvalid : validateSyncPlan platform plan = .ok ())
    (h : source.preflightLocalSyncSources platform plan = .ok ()) (haction : action ∈ plan.uploads)
    (hother : other ∈ plan.uploads) : ¬IsAbove action.path other.path := by
  obtain ⟨_, -, h⟩ := bind_eq_ok.mp h
  have hchecked : ∀ action ∈ plan.uploads, ∃ expectedLen, source.preflightComponents expectedLen []
      ((splitPath action.path).map .normal) = .ok () := by
    intro action haction
    obtain ⟨hmem, hkind⟩ := mem_filter.mp haction
    obtain ⟨i, hnumbered⟩ := exists_numbered hmem
    have hcheck := forM_eq_ok.mp h _ hnumbered
    rw [if_neg (not_not.mpr (of_decide_eq_true hkind)),
      localPathFromRemoteRelative_eq (valid_of_validateSyncPlan hvalid _ hmem)] at hcheck
    have hcheck := context_eq_ok.mp hcheck
    unfold SyncSource.preflightLocalSyncSource at hcheck
    split at hcheck
    · cases hcheck
    · exact ⟨_, hcheck⟩
  rintro ⟨⟨back, hsplit⟩, hne⟩
  obtain ⟨_, haction⟩ := hchecked action haction
  obtain ⟨_, hother⟩ := hchecked other hother
  obtain ⟨⟨object, bytes, hlookup, hregular⟩, -⟩ :=
    preflightComponents_eq_ok (splitPath_ne_nil _) haction
  have hback : back ≠ [] := by
    rintro rfl
    rw [append_nil] at hsplit
    exact hne (splitPath_injective hsplit)
  obtain ⟨object', hlookup', hdirectory⟩ :=
    (preflightComponents_eq_ok (splitPath_ne_nil _) hother).2 _ back hsplit.symm (splitPath_ne_nil _) hback
  rw [hlookup] at hlookup'
  cases hlookup'
  rw [hregular] at hdirectory
  cases hdirectory

end

end KaduoxSsh.Transfer
