import KaduoxSsh.Transfer.DeletePlan

/-!
# What a recursive deletion plans and removes

The walk of `buildDeletePlan` is the one of `DirTree.entriesBelow`, so that the plan
lists the entries below the root in an order in which no entry comes before a
directory that it lies in. Removing the entries of a tree in the reverse of such an
order leaves an empty directory each time when its turn comes.
-/

namespace KaduoxSsh.Transfer

open DirTree Result List

variable {β : Type} {server : Server β} {t : RemoteFs β} {options options' : RemoteDeleteOptions}
  {root name : String} {place names : List String}

/-! ## Names and texts -/

structure EntryName (name : String) : Prop where
  single : SingleName name
  not_dot : name ≠ "."
  not_dotdot : name ≠ ".."
  not_nul : '\x00' ∉ name.toList

def RemoteFs.Named (t : RemoteFs β) : Prop :=
  ∀ path n, t.get? path = some n → ∀ name ∈ path, EntryName name

/-- A tree as a server can have it. -/
structure RemoteFs.Sound (t : RemoteFs β) : Prop where
  wellFormed : t.WellFormed
  names : t.Named

/-- A server lists each entry of a directory once, and itself and its parent under `.` and `..`. -/
structure Server.Lists (server : Server β) : Prop where
  entries : ∀ t dir, RemoteFs.Named t → t.get? dir = some .dir →
    ((server.readDir t dir).filter fun e ↦ e.1 ≠ "." ∧ e.1 ≠ "..").Perm
      ((t.children dir).map fun e ↦ (e.1, fileTypeOf e.2))

/-- A server tells where each symbolic link leads. -/
def Server.ReadsLinks (server : Server β) : Prop :=
  ∀ t key, t.get? key = some (.file .symlink) → ∃ target, server.linkTarget t key = .ok target

/-- The text for an entry below the root. -/
def pathBelow (root : String) (names : List String) : String := names.foldl joinRemoteChild root

theorem pathBelow_concat (root name : String) (names : List String) :
    pathBelow root (names ++ [name]) = joinRemoteChild (pathBelow root names) name :=
  foldl_append

/-- A text to which a name can be added with a slash. -/
def Extensible (path : String) : Prop := path.toList.getLast? ≠ some '/'

theorem joinRemoteChild_eq (h : Extensible root) :
    joinRemoteChild root name = root ++ "/" ++ name := by
  rw [joinRemoteChild, if_neg, if_neg h]
  rintro rfl
  exact h rfl
theorem extensible_append (hname : SingleName name) (path : String) : Extensible (path ++ name) := by
  have hne : name.toList ≠ [] := fun h ↦ hname.1 (String.toList_inj.mp h)
  rw [Extensible, String.toList_append, List.getLast?_append_of_ne_nil _ hne]
  exact fun h ↦ hname.2 (mem_of_getLast? h)

section

variable (hroot : Extensible root) (hnames : ∀ name ∈ names, SingleName name)

include hroot hnames

theorem extensible_pathBelow : Extensible (pathBelow root names) := by
  induction names using List.reverseRecOn with
  | nil => exact hroot
  | append_singleton front last ih =>
      have hfront := ih fun name hname ↦ hnames name (mem_append_left _ hname)
      rw [pathBelow_concat, joinRemoteChild_eq hfront]
      exact extensible_append (hnames last (mem_append_right _ mem_cons_self)) _

theorem pathBelow_eq (hne : names ≠ []) :
    pathBelow root names = root ++ "/" ++ names.foldl joinRelative "" := by
  induction names using List.reverseRecOn with
  | nil => exact absurd rfl hne
  | append_singleton front last ih =>
      have hfrontNames : ∀ name ∈ front, SingleName name := fun name hname ↦
        hnames name (mem_append_left _ hname)
      rw [pathBelow_concat, foldl_append, foldl_cons, foldl_nil]
      by_cases hfront : front = []
      · subst hfront
        exact joinRemoteChild_eq hroot
      · have hrelative : front.foldl joinRelative "" ≠ "" := by
          intro heq
          have hsplit := splitPath_foldl_joinRelative hfrontNames hfront
          rw [heq] at hsplit
          exact (hfrontNames "" (hsplit ▸ mem_cons_self)).1 rfl
        rw [joinRemoteChild_eq (extensible_pathBelow hroot hfrontNames), ih hfrontNames hfront,
          joinRelative_eq hrelative]
        simp only [String.append_assoc]

/-- The text for an entry leads to the entry. -/
theorem locate_pathBelow : locate root place (pathBelow root names) = some (place ++ names) := by
  unfold locate
  by_cases hne : names = []
  · subst hne
    rw [if_pos (show pathBelow root [] = root from rfl), append_nil]
  · have heq := pathBelow_eq hroot hnames hne
    have hlist : (pathBelow root names).toList =
        (root ++ "/").toList ++ (names.foldl joinRelative "").toList := by
      rw [heq, String.toList_append]
    have hlonger : pathBelow root names ≠ root := by
      intro hsame
      have hlength := congrArg List.length hlist
      rw [hsame, String.toList_append, length_append, length_append] at hlength
      have hslash : ("/" : String).toList.length = 1 := rfl
      omega
    rw [if_neg hlonger, if_pos (hlist ▸ prefix_append _ _), hlist, ← String.length_toList,
      drop_left, String.ofList_toList, splitPath_foldl_joinRelative hnames hne]

/-- Different entries have different texts. -/
theorem pathBelow_injective {names' : List String} (hnames' : ∀ name ∈ names', SingleName name)
    (h : pathBelow root names = pathBelow root names') : names = names' := by
  have hlocate : locate root [] (pathBelow root names) = some names :=
    locate_pathBelow hroot hnames
  rw [h, locate_pathBelow hroot hnames'] at hlocate
  exact (Option.some.inj hlocate).symm

end

theorem extensible_of_validateMutationPath (h : validateMutationPath root = .ok ()) :
    Extensible root := by
  obtain ⟨hempty, h⟩ := check_bind_eq_ok.mp h
  obtain ⟨-, h⟩ := check_bind_eq_ok.mp h
  obtain ⟨-, h⟩ := check_bind_eq_ok.mp h
  obtain ⟨hbody, -⟩ := check_bind_eq_ok.mp h
  rw [bailIf_eq_ok, not_or] at hbody
  obtain ⟨hbodyNe, hlast⟩ := hbody
  have hsuffix : ∃ front, root.toList = front ++ mutationBody root.toList := by
    unfold mutationBody
    split
    · next heq => exact ⟨['.', '/'], heq⟩
    · next heq => exact ⟨['/'], heq⟩
    · exact ⟨[], rfl⟩
  obtain ⟨front, hfront⟩ := hsuffix
  rw [Extensible, hfront, List.getLast?_append_of_ne_nil _ hbodyNe]
  exact hlast

/-! ## Listings -/

/-- The entry of a plan for an entry of the tree. -/
def dirEntry (root : String) (place : List String) (e : List String × Node (Leaf β)) :
    RemoteDirEntry :=
  ⟨e.1.getLast?.getD "", pathBelow root (e.1.drop place.length), fileTypeOf e.2⟩

theorem validateRemoteEntryName_eq_ok : validateRemoteEntryName name = .ok () ↔ EntryName name := by
  rw [validateRemoteEntryName, check_bind_eq_ok, bailIf_eq_ok, bailIf_eq_ok]
  simp only [not_or]
  exact ⟨fun h ↦ ⟨⟨h.1.1, h.2.1⟩, h.1.2.1, h.1.2.2, h.2.2⟩,
    fun h ↦ ⟨⟨h.single.1, h.not_dot, h.not_dotdot⟩, h.single.2, h.not_nul⟩⟩

/-- A directory of the tree is listed by name, in whatever order the server lists it. -/
theorem listDirectory_eq (hlists : server.Lists) (hvalidNames : RemoteFs.Named t)
    (hroot : Extensible server.root)
    (hnames : ∀ name ∈ names, SingleName name)
    (hdir : t.get? (server.place ++ names) = some .dir) :
    listDirectory server t (pathBelow server.root names) =
      .ok ((t.children (server.place ++ names)).map fun e ↦
        dirEntry server.root server.place (server.place ++ names ++ [e.1], e.2)) := by
  have hentries := hlists.entries t _ hvalidNames hdir
  have hvalid : ∀ e ∈ (server.readDir t (server.place ++ names)).filter
      (fun e ↦ e.1 ≠ "." ∧ e.1 ≠ ".."), validateRemoteEntryName e.1 = .ok () := by
    intro e he
    obtain ⟨⟨name, n⟩, hchild, rfl⟩ := mem_map.mp (hentries.mem_iff.mp he)
    refine validateRemoteEntryName_eq_ok.mpr (hvalidNames _ n (mem_children.mp hchild) name ?_)
    exact mem_append_right _ mem_cons_self
  have hlist : server.list t (pathBelow server.root names) =
      .ok (server.readDir t (server.place ++ names)) := by
    rw [Server.list, locate_pathBelow hroot hnames]
    dsimp only
    rw [hdir]
  rw [listDirectory, hlist, context, bind_ok]
  dsimp only
  rw [forM_eq_ok.mpr hvalid, bind_ok, pure_eq_ok, Except.ok.injEq]
  have htarget : ((t.children (server.place ++ names)).map fun e ↦ (e.1, fileTypeOf e.2)).map
      (fun e ↦ (⟨e.1, joinRemoteChild (pathBelow server.root names) e.1, e.2⟩ : RemoteDirEntry)) =
      (t.children (server.place ++ names)).map fun e ↦
        dirEntry server.root server.place (server.place ++ names ++ [e.1], e.2) := by
    rw [map_map]
    refine map_congr_left fun e _ ↦ ?_
    rw [dirEntry, List.getLast?_concat, append_assoc, drop_left, pathBelow_concat]
    rfl
  have hperm := (hentries.map fun e ↦
    (⟨e.1, joinRemoteChild (pathBelow server.root names) e.1, e.2⟩ : RemoteDirEntry))
  rw [htarget] at hperm
  have hsorted : ((t.children (server.place ++ names)).map fun e ↦
      dirEntry server.root server.place (server.place ++ names ++ [e.1], e.2)).Pairwise
      fun left right ↦ left.name < right.name := by
    refine pairwise_map.mpr (children_sorted.imp fun hlt ↦ ?_)
    rw [dirEntry, dirEntry, List.getLast?_concat, List.getLast?_concat]
    exact hlt
  have htotal : Std.Total fun left right : RemoteDirEntry ↦ left.name ≤ right.name :=
    ⟨fun left right ↦ le_total _ _⟩
  have htrans : IsTrans RemoteDirEntry fun left right ↦ left.name ≤ right.name :=
    ⟨fun a b c hab hbc ↦ le_trans hab hbc⟩
  refine ((perm_insertionSort _ _).trans hperm).eq_of_pairwise (fun a b ha hb hab hba ↦ ?_)
    (pairwise_insertionSort _ _) (hsorted.imp le_of_lt)
  have ha' := ((perm_insertionSort _ _).trans hperm).mem_iff.mp ha
  have hnodup := (pairwise_map.mpr (hsorted.imp ne_of_lt) : (List.map RemoteDirEntry.name _).Nodup)
  exact inj_on_of_nodup_map hnodup ha' hb (le_antisymm hab hba)

/-! ## Plans -/

variable {plan plan' : RemoteDeletePlan} {entry : RemoteDirEntry} {entries : List RemoteDirEntry}
  {e : List String × Node (Leaf β)} {key : List String} {n : Node (Leaf β)} {path : String}

def RemoteDirEntry.toDelete (entry : RemoteDirEntry) : RemoteDeleteEntry :=
  ⟨entry.path, entry.fileType⟩

/-- A plan with one more entry. -/
def RemoteDeletePlan.add (plan : RemoteDeletePlan) (entry : RemoteDirEntry) : RemoteDeletePlan where
  root := plan.root
  files := if entry.fileType = .file then plan.files + 1 else plan.files
  directories := if entry.fileType = .directory then plan.directories + 1 else plan.directories
  symlinks := if entry.fileType = .symlink then plan.symlinks + 1 else plan.symlinks
  entries := plan.entries ++ [entry.toDelete]

/-- Each entry is counted. -/
def RemoteDeletePlan.Counted (plan : RemoteDeletePlan) : Prop :=
  plan.files + plan.directories + plan.symlinks = plan.entries.length

theorem RemoteDeletePlan.Counted.add (h : plan.Counted) (hother : entry.fileType ≠ .other) :
    (plan.add entry).Counted := by
  unfold RemoteDeletePlan.Counted at h ⊢
  rw [RemoteDeletePlan.add, length_append, length_singleton, ← h]
  cases htype : entry.fileType with
  | other => exact absurd htype hother
  | _ =>
      simp
      omega

theorem planEntry_eq_ok (h : planEntry options plan entry = .ok plan') :
    plan' = plan.add entry ∧ entry.fileType ≠ .other ∧
      plan'.entries.length ≤ options.maxEntries := by
  obtain ⟨counted, hcount, h⟩ := bind_eq_ok.mp h
  obtain ⟨hbudget, heq⟩ := check_bind_eq_ok.mp h
  rw [ensureDeletePlanBudget, bailIf_eq_ok, Nat.not_lt] at hbudget
  cases heq
  refine ⟨?_, ?_, hbudget⟩
  · unfold countEntry at hcount
    unfold RemoteDeletePlan.add RemoteDirEntry.toDelete
    cases htype : entry.fileType with
    | other =>
        rw [htype] at hcount
        cases hcount
    | _ =>
        rw [htype] at hcount
        simp only [checkedIncrement, checkedAdd] at hcount
        split at hcount
        · cases hcount
          simp
        · cases hcount
  · intro htype
    rw [countEntry, htype] at hcount
    cases hcount

theorem checkedIncrement_eq {value : Nat} {label : String} (h : value < maxRemoteDeleteMaxEntries) :
    checkedIncrement value label = .ok (value + 1) := by
  rw [checkedIncrement, checkedAdd, if_pos]
  · rfl
  · exact Nat.lt_of_le_of_lt h (by decide)

theorem planEntry_ok (hcounted : plan.Counted) (hother : entry.fileType ≠ .other)
    (hbudget : plan.entries.length < options.maxEntries)
    (hmax : options.maxEntries ≤ maxRemoteDeleteMaxEntries) :
    planEntry options plan entry = .ok (plan.add entry) := by
  unfold RemoteDeletePlan.Counted at hcounted
  have hcount : ∃ counted, countEntry plan entry = .ok counted ∧
      { counted with entries := counted.entries ++ [entry.toDelete] } = plan.add entry := by
    unfold countEntry RemoteDeletePlan.add
    cases htype : entry.fileType with
    | other => exact absurd htype hother
    | directory =>
        dsimp only
        rw [checkedIncrement_eq (by omega)]
        exact ⟨_, rfl, rfl⟩
    | file =>
        dsimp only
        rw [checkedIncrement_eq (by omega)]
        exact ⟨_, rfl, rfl⟩
    | symlink =>
        dsimp only
        rw [checkedIncrement_eq (by omega)]
        exact ⟨_, rfl, rfl⟩
  obtain ⟨counted, hok, hadd⟩ := hcount
  have hlength : ¬(plan.add entry).entries.length > options.maxEntries := by
    rw [RemoteDeletePlan.add, length_append, length_singleton]
    omega
  rw [planEntry, hok, bind_ok]
  show (ensureDeletePlanBudget { counted with entries := counted.entries ++ [entry.toDelete] } options
    >>= fun _ ↦ pure { counted with entries := counted.entries ++ [entry.toDelete] }) = _
  rw [hadd, ensureDeletePlanBudget, bailIf, if_neg hlength]
  rfl

/-- A plan with some more entries. -/
def RemoteDeletePlan.addAll (plan : RemoteDeletePlan) (entries : List RemoteDirEntry) :
    RemoteDeletePlan := entries.foldl RemoteDeletePlan.add plan

theorem addAll_root (plan : RemoteDeletePlan) (entries : List RemoteDirEntry) :
    (plan.addAll entries).root = plan.root := by
  induction entries generalizing plan with
  | nil => rfl
  | cons entry rest ih => exact ih (plan.add entry)

theorem addAll_entries (plan : RemoteDeletePlan) (entries : List RemoteDirEntry) :
    (plan.addAll entries).entries = plan.entries ++ entries.map RemoteDirEntry.toDelete := by
  induction entries generalizing plan with
  | nil => exact (append_nil _).symm
  | cons entry rest ih =>
      rw [map_cons]
      exact (ih (plan.add entry)).trans (append_assoc _ _ _)

/-- Planning some entries succeeds only with all of them in the plan and within the limit. -/
theorem foldlM_planEntry_eq_ok (h : entries.foldlM (planEntry options) plan = .ok plan')
    (hbudget : plan.entries.length ≤ options.maxEntries) :
    plan' = plan.addAll entries ∧ (∀ entry ∈ entries, entry.fileType ≠ .other) ∧
      plan'.entries.length ≤ options.maxEntries := by
  induction entries generalizing plan with
  | nil =>
      cases h
      exact ⟨rfl, fun _ hentry ↦ absurd hentry not_mem_nil, hbudget⟩
  | cons entry rest ih =>
      rw [foldlM_cons] at h
      obtain ⟨next, hnext, h⟩ := bind_eq_ok.mp h
      obtain ⟨rfl, hother, hlength⟩ := planEntry_eq_ok hnext
      obtain ⟨heq, hrest, hle⟩ := ih h hlength
      exact ⟨heq, forall_mem_cons.mpr ⟨hother, hrest⟩, hle⟩

theorem foldlM_planEntry_ok (hcounted : plan.Counted)
    (hother : ∀ entry ∈ entries, entry.fileType ≠ .other)
    (hbudget : plan.entries.length + entries.length ≤ options.maxEntries)
    (hmax : options.maxEntries ≤ maxRemoteDeleteMaxEntries) :
    entries.foldlM (planEntry options) plan = .ok (plan.addAll entries) := by
  induction entries generalizing plan with
  | nil => rfl
  | cons entry rest ih =>
      obtain ⟨hentry, hrest⟩ := forall_mem_cons.mp hother
      rw [length_cons] at hbudget
      rw [foldlM_cons, planEntry_ok hcounted hentry (by omega) hmax, bind_ok]
      refine ih (hcounted.add hentry) hrest ?_
      rw [RemoteDeletePlan.add, length_append, length_singleton]
      omega

/-! ## The walk -/

/-- A directory that the walk comes to. -/
structure Visited (server : Server β) (t : RemoteFs β) (key names : List String) : Prop where
  key_eq : key = server.place ++ names
  dir : t.get? key = some .dir
  single : ∀ name ∈ names, SingleName name

/-- The entries that a directory adds to a plan. -/
def dirEntries (server : Server β) (t : RemoteFs β) (key : List String) : List RemoteDirEntry :=
  (t.children key).map fun e ↦ dirEntry server.root server.place (key ++ [e.1], e.2)

/-- The text for a directory that the walk comes to. -/
def textOf (server : Server β) (key : List String) : String :=
  pathBelow server.root (key.drop server.place.length)

theorem planDirectory_eq (hlists : server.Lists) (hsound : t.Sound)
    (hroot : Extensible server.root) (hkey : Visited server t key names) (plan : RemoteDeletePlan) :
    planDirectory server t options plan (textOf server key) =
      ((dirEntries server t key).foldlM (planEntry options) plan).map
        fun plan ↦ (plan, (t.subdirs key).map (textOf server)) := by
  obtain ⟨rfl, hdir, hsingle⟩ := hkey
  have hlist := listDirectory_eq hlists hsound.names hroot hsingle hdir
  have htext : textOf server (server.place ++ names) = pathBelow server.root names := by
    rw [textOf, drop_left]
  have hpushed : ((dirEntries server t (server.place ++ names)).filter fun entry ↦
      entry.fileType = .directory).map RemoteDirEntry.path =
      (t.subdirs (server.place ++ names)).map (textOf server) := by
    rw [dirEntries, filter_map, map_map, subdirs, dirsOf, map_map]
    have hfilter : ((fun entry : RemoteDirEntry ↦ decide (entry.fileType = .directory)) ∘
        fun e : String × Node (Leaf β) ↦
          dirEntry server.root server.place (server.place ++ names ++ [e.1], e.2)) =
        fun e ↦ DirTree.isDir e.2 := by
      funext e
      obtain ⟨name, n⟩ := e
      cases n with
      | dir => rfl
      | file leaf => cases leaf <;> rfl
    rw [hfilter]
    rfl
  rw [planDirectory, htext, hlist, context, bind_ok]
  show ((dirEntries server t (server.place ++ names)).foldlM (planEntry options) plan >>=
    fun plan ↦ pure (plan, ((dirEntries server t (server.place ++ names)).filter fun entry ↦
      entry.fileType = .directory).map RemoteDirEntry.path)) = _
  rw [hpushed]
  cases (dirEntries server t (server.place ++ names)).foldlM (planEntry options) plan <;> rfl

theorem visited_subdirs (hsound : t.Sound) {key path : List String}
    (hkey : ∃ names, Visited server t key names) (hpath : path ∈ t.subdirs key) :
    ∃ names, Visited server t path names := by
  obtain ⟨names, rfl, hdir, hsingle⟩ := hkey
  obtain ⟨name, rfl, hget⟩ := mem_subdirs.mp hpath
  refine ⟨names ++ [name], append_assoc _ _ _, hget, fun other hother ↦ ?_⟩
  rcases mem_append.mp hother with hother | hother
  · exact hsingle other hother
  · rw [mem_singleton.mp hother]
    exact (hsound.names _ _ hget name (mem_append_right _ mem_cons_self)).single

/-- The plan that a walk starts with. -/
def rootPlan (root : String) : RemoteDeletePlan := ⟨root, 0, 1, 0, [⟨root, .directory⟩]⟩

theorem ensureDeletePlanBudget_rootPlan (h : 0 < options.maxEntries) :
    ensureDeletePlanBudget (rootPlan root) options = .ok () := by
  have hlength : ¬(rootPlan root).entries.length > options.maxEntries := Nat.not_lt.mpr h
  rw [ensureDeletePlanBudget, bailIf, if_neg hlength]

theorem statPath_of_ne_symlink {fileType : RemoteFileType}
    (h : server.symlinkMetadata t path = .ok fileType) (hne : fileType ≠ .symlink) :
    statPath server t path = .ok ⟨path, fileType, none⟩ := by
  have htarget : symlinkTarget server t path fileType = .ok none := by
    cases fileType with
    | symlink => exact absurd rfl hne
    | directory | file | other => rfl
  rw [statPath, h, context, bind_ok, htarget]
  rfl

/-- Planning is a fold over the entries below the root. -/
theorem buildDeletePlan_eq (hlists : server.Lists) (hsound : t.Sound)
    (hroot : Extensible server.root) (hdir : t.get? server.place = some .dir)
    (hpositive : 0 < options.maxEntries) :
    buildDeletePlan server t server.root options =
      ((t.entriesBelow server.place).map (dirEntry server.root server.place)).foldlM
        (planEntry options) (rootPlan server.root) := by
  have hstat : statPath server t server.root = .ok ⟨server.root, .directory, none⟩ := by
    refine statPath_of_ne_symlink ?_ RemoteFileType.noConfusion
    rw [Server.symlinkMetadata, locate, if_pos rfl, Option.bind_some, hdir]
    rfl
  have hstart : Visited server t server.place [] :=
    ⟨(append_nil _).symm, hdir, fun _ hname ↦ absurd hname not_mem_nil⟩
  have hvisit : ∀ acc key acc' pushed, (∃ names, Visited server t key names) →
      planDirectory server t options acc (textOf server key) = .ok (acc', pushed) →
      pushed = (t.subdirs key).map (textOf server) := by
    intro acc key acc' pushed hkey hok
    obtain ⟨names, hkey⟩ := hkey
    rw [planDirectory_eq hlists hsound hroot hkey] at hok
    cases hfold : (dirEntries server t key).foldlM (planEntry options) acc with
    | error e =>
        rw [hfold] at hok
        cases hok
    | ok plan =>
        rw [hfold] at hok
        cases hok
        rfl
  have hstack : ∀ key ∈ [server.place], ∃ names, Visited server t key names :=
    fun key hkey ↦ mem_singleton.mp hkey ▸ ⟨[], hstart⟩
  have hwalk := Worklist.walk_eq (textOf server) hvisit
    (fun key hkey path hpath ↦ visited_subdirs hsound hkey hpath) hstack
    (exhausts_subdirs t server.place)
  have htext : textOf server server.place = server.root := by
    rw [textOf, drop_length]
    rfl
  rw [map_singleton, htext] at hwalk
  have hfold : ∀ (keys : List (List String)) (plan : RemoteDeletePlan),
      (∀ key ∈ keys, ∃ names, Visited server t key names) →
      keys.foldlM (fun plan key ↦
        (planDirectory server t options plan (textOf server key)).map Prod.fst) plan =
      (keys.flatMap (dirEntries server t)).foldlM (planEntry options) plan := by
    intro keys
    induction keys with
    | nil => exact fun _ _ ↦ rfl
    | cons key rest ih =>
        intro plan hkeys
        obtain ⟨names, hkey⟩ := hkeys key mem_cons_self
        rw [foldlM_cons, flatMap_cons, foldlM_append,
          planDirectory_eq hlists hsound hroot hkey]
        cases (dirEntries server t key).foldlM (planEntry options) plan with
        | error e => rfl
        | ok plan' => exact ih plan' fun k hk ↦ hkeys k (mem_cons_of_mem key hk)
  have hvisited : ∀ key ∈ t.walkDirs server.place, ∃ names, Visited server t key names := by
    intro key hkey
    obtain ⟨below, rfl, hbelow⟩ := (mem_walkDirs hsound.wellFormed).mp hkey
    have hget : t.get? (server.place ++ below) = some .dir := by
      rcases hbelow with rfl | hget
      · rw [append_nil]
        exact hdir
      · exact hget
    exact ⟨below, rfl, hget, fun name hname ↦
      (hsound.names _ _ hget name (mem_append_right _ hname)).single⟩
  rw [buildDeletePlan, hstat, context, bind_ok]
  show (do
    bailIf (RemoteFileType.directory ≠ .directory) _
    ensureDeletePlanBudget (rootPlan server.root) options
    Worklist.walk _ _ (rootPlan server.root) _ : Result RemoteDeletePlan) = _
  rw [bailIf, if_neg (not_not.mpr rfl), bind_ok,
    ensureDeletePlanBudget_rootPlan hpositive, bind_ok, hwalk]
  have heq := hfold (t.walkDirs server.place) (rootPlan server.root) hvisited
  rw [entriesBelow, map_flatMap]
  refine heq.trans (congrArg (fun l ↦ List.foldlM (planEntry options) _ l) ?_)
  refine flatMap_congr fun key _ ↦ ?_
  rw [dirEntries, map_map]
  rfl

/-! ## What is planned -/

/-- The entry of a plan for an entry of the tree. -/
def deleteEntry (root : String) (place : List String) (e : List String × Node (Leaf β)) :
    RemoteDeleteEntry :=
  ⟨pathBelow root (e.1.drop place.length), fileTypeOf e.2⟩

theorem symlinkMetadata_of_statPath {stat : RemoteFileStat}
    (h : statPath server t path = .ok stat) :
    server.symlinkMetadata t path = .ok stat.fileType := by
  obtain ⟨fileType, hmetadata, h⟩ := bind_eq_ok.mp h
  obtain ⟨target, -, h⟩ := bind_eq_ok.mp h
  obtain rfl := Except.ok.inj h
  exact context_eq_ok.mp hmetadata

/-- Only a real directory is planned for. -/
theorem buildDeletePlan_root (h : buildDeletePlan server t server.root options = .ok plan) :
    t.get? server.place = some .dir ∧ 0 < options.maxEntries := by
  obtain ⟨stat, hstat, h⟩ := bind_eq_ok.mp h
  obtain ⟨htype, h⟩ := check_bind_eq_ok.mp h
  obtain ⟨hbudget, -⟩ := check_bind_eq_ok.mp h
  replace hstat := symlinkMetadata_of_statPath (context_eq_ok.mp hstat)
  rw [Server.symlinkMetadata, locate, if_pos rfl, Option.bind_some] at hstat
  rw [bailIf_eq_ok, not_not] at htype
  rw [ensureDeletePlanBudget, bailIf_eq_ok, Nat.not_lt] at hbudget
  refine ⟨?_, hbudget⟩
  cases hget : t.get? server.place with
  | none =>
      rw [hget] at hstat
      cases hstat
  | some n =>
      rw [hget] at hstat
      have hdir : fileTypeOf n = .directory := (Except.ok.inj hstat).trans htype
      cases n with
      | dir => rfl
      | file leaf => cases leaf <;> cases hdir

/-- The plan for a tree: its entries in the order of the walk. -/
theorem buildDeletePlan_eq_ok (hlists : server.Lists) (hsound : t.Sound)
    (hroot : Extensible server.root)
    (h : buildDeletePlan server t server.root options = .ok plan) :
    plan = (rootPlan server.root).addAll
        ((t.entriesBelow server.place).map (dirEntry server.root server.place)) ∧
      (∀ e ∈ t.entriesBelow server.place, fileTypeOf e.2 ≠ .other) ∧
      plan.entries.length ≤ options.maxEntries := by
  obtain ⟨hdir, hpositive⟩ := buildDeletePlan_root h
  rw [buildDeletePlan_eq hlists hsound hroot hdir hpositive] at h
  obtain ⟨heq, hother, hbudget⟩ := foldlM_planEntry_eq_ok h hpositive
  exact ⟨heq, fun e he ↦ hother _ (mem_map_of_mem he), hbudget⟩

theorem planned_entries (t : RemoteFs β) (root : String) (place : List String) :
    ((rootPlan root).addAll ((t.entriesBelow place).map (dirEntry root place))).entries =
      (t.subtree place).map (deleteEntry root place) := by
  rw [addAll_entries, subtree, map_cons, map_map, deleteEntry, drop_length]
  rfl

/-- A plan for the tree below the root. -/
structure PlanFor (server : Server β) (t : RemoteFs β) (maxEntries : Nat) (plan : RemoteDeletePlan) :
    Prop where
  root : plan.root = server.root
  /-- The entries of the subtree and no others. -/
  entries : ∀ entry, entry ∈ plan.entries ↔
    ∃ names n, t.get? (server.place ++ names) = some n ∧
      entry = ⟨pathBelow server.root names, fileTypeOf n⟩
  /-- Each of them once. -/
  once : (plan.entries.map RemoteDeleteEntry.path).Nodup
  /-- What an entry lies in is planned before it, as a directory and not as a link to one. -/
  parents_first : ∀ names name n, t.get? (server.place ++ (names ++ [name])) = some n →
    ∀ front back, plan.entries =
      front ++ ⟨pathBelow server.root (names ++ [name]), fileTypeOf n⟩ :: back →
    ⟨pathBelow server.root names, .directory⟩ ∈ front
  supported : ∀ entry ∈ plan.entries, entry.fileType ≠ .other
  within_limit : plan.entries.length ≤ maxEntries

theorem single_of_mem_subtree (hsound : t.Sound) (hdir : t.get? place = some .dir)
    (he : e ∈ t.subtree place) :
    ∃ names, e.1 = place ++ names ∧ ∀ name ∈ names, SingleName name := by
  obtain ⟨path, n⟩ := e
  obtain ⟨hget, names, rfl⟩ := (mem_subtree hsound.wellFormed hdir).mp he
  exact ⟨names, rfl, fun name hname ↦
    (hsound.names _ n hget name (mem_append_right _ hname)).single⟩

/-- The text of a planned entry tells where the entry lies. -/
theorem key_of_deleteEntry (hsound : t.Sound) (hroot : Extensible root)
    (hdir : t.get? place = some .dir) (he : e ∈ t.subtree place)
    (hnames : ∀ name ∈ names, SingleName name)
    (h : (deleteEntry root place e).path = pathBelow root names) : e.1 = place ++ names := by
  obtain ⟨above, hkey, habove⟩ := single_of_mem_subtree hsound hdir he
  rw [deleteEntry, hkey, drop_left] at h
  rw [hkey, pathBelow_injective hroot habove hnames h]

theorem parent_in_front (hsound : t.Sound) (hroot : Extensible root)
    (hdir : t.get? place = some .dir) (hget : t.get? (place ++ (names ++ [name])) = some n)
    {front back : List RemoteDeleteEntry}
    (hsplit : (t.subtree place).map (deleteEntry root place) = front ++ ⟨pathBelow root (names ++ [name]), fileTypeOf n⟩ :: back) :
    ⟨pathBelow root names, .directory⟩ ∈ front := by
  obtain ⟨keysFront, keysRest, hkeys, rfl, hrest⟩ := map_eq_append_iff.mp hsplit
  obtain ⟨e, keysBack, rfl, he, rfl⟩ := map_eq_cons_iff.mp hrest
  have hmem : e ∈ t.subtree place := by
    rw [hkeys]
    exact mem_append_right _ mem_cons_self
  have hsingle : ∀ other ∈ names ++ [name], SingleName other := fun other hother ↦
    (hsound.names _ n hget other (mem_append_right _ hother)).single
  have hkey := key_of_deleteEntry hsound hroot hdir hmem hsingle (congrArg RemoteDeleteEntry.path he)
  have hparent : (place ++ names, Node.dir) ∈ t.subtree place := by
    refine (mem_subtree hsound.wellFormed hdir).mpr ⟨?_, prefix_append _ _⟩
    rw [← append_assoc] at hget
    have hne : t.get? (place ++ names ++ [name]) ≠ none := by
      rw [hget]
      exact Option.some_ne_none _
    rcases hsound.wellFormed.parents _ name hne with hnil | hget'
    · rw [(append_eq_nil_iff.mp hnil).1, hsound.wellFormed.root] at hdir
      cases hdir
    · exact hget'
  have hpairwise : (t.subtree place).Pairwise fun a b ↦ ¬b.1 <+: a.1 :=
    subtree_pairwise hsound.wellFormed
  rw [hkeys] at hparent hpairwise
  refine mem_map.mpr ⟨(place ++ names, .dir), ?_, by rw [deleteEntry, drop_left]; rfl⟩
  rcases mem_append.mp hparent with hfront | hback
  · exact hfront
  · exfalso
    rcases mem_cons.mp hback with heq | hback
    · rw [← heq, ← append_assoc] at hkey
      exact cons_ne_nil name [] (append_right_eq_self.mp hkey.symm)
    · refine (pairwise_cons.mp (pairwise_append.mp hpairwise).2.1).1 _ hback ?_
      rw [hkey, ← append_assoc]
      exact prefix_append _ _

theorem buildDeletePlan_spec (hlists : server.Lists) (hsound : t.Sound)
    (hroot : Extensible server.root)
    (h : buildDeletePlan server t server.root options = .ok plan) :
    PlanFor server t options.maxEntries plan := by
  obtain ⟨hdir, -⟩ := buildDeletePlan_root h
  obtain ⟨heq, hother, hbudget⟩ := buildDeletePlan_eq_ok hlists hsound hroot h
  have hentries := planned_entries t server.root server.place
  rw [← heq] at hentries
  refine ⟨?_, fun entry ↦ ?_, ?_, fun names name n hget front back hsplit ↦ ?_, ?_, hbudget⟩
  · rw [heq, addAll_root]
    rfl
  · rw [hentries, mem_map]
    constructor
    · rintro ⟨⟨path, n⟩, he, rfl⟩
      obtain ⟨hget, names, rfl⟩ := (mem_subtree hsound.wellFormed hdir).mp he
      exact ⟨names, n, hget, by rw [deleteEntry, drop_left]⟩
    · rintro ⟨names, n, hget, rfl⟩
      exact ⟨(server.place ++ names, n),
        (mem_subtree hsound.wellFormed hdir).mpr ⟨hget, prefix_append _ _⟩,
        by rw [deleteEntry, drop_left]⟩
  · rw [hentries, map_map]
    refine List.Nodup.map_on (fun a ha b hb hsame ↦ ?_)
      (List.Nodup.of_map _ (subtree_keys_nodup hsound.wellFormed))
    obtain ⟨names, hkey, hsingle⟩ := single_of_mem_subtree hsound hdir hb
    have hpath : (deleteEntry server.root server.place a).path = pathBelow server.root names := by
      refine Eq.trans hsame ?_
      rw [Function.comp_apply, deleteEntry, hkey, drop_left]
    exact inj_on_of_nodup_map (subtree_keys_nodup hsound.wellFormed) ha hb
      ((key_of_deleteEntry hsound hroot hdir ha hsingle hpath).trans hkey.symm)
  · exact parent_in_front hsound hroot hdir hget (hentries ▸ hsplit)
  · intro entry hentry
    rw [hentries, mem_map] at hentry
    obtain ⟨e, he, rfl⟩ := hentry
    rcases mem_cons.mp he with rfl | he
    · exact fun heq ↦ by cases heq
    · exact hother e he

/-- When a plan for a tree comes about. -/
theorem buildDeletePlan_ok (hlists : server.Lists) (hsound : t.Sound)
    (hroot : Extensible server.root) (hdir : t.get? server.place = some .dir)
    (hother : ∀ key, server.place <+: key → t.get? key ≠ some (.file .other))
    (hbudget : (t.entries.filter fun e ↦ server.place <+: e.1).length ≤ options.maxEntries)
    (hmax : options.maxEntries ≤ maxRemoteDeleteMaxEntries) :
    ∃ plan, buildDeletePlan server t server.root options = .ok plan := by
  have hlength : (t.entriesBelow server.place).length + 1 ≤ options.maxEntries := by
    rw [← (subtree_perm hsound.wellFormed hdir).length_eq] at hbudget
    exact hbudget
  rw [buildDeletePlan_eq hlists hsound hroot hdir (by omega)]
  refine ⟨_, foldlM_planEntry_ok (show (rootPlan server.root).Counted from rfl) (fun entry hentry ↦ ?_) ?_ hmax⟩
  · obtain ⟨⟨key, n⟩, he, rfl⟩ := mem_map.mp hentry
    obtain ⟨hget, names, rfl, -⟩ := (mem_entriesBelow hsound.wellFormed).mp he
    cases n with
    | dir => exact fun heq ↦ by cases heq
    | file leaf => cases leaf with
      | other => exact absurd hget (hother _ (prefix_append _ _))
      | _ => exact fun heq ↦ by cases heq
  · rw [length_map]
    exact (Nat.add_comm _ _).trans_le hlength

/-! ## What is removed -/

theorem executeDeleteEntries_append (t : RemoteFs β) (first last : List RemoteDeleteEntry) :
    executeDeleteEntries server t (first ++ last) =
      match executeDeleteEntries server t first with
      | (.error e, t') => (.error e, t')
      | (.ok _, t') => executeDeleteEntries server t' last := by
  induction first generalizing t with
  | nil => rfl
  | cons entry rest ih =>
      rw [cons_append, executeDeleteEntries, executeDeleteEntries]
      cases executeDeleteEntry server t entry with
      | error e => rfl
      | ok t' => exact ih t'

/-- What is there is looked at, a symbolic link with where it leads. -/
theorem statPath_pathBelow (hlinks : server.ReadsLinks) (hroot : Extensible server.root)
    (hnames : ∀ name ∈ names, SingleName name) (hget : t.get? (server.place ++ names) = some n) :
    ∃ stat, statPath server t (pathBelow server.root names) = .ok stat ∧
      stat.fileType = fileTypeOf n := by
  have hmetadata : server.symlinkMetadata t (pathBelow server.root names) =
      .ok (fileTypeOf n) := by
    rw [Server.symlinkMetadata, locate_pathBelow hroot hnames, Option.bind_some, hget]
  by_cases hsymlink : fileTypeOf n = .symlink
  · have hlink : n = .file .symlink := by
      cases n with
      | dir => cases hsymlink
      | file leaf => cases leaf with
        | symlink => rfl
        | regular | other => cases hsymlink
    subst hlink
    obtain ⟨target, htarget⟩ := hlinks t _ hget
    have hread : server.readLink t (pathBelow server.root names) = .ok target := by
      rw [Server.readLink, locate_pathBelow hroot hnames]
      dsimp only
      rw [hget]
      exact htarget
    refine ⟨⟨pathBelow server.root names, .symlink, some target⟩, ?_, rfl⟩
    rw [statPath, hmetadata, context, bind_ok, fileTypeOf, symlinkTarget, hread]
    rfl
  · exact ⟨_, statPath_of_ne_symlink hmetadata hsymlink, rfl⟩

/-- An entry that is as planned, and empty when it is a directory, is removed. -/
theorem executeDeleteEntry_ok (hlists : server.Lists) (hlinks : server.ReadsLinks)
    (hvalidNames : RemoteFs.Named t) (hroot : Extensible server.root)
    (hnames : ∀ name ∈ names, SingleName name) (hget : t.get? (server.place ++ names) = some n)
    (hother : fileTypeOf n ≠ .other)
    (hempty : n = .dir → ∀ name, t.get? (server.place ++ names ++ [name]) = none) :
    executeDeleteEntry server t ⟨pathBelow server.root names, fileTypeOf n⟩ =
      .ok (t.erase (server.place ++ names)) := by
  obtain ⟨stat, hstat, hfileType⟩ := statPath_pathBelow hlinks hroot hnames hget
  have hremove : ∀ data, n = .file data → (server.removeFile t (pathBelow server.root names)) =
      .ok (t.erase (server.place ++ names)) := by
    rintro data rfl
    rw [Server.removeFile, locate_pathBelow hroot hnames]
    dsimp only
    rw [FileTree.unlink_of hget]
  rw [executeDeleteEntry, hstat, context, bind_ok, bailIf,
    if_neg (not_not.mpr hfileType), bind_ok]
  cases n with
  | file leaf => cases leaf with
    | other => exact absurd rfl hother
    | regular content =>
        dsimp only [fileTypeOf]
        rw [hremove _ rfl]
        rfl
    | symlink =>
        dsimp only [fileTypeOf]
        rw [hremove _ rfl]
        rfl
  | dir =>
      have hchildren : t.children (server.place ++ names) = [] := by
        refine eq_nil_iff_forall_not_mem.mpr fun e he ↦ ?_
        have hnone := hempty rfl e.1
        rw [mem_children.mp he] at hnone
        cases hnone
      have hrmdir : server.removeDir t (pathBelow server.root names) =
          .ok (t.erase (server.place ++ names)) := by
        rw [Server.removeDir, locate_pathBelow hroot hnames]
        dsimp only
        rw [FileTree.rmdir_of hget fun key hkey ↦ ?_]
        obtain ⟨hne, hlast⟩ := parentDir_eq_some_iff.mp hkey
        have hkeyNe : key ≠ [] := fun hnil ↦ hne (by rw [← hlast, hnil]; rfl)
        rw [← dropLast_append_getLast hkeyNe, hlast]
        exact hempty rfl _
      dsimp only [fileTypeOf]
      rw [listDirectory_eq hlists hvalidNames hroot hnames hget, hchildren, map_nil,
        context, bind_ok, bailIf, if_neg (not_not.mpr rfl), bind_ok,
        hrmdir]
      rfl

/-- When what comes later in a plan is gone, an entry of it is found as planned and can go. -/
theorem executeDeleteEntry_planned (hlists : server.Lists) (hlinks : server.ReadsLinks)
    (hsound : t.Sound) (hroot : Extensible server.root) (hdir : t.get? server.place = some .dir)
    {front back : List (List String × Node (Leaf β))}
    (hsplit : t.subtree server.place = front ++ e :: back) (hother : fileTypeOf e.2 ≠ .other)
    {t' : RemoteFs β}
    (hgone : ∀ key, t'.get? key = if key ∈ back.map Prod.fst then none else t.get? key) :
    t'.get? e.1 = some e.2 ∧ (∀ below, below ≠ [] → t'.get? (e.1 ++ below) = none) ∧
      executeDeleteEntry server t' (deleteEntry server.root server.place e) =
        .ok (t'.erase e.1) := by
  have he : e ∈ t.subtree server.place := by
    rw [hsplit]
    exact mem_append_right _ mem_cons_self
  obtain ⟨names, hkey, hsingle⟩ := single_of_mem_subtree hsound hdir he
  have hlater : e.1 ∉ back.map Prod.fst := by
    have hnodup : ((t.subtree server.place).map Prod.fst).Nodup :=
      subtree_keys_nodup hsound.wellFormed
    rw [hsplit, map_append, map_cons] at hnodup
    exact (nodup_cons.mp (nodup_append.mp hnodup).2.1).1
  have hget : t'.get? e.1 = some e.2 := by
    rw [hgone, if_neg hlater]
    exact ((mem_subtree hsound.wellFormed hdir).mp he).1
  have hvalidNames : RemoteFs.Named t' := by
    intro path n hpath
    rw [hgone] at hpath
    split at hpath
    · cases hpath
    · exact hsound.names path n hpath
  have hempty : ∀ below, below ≠ [] → t'.get? (e.1 ++ below) = none := fun below hne ↦
    get?_eq_none_of_subtree hsound.wellFormed hdir hsplit hgone hne
  refine ⟨hget, hempty, ?_⟩
  rw [hkey] at hget hempty
  rw [deleteEntry, hkey, drop_left]
  exact executeDeleteEntry_ok hlists hlinks hvalidNames hroot hsingle hget hother
    fun _ name ↦ hempty [name] (cons_ne_nil name [])

/-- The removals of the entries that come last in a plan. -/
theorem executeDeleteEntries_ok (hlists : server.Lists) (hlinks : server.ReadsLinks)
    (hsound : t.Sound)
    (hroot : Extensible server.root) (hdir : t.get? server.place = some .dir)
    (hother : ∀ e ∈ t.subtree server.place, fileTypeOf e.2 ≠ .other)
    {front back : List (List String × Node (Leaf β))}
    (hsplit : t.subtree server.place = front ++ back) :
    ∃ t', executeDeleteEntries server t
        (back.map (deleteEntry server.root server.place)).reverse = (.ok (), t') ∧
      ∀ key, t'.get? key = if key ∈ back.map Prod.fst then none else t.get? key := by
  induction back generalizing front with
  | nil => exact ⟨t, rfl, fun key ↦ (if_neg not_mem_nil).symm⟩
  | cons e back ih =>
      obtain ⟨t', hrun, hgone⟩ := ih (show t.subtree server.place = (front ++ [e]) ++ back by
        rw [hsplit, append_assoc]
        rfl)
      have he : e ∈ t.subtree server.place := by
        rw [hsplit]
        exact mem_append_right _ mem_cons_self
      obtain ⟨-, -, hstep⟩ := executeDeleteEntry_planned hlists hlinks hsound hroot hdir hsplit
        (hother e he) hgone
      refine ⟨t'.erase e.1, ?_, fun key ↦ ?_⟩
      · rw [map_cons, reverse_cons, executeDeleteEntries_append, hrun]
        dsimp only
        rw [executeDeleteEntries, hstep]
        rfl
      · rw [SortedMap.get?_erase, hgone, map_cons]
        by_cases hsame : key = e.1
        · rw [if_pos hsame, if_pos (mem_cons.mpr (.inl hsame))]
        · rw [if_neg hsame]
          refine if_congr ?_ rfl rfl
          rw [mem_cons, or_iff_right hsame]

/-- The removals of a plan for an unchanged tree: each finds its entry, and nothing below it. -/
structure Removes (server : Server β) (t : RemoteFs β) (plan : RemoteDeletePlan) (final : RemoteFs β) :
    Prop where
  /-- What is planned is gone, and nothing else. -/
  final : ∀ key, final.get? key = if server.place <+: key then none else t.get? key
  /-- Before each removal what comes later in the plan is gone, and a directory is empty. -/
  steps : ∀ front names fileType back,
    plan.entries = front ++ ⟨pathBelow server.root names, fileType⟩ :: back →
    (∀ name ∈ names, SingleName name) →
    ∃ t', executeDeleteEntries server t back.reverse = (.ok (), t') ∧
      (t'.get? (server.place ++ names)).map fileTypeOf = some fileType ∧
      (∀ below, below ≠ [] → t'.get? (server.place ++ names ++ below) = none) ∧
      executeDeleteEntry server t' ⟨pathBelow server.root names, fileType⟩ =
        .ok (t'.erase (server.place ++ names))

variable {server' : Server β} {t' : RemoteFs β}

/-- Another look at an unchanged tree comes to the same plan, whatever order it is listed in. -/
theorem buildDeletePlan_again (hlists : server.Lists) (hlists' : server'.Lists) (hsound : t.Sound)
    (hsameRoot : server'.root = server.root) (hsamePlace : server'.place = server.place)
    (hroot : Extensible server.root) (h : buildDeletePlan server t server.root options = .ok plan)
    (hlimit : plan.entries.length ≤ options'.maxEntries)
    (hmax : options'.maxEntries ≤ maxRemoteDeleteMaxEntries) :
    buildDeletePlan server' t server.root options' = .ok plan := by
  obtain ⟨hdir, -⟩ := buildDeletePlan_root h
  obtain ⟨heq, hother, -⟩ := buildDeletePlan_eq_ok hlists hsound hroot h
  have hlength := congrArg List.length (planned_entries t server.root server.place)
  rw [← heq, subtree, length_map, length_cons] at hlength
  have hpositive : 0 < options'.maxEntries := by omega
  have hrun := buildDeletePlan_eq hlists' hsound (hsameRoot ▸ hroot) (hsamePlace ▸ hdir) hpositive
  rw [hsameRoot, hsamePlace] at hrun
  rw [hrun, heq]
  refine foldlM_planEntry_ok rfl (fun entry hentry ↦ ?_) ?_ hmax
  · obtain ⟨e, he, rfl⟩ := mem_map.mp hentry
    exact hother e he
  · rw [length_map]
    exact (Nat.add_comm _ _).trans_le (hlength ▸ hlimit)

/-- With an unchanged tree what was planned is removed, from the bottom up. -/
theorem executeDeletePlan_ok (hlists : server.Lists) (hlists' : server'.Lists)
    (hlinks' : server'.ReadsLinks) (hsound : t.Sound)
    (hsameRoot : server'.root = server.root) (hsamePlace : server'.place = server.place)
    (hroot : Extensible server.root) (h : buildDeletePlan server t server.root options = .ok plan)
    (hlimit : plan.entries.length ≤ options'.maxEntries)
    (hmax : options'.maxEntries ≤ maxRemoteDeleteMaxEntries) :
    ∃ final, executeDeletePlan server' t plan options' =
        (.ok ⟨plan.files, plan.directories, plan.symlinks⟩, final) ∧
      Removes server' t plan final := by
  obtain ⟨hdir, -⟩ := buildDeletePlan_root h
  obtain ⟨heq, hother, -⟩ := buildDeletePlan_eq_ok hlists hsound hroot h
  have hagain := buildDeletePlan_again hlists hlists' hsound hsameRoot hsamePlace hroot h hlimit hmax
  have hentries := planned_entries t server.root server.place
  rw [← heq, ← hsameRoot, ← hsamePlace] at hentries
  have hplanRoot : plan.root = server.root := by
    rw [heq, addAll_root]
    rfl
  rw [← hsameRoot] at hroot
  rw [← hsamePlace] at hdir hother
  have hsupported : ∀ e ∈ t.subtree server'.place, fileTypeOf e.2 ≠ .other := by
    intro e he
    rcases mem_cons.mp he with rfl | he
    · exact fun heq ↦ by cases heq
    · exact hother e he
  obtain ⟨final, hrun, hfinal⟩ := executeDeleteEntries_ok hlists' hlinks' hsound hroot hdir
    hsupported (nil_append (t.subtree server'.place)).symm
  rw [← hentries] at hrun
  refine ⟨final, ?_, fun key ↦ ?_, fun front names fileType back hsplit hsingle ↦ ?_⟩
  · rw [executeDeletePlan, hplanRoot, hagain]
    dsimp only
    rw [if_neg (not_not.mpr rfl), hrun]
  · rw [hfinal]
    by_cases hinside : server'.place <+: key
    · rw [if_pos hinside, ite_eq_left_iff]
      intro hnot
      by_contra hne
      obtain ⟨n, hn⟩ := Option.ne_none_iff_exists'.mp hne
      exact hnot (mem_map.mpr
        ⟨(key, n), (mem_subtree hsound.wellFormed hdir).mpr ⟨hn, hinside⟩, rfl⟩)
    · rw [if_neg hinside, if_neg]
      intro hmem
      obtain ⟨e, he, rfl⟩ := mem_map.mp hmem
      exact hinside ((mem_subtree hsound.wellFormed hdir).mp he).2
  · rw [hentries] at hsplit
    obtain ⟨keysFront, keysRest, hkeys, rfl, hrest⟩ := map_eq_append_iff.mp hsplit
    obtain ⟨e, keysBack, rfl, he, rfl⟩ := map_eq_cons_iff.mp hrest
    have hmem : e ∈ t.subtree server'.place := by
      rw [hkeys]
      exact mem_append_right _ mem_cons_self
    have hkey := key_of_deleteEntry hsound hroot hdir hmem hsingle
      (congrArg RemoteDeleteEntry.path he)
    obtain ⟨t', hback, hgone⟩ := executeDeleteEntries_ok hlists' hlinks' hsound hroot hdir hsupported
      (show t.subtree server'.place = (keysFront ++ [e]) ++ keysBack by
        rw [hkeys, append_assoc]
        rfl)
    obtain ⟨hget, hempty, hstep⟩ := executeDeleteEntry_planned hlists' hlinks' hsound hroot hdir hkeys
      (hsupported e hmem) hgone
    rw [he, hkey] at hstep
    rw [hkey] at hget hempty
    refine ⟨t', hback, ?_, hempty, hstep⟩
    rw [hget, Option.map_some]
    exact congrArg (fun entry ↦ some entry.fileType) he

/-- A plan that does not fit the tree any more is refused before anything is removed. -/
theorem executeDeletePlan_changed (hlists' : server'.Lists) (hsound' : t'.Sound)
    (hroot : Extensible server'.root) (hplanRoot : plan.root = server'.root)
    (hchanged : ∃ entry ∈ plan.entries,
      server'.symlinkMetadata t' entry.path ≠ .ok entry.fileType) :
    ∃ e, executeDeletePlan server' t' plan options' = (.error e, t') := by
  rw [executeDeletePlan, hplanRoot]
  cases hbuild : buildDeletePlan server' t' server'.root options' with
  | error e => exact ⟨e, rfl⟩
  | ok current =>
      dsimp only
      by_cases hsame : current = plan
      · exfalso
        subst hsame
        obtain ⟨entry, hentry, hstat⟩ := hchanged
        obtain ⟨names, n, hget, rfl⟩ :=
          ((buildDeletePlan_spec hlists' hsound' hroot hbuild).entries entry).mp hentry
        refine hstat ?_
        rw [Server.symlinkMetadata, locate_pathBelow hroot fun name hname ↦
          (hsound'.names _ n hget name (mem_append_right _ hname)).single, Option.bind_some,
          hget]
      · exact ⟨_, if_pos hsame⟩

/-! ## What lies outside -/

theorem prefix_of_locate (h : locate root place path = some key) : place <+: key := by
  unfold locate at h
  split at h
  · exact Option.some.inj h ▸ prefix_refl place
  · split at h
    · exact Option.some.inj h ▸ prefix_append place _
    · cases h

/-- What is removed lies in the subtree, whatever the server replies. -/
theorem executeDeleteEntry_inside {entry : RemoteDeleteEntry}
    (h : executeDeleteEntry server t entry = .ok t') :
    ∃ key, server.place <+: key ∧ t' = t.erase key := by
  have hfile : server.removeFile t entry.path = .ok t' →
      ∃ key, server.place <+: key ∧ t' = t.erase key := by
    intro h
    unfold Server.removeFile at h
    split at h
    · next key hkey =>
      split at h
      · next hunlink =>
        cases h
        exact ⟨key, prefix_of_locate hkey, FileTree.unlink_ok hunlink⟩
      · cases h
    · cases h
  obtain ⟨stat, -, h⟩ := bind_eq_ok.mp h
  obtain ⟨-, h⟩ := check_bind_eq_ok.mp h
  cases hfileType : entry.fileType with
  | file | symlink =>
      rw [hfileType] at h
      exact hfile (context_eq_ok.mp h)
  | directory =>
      rw [hfileType] at h
      obtain ⟨remaining, -, h⟩ := bind_eq_ok.mp h
      obtain ⟨-, h⟩ := check_bind_eq_ok.mp h
      rw [context_eq_ok] at h
      unfold Server.removeDir at h
      split at h
      · next key hkey =>
        split at h
        · next hrmdir =>
          cases h
          exact ⟨key, prefix_of_locate hkey, FileTree.rmdir_ok hrmdir⟩
        · cases h
      · cases h
  | other =>
      rw [hfileType] at h
      cases h

theorem executeDeleteEntries_outside {entries : List RemoteDeleteEntry}
    (hkey : ¬server.place <+: key) :
    (executeDeleteEntries server t entries).2.get? key = t.get? key := by
  induction entries generalizing t with
  | nil => rfl
  | cons entry rest ih =>
      rw [executeDeleteEntries]
      cases hstep : executeDeleteEntry server t entry with
      | error e => rfl
      | ok t' =>
          obtain ⟨erased, hinside, rfl⟩ := executeDeleteEntry_inside hstep
          dsimp only
          have hne : key ≠ erased := fun heq ↦ hkey (heq.symm ▸ hinside)
          rw [ih, SortedMap.get?_erase, if_neg hne]

theorem removeRemoteTree_outside (hkey : ¬server.place <+: key) :
    (removeRemoteTree server t plan options).2.get? key = t.get? key := by
  rw [removeRemoteTree]
  split
  · rfl
  · rw [executeDeletePlan]
    split
    · rfl
    · split
      · rfl
      · next options _ current _ _ =>
        have houtside : (executeDeleteEntries server t plan.entries.reverse).2.get? key =
            t.get? key := executeDeleteEntries_outside hkey
        split
        · next hrun =>
          rw [hrun] at houtside
          exact houtside
        · next hrun =>
          rw [hrun] at houtside
          exact houtside

/-! ## The two requests -/

theorem validated_eq_ok : options.validated = .ok options' ↔
    options' = options ∧ 0 < options.maxEntries ∧ options.maxEntries ≤ maxRemoteDeleteMaxEntries := by
  rw [RemoteDeleteOptions.validated, check_bind_eq_ok, check_bind_eq_ok,
    bailIf_eq_ok, bailIf_eq_ok, Nat.not_lt, Nat.pos_iff_ne_zero]
  constructor
  · rintro ⟨hpositive, hmax, heq⟩
    cases heq
    exact ⟨rfl, hpositive, hmax⟩
  · rintro ⟨rfl, hpositive, hmax⟩
    exact ⟨hpositive, hmax, rfl⟩

theorem planRemoteTreeRemoval_eq_ok :
    planRemoteTreeRemoval server t options = .ok plan ↔
      validateMutationPath server.root = .ok () ∧ options.validated = .ok options ∧
        buildDeletePlan server t server.root options = .ok plan := by
  rw [planRemoteTreeRemoval, check_bind_eq_ok, bind_eq_ok]
  refine and_congr_right fun _ ↦ ⟨?_, fun h ↦ ⟨options, h⟩⟩
  rintro ⟨options', hvalid, hbuild⟩
  cases (validated_eq_ok.mp hvalid).1
  exact ⟨hvalid, hbuild⟩

theorem removeRemoteTree_eq (hpath : validateMutationPath plan.root = .ok ())
    (hvalid : options.validated = .ok options)
    (hlimit : plan.entries.length ≤ options.maxEntries) :
    removeRemoteTree server t plan options = executeDeletePlan server t plan options := by
  rw [removeRemoteTree, hpath, bind_ok, hvalid, bind_ok]
  dsimp only
  rw [bailIf, if_neg (Nat.not_lt.mpr hlimit)]
  rfl

/-- A recursive deletion. A plan comes about when the root is a real directory, everything below
it can be deleted and the limit allows it, and it lists the subtree; carried out on the tree that
was planned for it removes the subtree, if the server tells where the links in it lead, and carried
out on a tree in which something planned is gone or of another kind it removes nothing. What lies
outside the subtree is never removed, whatever the server replies. -/
theorem recursive_delete (hlists : server.Lists) (hsound : t.Sound)
    (options : RemoteDeleteOptions) :
    ((∃ plan, planRemoteTreeRemoval server t options = .ok plan) ↔
      validateMutationPath server.root = .ok () ∧ options.validated = .ok options ∧
        t.get? server.place = some .dir ∧
        (∀ key, server.place <+: key → t.get? key ≠ some (.file .other)) ∧
        (t.entries.filter fun e ↦ server.place <+: e.1).length ≤ options.maxEntries) ∧
    ∀ plan, planRemoteTreeRemoval server t options = .ok plan →
      PlanFor server t options.maxEntries plan ∧
      (∀ (server' : Server β) (options' : RemoteDeleteOptions), server'.Lists →
        server'.ReadsLinks → server'.root = server.root → server'.place = server.place →
        options'.validated = .ok options' → plan.entries.length ≤ options'.maxEntries →
        ∃ final, removeRemoteTree server' t plan options' =
            (.ok ⟨plan.files, plan.directories, plan.symlinks⟩, final) ∧
          Removes server' t plan final) ∧
      (∀ (server' : Server β) (t' : RemoteFs β) (options' : RemoteDeleteOptions), server'.Lists →
        t'.Sound → server'.root = server.root →
        (∃ entry ∈ plan.entries, server'.symlinkMetadata t' entry.path ≠ .ok entry.fileType) →
        ∃ e, removeRemoteTree server' t' plan options' = (.error e, t')) ∧
      ∀ (server' : Server β) (t' : RemoteFs β) (options' : RemoteDeleteOptions) key,
        ¬server'.place <+: key →
        (removeRemoteTree server' t' plan options').2.get? key = t'.get? key := by
  refine ⟨⟨fun h ↦ ?_, fun h ↦ ?_⟩, fun plan hplan ↦ ?_⟩
  · obtain ⟨plan, hplan⟩ := h
    obtain ⟨hpath, hvalid, hbuild⟩ := planRemoteTreeRemoval_eq_ok.mp hplan
    have hroot := extensible_of_validateMutationPath hpath
    obtain ⟨hdir, -⟩ := buildDeletePlan_root hbuild
    have hspec := buildDeletePlan_spec hlists hsound hroot hbuild
    refine ⟨hpath, hvalid, hdir, fun key hinside hother ↦ ?_, ?_⟩
    · obtain ⟨names, rfl⟩ := hinside
      exact hspec.supported _ ((hspec.entries _).mpr ⟨names, _, hother, rfl⟩) rfl
    · have hlength := congrArg List.length (planned_entries t server.root server.place)
      rw [← (buildDeletePlan_eq_ok hlists hsound hroot hbuild).1, length_map,
        (subtree_perm hsound.wellFormed hdir).length_eq] at hlength
      exact hlength ▸ hspec.within_limit
  · obtain ⟨hpath, hvalid, hdir, hother, hbudget⟩ := h
    obtain ⟨plan, hbuild⟩ := buildDeletePlan_ok hlists hsound
      (extensible_of_validateMutationPath hpath) hdir hother hbudget (validated_eq_ok.mp hvalid).2.2
    exact ⟨plan, planRemoteTreeRemoval_eq_ok.mpr ⟨hpath, hvalid, hbuild⟩⟩
  · obtain ⟨hpath, hvalid, hbuild⟩ := planRemoteTreeRemoval_eq_ok.mp hplan
    have hroot := extensible_of_validateMutationPath hpath
    have hspec := buildDeletePlan_spec hlists hsound hroot hbuild
    refine ⟨hspec, ?_, ?_, fun _ _ _ _ hkey ↦ removeRemoteTree_outside hkey⟩
    · intro server' options' hlists' hlinks' hsameRoot hsamePlace hvalid' hlimit
      rw [removeRemoteTree_eq (hspec.root ▸ hpath) hvalid' hlimit]
      exact executeDeletePlan_ok hlists hlists' hlinks' hsound hsameRoot hsamePlace hroot hbuild hlimit
        (validated_eq_ok.mp hvalid').2.2
    · intro server' t' options' hlists' hsound' hsameRoot hchanged
      rw [removeRemoteTree]
      split
      · exact ⟨_, rfl⟩
      · exact executeDeletePlan_changed hlists' hsound' (hsameRoot ▸ hroot)
          (hspec.root.trans hsameRoot.symm) hchanged

/-- A server with one archive, a link in it pointing into the archive. -/
def archiveServer : Server String where
  root := "/srv/archive"
  place := ["srv", "archive"]
  readDir t dir := (".", .directory) :: ("..", .directory) ::
    (t.children dir).map fun e ↦ (e.1, fileTypeOf e.2)
  linkTarget _ _ := .ok "2025"

def archiveTree : RemoteFs String :=
  (((((SortedMap.empty.insert ["srv"] .dir).insert ["srv", "archive"] .dir).insert
    ["srv", "archive", "2025"] .dir).insert ["srv", "archive", "2025", "log"]
    (.file (.regular "started"))).insert ["srv", "archive", "latest"] (.file .symlink)).insert
    ["srv", "other"] (.file (.regular "kept"))

def archivePlan : RemoteDeletePlan where
  root := "/srv/archive"
  files := 1
  directories := 2
  symlinks := 1
  entries := [⟨"/srv/archive", .directory⟩, ⟨"/srv/archive/2025", .directory⟩,
    ⟨"/srv/archive/latest", .symlink⟩, ⟨"/srv/archive/2025/log", .file⟩]

theorem lists_archiveServer : archiveServer.Lists := by
  refine ⟨fun t dir hnamed _ ↦ ?_⟩
  have hkeep : ((t.children dir).map fun e ↦ (e.1, fileTypeOf e.2)).filter
      (fun e ↦ e.1 ≠ "." ∧ e.1 ≠ "..") = (t.children dir).map fun e ↦ (e.1, fileTypeOf e.2) := by
    refine filter_eq_self.mpr fun e he ↦ ?_
    obtain ⟨⟨name, n⟩, hchild, rfl⟩ := mem_map.mp he
    have hname := hnamed _ n (mem_children.mp hchild) name
      (mem_append_right _ mem_cons_self)
    exact decide_eq_true ⟨hname.not_dot, hname.not_dotdot⟩
  rw [archiveServer, filter_cons_of_neg (by decide), filter_cons_of_neg (by decide), hkeep]

theorem sound_of_entries (h : ∀ e ∈ t.entries, e.1 ≠ [] ∧
    (e.1.dropLast = [] ∨ t.get? e.1.dropLast = some .dir))
    (hnames : ∀ e ∈ t.entries, ∀ name ∈ e.1, validateRemoteEntryName name = .ok ()) : t.Sound :=
  ⟨.of_entries h, fun _ _ hget name hname ↦
    validateRemoteEntryName_eq_ok.mp (hnames _ (SortedMap.get?_eq_some_iff.mp hget) name hname)⟩

theorem sound_archiveTree : archiveTree.Sound :=
  sound_of_entries (by decide) (by decide)

theorem recursive_delete_archive :
    PlanFor archiveServer archiveTree 10 archivePlan ∧
    (∃ final, removeRemoteTree archiveServer archiveTree archivePlan ⟨10⟩ = (.ok ⟨1, 2, 1⟩, final) ∧
      Removes archiveServer archiveTree archivePlan final) ∧
    ∃ e, removeRemoteTree archiveServer (archiveTree.erase ["srv", "archive", "latest"]) archivePlan
      ⟨10⟩ = (.error e, archiveTree.erase ["srv", "archive", "latest"]) := by
  have h := (recursive_delete lists_archiveServer sound_archiveTree ⟨10⟩).2 archivePlan
    (by decide)
  refine ⟨h.1, h.2.1 archiveServer ⟨10⟩ lists_archiveServer (fun _ _ _ ↦ ⟨"2025", rfl⟩) rfl rfl rfl
    (by decide), ?_⟩
  exact h.2.2.1 archiveServer _ ⟨10⟩ lists_archiveServer
    (sound_of_entries (by decide) (by decide)) rfl
    ⟨⟨"/srv/archive/latest", .symlink⟩, by decide, by decide⟩

end KaduoxSsh.Transfer
