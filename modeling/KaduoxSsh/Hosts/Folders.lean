import KaduoxSsh.Hosts.StoreInvariant

/-!
# Folders

A folder is there because one of the two lists of the database names it or because
it is a group of some host, and it is listed twice: `folders` gives the names, and
`folderEntries` gives each name with the role of the folder. On a valid database
the second listing is the first with the roles put next to the names, so it is
enough to say what an operation does to the first.

A folder that is renamed keeps its hosts, and its groups their order. A folder that
is removed takes along the hosts that have it as their first group, and those only:
a host that has it further back keeps it, and then the folder is still there.
-/

namespace KaduoxSsh.Hosts

open List SortedMap

theorem HostRecord.groups_nodup [Unicode] {host : HostRecord} (h : host.validate = .ok ()) :
    host.groups.Nodup := by
  obtain ⟨-, -, -, -, -, hgroups, -⟩ := HostRecord.validate_eq_ok.mp h
  rw [validateLabels, Result.ite_bail_eq_ok, checkDistinct_eq_ok, map_id] at hgroups
  exact hgroups.2.2.1

namespace HostStore

/-! ## The two listings -/

/-- The names that have not been seen, each where it stands first. -/
def unseen : List String → List String → List String
  | _, [] => []
  | seen, name :: names =>
      if name ∈ seen then unseen seen names else name :: unseen (name :: seen) names

/-- All folders with their roles: "target" for target hosts, "jump" for jump hosts. -/
def folderEntries (store : HostStore) : List (String × String) :=
  let entries := store.database.folders.map (·, "target") ++
    store.database.jumpFolders.map (·, "jump")
  let seen := store.database.folders ++ store.database.jumpFolders
  let derived := unseen seen (store.database.hosts.values.flatMap HostRecord.groups)
  (entries ++ derived.map (·, "target")).insertionSort fun left right ↦ left.1 ≤ right.1

def folderRole (store : HostStore) (name : String) : String :=
  if name ∈ store.database.jumpFolders then "jump" else "target"

variable {name : String}

theorem mem_unseen {seen names : List String} :
    name ∈ unseen seen names ↔ name ∈ names ∧ name ∉ seen := by
  induction names generalizing seen with
  | nil => simp [unseen]
  | cons first names ih =>
      rw [unseen]
      split
      · next hseen =>
          rw [ih, mem_cons]
          constructor
          · exact fun h ↦ ⟨.inr h.1, h.2⟩
          · rintro ⟨rfl | hmem, hfresh⟩
            · exact absurd hseen hfresh
            · exact ⟨hmem, hfresh⟩
      · next hseen =>
          rw [mem_cons, ih, mem_cons, mem_cons, not_or]
          constructor
          · rintro (rfl | ⟨hmem, -, hfresh⟩)
            · exact ⟨.inl rfl, hseen⟩
            · exact ⟨.inr hmem, hfresh⟩
          · rintro ⟨hmem, hfresh⟩
            by_cases hfirst : name = first
            · exact .inl hfirst
            · exact .inr ⟨hmem.resolve_left hfirst, hfirst, hfresh⟩

theorem unseen_nodup (seen names : List String) : (unseen seen names).Nodup := by
  induction names generalizing seen with
  | nil => exact nodup_nil
  | cons first names ih =>
      rw [unseen]
      split
      · exact ih seen
      · refine nodup_cons.mpr ⟨fun hmem ↦ ?_, ih _⟩
        exact (mem_unseen.mp hmem).2 mem_cons_self

variable {store : HostStore}

theorem folders_sorted (store : HostStore) : store.folders.Pairwise (· < ·) :=
  keys_sorted _

theorem mem_groups :
    name ∈ store.database.hosts.values.flatMap HostRecord.groups ↔
      ∃ k host, store.database.hosts.get? k = some host ∧ name ∈ host.groups := by
  rw [mem_flatMap]
  constructor
  · rintro ⟨host, hhost, hmem⟩
    obtain ⟨k, hget⟩ := mem_values.mp hhost
    exact ⟨k, host, hget, hmem⟩
  · rintro ⟨k, host, hget, hmem⟩
    exact ⟨host, mem_values.mpr ⟨k, hget⟩, hmem⟩

theorem mem_folders : name ∈ store.folders ↔
    name ∈ store.database.folders ∨ name ∈ store.database.jumpFolders ∨
      ∃ k host, store.database.hosts.get? k = some host ∧ name ∈ host.groups := by
  rw [folders, SortedMap.mem_keys, SortedMap.contains_foldl_insert, map_id', mem_append,
    mem_append, mem_groups]
  simp [SortedMap.contains, or_assoc]

/-- The listing is the only list in order that has the names of the folders. -/
theorem folders_eq {names : List String} (hsorted : names.Pairwise (· < ·))
    (hmem : ∀ name, name ∈ store.folders ↔ name ∈ names) : store.folders = names :=
  store.folders_sorted.eq_of_mem_iff hsorted hmem

section

variable [Unicode]

/-- Each folder has one entry, with its role. -/
theorem mem_folderEntries (h : store.database.Valid) {name role : String} :
    (name, role) ∈ store.folderEntries ↔
      name ∈ store.folders ∧ role = store.folderRole name := by
  have hapart : name ∈ store.database.folders → name ∉ store.database.jumpFolders :=
    fun hmem hjump ↦ (nodup_append.mp h.foldersNodup).2.2 name hmem name hjump rfl
  rw [folderEntries, mem_insertionSort, mem_folders, folderRole, ← mem_groups]
  simp only [mem_append, mem_map, Prod.mk.injEq, mem_unseen, not_or]
  by_cases hjump : name ∈ store.database.jumpFolders
  · rw [if_pos hjump]
    constructor
    · rintro ((⟨_, hmem, rfl, -⟩ | ⟨_, -, -, rfl⟩) | ⟨_, ⟨-, -, hnojump⟩, rfl, -⟩)
      · exact absurd hjump (hapart hmem)
      · exact ⟨.inr (.inl hjump), rfl⟩
      · exact absurd hjump hnojump
    · rintro ⟨-, rfl⟩
      exact .inl (.inr ⟨name, hjump, rfl, rfl⟩)
  · rw [if_neg hjump]
    constructor
    · rintro ((⟨_, hmem, rfl, rfl⟩ | ⟨_, hmem, rfl, -⟩) | ⟨_, ⟨hmem, -⟩, rfl, rfl⟩)
      · exact ⟨.inl hmem, rfl⟩
      · exact absurd hmem hjump
      · exact ⟨.inr (.inr hmem), rfl⟩
    · rintro ⟨hmem | hmem | hmem, rfl⟩
      · exact .inl (.inl ⟨name, hmem, rfl, rfl⟩)
      · exact absurd hmem hjump
      · by_cases htarget : name ∈ store.database.folders
        · exact .inl (.inl ⟨name, htarget, rfl, rfl⟩)
        · exact .inr ⟨name, ⟨hmem, htarget, hjump⟩, rfl, rfl⟩

theorem folderEntries_nodup (h : store.database.Valid) :
    (store.folderEntries.map Prod.fst).Nodup := by
  have hperm := (perm_insertionSort (fun left right : String × String ↦ left.1 ≤ right.1)
    ((store.database.folders.map (·, "target") ++ store.database.jumpFolders.map (·, "jump")) ++
      (unseen (store.database.folders ++ store.database.jumpFolders)
        (store.database.hosts.values.flatMap HostRecord.groups)).map (·, "target"))).map Prod.fst
  refine hperm.nodup_iff.mpr ?_
  simp only [map_append, map_map, Function.comp_def, map_id']
  refine h.foldersNodup.append (unseen_nodup _ _) fun name hexplicit hderived ↦ ?_
  exact (mem_unseen.mp hderived).2 hexplicit

/-- The entries are the folders with their roles. -/
theorem folderEntries_eq (h : store.database.Valid) :
    store.folderEntries = store.folders.map fun name ↦ (name, store.folderRole name) := by
  have hsorted : (store.folderEntries.map Prod.fst).Pairwise (· < ·) := by
    have hle : (store.folderEntries.map Prod.fst).Pairwise (· ≤ ·) :=
      pairwise_map.mpr (pairwise_insertionSort _ _)
    exact hle.imp₂ (fun _ _ ↦ lt_of_le_of_ne) (folderEntries_nodup h)
  have hnames : store.folders = store.folderEntries.map Prod.fst := by
    refine folders_eq hsorted fun name ↦ ?_
    simp [mem_folderEntries h]
  rw [hnames, map_map]
  conv_lhs => rw [← map_id store.folderEntries]
  refine map_congr_left fun entry hmem ↦ ?_
  have hrole := ((mem_folderEntries h).mp hmem).2
  rw [Function.comp_apply, ← hrole]
  rfl

end

/-- A host of the folder "apps", and one that has it as its second group. -/
def sampleFolders : HostStore where
  path := .ofString "/home/ops/hosts.toml"
  database := { HostDatabase.default with
    folders := ["apps"]
    jumpFolders := ["gates"]
    hosts := (empty.insert "web"
      { HostRecord.new "web" "10.0.0.5" "deploy" with groups := ["apps"] }).insert "db"
      { HostRecord.new "db" "10.0.0.6" "deploy" with groups := ["lab", "apps"] } }

theorem sampleFolders_valid : @HostDatabase.Valid asciiLetters sampleFolders.database :=
  (@HostDatabase.validate_eq_ok asciiLetters _).mp (by decide)

/-! ## A folder under a new name -/

/-- The name of a folder after `old` was given the name `name`. -/
def renamed (old name folder : String) : String := if folder = old then name else folder

/-- A folder has a new name: the listing, the groups of the hosts and the lists of the two roles
have the new name in place of the old one, and everything else is as it was. -/
structure RenamesFolder (store : HostStore) (old name role : String) (changed : HostStore) :
    Prop where
  folders_perm : changed.folders.Perm (store.folders.map (renamed old name))
  folders_sorted : changed.folders.Pairwise (· < ·)
  hosts : changed.database.hosts = store.database.hosts.mapVal fun host ↦
    { host with groups := host.groups.map (renamed old name) }
  groups_nodup : ∀ k host, changed.database.hosts.get? k = some host → host.groups.Nodup
  /-- The folder is in the list of its role, once, and not in the other. -/
  targets_count : changed.database.folders.count name = if role = "jump" then 0 else 1
  jumps_count : changed.database.jumpFolders.count name = if role = "jump" then 1 else 0
  entries : ∀ other, (name, other) ∈ changed.folderEntries ↔ other = role
  targets : changed.database.folders.filter (· ≠ name) = store.database.folders.filter (· ≠ old)
  jumps : changed.database.jumpFolders.filter (· ≠ name) =
    store.database.jumpFolders.filter (· ≠ old)
  chains : changed.database.chains = store.database.chains
  version : changed.database.version = store.database.version
  path : changed.path = store.path

theorem renamed_old (old name : String) : renamed old name old = name := if_pos rfl

theorem renamed_of_ne {old name folder : String} (h : folder ≠ old) :
    renamed old name folder = folder := if_neg h

theorem renamed_self (name : String) : renamed name name = id := by
  funext folder
  rw [renamed]
  split
  · next h => exact h.symm
  · rfl

theorem renameFolder_hosts (database : HostDatabase) (old name : String) :
    (renameFolder database old name).hosts = database.hosts.mapVal fun host ↦
      { host with groups := host.groups.map (renamed old name) } := by
  rw [renameFolder]
  split
  · rfl
  · next h =>
      rw [not_not.mp h, renamed_self]
      refine ext_get? fun k ↦ ?_
      simp [get?_mapVal]

/-- The candidate for a folder that is there already. -/
theorem withFolder_some (database : HostDatabase) (old name role : String) :
    withFolder database name (some old) role = { database with
      folders := database.folders.filter (fun folder ↦ folder ≠ name ∧ folder ≠ old) ++
        if role = "jump" then [] else [name]
      jumpFolders := database.jumpFolders.filter (fun folder ↦ folder ≠ name ∧ folder ≠ old) ++
        if role = "jump" then [name] else []
      hosts := database.hosts.mapVal fun host ↦
        { host with groups := host.groups.map (renamed old name) } } := by
  have hrename : renameFolder database old name =
      { database with hosts := (renameFolder database old name).hosts } := by
    rw [renameFolder]
    split <;> rfl
  rw [← renameFolder_hosts]
  simp only [withFolder, Option.map_some, Option.getD_some]
  rw [hrename]
  by_cases hjump : role = "jump"
  · simp [hjump]
  · simp [hjump]

/-- The folders of the candidate. -/
theorem mem_folders_withFolder {old name role folder : String} (hold : old ∈ store.folders) :
    folder ∈ HostStore.folders
        { store with database := withFolder store.database name (some old) role } ↔
      ∃ before ∈ store.folders, renamed old name before = folder := by
  rw [withFolder_some, mem_folders]
  simp only [mem_append, mem_filter, decide_eq_true_eq, get?_mapVal,
    Option.map_eq_some_iff]
  have hkept (names : List String) (hnames : ∀ before ∈ names, before ∈ store.folders) :
      folder ∈ names ∧ folder ≠ name ∧ folder ≠ old →
        ∃ before ∈ store.folders, renamed old name before = folder :=
    fun h ↦ ⟨folder, hnames folder h.1, renamed_of_ne h.2.2⟩
  have hnew : folder = name → ∃ before ∈ store.folders, renamed old name before = folder :=
    fun h ↦ ⟨old, hold, (renamed_old old name).trans h.symm⟩
  constructor
  · rintro ((h | h) | (h | h) | ⟨k, _, ⟨host, hget, rfl⟩, h⟩)
    · exact hkept _ (fun before hmem ↦ mem_folders.mpr (.inl hmem)) h
    · exact hnew (by split at h <;> simp_all)
    · exact hkept _ (fun before hmem ↦ mem_folders.mpr (.inr (.inl hmem))) h
    · exact hnew (by split at h <;> simp_all)
    · obtain ⟨before, hmem, hrenamed⟩ := mem_map.mp h
      exact ⟨before, mem_folders.mpr (.inr (.inr ⟨k, host, hget, hmem⟩)), hrenamed⟩
  · rintro ⟨before, hbefore, hrenamed⟩
    by_cases hname : folder = name
    · by_cases hjump : role = "jump"
      · exact .inr (.inl (.inr (by simp [hjump, hname])))
      · exact .inl (.inr (by simp [hjump, hname]))
    · have hne : before ≠ old := by
        rintro rfl
        exact hname (hrenamed.symm.trans (renamed_old before name))
      rw [renamed_of_ne hne] at hrenamed
      subst hrenamed
      rcases mem_folders.mp hbefore with hmem | hmem | ⟨k, host, hget, hmem⟩
      · exact .inl (.inl ⟨hmem, hname, hne⟩)
      · exact .inr (.inl (.inl ⟨hmem, hname, hne⟩))
      · refine .inr (.inr ⟨k, _, ⟨host, hget, rfl⟩, ?_⟩)
        exact mem_map.mpr ⟨before, hmem, renamed_of_ne hne⟩

/-- The explicit folders other than the one that is saved. -/
theorem filter_withFolder {names tail : List String} {old name : String}
    (htail : ∀ folder ∈ tail, folder = name) (hname : name = old ∨ name ∉ names) :
    (names.filter (fun folder ↦ folder ≠ name ∧ folder ≠ old) ++ tail).filter (· ≠ name) =
      names.filter (· ≠ old) := by
  have htail' : tail.filter (· ≠ name) = [] := by
    refine filter_eq_nil_iff.mpr fun folder hmem ↦ ?_
    simpa using htail folder hmem
  rw [filter_append, htail', append_nil, filter_filter]
  refine filter_congr fun folder hmem ↦ ?_
  have hother : folder ≠ old → folder ≠ name := by
    rintro hold rfl
    rcases hname with h | h
    · exact hold h
    · exact h hmem
  by_cases hold : folder = old
  · simp [hold]
  · simp [hold, hother hold]

theorem count_withFolder (names tail : List String) (old name : String) :
    (names.filter (fun folder ↦ folder ≠ name ∧ folder ≠ old) ++ tail).count name =
      tail.count name := by
  have hfiltered : name ∉ names.filter fun folder ↦ folder ≠ name ∧ folder ≠ old := by
    simp [mem_filter]
  rw [count_append, count_eq_zero_of_not_mem hfiltered, Nat.zero_add]

/-- Names that are all different stay so under the new name. -/
theorem nodup_map_renamed {names : List String} {old name : String} (h : names.Nodup)
    (hname : name = old ∨ name ∉ names) : (names.map (renamed old name)).Nodup := by
  rcases hname with rfl | hfresh
  · rwa [renamed_self, map_id]
  · refine (nodup_map_iff_inj_on h).mpr fun left hleft right hright heq ↦ ?_
    rw [renamed, renamed] at heq
    split_ifs at heq with hl hr hr
    · exact hl.trans hr.symm
    · exact absurd (heq ▸ hright) hfresh
    · exact absurd (heq ▸ hleft) hfresh
    · exact heq

section

variable [Unicode]

/-- When a folder that is there can be saved under a name and a role. -/
theorem saveFolder_eq_ok {old name role : String} {changed : HostStore}
    (h : store.saveFolder name (some old) role = (.ok (), changed)) :
    (role = "target" ∨ role = "jump") ∧ old ∈ store.folders ∧
      (name = old ∨ name ∉ store.folders) ∧ changed.database.Valid ∧
      changed = { store with database := withFolder store.database name (some old) role } := by
  rw [saveFolder] at h
  simp only [attempt_eq_ok, Result.bailIf_eq_ok] at h
  obtain ⟨_, -, _, hrole, _, hold, _, hduplicate, _, hvalid, heq⟩ := h
  obtain ⟨-, rfl⟩ := Prod.mk.inj heq
  refine ⟨?_, ?_, ?_, HostDatabase.validate_eq_ok.mp hvalid, rfl⟩
  · by_cases htarget : role = "target"
    · exact .inl htarget
    · exact .inr (not_not.mp fun hjump ↦ hrole ⟨htarget, hjump⟩)
  · simpa using hold
  · by_cases hname : name = old
    · exact .inl hname
    · refine .inr fun hmem ↦ hduplicate ?_
      simp [Ne.symm hname, hmem]

/-- A folder that is saved under another name, or with another role, is renamed everywhere. -/
theorem saveFolder_renames {old name role : String}
    {changed : HostStore} (hsave : store.saveFolder name (some old) role = (.ok (), changed)) :
    store.RenamesFolder old name role changed := by
  obtain ⟨hrole, hold, hname, hvalid, rfl⟩ := saveFolder_eq_ok hsave
  have hnames := store.folders_sorted.imp (fun h ↦ ne_of_lt h)
  have hexplicit {names : List String} (hmem : ∀ folder ∈ names, folder ∈ store.folders) :
      name = old ∨ name ∉ names := hname.imp_right fun hfresh hin ↦ hfresh (hmem name hin)
  have hfolders : ∀ folder ∈ store.database.folders, folder ∈ store.folders :=
    fun _ hmem ↦ mem_folders.mpr (.inl hmem)
  have hjumps : ∀ folder ∈ store.database.jumpFolders, folder ∈ store.folders :=
    fun _ hmem ↦ mem_folders.mpr (.inr (.inl hmem))
  have hsorted := folders_sorted
    { store with database := withFolder store.database name (some old) role }
  constructor
  case folders_perm =>
    refine (perm_ext_iff_of_nodup (hsorted.imp ne_of_lt)
      (nodup_map_renamed hnames hname)).mpr fun folder ↦ ?_
    rw [mem_folders_withFolder hold, mem_map]
  case folders_sorted => exact hsorted
  case groups_nodup => exact fun k host hget ↦ HostRecord.groups_nodup (hvalid.hostRecord k host hget)
  case entries =>
    intro other
    have hlisted : name ∈ HostStore.folders
        { store with database := withFolder store.database name (some old) role } :=
      (mem_folders_withFolder hold).mpr ⟨old, hold, renamed_old old name⟩
    rw [mem_folderEntries hvalid, and_iff_right hlisted, folderRole, withFolder_some]
    rcases hrole with rfl | rfl
    · simp [mem_filter]
    · simp [mem_filter]
  all_goals simp only [withFolder_some]
  case targets_count =>
    rw [count_withFolder]
    split <;> simp
  case jumps_count =>
    rw [count_withFolder]
    split <;> simp
  case targets => exact filter_withFolder (by split <;> simp) (hexplicit hfolders)
  case jumps => exact filter_withFolder (by split <;> simp) (hexplicit hjumps)

end

/-- The sample with its first folder under a new name, as a folder of jump hosts. -/
def sampleRenamed : HostStore :=
  (@saveFolder asciiLetters sampleFolders "work" (some "apps") "jump").2

theorem saveFolder_renames_sample :
    sampleFolders.RenamesFolder "apps" "work" "jump" sampleRenamed := by
  have hsave : @saveFolder asciiLetters sampleFolders "work" (some "apps") "jump" =
      (.ok (), sampleRenamed) := by decide
  exact @saveFolder_renames sampleFolders asciiLetters _ _ _ _ hsave

/-- The new name does not stand where the old one stood, since the listing is in order. -/
theorem saveFolder_moves_in_order :
    @HostDatabase.Valid asciiLetters sampleFolders.database ∧
      @saveFolder asciiLetters sampleFolders "work" (some "apps") "jump" =
        (.ok (), sampleRenamed) ∧
      sampleFolders.folders = ["apps", "gates", "lab"] ∧
      sampleRenamed.folders = ["gates", "lab", "work"] ∧
      sampleRenamed.folders ≠ sampleFolders.folders.map (renamed "apps" "work") :=
  ⟨sampleFolders_valid, by decide, by decide, by decide,
    by decide⟩

/-! ## A folder that is removed -/

/-- A folder is gone: no listing has it, its hosts are removed, the hosts that stay do not mention
it, and everything else is as it was. -/
structure RemovesFolder (store : HostStore) (name : String) (aliases : List String)
    (changed : HostStore) : Prop where
  folders : changed.folders = store.folders.filter (· ≠ name)
  entries : changed.folderEntries = store.folderEntries.filter (·.1 ≠ name)
  aliases_mem : ∀ k, k ∈ aliases ↔
    ∃ host, store.database.hosts.get? k = some host ∧ name ∈ host.groups
  hosts : ∀ k, changed.database.hosts.get? k =
    if k ∈ aliases then none else store.database.hosts.get? k
  unmentioned : ∀ k host, changed.database.hosts.get? k = some host → name ∉ host.groups
  targets : changed.database.folders = store.database.folders.filter (· ≠ name)
  jumps : changed.database.jumpFolders = store.database.jumpFolders.filter (· ≠ name)
  chains : changed.database.chains = store.database.chains
  version : changed.database.version = store.database.version
  path : changed.path = store.path

/-- Every host that has the folder among its groups has it in front. -/
def InFront (store : HostStore) (name : String) : Prop :=
  ∀ k host, store.database.hosts.get? k = some host → name ∈ host.groups →
    host.groups.head? = some name

/-- The other groups of the hosts in the folder are folders without these hosts too. -/
def OthersStay (store : HostStore) (name : String) : Prop :=
  ∀ k host, store.database.hosts.get? k = some host → host.groups.head? = some name →
    ∀ folder ∈ host.groups, folder ≠ name →
      folder ∈ store.database.folders ∨ folder ∈ store.database.jumpFolders ∨
        ∃ k' other, store.database.hosts.get? k' = some other ∧
          other.groups.head? ≠ some name ∧ folder ∈ other.groups

section

variable [Unicode]

/-- What the removal of a folder leaves. -/
theorem removeFolder_eq_ok (h : store.database.Valid) {name : String} {aliases : List String}
    {changed : HostStore} (hremove : store.removeFolder name = (.ok aliases, changed)) :
    changed.database.Valid ∧
      (∀ k, k ∈ aliases ↔ ∃ host, store.database.hosts.get? k = some host ∧
        host.groups.head? = some name) ∧
      changed = { store with database := { store.database with
        folders := store.database.folders.filter (· ≠ name)
        jumpFolders := store.database.jumpFolders.filter (· ≠ name)
        hosts := aliases.foldl erase store.database.hosts } } := by
  rw [removeFolder] at hremove
  simp only [attempt_eq_ok] at hremove
  obtain ⟨_, -, _, -, _, hvalid, heq⟩ := hremove
  obtain ⟨haliases, rfl⟩ := Prod.mk.inj heq
  cases haliases
  refine ⟨HostDatabase.validate_eq_ok.mp hvalid, fun k ↦ ?_, rfl⟩
  simp only [mem_map, mem_filter, decide_eq_true_eq, mem_values]
  constructor
  · rintro ⟨host, ⟨⟨k', hget⟩, hfront⟩, rfl⟩
    rw [h.hostKey k' host hget]
    exact ⟨host, hget, hfront⟩
  · rintro ⟨host, hget, hfront⟩
    exact ⟨host, ⟨⟨k, hget⟩, hfront⟩, h.hostKey k host hget⟩

/-- The hosts that the removal of a folder leaves are those that do not have it in front. -/
theorem removeFolder_hosts (h : store.database.Valid) {name : String} {aliases : List String}
    {changed : HostStore} (hremove : store.removeFolder name = (.ok aliases, changed)) (k : String)
    (host : HostRecord) : changed.database.hosts.get? k = some host ↔
      store.database.hosts.get? k = some host ∧ host.groups.head? ≠ some name := by
  obtain ⟨-, haliases, rfl⟩ := removeFolder_eq_ok h hremove
  rw [get?_foldl_erase]
  split
  · next hmem =>
      obtain ⟨host', hget, hfront⟩ := (haliases k).mp hmem
      rw [hget]
      constructor
      · intro hnone
        cases hnone
      · rintro ⟨hsome, hne⟩
        cases hsome
        exact absurd hfront hne
  · next hmem =>
      refine (and_iff_left_of_imp fun hget hfront ↦ hmem ?_).symm
      exact (haliases k).mpr ⟨host, hget, hfront⟩

/-- The folders that the removal of a folder leaves. -/
theorem mem_folders_removed (h : store.database.Valid) {name : String} {aliases : List String}
    {changed : HostStore} (hremove : store.removeFolder name = (.ok aliases, changed))
    (folder : String) : folder ∈ changed.folders ↔
      (folder ∈ store.database.folders ∧ folder ≠ name) ∨
      (folder ∈ store.database.jumpFolders ∧ folder ≠ name) ∨
      ∃ k host, (store.database.hosts.get? k = some host ∧ host.groups.head? ≠ some name) ∧
        folder ∈ host.groups := by
  rw [mem_folders]
  simp only [removeFolder_hosts h hremove]
  obtain ⟨-, -, rfl⟩ := removeFolder_eq_ok h hremove
  simp only [mem_filter, decide_eq_true_eq]

/-- A folder that is removed is gone, with its hosts and nothing else, exactly when it is in front
of the groups of every host that has it, and the other groups of these hosts stay. -/
theorem removeFolder_removes_iff (h : store.database.Valid) {name : String}
    {aliases : List String} {changed : HostStore}
    (hremove : store.removeFolder name = (.ok aliases, changed)) :
    store.RemovesFolder name aliases changed ↔ store.InFront name ∧ store.OthersStay name := by
  obtain ⟨hvalid, haliases, hchanged⟩ := removeFolder_eq_ok h hremove
  have hlisted := mem_folders_removed h hremove
  constructor
  · intro hremoves
    constructor
    · intro k host hget hmem
      obtain ⟨host', hget', hfront⟩ :=
        (haliases k).mp ((hremoves.aliases_mem k).mpr ⟨host, hget, hmem⟩)
      rw [hget] at hget'
      cases hget'
      exact hfront
    · intro k host hget hfront folder hmem hne
      have hfolder : folder ∈ changed.folders := by
        rw [hremoves.folders, mem_filter, decide_eq_true_eq]
        exact ⟨mem_folders.mpr (.inr (.inr ⟨k, host, hget, hmem⟩)), hne⟩
      rcases (hlisted folder).mp hfolder with htarget | hjump | ⟨k', other, hother, hin⟩
      · exact .inl htarget.1
      · exact .inr (.inl hjump.1)
      · exact .inr (.inr ⟨k', other, hother.1, hother.2, hin⟩)
  · rintro ⟨hfront, hothers⟩
    have hfolders : changed.folders = store.folders.filter (· ≠ name) := by
      refine folders_eq (store.folders_sorted.filter _) fun folder ↦ ?_
      rw [hlisted, mem_filter, decide_eq_true_eq, mem_folders]
      constructor
      · rintro (⟨hmem, hne⟩ | ⟨hmem, hne⟩ | ⟨k, host, ⟨hget, hhead⟩, hmem⟩)
        · exact ⟨.inl hmem, hne⟩
        · exact ⟨.inr (.inl hmem), hne⟩
        · refine ⟨.inr (.inr ⟨k, host, hget, hmem⟩), ?_⟩
          rintro rfl
          exact hhead (hfront k host hget hmem)
      · rintro ⟨hmem | hmem | ⟨k, host, hget, hmem⟩, hne⟩
        · exact .inl ⟨hmem, hne⟩
        · exact .inr (.inl ⟨hmem, hne⟩)
        · by_cases hhead : host.groups.head? = some name
          · rcases hothers k host hget hhead folder hmem hne with
              htarget | hjump | ⟨k', other, hget', hhead', hin⟩
            · exact .inl ⟨htarget, hne⟩
            · exact .inr (.inl ⟨hjump, hne⟩)
            · exact .inr (.inr ⟨k', other, ⟨hget', hhead'⟩, hin⟩)
          · exact .inr (.inr ⟨k, host, ⟨hget, hhead⟩, hmem⟩)
    constructor
    case folders => exact hfolders
    case entries =>
      rw [folderEntries_eq hvalid, folderEntries_eq h, hfolders, filter_map]
      refine map_congr_left fun folder hmem ↦ ?_
      have hne : folder ≠ name := of_decide_eq_true (mem_filter.mp hmem).2
      rw [folderRole, folderRole, hchanged]
      simp [mem_filter, hne]
    case aliases_mem =>
      intro k
      rw [haliases]
      refine exists_congr fun host ↦ and_congr_right fun hget ↦ ?_
      exact ⟨mem_of_head?, hfront k host hget⟩
    case hosts =>
      rw [hchanged]
      exact get?_foldl_erase aliases store.database.hosts
    case unmentioned =>
      intro k host hget hmem
      obtain ⟨hbefore, hhead⟩ := (removeFolder_hosts h hremove k host).mp hget
      exact hhead (hfront k host hbefore hmem)
    all_goals rw [hchanged]

end

theorem removeFolder_removes_iff_sample :
    sampleFolders.RemovesFolder "lab" ["db"]
      (@removeFolder asciiLetters sampleFolders "lab").2 := by
  have hremove : @removeFolder asciiLetters sampleFolders "lab" =
      (.ok ["db"], (@removeFolder asciiLetters sampleFolders "lab").2) := by decide
  refine (@removeFolder_removes_iff sampleFolders asciiLetters sampleFolders_valid _ _ _ hremove).mpr ⟨?_, ?_⟩
  · have hfront : ∀ entry ∈ sampleFolders.database.hosts.entries, "lab" ∈ entry.2.groups →
        entry.2.groups.head? = some "lab" := by decide
    exact fun k host hget ↦ hfront (k, host) (get?_eq_some_iff.mp hget)
  · have hothers : ∀ entry ∈ sampleFolders.database.hosts.entries,
        entry.2.groups.head? = some "lab" → ∀ folder ∈ entry.2.groups, folder ≠ "lab" →
          folder ∈ sampleFolders.database.folders := by decide
    exact fun k host hget hhead folder hmem hne ↦
      .inl (hothers (k, host) (get?_eq_some_iff.mp hget) hhead folder hmem hne)

/-- A folder that is not in front of every host that has it is still there when it is removed. -/
theorem removeFolder_leaves_folder :
    @HostDatabase.Valid asciiLetters sampleFolders.database ∧
      (@removeFolder asciiLetters sampleFolders "apps").1 = .ok ["web"] ∧
      "apps" ∈ (@removeFolder asciiLetters sampleFolders "apps").2.folders ∧
      ("apps", "target") ∈ (@removeFolder asciiLetters sampleFolders "apps").2.folderEntries ∧
      ¬sampleFolders.RemovesFolder "apps" ["web"]
        (@removeFolder asciiLetters sampleFolders "apps").2 := by
  have hstays : "apps" ∈ (@removeFolder asciiLetters sampleFolders "apps").2.folders := by
    decide
  refine ⟨sampleFolders_valid, by decide, hstays, by decide, fun hremoves ↦ ?_⟩
  rw [hremoves.folders] at hstays
  simp at hstays

end HostStore

end KaduoxSsh.Hosts
