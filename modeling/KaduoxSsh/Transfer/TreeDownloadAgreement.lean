import KaduoxSsh.Transfer.TreeDownloadWalks

/-!
# When the two recursive downloads agree

The transfer engine passes over an entry whose normalised name it has seen: then the
other walk makes something that it does not make. The atomic policy takes what stands
under a staging name for its own: then it does without that, or refuses it. Which it is
depends on the order of the transfers, and so agreement is about every order.
-/

namespace KaduoxSsh.Transfer

open Worklist DirTree Result List SortedMap

namespace RecursiveDownload

variable {normalize : String → String} {listing : RemoteListing} {e : String × Node (Leaf Bytes)}
  {name : String} {node : Node Bytes} {dir path : List String} {download : RecursiveDownload}
  {done : Downloaded} {steps : List String → List ListingStep} {dirs : List (List String)}

/-! ## Where the two make the same -/

theorem mem_fetches_iff :
    (name, node) ∈ (plainSteps normalize [] (download.readDir dir)).filterMap fetchOf ↔
      (name, node) ∈ candidates (download.readDir dir) ∧
        FirstOfName normalize (download.readDir dir) name := by
  rw [mem_fetches_plainSteps, FirstOfName]
  constructor
  · rintro ⟨-, hfind⟩
    exact ⟨mem_of_find?_eq_some hfind, by rw [hfind]; rfl⟩
  · rintro ⟨hmem, hfirst⟩
    refine ⟨not_mem_nil, ?_⟩
    obtain ⟨⟨name', node'⟩, hfind, rfl⟩ := Option.map_eq_some_iff.mp hfirst
    obtain ⟨n, hget, hnode⟩ := mem_candidates.mp hmem
    obtain ⟨n', hget', hnode'⟩ := mem_candidates.mp (mem_of_find?_eq_some hfind)
    rw [hget] at hget'
    cases hget'
    rw [hnode] at hnode'
    cases hnode'
    exact hfind
theorem mem_plainDirs : dir ∈ download.plainDirs normalize ↔ download.PlainComesTo normalize dir := by
  have hdescends : dir ∈ download.plainDirs normalize ↔
      Descends (download.plainNext normalize) [] dir := by
    rw [plainDirs, mem_visits exhausts_plainNext]
    simp
  rw [hdescends]
  clear hdescends
  constructor
  · intro h
    induction h with
    | refl => exact .root
    | tail _ hstep ih =>
        obtain ⟨name, rfl, he⟩ := mem_stepDirectories.mp hstep
        obtain ⟨hmem, hfirst⟩ := mem_fetches_iff.mp he
        exact .entry ih hmem hfirst
  · intro h
    induction h with
    | root => exact .refl []
    | entry _ hentry hfirst ih =>
        exact .tail ih (mem_stepDirectories.mpr ⟨_, rfl, mem_fetches_iff.mpr ⟨hentry, hfirst⟩⟩)

theorem mem_atomicNext {path : List String} :
    path ∈ download.atomicNext dir ↔ path ∈ download.tree.subdirs dir := by
  rw [atomicNext, mem_stepDirectories, fetches_atomicSteps, mem_subdirs]
  refine exists_congr fun name ↦ and_congr_right fun hpath ↦ ?_
  rw [mem_candidates, hpath]
  constructor
  · rintro ⟨n, hget, hdir⟩
    rw [hget, fetchable_eq_dir_iff.mp hdir]
  · exact fun hget ↦ ⟨_, hget, rfl⟩

theorem mem_atomicDirs : dir ∈ download.atomicDirs ↔ download.IsDirectory dir := by
  have hdescends : dir ∈ download.atomicDirs ↔ Descends download.tree.subdirs [] dir := by
    rw [atomicDirs, mem_visits exhausts_atomicNext]
    simp only [mem_singleton, exists_eq_left, Descends, mem_atomicNext]
  rw [hdescends]
  exact @descends_iff _ _ _ download.tree [] dir download.wellFormed

/-- The transfer engine comes to directories of the tree only. -/
theorem PlainComesTo.isDirectory (h : download.PlainComesTo normalize dir) :
    download.IsDirectory dir := by
  cases h with
  | root => exact .inl rfl
  | entry _ hentry _ =>
      obtain ⟨n, hget, hdir⟩ := mem_candidates.mp hentry
      rw [fetchable_eq_dir_iff.mp hdir] at hget
      exact .inr hget

/-- In an ordinary tree both walks take the same steps. -/
theorem Ordinary.plainSteps_eq (h : download.Ordinary normalize) (dir : List String) :
    plainSteps normalize [] (download.readDir dir) = atomicSteps (download.readDir dir) := by
  refine Transfer.plainSteps_eq ?_ fun _ _ ↦ not_mem_nil
  by_cases hdir : download.IsDirectory dir
  · exact h.distinct dir hdir
  · -- Nothing lies in what is no directory.
    have hnone : candidates (download.readDir dir) = [] := by
      refine eq_nil_iff_forall_not_mem.mpr fun c hc ↦ hdir ?_
      obtain ⟨name, node⟩ := c
      obtain ⟨n, hget, -⟩ := mem_candidates.mp hc
      exact download.wellFormed.parents dir name (by rw [hget]; exact Option.some_ne_none _)
    rw [hnone]
    exact nodup_nil

/-- When both walks make the same, the transfer engine has taken over every entry. -/
theorem mem_fetches_of_eq
    (hsame : allApplied (fun dir ↦ plainSteps normalize [] (download.readDir dir))
        (download.plainDirs normalize) .fresh =
      allApplied (fun dir ↦ atomicSteps (download.readDir dir)) download.atomicDirs .fresh)
    (hdir : download.IsDirectory dir) (hc : (name, node) ∈ candidates (download.readDir dir)) :
    dir ∈ download.plainDirs normalize ∧
      (name, node) ∈ (plainSteps normalize [] (download.readDir dir)).filterMap fetchOf := by
  have hatomic : dir ++ [name] ∈ allPaths (fun dir ↦ atomicSteps (download.readDir dir))
      download.atomicDirs := by
    refine mem_flatMap.mpr ⟨dir, mem_atomicDirs.mpr hdir, mem_map.mpr ⟨(name, node), ?_, rfl⟩⟩
    rw [fetches_atomicSteps]
    exact hc
  have hpresent : (allApplied (fun dir ↦ atomicSteps (download.readDir dir)) download.atomicDirs
      .fresh).tree.get? (dir ++ [name]) ≠ none := get?_allApplied.mpr (.inr hatomic)
  rw [← hsame] at hpresent
  rcases get?_allApplied.mp hpresent with habsent | hplain
  · exact absurd rfl habsent
  · obtain ⟨dir', hdir', hpath⟩ := mem_flatMap.mp hplain
    obtain ⟨⟨name', node'⟩, he, heq⟩ := mem_map.mp hpath
    obtain ⟨rfl, hlast⟩ := append_inj' heq rfl
    cases singleton_injective hlast
    refine ⟨hdir', ?_⟩
    obtain ⟨n, hget, hnode⟩ := mem_candidates.mp hc
    obtain ⟨n', hget', hnode'⟩ := mem_candidates.mp (fetches_plainSteps_sublist.subset he)
    rw [hget] at hget'
    cases hget'
    rw [hnode] at hnode'
    cases hnode'
    exact he

/-- When both walks make the same, there is nothing that they treat in different ways, the staging
files aside. -/
theorem ordinary_of_eq
    (hgood : ∀ dir ∈ download.plainDirs normalize,
      download.SafeNames dir ∧ dir.length < maxDownloadDepth)
    (hsame : allApplied (fun dir ↦ plainSteps normalize [] (download.readDir dir))
        (download.plainDirs normalize) .fresh =
      allApplied (fun dir ↦ atomicSteps (download.readDir dir)) download.atomicDirs .fresh)
    (hunstaged : download.resume = true → ∀ dir, download.IsDirectory dir →
      ∀ file ∈ candidates (download.readDir dir), file.2 ≠ .dir →
        ∀ e ∈ candidates (download.readDir dir), e.1 ≠ stagingName file.1) :
    download.Ordinary normalize := by
  have htakes : ∀ {dir : List String} {name : String} {node : Node Bytes},
      download.IsDirectory dir → (name, node) ∈ candidates (download.readDir dir) →
        dir ∈ download.plainDirs normalize ∧
          (name, node) ∈ (plainSteps normalize [] (download.readDir dir)).filterMap fetchOf :=
    mem_fetches_of_eq hsame
  have hcomes : ∀ dir, download.IsDirectory dir → dir ∈ download.plainDirs normalize := by
    intro dir hdir
    rcases hdir with rfl | hget
    · exact mem_plainDirs.mpr .root
    · rcases eq_nil_or_concat dir with rfl | ⟨above, name, rfl⟩
      · exact mem_plainDirs.mpr .root
      · rw [concat_eq_append] at hget ⊢
        have habove : download.IsDirectory above :=
          download.wellFormed.parents above name (by rw [hget]; exact Option.some_ne_none _)
        have hc : (name, .dir) ∈ candidates (download.readDir above) :=
          mem_candidates.mpr ⟨.dir, hget, rfl⟩
        obtain ⟨hplain, htaken⟩ := htakes habove hc
        exact mem_plainDirs.mpr (.entry (mem_plainDirs.mp hplain) hc (mem_fetches_iff.mp htaken).2)
  refine ⟨fun dir hdir ↦ (hgood dir (hcomes dir hdir)).1, fun dir hdir ↦ (hgood dir (hcomes dir hdir)).2,
    fun dir hdir ↦ nodup_of_fetches candidates_names_nodup ?_, hunstaged⟩
  rintro ⟨name, node⟩ hc
  exact (htakes hdir hc).2

theorem Ordinary.dirs_eq (h : download.Ordinary normalize) :
    download.plainDirs normalize = download.atomicDirs := by
  have hnext : download.plainNext normalize = download.atomicNext := by
    funext dir
    rw [plainNext, atomicNext, h.plainSteps_eq]
  rw [plainDirs, atomicDirs, hnext]

theorem agree_self (r : Result Downloaded) : Agree r r := by
  cases hr : r.isOk with
  | false => exact .inl ⟨hr, hr⟩
  | true => exact .inr ⟨hr, rfl⟩

section

variable {r r' : Result Downloaded}

theorem agree_of_eq_ok {done done' : Downloaded} (hr : r = .ok done) (hr' : r' = .ok done') :
    Agree r r' ↔ done = done' := by
  subst hr hr'
  constructor
  · rintro (⟨hfails, -⟩ | ⟨-, heq⟩)
    · cases hfails
    · exact Except.ok.inj heq
  · rintro rfl
    exact .inr ⟨rfl, rfl⟩

theorem not_agree_of_fails (hr : r.isOk = true) (hr' : r'.isOk = false) : ¬Agree r r' := by
  rintro (⟨hfails, -⟩ | ⟨-, heq⟩)
  · rw [hr] at hfails
    cases hfails
  · rw [← heq, hr] at hr'
    cases hr'

theorem agree_iff_of_fails (hr : r.isOk = false) : Agree r r' ↔ r'.isOk = false := by
  constructor
  · rintro (⟨-, hr'⟩ | ⟨hok, -⟩)
    · exact hr'
    · rw [hr] at hok
      cases hok
  · intro hr'
    exact .inl ⟨hr, hr'⟩

end

/-- The transfer engine refuses no ordinary tree. -/
theorem Ordinary.good (h : download.Ordinary normalize) (hdir : download.PlainComesTo normalize dir) :
    download.SafeNames dir ∧ dir.length < maxDownloadDepth :=
  ⟨h.safe dir hdir.isDirectory, h.shallow dir hdir.isDirectory⟩

/-! ## Other orders of the transfers -/

section

variable {other : RecursiveDownload}

theorem Reordered.isDirectory (h : download.Reordered other) :
    other.IsDirectory dir ↔ download.IsDirectory dir := by
  rw [IsDirectory, IsDirectory, h.tree]

theorem Reordered.candidates (h : download.Reordered other) (dir : List String) :
    (candidates (other.readDir dir)).Perm (candidates (download.readDir dir)) :=
  (h.readDir dir).filterMap _

theorem Reordered.safeNames (h : download.Reordered other) :
    other.SafeNames dir ↔ download.SafeNames dir := by
  unfold SafeNames
  exact forall_congr' fun e ↦ imp_congr (h.candidates dir).mem_iff Iff.rfl

theorem Reordered.atomicDirs (h : download.Reordered other) :
    other.atomicDirs.Perm download.atomicDirs := by
  refine (perm_ext_iff_of_nodup atomicDirs_nodup atomicDirs_nodup).mpr fun dir ↦ ?_
  rw [mem_atomicDirs, mem_atomicDirs, h.isDirectory]

/-- The steps in all directories. -/
def allSteps (steps : List String → List ListingStep) (dirs : List (List String)) :
    List (List String × ListingStep) :=
  dirs.flatMap fun dir ↦ (steps dir).map (dir, ·)

theorem allApplied_eq_foldl : allApplied steps dirs done =
    (allSteps steps dirs).foldl (fun done step ↦ applied step.1 done step.2) done := by
  rw [allApplied, allSteps, foldl_flatMap]
  simp only [foldl_map]

theorem taken_comm {path path' : List String} {node node' : Node Bytes} (hne : path ≠ path') :
    taken (taken done path node) path' node' = taken (taken done path' node') path node := by
  have htree : (done.tree.insert path node).insert path' node' =
      (done.tree.insert path' node').insert path node := by
    refine ext_get? fun key ↦ ?_
    simp only [get?_insert]
    by_cases hkey : key = path
    · simp [hkey, hne]
    · simp [hkey]
  cases node <;> cases node' <;> simp [taken, htree, Nat.add_right_comm]

/-- Two entries at one place are one. -/
theorem step_eq_of_path {dir' : List String} {name' : String} {node' : Node Bytes}
    (hc : (name, node) ∈ (atomicSteps (download.readDir dir)).filterMap fetchOf)
    (hc' : (name', node') ∈ (atomicSteps (download.readDir dir')).filterMap fetchOf)
    (hpath : dir ++ [name] = dir' ++ [name']) : dir = dir' ∧ name = name' ∧ node = node' := by
  obtain ⟨rfl, hlast⟩ := append_inj' hpath rfl
  cases singleton_injective hlast
  rw [fetches_atomicSteps] at hc hc'
  obtain ⟨n, hget, hnode⟩ := mem_candidates.mp hc
  obtain ⟨n', hget', hnode'⟩ := mem_candidates.mp hc'
  rw [hget] at hget'
  cases hget'
  rw [hnode] at hnode'
  cases hnode'
  exact ⟨rfl, rfl, rfl⟩

theorem applied_comm {step step' : List String × ListingStep}
    (hstep : step ∈ allSteps (fun dir ↦ atomicSteps (download.readDir dir)) dirs)
    (hstep' : step' ∈ allSteps (fun dir ↦ atomicSteps (download.readDir dir)) dirs) :
    applied step'.1 (applied step.1 done step.2) step'.2 =
      applied step.1 (applied step'.1 done step'.2) step.2 := by
  obtain ⟨dir, -, hmem⟩ := mem_flatMap.mp hstep
  obtain ⟨first, hfirst, rfl⟩ := mem_map.mp hmem
  obtain ⟨dir', -, hmem'⟩ := mem_flatMap.mp hstep'
  obtain ⟨second, hsecond, rfl⟩ := mem_map.mp hmem'
  cases first with
  | skip => cases second with
      | skip => rfl
      | fetch name node => cases node <;> rfl
  | fetch name node => cases second with
      | skip => cases node <;> rfl
      | fetch name' node' =>
          by_cases hpath : dir ++ [name] = dir' ++ [name']
          · obtain ⟨rfl, rfl, rfl⟩ := step_eq_of_path
              (mem_filterMap.mpr ⟨_, hfirst, rfl⟩)
              (mem_filterMap.mpr ⟨_, hsecond, rfl⟩) hpath
            rfl
          · exact taken_comm hpath

/-- What is made does not depend on the order. -/
theorem Reordered.allApplied_eq (h : download.Reordered other) :
    allApplied (fun dir ↦ atomicSteps (other.readDir dir)) other.atomicDirs .fresh =
      allApplied (fun dir ↦ atomicSteps (download.readDir dir)) download.atomicDirs .fresh := by
  have hsteps : (allSteps (fun dir ↦ atomicSteps (other.readDir dir)) other.atomicDirs).Perm
      (allSteps (fun dir ↦ atomicSteps (download.readDir dir)) download.atomicDirs) :=
    h.atomicDirs.flatMap fun dir _ ↦ ((h.readDir dir).filterMap _).map _
  rw [allApplied_eq_foldl, allApplied_eq_foldl]
  refine (hsteps.symm.foldl_eq' (fun step hstep step' hstep' done ↦ ?_) _).symm
  exact applied_comm hstep hstep'

/-- The same download with each listing in another order. -/
def reorder (download : RecursiveDownload) (order : RemoteListing → RemoteListing)
    (horder : ∀ listing, (order listing).Perm listing) : RecursiveDownload :=
  { download with
    readDir := fun dir ↦ order (download.readDir dir)
    lists := fun dir ↦ ((horder _).filter _).trans (download.lists dir) }

theorem reordered_reorder (download : RecursiveDownload) (order : RemoteListing → RemoteListing)
    (horder : ∀ listing, (order listing).Perm listing) :
    download.Reordered (download.reorder order horder) :=
  ⟨rfl, rfl, rfl, rfl, rfl, fun _ ↦ horder _⟩

/-- Shorter names come first, so that no staging name comes before the name that it belongs to. -/
def byLength (listing : RemoteListing) : RemoteListing :=
  listing.insertionSort fun e e' ↦ e.1.length ≤ e'.1.length

theorem byLength_perm (listing : RemoteListing) : (byLength listing).Perm listing :=
  perm_insertionSort _ _

theorem length_lt_stagingName (name : String) : name.length < (stagingName name).length := by
  rw [stagingName, String.length_append]
  exact Nat.lt_add_of_pos_right (by decide)

theorem name_of_candidate {c : String × Node Bytes}
    (h : (if isDotName e.1 then none else (fetchable e.2).map fun node ↦ (e.1, node)) = some c) :
    c.1 = e.1 := by
  obtain ⟨-, h⟩ := Option.ite_none_left_eq_some.mp h
  obtain ⟨node, -, rfl⟩ := Option.map_eq_some_iff.mp h
  rfl

theorem unstaged_byLength (listing : RemoteListing) : Unstaged (candidates (byLength listing)) := by
  have : Std.Total fun e e' : String × Node (Leaf Bytes) ↦ e.1.length ≤ e'.1.length :=
    ⟨fun _ _ ↦ Nat.le_total _ _⟩
  have : IsTrans (String × Node (Leaf Bytes)) fun e e' ↦ e.1.length ≤ e'.1.length :=
    ⟨fun _ _ _ ↦ Nat.le_trans⟩
  have hsorted : (byLength listing).Pairwise fun e e' ↦ e.1.length ≤ e'.1.length :=
    pairwise_insertionSort _ listing
  refine List.Pairwise.filterMap _ (fun a a' hle b hb b' hb' _ heq ↦ ?_) hsorted
  rw [name_of_candidate hb, name_of_candidate hb'] at heq
  have hlt := length_lt_stagingName a'.1
  rw [← heq] at hlt
  exact Nat.not_lt.mpr hle hlt

/-- Where a staging name is taken, its entry comes first. -/
def takenFirst (name : String) (listing : RemoteListing) : RemoteListing :=
  (listing.filter fun e ↦ e.1 = name) ++ listing.filter fun e ↦ !decide (e.1 = name)

theorem takenFirst_perm (name : String) (listing : RemoteListing) :
    (takenFirst name listing).Perm listing :=
  filter_append_perm (fun e : String × Node (Leaf Bytes) ↦ decide (e.1 = name)) listing

end

/-! ## Files in the place of staging files -/

theorem atomicDownloadFile_eq_ok {resume : Bool} {text : String} {tree tree' : LocalTree}
    {path : List String} {content : Bytes} {copied : Nat}
    (h : atomicDownloadFile resume text tree path content = .ok (tree', copied)) :
    ∃ bytes, tree' = (if resume then tree.erase (stagingPath path) else tree).insert path
      (.file bytes) := by
  obtain ⟨-, -, h⟩ := bind_eq_ok.mp h
  cases resume with
  | false =>
      cases h
      exact ⟨content, rfl⟩
  | true =>
      obtain ⟨kept, -, h⟩ := bind_eq_ok.mp h
      cases h
      exact ⟨_, rfl⟩

theorem atomicFetch_file {content : Bytes} {path : List String} {done' : Downloaded}
    (h : download.atomicFetch done path (.file content) = .ok done') :
    ∃ bytes, done'.tree = (if download.resume then done.tree.erase (stagingPath path)
      else done.tree).insert path (.file bytes) := by
  obtain ⟨⟨tree, copied⟩, htree, h⟩ := bind_eq_ok.mp h
  cases h
  exact atomicDownloadFile_eq_ok htree

/-- An entry that is taken over puts nothing elsewhere. -/
theorem absent_atomicFetch {path other : List String} {done' : Downloaded} (hne : other ≠ path)
    (habsent : done.tree.get? other = none) (h : download.atomicFetch done path node = .ok done') :
    done'.tree.get? other = none := by
  cases node with
  | dir =>
      obtain ⟨tree, htree, h⟩ := bind_eq_ok.mp h
      cases h
      unfold ensureLocalDirectory at htree
      split at htree
      · cases htree
        rw [get?_insert_of_ne _ _ hne, habsent]
      · cases htree
        exact habsent
      · cases htree
  | file content =>
      obtain ⟨bytes, htree⟩ := atomicFetch_file h
      rw [htree, get?_insert_of_ne _ _ hne]
      split
      · rw [get?_erase, habsent, ite_self]
      · exact habsent

theorem absent_foldlM_perform {steps : List ListingStep} {other : List String} {done' : Downloaded}
    (hother : other ∉ fetchPaths dir steps) (habsent : done.tree.get? other = none)
    (h : steps.foldlM (perform download.atomicFetch dir) done = .ok done') :
    done'.tree.get? other = none := by
  induction steps generalizing done with
  | nil =>
      cases h
      exact habsent
  | cons step rest ih =>
      obtain ⟨next, hnext, htail⟩ := bind_eq_ok.mp h
      cases step with
      | skip =>
          cases hnext
          have hskipped : done.skip.tree.get? other = none := habsent
          exact ih hother hskipped htail
      | fetch name node =>
          have hother : other ∉ (dir ++ [name]) :: fetchPaths dir rest := hother
          obtain ⟨hne, hrest⟩ := not_or.mp (mt mem_cons.mpr hother)
          exact ih hrest (absent_atomicFetch hne habsent hnext) htail

/-- A file that is taken over leaves nothing in the place of its staging file. -/
theorem consumed_foldlM_perform {steps : List ListingStep} {content : Bytes} {done' : Downloaded}
    (hresume : download.resume = true) (hfile : (name, .file content) ∈ steps.filterMap fetchOf)
    (hstaging : dir ++ [stagingName name] ∉ fetchPaths dir steps)
    (h : steps.foldlM (perform download.atomicFetch dir) done = .ok done') :
    done'.tree.get? (dir ++ [stagingName name]) = none := by
  induction steps generalizing done with
  | nil => cases hfile
  | cons step rest ih =>
      obtain ⟨next, hnext, htail⟩ := bind_eq_ok.mp h
      cases step with
      | skip => exact ih hfile hstaging htail
      | fetch name' node =>
          have hstaging : dir ++ [stagingName name] ∉ (dir ++ [name']) :: fetchPaths dir rest :=
            hstaging
          have hfile : (name, Node.file content) ∈ (name', node) :: rest.filterMap fetchOf := hfile
          obtain ⟨hne, hrest⟩ := not_or.mp (mt mem_cons.mpr hstaging)
          rcases mem_cons.mp hfile with heq | hfile
          · cases heq
            refine absent_foldlM_perform hrest ?_ htail
            obtain ⟨bytes, htree⟩ := atomicFetch_file hnext
            rw [htree, get?_insert_of_ne _ _ hne, if_pos hresume, get?_erase,
              if_pos stagingPath_concat.symm]
          · exact ih hfile hrest htail

theorem absent_foldlM {other : List String} {done' : Downloaded}
    (hother : other ∉ allPaths steps dirs) (habsent : done.tree.get? other = none)
    (h : dirs.foldlM (fun done dir ↦
      (steps dir).foldlM (perform download.atomicFetch dir) done) done = .ok done') :
    done'.tree.get? other = none := by
  induction dirs generalizing done with
  | nil =>
      cases h
      exact habsent
  | cons dir rest ih =>
      obtain ⟨next, hnext, htail⟩ := bind_eq_ok.mp h
      rw [allPaths, flatMap_cons, mem_append, not_or] at hother
      exact ih hother.2 (absent_foldlM_perform hother.1 habsent hnext) htail

theorem mem_candidates_filter {p : String → Bool} {c : String × Node Bytes} :
    c ∈ candidates (listing.filter fun e ↦ p e.1) ↔ c ∈ candidates listing ∧ p c.1 = true := by
  rw [candidates, candidates, mem_filterMap, mem_filterMap]
  constructor
  · rintro ⟨e, he, hc⟩
    obtain ⟨hmem, hp⟩ := mem_filter.mp he
    exact ⟨⟨e, hmem, hc⟩, (name_of_candidate hc).symm ▸ hp⟩
  · rintro ⟨⟨e, he, hc⟩, hp⟩
    exact ⟨e, mem_filter.mpr ⟨he, name_of_candidate hc ▸ hp⟩, hc⟩

theorem safe_of_ok {done' : Downloaded}
    (h : (do
      download.preflightAtomicDownloadTree Downloaded.fresh.tree
      walk download.atomicVisit (download.tree.entries.length + 1) .fresh [[]]) = .ok done') :
    ∀ dir ∈ download.atomicDirs, download.SafeNames dir := by
  intro dir hdir
  by_contra hbad
  exact isOk_eq_false_iff.mp (atomicWalks_fail hdir hbad) done' h

/-- Where the entry with the staging name of a file comes first, it is missing in the end. -/
theorem staged_missing {content : Bytes} {done' : Downloaded} (hresume : download.resume = true)
    (horder : ∀ dir, ∃ listing, download.readDir dir = takenFirst (stagingName name) listing)
    (hdir : download.IsDirectory dir)
    (hfile : (name, .file content) ∈ candidates (download.readDir dir))
    (h : (do
      download.preflightAtomicDownloadTree Downloaded.fresh.tree
      walk download.atomicVisit (download.tree.entries.length + 1) .fresh [[]]) = .ok done') :
    done'.tree.get? (dir ++ [stagingName name]) = none := by
  rw [atomicWalks_eq (safe_of_ok h)] at h
  obtain ⟨before, after, hdirs⟩ := append_of_mem (mem_atomicDirs.mpr hdir)
  have hnodup : download.atomicDirs.Nodup := atomicDirs_nodup
  rw [hdirs] at h hnodup
  rw [foldlM_append] at h
  obtain ⟨first, -, h⟩ := bind_eq_ok.mp h
  obtain ⟨second, hsecond, h⟩ := bind_eq_ok.mp h
  refine absent_foldlM (fun hpath ↦ ?_) ?_ h
  · -- What comes later lies in other directories.
    obtain ⟨dir', hdir', hpath⟩ := mem_flatMap.mp hpath
    obtain ⟨c, -, heq⟩ := mem_map.mp hpath
    obtain ⟨rfl, -⟩ := append_inj' heq rfl
    exact (nodup_cons.mp (nodup_append.mp hnodup).2.1).1 hdir'
  · obtain ⟨listing, hlisting⟩ := horder dir
    have hlater : ∀ c : String × Node Bytes,
        c ∈ candidates (listing.filter fun e ↦ !decide (e.1 = stagingName name)) ↔
          c ∈ candidates listing ∧ c.1 ≠ stagingName name := by
      intro c
      rw [mem_candidates_filter (p := fun n ↦ !decide (n = stagingName name))]
      simp
    replace hsecond : (atomicSteps (download.readDir dir)).foldlM (perform download.atomicFetch dir)
        first = .ok second := hsecond
    rw [hlisting] at hfile hsecond
    rw [takenFirst, atomicSteps, filterMap_append, foldlM_append] at hsecond
    obtain ⟨taken, -, hsecond⟩ := bind_eq_ok.mp hsecond
    have hlast : (name, .file content) ∈ (atomicSteps
        (listing.filter fun e ↦ !decide (e.1 = stagingName name))).filterMap fetchOf := by
      rw [fetches_atomicSteps, hlater]
      exact ⟨((takenFirst_perm _ _).filterMap _).mem_iff.mp hfile, (stagingName_ne name).symm⟩
    refine consumed_foldlM_perform hresume hlast (fun hpath ↦ ?_) hsecond
    obtain ⟨c, hc, heq⟩ := mem_map.mp hpath
    rw [fetches_atomicSteps, hlater] at hc
    exact hc.2 (singleton_injective (append_cancel_left heq))

/-! ## The result -/

/-- In an ordinary tree the order of the transfers does not matter. -/
theorem Ordinary.agree {other : RecursiveDownload} (h : download.Ordinary normalize)
    (hother : download.Reordered other) (hroot : download.root = .dir) :
    Agree (download.plainDownloadTree normalize) other.atomicDownloadTree := by
  have hplain := plainWalk_ok fun dir hdir ↦ h.good (mem_plainDirs.mp hdir)
  have hsafe : ∀ dir ∈ other.atomicDirs, other.SafeNames dir := fun dir hdir ↦
    hother.safeNames.mpr (h.safe dir (hother.isDirectory.mp (mem_atomicDirs.mp hdir)))
  have hunstaged : other.resume = true → ∀ dir ∈ other.atomicDirs,
      Unstaged (candidates (other.readDir dir)) := by
    intro hresume dir hdir
    have hisDirectory := hother.isDirectory.mp (mem_atomicDirs.mp hdir)
    refine pairwise_of_forall_mem_list fun e he file hfile hnode ↦ ?_
    exact h.unstaged (hother.resume ▸ hresume) dir hisDirectory file
      ((hother.candidates dir).mem_iff.mp hfile) hnode e ((hother.candidates dir).mem_iff.mp he)
  have hatomic := atomicWalks_ok hsafe hunstaged
  unfold plainDownloadTree atomicDownloadTree
  rw [hother.root, hroot]
  refine (agree_of_eq_ok hplain hatomic).mpr ?_
  simp only [hother.allApplied_eq, h.dirs_eq, h.plainSteps_eq]

/-- In the order of the lengths, the atomic download refuses nothing but names. -/
theorem atomicDownloadTree_byLength (hroot : download.root = .dir)
    (hsafe : ∀ dir, download.IsDirectory dir → download.SafeNames dir) :
    (download.reorder byLength byLength_perm).atomicDownloadTree =
      .ok (allApplied (fun dir ↦ atomicSteps (download.readDir dir)) download.atomicDirs .fresh) := by
  have hreordered := reordered_reorder download byLength byLength_perm
  have hnames : ∀ dir ∈ (download.reorder byLength byLength_perm).atomicDirs,
      (download.reorder byLength byLength_perm).SafeNames dir := fun dir hdir ↦
    hreordered.safeNames.mpr (hsafe dir (hreordered.isDirectory.mp (mem_atomicDirs.mp hdir)))
  rw [atomicDownloadTree, hreordered.root, hroot, ← hreordered.allApplied_eq]
  exact atomicWalks_ok hnames fun _ dir _ ↦ unstaged_byLength _

/-- When the two agree in every order, no entry has the staging name of a file. -/
theorem unstaged_of_agree (hagree : download.DownloadsAgree normalize) (hroot : download.root = .dir)
    {done : Downloaded} (hplain : download.plainDownloadTree normalize = .ok done)
    (hpresent : ∀ path ∈ allPaths (fun dir ↦ atomicSteps (download.readDir dir)) download.atomicDirs,
      done.tree.get? path ≠ none)
    (hresume : download.resume = true) (hdir : download.IsDirectory dir)
    {file e : String × Node Bytes} (hfile : file ∈ candidates (download.readDir dir))
    (hnode : file.2 ≠ .dir) (he : e ∈ candidates (download.readDir dir)) :
    e.1 ≠ stagingName file.1 := by
  intro hstaging
  obtain ⟨name, node⟩ := file
  cases node with
  | dir => exact hnode rfl
  | file content =>
      have hreordered : download.Reordered
          (download.reorder (takenFirst (stagingName name)) (takenFirst_perm _)) :=
        reordered_reorder _ _ _
      have hatomic := hagree _ hreordered
      rw [hplain] at hatomic
      obtain ⟨hfails, -⟩ | ⟨-, hsame⟩ := hatomic
      · cases hfails
      · unfold atomicDownloadTree at hsame
        rw [show (download.reorder _ _).root = _ from hroot] at hsame
        have hresume : (download.reorder _ (takenFirst_perm (stagingName name))).resume = true :=
          hresume
        have hmissing := staged_missing hresume (fun dir ↦ ⟨download.readDir dir, rfl⟩)
          (hreordered.isDirectory.mpr hdir) ((hreordered.candidates dir).mem_iff.mpr hfile) hsame.symm
        refine hpresent (dir ++ [e.1]) ?_ (hstaging ▸ hmissing)
        refine mem_flatMap.mpr ⟨dir, mem_atomicDirs.mpr hdir, mem_map.mpr ⟨e, ?_, rfl⟩⟩
        rw [fetches_atomicSteps]
        exact he

/-- The two agree on a root that is no directory, on an ordinary tree, and where either comes to
something that it refuses. -/
theorem downloads_agree_iff (download : RecursiveDownload) (normalize : String → String) :
    download.DownloadsAgree normalize ↔
      download.root ≠ .dir ∨ download.Ordinary normalize ∨
        (∃ dir, download.PlainComesTo normalize dir ∧
          ¬(download.SafeNames dir ∧ dir.length < maxDownloadDepth)) ∧
        ∃ dir, download.IsDirectory dir ∧ ¬download.SafeNames dir := by
  cases hroot : download.root with
  | file leaf =>
      refine iff_of_true (fun other hother ↦ ?_) (.inl fun h ↦ by cases h)
      have hleaf : other.downloadLeaf leaf = download.downloadLeaf leaf := by
        cases leaf <;> simp only [downloadLeaf, hother.remoteRoot]
      rw [plainDownloadTree, atomicDownloadTree, hother.root, hroot]
      dsimp only
      rw [hleaf]
      exact agree_self _
  | dir =>
      rw [or_iff_right fun h ↦ h rfl]
      constructor
      · intro hagree
        have hordered := hagree _ (reordered_reorder download byLength byLength_perm)
        by_cases hplain : ∃ dir, download.PlainComesTo normalize dir ∧
            ¬(download.SafeNames dir ∧ dir.length < maxDownloadDepth)
        · refine .inr ⟨hplain, by_contra fun hsafe ↦ ?_⟩
          push Not at hsafe
          obtain ⟨dir, hdir, hbad⟩ := hplain
          rw [atomicDownloadTree_byLength hroot hsafe] at hordered
          have hfails := plainWalk_fails (mem_plainDirs.mpr hdir) hbad
          rw [plainDownloadTree, hroot] at hordered
          cases (agree_iff_of_fails hfails).mp hordered
        · push Not at hplain
          have hgood : ∀ dir ∈ download.plainDirs normalize,
              download.SafeNames dir ∧ dir.length < maxDownloadDepth :=
            fun dir hdir ↦ hplain dir (mem_plainDirs.mp hdir)
          have hok : download.plainDownloadTree normalize =
              .ok (allApplied (fun dir ↦ plainSteps normalize [] (download.readDir dir))
                (download.plainDirs normalize) .fresh) := by
            rw [plainDownloadTree, hroot]
            exact plainWalk_ok hgood
          by_cases hunsafe : ∃ dir, download.IsDirectory dir ∧ ¬download.SafeNames dir
          · -- What the atomic policy refuses lies where the transfer engine never comes.
            obtain ⟨dir, hdir, hbad⟩ := hunsafe
            have hreordered := reordered_reorder download byLength byLength_perm
            refine absurd hordered (not_agree_of_fails (by rw [hok]; rfl) ?_)
            rw [atomicDownloadTree, hreordered.root, hroot]
            exact atomicWalks_fail (mem_atomicDirs.mpr (hreordered.isDirectory.mpr hdir))
              (mt hreordered.safeNames.mp hbad)
          · push Not at hunsafe
            rw [agree_of_eq_ok hok (atomicDownloadTree_byLength hroot hunsafe)] at hordered
            refine .inl (ordinary_of_eq hgood hordered fun hresume dir hdir file hfile hnode e he ↦ ?_)
            refine unstaged_of_agree hagree hroot hok (fun path hpath ↦ ?_) hresume hdir hfile hnode he
            rw [hordered]
            exact get?_allApplied.mpr (.inr hpath)
      · rintro (hordinary | ⟨⟨dir, hdir, hbad⟩, dir', hdir', hbad'⟩) other hother
        · exact hordinary.agree hother hroot
        · rw [plainDownloadTree, atomicDownloadTree, hother.root, hroot]
          exact .inl ⟨plainWalk_fails (mem_plainDirs.mpr hdir) hbad,
            atomicWalks_fail (mem_atomicDirs.mpr (hother.isDirectory.mpr hdir'))
              (mt hother.safeNames.mp hbad')⟩

/-- Two files in the root. -/
def twoFiles (name name' : String) (content content' : Bytes) : RemoteFs Bytes :=
  empty.insert [name] (.file (.regular content))
    |>.insert [name'] (.file (.regular content'))

def caseTree : RemoteFs Bytes := twoFiles "A" "a" [1] [2]

/-- A file and another one under the name of its staging file. -/
def stagedTree : RemoteFs Bytes := twoFiles "x" "x.kaduox.part" [97, 98] [122]

theorem lists_children {tree : RemoteFs Bytes}
    (hnames : ∀ e ∈ tree.entries, e.1.getLast? ≠ some "." ∧ e.1.getLast? ≠ some "..")
    (dir : List String) :
    ((tree.children dir).filter fun e ↦ e.1 ≠ "." ∧ e.1 ≠ "..").Perm (tree.children dir) := by
  rw [filter_eq_self.mpr]
  rintro ⟨name, node⟩ he
  obtain ⟨hdot, hdots⟩ := hnames _ (get?_eq_some_iff.mp (mem_children.mp he))
  rw [List.getLast?_concat] at hdot hdots
  exact decide_eq_true ⟨fun h ↦ hdot (congrArg some h), fun h ↦ hdots (congrArg some h)⟩

def caseDownload : RecursiveDownload :=
  ⟨"/srv", "/tmp", false, .dir, caseTree, caseTree.children, .of_entries (by decide),
    lists_children (by decide)⟩

def stagedDownload : RecursiveDownload :=
  ⟨"/srv", "/tmp", true, .dir, stagedTree, stagedTree.children, .of_entries (by decide),
    lists_children (by decide)⟩

theorem not_agree_of_summary {r r' : Result Downloaded} {summary summary' : TransferSummary}
    (hr : r.map Downloaded.summary = .ok summary) (hr' : r'.map Downloaded.summary = .ok summary')
    (hne : summary ≠ summary') : ¬Agree r r' := by
  rintro (⟨hfails, -⟩ | ⟨-, rfl⟩)
  · rw [← isOk_map, hr] at hfails
    cases hfails
  · rw [hr, Except.ok.injEq] at hr'
    exact hne hr'

/-- The transfer engine leaves out the second of two names that differ in their case, the atomic
policy does not. With `resume` the atomic policy takes a file for the staging file of another one,
the transfer engine does not. -/
theorem downloads_differ :
    ¬caseDownload.DownloadsAgree String.toLower ∧ ¬stagedDownload.DownloadsAgree String.toLower := by
  constructor
  · intro hagree
    have hatomic : (caseDownload.reorder id fun _ ↦ .refl _).atomicDownloadTree.map
        Downloaded.summary = .ok ⟨2, 1, 2, 0⟩ := by
      decide
    have hplain : (caseDownload.plainDownloadTree String.toLower).map Downloaded.summary =
        .ok ⟨1, 1, 1, 1⟩ := by
      decide +kernel
    exact not_agree_of_summary hplain hatomic (by decide) (hagree _ (reordered_reorder _ _ _))
  · intro hagree
    have hatomic : (stagedDownload.reorder _ (takenFirst_perm "x.kaduox.part")).atomicDownloadTree.map
        Downloaded.summary = .ok ⟨2, 1, 2, 0⟩ := by
      decide
    have hplain : (stagedDownload.plainDownloadTree String.toLower).map Downloaded.summary =
        .ok ⟨2, 1, 3, 0⟩ := by
      decide +kernel
    exact not_agree_of_summary hplain hatomic (by decide) (hagree _ (reordered_reorder _ _ _))

end RecursiveDownload

end KaduoxSsh.Transfer
