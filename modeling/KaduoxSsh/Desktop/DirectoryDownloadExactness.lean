import KaduoxSsh.Desktop.DirectoryDownload
import KaduoxSsh.Lib.Loops

/-!
# What a directory download keeps

The download is a loop over what it comes to. After every part of it the local tree is
given by the directories and the last file of each place, and the counts by what came
until then. It succeeds when all of the tree is within the limits, no file comes in the
way of a directory, and nothing comes behind the last file that is allowed.
-/

namespace KaduoxSsh.Desktop

open KaduoxSsh.Transfer Result List SortedMap

/-! ## One entry after the other -/

section

variable (download : DirectoryDownload)

/-- What is done for one entry. -/
def DirectoryDownload.visit (done : DirectoryDownloaded) : Visit → Result DirectoryDownloaded
  | .directory path listing => do
      DirectoryDownload.checkFiles done
      bailIf (path.length > MAX_DIRECTORY_DEPTH)
        s!"目录嵌套超过 {MAX_DIRECTORY_DEPTH} 层，已中止（可能存在符号链接环）"
      let _ ← (download.listRemoteDirectory path listing).context
        s!"无法读取远程目录 {download.remotePath path}"
      download.createLocalDirectory done path
  | .file path content => do
      DirectoryDownload.checkFiles done
      download.downloadEntry done path content
  | .skipped _ => do
      DirectoryDownload.checkFiles done
      return DirectoryDownload.skipEntry done

/-- What is visited for an entry of a listing. -/
def entryVisits (dir : List String) (e : String × RemoteNode) : List Visit :=
  e.2.visits (validateRemoteChildName e.1).isOk (dir ++ [e.1])

end

section

variable {download : DirectoryDownload} {done : DirectoryDownloaded} {dir path : List String}
  {listing : RemoteDirectory} {v : Visit} {safe : Bool} {node : RemoteNode}

theorem blocks_eq_map : blocks dir listing =
    (listing.filter fun e ↦ e.1 ≠ "." ∧ e.1 ≠ "..").map fun e ↦ (e.1, entryVisits dir e) := by
  induction listing with
  | nil => rfl
  | cons e listing ih =>
      obtain ⟨name, node⟩ := e
      rw [blocks, filter_cons, ih]
      split
      case isTrue h =>
        rw [if_pos (decide_eq_true h), map_cons, entryVisits]
      case isFalse h =>
        rw [if_neg (by simpa using h)]

/-- The entries in the order in which a directory is listed. -/
def sortedEntries (listing : RemoteDirectory) : RemoteDirectory :=
  (listing.filter fun e ↦ e.1 ≠ "." ∧ e.1 ≠ "..").insertionSort fun left right ↦ left.1 ≤ right.1

theorem visits_directory : (RemoteNode.directory listing).visits true path =
    .directory path listing :: (sortedEntries listing).flatMap (entryVisits path) := by
  have hsort := map_insertionSort (fun left right : String × RemoteNode ↦ left.1 ≤ right.1)
    (fun left right : String × List Visit ↦ left.1 ≤ right.1)
    (fun e ↦ (e.1, entryVisits path e)) (listing.filter fun e ↦ e.1 ≠ "." ∧ e.1 ≠ "..")
    fun _ _ _ _ ↦ Iff.rfl
  rw [RemoteNode.visits, if_pos rfl, blocks_eq_map, sortedEntries, ← hsort, flatMap_map]

theorem exists_visits_cons (safe : Bool) (path : List String) (node : RemoteNode) :
    ∃ v rest, node.visits safe path = v :: rest := by
  cases node with
  | directory listing =>
      rw [RemoteNode.visits]
      split
      · exact ⟨_, _, rfl⟩
      · exact ⟨_, _, rfl⟩
  | leaf leaf =>
      cases leaf with
      | regular content =>
          rw [RemoteNode.visits]
          split
          · exact ⟨_, _, rfl⟩
          · exact ⟨_, _, rfl⟩
      | symlink => exact ⟨_, _, rfl⟩
      | other => exact ⟨_, _, rfl⟩

theorem foldlM_singleton : [v].foldlM download.visit done = download.visit done v := by
  rw [foldlM_cons]
  exact bind_pure _

theorem visits_unsafe : node.visits false path = [.skipped path] := by
  cases node with
  | directory listing => rw [RemoteNode.visits, if_neg Bool.false_ne_true]
  | leaf leaf => cases leaf <;> rfl

def tooManyFiles : AnyError := ⟨[⟨s!"目录文件数超过 {MAX_DIRECTORY_FILES}，已中止", none⟩]⟩

theorem checkFiles_of_lt (h : done.stats.files < MAX_DIRECTORY_FILES) :
    DirectoryDownload.checkFiles done = .ok ⟨⟩ := bailIf_of_not (Nat.not_le.mpr h) _

theorem checkFiles_of_le (h : MAX_DIRECTORY_FILES ≤ done.stats.files) :
    DirectoryDownload.checkFiles done = .error tooManyFiles := if_pos h

theorem visit_of_le (h : MAX_DIRECTORY_FILES ≤ done.stats.files) :
    download.visit done v = .error tooManyFiles := by
  cases v with
  | directory path listing => rw [DirectoryDownload.visit, checkFiles_of_le h]; rfl
  | file path content => rw [DirectoryDownload.visit, checkFiles_of_le h]; rfl
  | skipped path => rw [DirectoryDownload.visit, checkFiles_of_le h]; rfl

theorem foldlM_visits_of_le (h : MAX_DIRECTORY_FILES ≤ done.stats.files) :
    (node.visits safe path).foldlM download.visit done = .error tooManyFiles := by
  obtain ⟨v, rest, heq⟩ := exists_visits_cons safe path node
  rw [heq, foldlM_cons, visit_of_le h]
  rfl

theorem listRemoteDirectory_eq_ok {entries : RemoteDirectory} :
    download.listRemoteDirectory dir listing = .ok entries →
      entries = sortedEntries listing ∧ ∀ e ∈ entries, ¬isDotName e.1 := by
  intro h
  obtain ⟨_, -, h⟩ := bind_eq_ok.mp h
  obtain ⟨listed, hlisted, h⟩ := bind_eq_ok.mp h
  obtain ⟨_, -, h⟩ := bind_eq_ok.mp h
  cases h
  obtain ⟨_, -, h⟩ := bind_eq_ok.mp hlisted
  obtain ⟨_, -, h⟩ := bind_eq_ok.mp h
  cases h
  refine ⟨rfl, fun e he hdot ↦ ?_⟩
  have hkept := of_mem_filter ((mem_insertionSort _).mp he)
  rw [decide_eq_true_iff] at hkept
  exact hdot.elim hkept.1 hkept.2

/-- The recursion is a loop over what is visited. -/
theorem downloadDirectoryRecursive_eq {depth : Nat} (hdepth : dir.length = depth)
    (hfew : done.stats.files < MAX_DIRECTORY_FILES) :
    download.downloadDirectoryRecursive dir listing done depth =
      ((RemoteNode.directory listing).visits true dir).foldlM download.visit done := by
  induction hk : MAX_DIRECTORY_DEPTH + 1 - depth using Nat.strong_induction_on
    generalizing dir listing done depth with
  | h k ih =>
      rw [DirectoryDownload.downloadDirectoryRecursive, visits_directory, foldlM_cons,
        DirectoryDownload.visit, checkFiles_of_lt hfew, hdepth]
      split
      case isTrue hdeep =>
        rw [bailIf, if_pos hdeep]
        rfl
      case isFalse hshallow =>
        rw [bailIf_of_not hshallow]
        cases hlist : download.listRemoteDirectory dir listing with
        | error e => rfl
        | ok entries =>
            obtain ⟨rfl, hnames⟩ := listRemoteDirectory_eq_ok hlist
            show (download.createLocalDirectory done dir >>= fun done ↦ _) =
              (download.createLocalDirectory done dir >>= fun done ↦ _)
            refine congrArg (_ >>= ·) (funext fun created ↦ ?_)
            rw [foldlM_flatMap]
            refine foldlM_congr (fun done e he ↦ ?_) created
            rcases Nat.lt_or_ge done.stats.files MAX_DIRECTORY_FILES with hless | hmany
            · rw [checkFiles_of_lt hless, bind_ok, if_neg (hnames e he), entryVisits]
              cases hname : validateRemoteChildName e.1 with
              | error reason =>
                  rw [isOk, visits_unsafe, foldlM_singleton, DirectoryDownload.visit,
                    checkFiles_of_lt hless]
                  rfl
              | ok u =>
                  have hdeeper : (dir ++ [e.1]).length = depth + 1 := by
                    rw [length_append, hdepth, length_singleton]
                  obtain ⟨name, node⟩ := e
                  cases node with
                  | directory inner =>
                      exact ih _ (by omega) hdeeper hless rfl
                  | leaf leaf =>
                      cases leaf with
                      | regular content =>
                          rw [RemoteNode.visits, isOk, if_pos rfl, foldlM_singleton,
                            DirectoryDownload.visit, checkFiles_of_lt hless]
                          rfl
                      | symlink =>
                          rw [RemoteNode.visits, foldlM_singleton, DirectoryDownload.visit,
                            checkFiles_of_lt hless]
                          · rfl
                          · rintro _ ⟨⟩
                      | other =>
                          rw [RemoteNode.visits, foldlM_singleton, DirectoryDownload.visit,
                            checkFiles_of_lt hless]
                          · rfl
                          · rintro _ ⟨⟩
            · rw [checkFiles_of_le hmany, entryVisits, foldlM_visits_of_le hmany]
              rfl

end

/-! ## What is visited -/

def Visit.file? : Visit → Option (List String × Bytes)
  | .file path content => some (path, content)
  | .directory _ _ | .skipped _ => none

def Visit.directory? : Visit → Option (List String)
  | .directory path _ => some path
  | .file _ _ | .skipped _ => none

def Visit.isSkipped : Visit → Bool
  | .skipped _ => true
  | .directory _ _ | .file _ _ => false

/-- The regular files with safe names, in directories with such names. -/
def files (visits : List Visit) : List (List String × Bytes) := visits.filterMap Visit.file?

def directories (visits : List Visit) : List (List String) := visits.filterMap Visit.directory?

def totalBytes (visits : List Visit) : Nat := ((files visits).map fun f ↦ f.2.length).sum

/-- A directory can be listed with these names in it. -/
def Listable (listing : RemoteDirectory) : Prop :=
  ∀ e ∈ listing, e.1 ≠ "." ∧ e.1 ≠ ".." → validateRemoteEntryName e.1 = .ok ()

/-- All that is visited below a directory. -/
def visitsBelow (listing : RemoteDirectory) : List Visit :=
  (RemoteNode.directory listing).visits true []

/-- A regular file below a directory, all names on the way to it being safe. -/
inductive FileAt : RemoteDirectory → List String → Bytes → Prop
  | here {listing : RemoteDirectory} {name : String} {content : Bytes}
      (hmem : (name, .leaf (.regular content)) ∈ listing)
      (hsafe : validateRemoteChildName name = .ok ()) : FileAt listing [name] content
  | deeper {listing inner : RemoteDirectory} {name : String} {path : List String} {content : Bytes}
      (hmem : (name, .directory inner) ∈ listing)
      (hsafe : validateRemoteChildName name = .ok ()) (h : FileAt inner path content) :
      FileAt listing (name :: path) content

section

variable {listing : RemoteDirectory} {dir path : List String} {content : Bytes}
  {e : String × RemoteNode}

end

def tooDeep : AnyError :=
  ⟨[⟨s!"目录嵌套超过 {MAX_DIRECTORY_DEPTH} 层，已中止（可能存在符号链接环）", none⟩]⟩

def tooLarge : AnyError := ⟨[⟨"目录总大小超过 8 GiB，已中止", none⟩]⟩

/-- A failure because of one of the limits. -/
def IsLimit (e : AnyError) : Prop := e = tooManyFiles ∨ e = tooDeep ∨ e = tooLarge

section

variable (download : DirectoryDownload) (done : DirectoryDownloaded)

/-- Nothing fails at an entry for other reasons. -/
def Serves : Visit → Prop
  | .directory path _ => download.openSftp path = .ok () ∧ download.readDir path = .ok () ∧
      download.closeSftp path = .ok () ∧ download.createDir path = .ok ()
  | .file path _ => download.transfer path = .ok ()
  | .skipped _ => True

/-- The bytes that are counted when a file has come. -/
def bytesWith (content : Bytes) : Nat := min (done.stats.bytes + content.length) (2 ^ 64 - 1)

/-- Nothing is in the way of an entry. -/
def Free : Visit → Prop
  | .directory path listing => Listable listing ∧
      ∀ content, done.tree.get? (download.place path) ≠ some (.file content)
  | .file path _ => done.tree.get? (download.place path) ≠ some .dir
  | .skipped _ => True

/-- An entry is within the limits. -/
def Fits : Visit → Prop
  | .directory path _ => path.length ≤ MAX_DIRECTORY_DEPTH
  | .file _ content => bytesWith done content ≤ MAX_DIRECTORY_BYTES
  | .skipped _ => True

/-- What there is when an entry has come. -/
def taken : Visit → DirectoryDownloaded
  | .directory path _ => { done with tree := done.tree.insert (download.place path) .dir }
  | .file path content =>
      ⟨done.tree.insert (download.place path) (.file content),
        { done.stats with files := done.stats.files + 1, bytes := bytesWith done content }⟩
  | .skipped _ => DirectoryDownload.skipEntry done

end

section

variable {download : DirectoryDownload} {done done' : DirectoryDownloaded} {path : List String}
  {listing : RemoteDirectory} {content : Bytes} {v : Visit} {e : AnyError}

theorem createDirAll_eq_ok {tree tree' : LocalTree} : createDirAll tree path = .ok tree' ↔
    (∀ content, tree.get? path ≠ some (.file content)) ∧ tree' = tree.insert path .dir := by
  rw [createDirAll]
  cases htree : tree.get? path with
  | none => simp [eq_comm]
  | some node =>
      cases node with
      | dir => simp [insert_get?_self htree, eq_comm]
      | file content => simp [io]

theorem downloadWithOptions_eq_ok {text : String} {tree tree' : LocalTree} :
    downloadWithOptions text tree path content
      (transferOptionsForDestination (tree.get? path).isSome) = .ok tree' ↔
      tree.get? path ≠ some .dir ∧ tree' = tree.insert path (.file content) := by
  cases htree : tree.get? path with
  | none =>
      have hatomic : downloadWithOptions text tree path content
          (transferOptionsForDestination (none : Option (Node Bytes)).isSome) =
          .ok (tree.insert path (.file content)) := by
        show (atomicDownloadFile false text tree path content).map Prod.fst = _
        rw [atomicDownloadFile, ensureAtomicDestinationAbsent, htree]
        rfl
      rw [hatomic]
      simp [eq_comm]
  | some node =>
      have hplain : downloadWithOptions text tree path content
          (transferOptionsForDestination (some node).isSome) =
          (plainDownloadFile false text tree path content).map Prod.fst := rfl
      rw [hplain, plainDownloadFile, htree, map_eq_ok]
      cases node with
      | dir => simp [io]
      | file old =>
          have hcompleted : Resume.completed [] content = content := rfl
          simp [resumeOffset, hcompleted, eq_comm]

theorem listDirectory_isOk :
    (∃ entries, download.listDirectory path listing = .ok entries) ↔
      download.readDir path = .ok () ∧ Listable listing := by
  have hforM : (listing.filter fun e ↦ e.1 ≠ "." ∧ e.1 ≠ "..").forM
      (fun e ↦ validateRemoteEntryName e.1) = .ok () ↔ Listable listing := by
    rw [forM_eq_ok]
    simp only [mem_filter, decide_eq_true_eq, and_imp, Listable]
  rw [← hforM]
  constructor
  · rintro ⟨entries, h⟩
    obtain ⟨_, hread, h⟩ := bind_eq_ok.mp h
    obtain ⟨_, hvalid, -⟩ := bind_eq_ok.mp h
    exact ⟨context_eq_ok.mp hread, hvalid⟩
  · rintro ⟨hread, hvalid⟩
    exact ⟨_, bind_eq_ok.mpr ⟨_, context_eq_ok.mpr hread,
      bind_eq_ok.mpr ⟨_, hvalid, rfl⟩⟩⟩

theorem listRemoteDirectory_isOk :
    (∃ entries, download.listRemoteDirectory path listing = .ok entries) ↔
      (download.openSftp path = .ok () ∧ download.readDir path = .ok () ∧
        download.closeSftp path = .ok ()) ∧ Listable listing := by
  constructor
  · rintro ⟨entries, h⟩
    obtain ⟨_, hopen, h⟩ := bind_eq_ok.mp h
    obtain ⟨listed, hlisted, h⟩ := bind_eq_ok.mp h
    obtain ⟨_, hclose, -⟩ := bind_eq_ok.mp h
    obtain ⟨hread, hlistable⟩ := listDirectory_isOk.mp ⟨listed, hlisted⟩
    exact ⟨⟨hopen, hread, hclose⟩, hlistable⟩
  · rintro ⟨⟨hopen, hread, hclose⟩, hlistable⟩
    obtain ⟨listed, hlisted⟩ := listDirectory_isOk.mpr ⟨hread, hlistable⟩
    exact ⟨listed, bind_eq_ok.mpr ⟨_, hopen, bind_eq_ok.mpr ⟨_, hlisted,
      bind_eq_ok.mpr ⟨_, hclose, rfl⟩⟩⟩⟩

theorem checkFiles_eq_ok :
    DirectoryDownload.checkFiles done = .ok () ↔ done.stats.files < MAX_DIRECTORY_FILES :=
  bailIf_eq_ok.trans Nat.not_le

theorem createLocalDirectory_eq_ok : download.createLocalDirectory done path = .ok done' ↔
    download.createDir path = .ok () ∧
      (∀ content, done.tree.get? (download.place path) ≠ some (.file content)) ∧
      done' = { done with tree := done.tree.insert (download.place path) .dir } := by
  rw [DirectoryDownload.createLocalDirectory, bind_eq_ok]
  simp only [context_eq_ok, check_bind_eq_ok, createDirAll_eq_ok]
  constructor
  · rintro ⟨tree, ⟨hcreate, hfree, rfl⟩, h⟩
    exact ⟨hcreate, hfree, (Except.ok.inj h).symm⟩
  · rintro ⟨hcreate, hfree, rfl⟩
    exact ⟨_, ⟨hcreate, hfree, rfl⟩, rfl⟩

theorem downloadEntry_eq_ok : download.downloadEntry done path content = .ok done' ↔
    download.transfer path = .ok () ∧ done.tree.get? (download.place path) ≠ some .dir ∧
      bytesWith done content ≤ MAX_DIRECTORY_BYTES ∧
      done' = taken download done (.file path content) := by
  rw [DirectoryDownload.downloadEntry, bind_eq_ok]
  simp only [context_eq_ok, check_bind_eq_ok, downloadWithOptions_eq_ok,
    bailIf_eq_ok, Nat.not_lt]
  constructor
  · rintro ⟨tree, ⟨htransfer, hfree, rfl⟩, hbytes, h⟩
    exact ⟨htransfer, hfree, hbytes, (Except.ok.inj h).symm⟩
  · rintro ⟨htransfer, hfree, hbytes, rfl⟩
    exact ⟨_, ⟨htransfer, hfree, rfl⟩, hbytes, rfl⟩

/-- An entry comes when nothing fails, nothing is in its way and it is within the limits. -/
theorem visit_eq_ok : download.visit done v = .ok done' ↔ done.stats.files < MAX_DIRECTORY_FILES ∧
    Serves download v ∧ Free download done v ∧ Fits done v ∧ done' = taken download done v := by
  cases v with
  | directory path listing =>
      rw [DirectoryDownload.visit, check_bind_eq_ok, checkFiles_eq_ok,
        check_bind_eq_ok, bailIf_eq_ok, Nat.not_lt, bind_eq_ok]
      refine and_congr_right fun _ ↦ ?_
      simp only [context_eq_ok, createLocalDirectory_eq_ok]
      rw [exists_and_right, listRemoteDirectory_isOk]
      constructor
      · rintro ⟨hshallow, ⟨⟨hopen, hread, hclose⟩, hlistable⟩, hcreate, hfree, rfl⟩
        exact ⟨⟨hopen, hread, hclose, hcreate⟩, ⟨hlistable, hfree⟩, hshallow, rfl⟩
      · rintro ⟨⟨hopen, hread, hclose, hcreate⟩, ⟨hlistable, hfree⟩, hshallow, rfl⟩
        exact ⟨hshallow, ⟨⟨hopen, hread, hclose⟩, hlistable⟩, hcreate, hfree, rfl⟩
  | file path content =>
      rw [DirectoryDownload.visit, check_bind_eq_ok, checkFiles_eq_ok, downloadEntry_eq_ok]
      rfl
  | skipped path =>
      rw [DirectoryDownload.visit, check_bind_eq_ok, checkFiles_eq_ok]
      simp [Serves, Free, Fits, taken, eq_comm]

/-! ### Failures -/

/-- The text of every limit begins in the same way. -/
theorem IsLimit.head?_text (h : IsLimit e) :
    ∃ text, e.chain = [⟨text, none⟩] ∧ text.toList.head? = some '目' := by
  rcases h with rfl | rfl | rfl
  · exact ⟨_, rfl, by decide⟩
  · exact ⟨_, rfl, by decide⟩
  · exact ⟨_, rfl, by decide⟩

/-- A failure of something else tells what was tried. -/
theorem not_isLimit_context {α : Type} {x : Result α} {text : String}
    (htext : text.toList.head? ≠ some '目') (h : x.context text = .error e) : ¬IsLimit e := by
  intro hlimit
  obtain ⟨other, hchain, hhead⟩ := hlimit.head?_text
  cases x with
  | ok a => cases h
  | error cause =>
      cases h
      obtain ⟨hcause, -⟩ := List.cons.inj hchain
      cases hcause
      exact htext hhead

theorem head?_toList_append {s t : String} (h : s.toList ≠ []) :
    (s ++ t).toList.head? = s.toList.head? := by
  rw [String.toList_append, List.head?_append_of_ne_nil _ h]

/-- What fails because of a limit is not within it. -/
theorem not_fits_of_isLimit (h : download.visit done v = .error e) (hlimit : IsLimit e)
    (hfew : done.stats.files < MAX_DIRECTORY_FILES) : ¬Fits done v := by
  intro hfits
  cases v with
  | directory path listing =>
      rw [DirectoryDownload.visit, checkFiles_of_lt hfew, bind_ok,
        bailIf_of_not (Nat.not_lt.mpr hfits), bind_ok] at h
      rcases bind_eq_error.mp h with hlist | ⟨_, -, hcreate⟩
      · refine not_isLimit_context ?_ hlist hlimit
        rw [head?_toList_append (by decide)]
        decide
      · rcases bind_eq_error.mp hcreate with hcreate | ⟨_, -, hpure⟩
        · refine not_isLimit_context ?_ hcreate hlimit
          rw [head?_toList_append (by decide)]
          decide
        · cases hpure
  | file path content =>
      rw [DirectoryDownload.visit, checkFiles_of_lt hfew, bind_ok,
        DirectoryDownload.downloadEntry] at h
      rcases bind_eq_error.mp h with htransfer | ⟨tree, -, hbytes⟩
      · refine not_isLimit_context ?_ htransfer hlimit
        rw [head?_toList_append, head?_toList_append (by decide)]
        · decide
        · rw [String.toList_append]
          exact append_ne_nil_of_left_ne_nil (by decide) _
      · replace hbytes : (bailIf (bytesWith done content > MAX_DIRECTORY_BYTES)
            "目录总大小超过 8 GiB，已中止" >>= fun _ ↦ pure _) = .error e := hbytes
        rw [bailIf_of_not (Nat.not_lt.mpr hfits)] at hbytes
        cases hbytes
  | skipped path =>
      rw [DirectoryDownload.visit, checkFiles_of_lt hfew] at h
      cases h

/-- An entry that is not within the limits fails because of one. -/
theorem isLimit_of_visit (h : download.visit done v = .error e) (hserves : Serves download v)
    (hfree : Free download done v) : IsLimit e := by
  rcases Nat.lt_or_ge done.stats.files MAX_DIRECTORY_FILES with hfew | hmany
  · by_cases hfits : Fits done v
    · rw [visit_eq_ok.mpr ⟨hfew, hserves, hfree, hfits, rfl⟩] at h
      cases h
    · cases v with
      | directory path listing =>
          rw [DirectoryDownload.visit, checkFiles_of_lt hfew, bind_ok, bailIf,
            if_pos (Nat.lt_of_not_le hfits)] at h
          cases h
          exact .inr (.inl rfl)
      | file path content =>
          have htree := check_bind_eq_ok.mpr
            ⟨hserves, (@downloadWithOptions_eq_ok _ content (download.localPath path) _ _).mpr
              ⟨hfree, rfl⟩⟩
          rw [DirectoryDownload.visit, checkFiles_of_lt hfew, bind_ok,
            DirectoryDownload.downloadEntry, htree, context, bind_ok] at h
          replace h : (bailIf (bytesWith done content > MAX_DIRECTORY_BYTES)
            "目录总大小超过 8 GiB，已中止" >>= fun _ ↦ pure _) = .error e := h
          rw [bailIf, if_pos (Nat.lt_of_not_le hfits)] at h
          cases h
          exact .inr (.inr rfl)
      | skipped path => exact absurd trivial hfits
  · rw [visit_of_le hmany] at h
    cases h
    exact .inl rfl

end

/-! ## Parts of a download -/

section

variable (download : DirectoryDownload) (present : Bool) (visits : List Visit)
  (done : DirectoryDownloaded)

/-- Where the files end in the local file system. -/
def places (identify : String → String) : List (List String) :=
  (files visits).map fun f ↦ f.1.map identify

/-- What there is when some entries have come. -/
structure Kept : Prop where
  stats : done.stats =
    ⟨(files visits).length, totalBytes visits, visits.countP Visit.isSkipped⟩
  bytes : totalBytes visits ≤ MAX_DIRECTORY_BYTES
  shallow : ∀ path ∈ directories visits, path.length ≤ MAX_DIRECTORY_DEPTH
  listable : ∀ path listing, .directory path listing ∈ visits → Listable listing
  directory : ∀ q, done.tree.get? q = some .dir ↔
    present = true ∧ q = [] ∨ ∃ path ∈ directories visits, download.place path = q
  file : ∀ q, (∃ content, done.tree.get? q = some (.file content)) ↔
    q ∈ places visits download.identify
  contents : (places visits download.identify).Nodup → ∀ f ∈ files visits,
    done.tree.get? (download.place f.1) = some (.file f.2)

end

section

variable {download : DirectoryDownload} {present : Bool} {visits visits' : List Visit}
  {done done' : DirectoryDownloaded} {v : Visit} {path : List String} {listing : RemoteDirectory}
  {content : Bytes}

theorem files_append : files (visits ++ visits') = files visits ++ files visits' :=
  filterMap_append

theorem directories_append :
    directories (visits ++ visits') = directories visits ++ directories visits' :=
  filterMap_append

theorem places_append : places (visits ++ visits') download.identify =
    places visits download.identify ++ places visits' download.identify := by
  rw [places, files_append, map_append, places, places]

theorem totalBytes_append :
    totalBytes (visits ++ visits') = totalBytes visits + totalBytes visits' := by
  rw [totalBytes, files_append, map_append, sum_append, totalBytes, totalBytes]

theorem kept_fresh : Kept download present [] (DirectoryDownload.fresh present) where
  stats := rfl
  bytes := Nat.zero_le _
  shallow := nofun
  listable := nofun
  directory q := by
    cases present with
    | false => exact iff_of_false nofun (by rintro (⟨h, -⟩ | ⟨path, hpath, -⟩) <;> contradiction)
    | true =>
        show (empty.insert [] .dir : LocalTree).get? q = some .dir ↔ _
        rw [get?_insert]
        by_cases hq : q = []
        · rw [if_pos hq]
          exact iff_of_true rfl (.inl ⟨rfl, hq⟩)
        · rw [if_neg hq]
          refine iff_of_false nofun ?_
          rintro (⟨-, h⟩ | ⟨path, hpath, -⟩)
          · exact hq h
          · cases hpath
  file q := by
    refine iff_of_false ?_ not_mem_nil
    rintro ⟨content, h⟩
    cases present with
    | false => cases h
    | true =>
        replace h : (empty.insert [] .dir : LocalTree).get? q = some (.file content) := h
        rw [get?_insert] at h
        split at h
        · cases h
        · cases h
  contents _ := nofun

theorem Kept.visit_directory (h : Kept download present visits done)
    (hv : download.visit done (.directory path listing) = .ok done') :
    Kept download present (visits ++ [.directory path listing]) done' := by
  obtain ⟨-, -, ⟨hlistable, hfree⟩, hfits, rfl⟩ := visit_eq_ok.mp hv
  have hfiles : files (visits ++ [.directory path listing]) = files visits := by
    rw [files_append]
    exact append_nil _
  have hbytes : totalBytes (visits ++ [.directory path listing]) = totalBytes visits := by
    rw [totalBytes, hfiles, totalBytes]
  have hplaces : places (visits ++ [.directory path listing]) download.identify =
      places visits download.identify := by rw [places, hfiles, places]
  have hplace : download.place path ∉ places visits download.identify := by
    intro hmem
    obtain ⟨content, hcontent⟩ := (h.file _).mpr hmem
    exact hfree content hcontent
  constructor
  · rw [taken, h.stats, hfiles, hbytes, countP_append]
    rfl
  · rw [hbytes]
    exact h.bytes
  · rw [directories_append]
    intro dir hdir
    rcases mem_append.mp hdir with hdir | hdir
    · exact h.shallow dir hdir
    · rw [mem_singleton.mp hdir]
      exact hfits
  · intro dir inner hmem
    rcases mem_append.mp hmem with hmem | hmem
    · exact h.listable dir inner hmem
    · cases mem_singleton.mp hmem
      exact hlistable
  · intro q
    rw [directories_append, taken, get?_insert]
    split
    case isTrue hq =>
      exact iff_of_true rfl (.inr ⟨path, mem_append_right _ mem_cons_self, hq.symm⟩)
    case isFalse hq =>
      rw [h.directory]
      refine or_congr_right ⟨?_, ?_⟩
      · rintro ⟨dir, hdir, heq⟩
        exact ⟨dir, mem_append_left _ hdir, heq⟩
      · rintro ⟨dir, hdir, heq⟩
        rcases mem_append.mp hdir with hdir | hdir
        · exact ⟨dir, hdir, heq⟩
        · rw [mem_singleton.mp hdir] at heq
          exact absurd heq.symm hq
  · intro q
    rw [hplaces, taken, get?_insert]
    split
    case isTrue hq =>
      refine iff_of_false ?_ (hq ▸ hplace)
      rintro ⟨content, hcontent⟩
      cases hcontent
    case isFalse => exact h.file q
  · intro hnodup f hf
    rw [hplaces] at hnodup
    rw [hfiles] at hf
    rw [taken, get?_insert_of_ne]
    · exact h.contents hnodup f hf
    · rintro heq
      exact hplace (heq ▸ mem_map_of_mem hf)

theorem Kept.visit_file (h : Kept download present visits done)
    (hv : download.visit done (.file path content) = .ok done') :
    Kept download present (visits ++ [.file path content]) done' := by
  obtain ⟨-, -, hfree, hfits, rfl⟩ := visit_eq_ok.mp hv
  have hfiles : files (visits ++ [.file path content]) = files visits ++ [(path, content)] :=
    files_append
  have hplaces : places (visits ++ [.file path content]) download.identify =
      places visits download.identify ++ [download.place path] := places_append
  have hdirectories : directories (visits ++ [.file path content]) = directories visits := by
    rw [directories_append]
    exact append_nil _
  have hbytes : totalBytes (visits ++ [.file path content]) =
      totalBytes visits + content.length := totalBytes_append
  have hfit : totalBytes visits + content.length ≤ MAX_DIRECTORY_BYTES ∧
      bytesWith done content = totalBytes visits + content.length := by
    replace hfits : bytesWith done content ≤ MAX_DIRECTORY_BYTES := hfits
    rw [bytesWith, h.stats] at hfits ⊢
    unfold MAX_DIRECTORY_BYTES at hfits ⊢
    dsimp only at hfits ⊢
    omega
  constructor
  · rw [taken, hfit.2, h.stats, hfiles, hbytes, countP_append, length_append]
    rfl
  · rw [hbytes]
    exact hfit.1
  · rw [hdirectories]
    exact h.shallow
  · intro dir inner hmem
    rcases mem_append.mp hmem with hmem | hmem
    · exact h.listable dir inner hmem
    · cases mem_singleton.mp hmem
  · intro q
    rw [hdirectories, taken, get?_insert]
    split
    case isTrue hq =>
      refine iff_of_false nofun fun hdir ↦ hfree ?_
      rw [← hq]
      exact (h.directory q).mpr hdir
    case isFalse => exact h.directory q
  · intro q
    rw [hplaces, taken, get?_insert, mem_append, mem_singleton]
    split
    case isTrue hq => exact iff_of_true ⟨content, rfl⟩ (.inr hq)
    case isFalse hq => rw [h.file, or_iff_left hq]
  · intro hnodup f hf
    rw [hplaces] at hnodup
    rw [hfiles] at hf
    obtain ⟨hfront, -, hdisjoint⟩ := nodup_append.mp hnodup
    rw [taken]
    rcases mem_append.mp hf with hf | hf
    · rw [get?_insert_of_ne]
      · exact h.contents hfront f hf
      · exact hdisjoint _ (mem_map_of_mem hf) _ mem_cons_self
    · rw [mem_singleton.mp hf]
      exact get?_insert_self ..

theorem Kept.visit_skipped (h : Kept download present visits done)
    (hv : download.visit done (.skipped path) = .ok done') :
    Kept download present (visits ++ [.skipped path]) done' := by
  obtain ⟨-, -, -, -, rfl⟩ := visit_eq_ok.mp hv
  have hfiles : files (visits ++ [.skipped path]) = files visits := by
    rw [files_append]
    exact append_nil _
  have hdirectories : directories (visits ++ [.skipped path]) = directories visits := by
    rw [directories_append]
    exact append_nil _
  have hbytes : totalBytes (visits ++ [.skipped path]) = totalBytes visits := by
    rw [totalBytes, hfiles, totalBytes]
  have hplaces : places (visits ++ [.skipped path]) download.identify =
      places visits download.identify := by
    rw [places, hfiles, places]
  constructor
  · rw [taken, DirectoryDownload.skipEntry, h.stats, hfiles, hbytes, countP_append]
    rfl
  · rw [hbytes]
    exact h.bytes
  · rw [hdirectories]
    exact h.shallow
  · intro dir inner hmem
    rcases mem_append.mp hmem with hmem | hmem
    · exact h.listable dir inner hmem
    · cases mem_singleton.mp hmem
  · rw [hdirectories]
    exact h.directory
  · rw [hplaces]
    exact h.file
  · rw [hplaces, hfiles]
    exact h.contents

/-- After every part of a download this is what there is. -/
theorem kept_of_foldlM
    (h : visits.foldlM download.visit (DirectoryDownload.fresh present) = .ok done) :
    Kept download present visits done := by
  induction visits using List.reverseRecOn generalizing done with
  | nil =>
      cases h
      exact kept_fresh
  | append_singleton visits v ih =>
      obtain ⟨before, hbefore, hv⟩ := foldlM_concat_eq_ok.mp h
      cases v with
      | directory path listing => exact (ih hbefore).visit_directory hv
      | file path content => exact (ih hbefore).visit_file hv
      | skipped path => exact (ih hbefore).visit_skipped hv

end

/-! ## The whole download -/

section

variable (identify : String → String) (visits : List Visit)

/-- What is visited is within all three limits. -/
def WithinLimits : Prop :=
  (files visits).length ≤ MAX_DIRECTORY_FILES ∧ totalBytes visits ≤ MAX_DIRECTORY_BYTES ∧
    ∀ path ∈ directories visits, path.length ≤ MAX_DIRECTORY_DEPTH

/-- A directory cannot be listed, or the local file system takes a directory and a file for one. -/
def Blocked : Prop :=
  (∃ path listing, .directory path listing ∈ visits ∧ ¬Listable listing) ∨
    ∃ path ∈ directories visits, path.map identify ∈ places visits identify

/-- What comes until a file and a directory are in the way of each other has files in different
places, and nothing comes behind the last file that is allowed. -/
def Regular : Prop :=
  WithinLimits visits → (Blocked identify visits ∨ (places visits identify).Nodup) ∧
    ∀ before v after, visits = before ++ v :: after →
      MAX_DIRECTORY_FILES ≤ (files before).length → Blocked identify before

def localFiles (tree : LocalTree) : List (List String × Node Bytes) :=
  tree.entries.filter fun e ↦ !DirTree.isDir e.2

end

/-- Every regular file has a local file of its own with its content, and the counts are right. -/
structure NothingLost (download : DirectoryDownload) (visits : List Visit)
    (done : DirectoryDownloaded) : Prop where
  own : (places visits download.identify).Nodup
  contents : ∀ f ∈ files visits, done.tree.get? (download.place f.1) = some (.file f.2)
  files : (localFiles done.tree).length = done.stats.files
  skipped : done.stats.skipped = visits.countP Visit.isSkipped

/-- A download into a fresh directory loses nothing, and its limits are exact. -/
structure Exact (download : DirectoryDownload) (present : Bool) (listing : RemoteDirectory) :
    Prop where
  nothingLost : ∀ done, download.downloadDirectoryRecursive [] listing
    (DirectoryDownload.fresh present) 0 = .ok done →
      NothingLost download (visitsBelow listing) done
  within : WithinLimits (visitsBelow listing) → ∀ e, download.downloadDirectoryRecursive [] listing
    (DirectoryDownload.fresh present) 0 = .error e → ¬IsLimit e
  exceeding : ¬WithinLimits (visitsBelow listing) → ∀ done,
    download.downloadDirectoryRecursive [] listing (DirectoryDownload.fresh present) 0 ≠ .ok done

section

variable {download : DirectoryDownload} {present : Bool} {visits before : List Visit}
  {done : DirectoryDownloaded} {e : AnyError} {listing : RemoteDirectory}

theorem download_eq : download.downloadDirectoryRecursive [] listing
    (DirectoryDownload.fresh present) 0 =
      (visitsBelow listing).foldlM download.visit (DirectoryDownload.fresh present) :=
  downloadDirectoryRecursive_eq rfl (Nat.zero_lt_succ _)

theorem Kept.withinLimits (h : Kept download present visits done)
    (hfiles : (files visits).length ≤ MAX_DIRECTORY_FILES) : WithinLimits visits :=
  ⟨hfiles, h.bytes, h.shallow⟩

theorem Kept.not_blocked (h : Kept download present visits done) :
    ¬Blocked download.identify visits := by
  rintro (⟨path, listing, hmem, hlist⟩ | ⟨path, hpath, hplace⟩)
  · exact hlist (h.listable path listing hmem)
  · obtain ⟨content, hfile⟩ := (h.file _).mpr hplace
    have hdirectory := (h.directory (path.map download.identify)).mpr (.inr ⟨path, hpath, rfl⟩)
    rw [hdirectory] at hfile
    cases hfile

/-- The files are the places that they end in. -/
theorem Kept.length_localFiles (h : Kept download present visits done)
    (hnodup : (places visits download.identify).Nodup) :
    (localFiles done.tree).length = (files visits).length := by
  have hkeys : ((localFiles done.tree).map Prod.fst).Nodup :=
    (keys_nodup done.tree).sublist (filter_sublist.map _)
  have hperm : ((localFiles done.tree).map Prod.fst).Perm (places visits download.identify) := by
    refine (perm_ext_iff_of_nodup hkeys hnodup).mpr fun q ↦ ?_
    rw [← h.file q, mem_map]
    constructor
    · rintro ⟨⟨q, n⟩, hmem, rfl⟩
      obtain ⟨hentry, hfile⟩ := mem_filter.mp hmem
      cases n with
      | dir => cases hfile
      | file content => exact ⟨content, get?_eq_some_iff.mpr hentry⟩
    · rintro ⟨content, hget⟩
      exact ⟨(q, .file content), mem_filter.mpr ⟨get?_eq_some_iff.mp hget, rfl⟩, rfl⟩
  have hlength := hperm.length_eq
  rwa [length_map, places, length_map] at hlength

theorem blocked_append {identify : String → String} {after : List Visit}
    (h : Blocked identify before) : Blocked identify (before ++ after) := by
  refine h.imp ?_ ?_
  · rintro ⟨path, listing, hmem, hlist⟩
    exact ⟨path, listing, mem_append_left _ hmem, hlist⟩
  · rintro ⟨path, hpath, hplace⟩
    refine ⟨path, ?_, ?_⟩
    · rw [directories_append]
      exact mem_append_left _ hpath
    · rw [places, files_append, map_append]
      exact mem_append_left _ hplace

/-- What comes is not in the way when nothing is blocked. -/
theorem Kept.free (h : Kept download present before done) {v : Visit}
    (hroot : [] ∈ directories before ∨ v.file? = none)
    (hfree : ¬Blocked download.identify (before ++ [v])) : Free download done v := by
  cases v with
  | directory path listing =>
      constructor
      · by_contra hlist
        exact hfree (.inl ⟨path, listing, mem_append_right _ mem_cons_self, hlist⟩)
      · intro content hcontent
        refine hfree (.inr ⟨path, ?_, ?_⟩)
        · rw [directories_append]
          exact mem_append_right _ mem_cons_self
        · rw [places_append]
          exact mem_append_left _ ((h.file _).mp ⟨content, hcontent⟩)
  | file path content =>
      intro hdir
      have hplace : path.map download.identify ∈
          places (before ++ [.file path content]) download.identify := by
        rw [places_append]
        exact mem_append_right _ mem_cons_self
      obtain ⟨dir, hdir, heq⟩ : ∃ dir ∈ directories before,
          dir.map download.identify = path.map download.identify := by
        rcases (h.directory _).mp hdir with ⟨-, hnil⟩ | hdir
        · exact ⟨[], hroot.resolve_right nofun, hnil.symm⟩
        · exact hdir
      refine hfree (.inr ⟨dir, ?_, heq ▸ hplace⟩)
      rw [directories_append]
      exact mem_append_left _ hdir
  | skipped path => trivial

/-- Not more files come than are allowed. -/
theorem length_files_le
    (h : visits.foldlM download.visit (DirectoryDownload.fresh present) = .ok done) :
    (files visits).length ≤ MAX_DIRECTORY_FILES := by
  rcases visits.eq_nil_or_concat' with rfl | ⟨front, v, rfl⟩
  · exact Nat.zero_le _
  · obtain ⟨mid, hfront, hv⟩ := foldlM_concat_eq_ok.mp h
    have hfew := (visit_eq_ok.mp hv).1
    rw [(kept_of_foldlM hfront).stats] at hfew
    have hone : (files [v]).length ≤ 1 := length_filterMap_le _ _
    rw [files_append, length_append]
    exact (Nat.add_le_add_left hone _).trans hfew

/-- What a download stops at when nothing is blocked is a limit. -/
theorem isLimit_of_error {rest : List Visit} (hquiet : ∀ v, Serves download v)
    (h : (.directory [] listing :: rest).foldlM download.visit (DirectoryDownload.fresh present) =
      .error e) (hfree : ¬Blocked download.identify (.directory [] listing :: rest)) :
    IsLimit e := by
  obtain ⟨before, v, after, mid, heq, hbefore, hv⟩ := foldlM_eq_error.mp h
  refine isLimit_of_visit hv (hquiet v) ((kept_of_foldlM hbefore).free ?_ fun hblocked ↦ hfree ?_)
  · cases before with
    | nil =>
        cases heq
        exact .inr rfl
    | cons first before =>
        cases heq
        exact .inl mem_cons_self
  · rw [heq, append_cons]
    exact blocked_append hblocked

theorem visitsBelow_eq : ∃ rest, visitsBelow listing = .directory [] listing :: rest :=
  ⟨_, visits_directory⟩

/-- An entry of a tree within the limits is so where it comes. -/
theorem Kept.fits (h : Kept download present before done) {v : Visit} {after : List Visit}
    (hwithin : WithinLimits (before ++ v :: after)) : Fits done v := by
  obtain ⟨-, hbytes, hshallow⟩ := hwithin
  cases v with
  | directory path listing =>
      refine hshallow path ?_
      rw [directories_append]
      exact mem_append_right _ mem_cons_self
  | file path content =>
      have hsum : totalBytes (before ++ .file path content :: after) =
          totalBytes before + (content.length + totalBytes after) := totalBytes_append
      rw [hsum] at hbytes
      show min _ _ ≤ _
      rw [h.stats]
      dsimp only
      omega
  | skipped path => trivial

theorem exact_of_regular (h : Regular download.identify (visitsBelow listing)) :
    Exact download present listing := by
  constructor
  · intro done hdone
    rw [download_eq] at hdone
    have hkept := kept_of_foldlM hdone
    have hnodup := (h (hkept.withinLimits (length_files_le hdone))).1.resolve_left hkept.not_blocked
    refine ⟨hnodup, hkept.contents hnodup, ?_, ?_⟩
    · rw [hkept.length_localFiles hnodup, hkept.stats]
    · rw [hkept.stats]
  · intro hwithin e herror hlimit
    rw [download_eq] at herror
    obtain ⟨before, v, after, mid, heq, hbefore, hv⟩ := foldlM_eq_error.mp herror
    have hkept := kept_of_foldlM hbefore
    rcases Nat.lt_or_ge mid.stats.files MAX_DIRECTORY_FILES with hfew | hmany
    · exact not_fits_of_isLimit hv hlimit hfew (hkept.fits (heq ▸ hwithin))
    · rw [hkept.stats] at hmany
      exact hkept.not_blocked ((h hwithin).2 before v after heq hmany)
  · intro hexceeding done hdone
    rw [download_eq] at hdone
    exact hexceeding ((kept_of_foldlM hdone).withinLimits (length_files_le hdone))

/-- A download in which nothing fails for reasons of its own. -/
def quiet (identify : String → String) : DirectoryDownload where
  remoteRoot := "/"
  localRoot := "/"
  identify := identify
  openSftp _ := .ok ()
  readDir _ := .ok ()
  closeSftp _ := .ok ()
  createDir _ := .ok ()
  transfer _ := .ok ()

theorem serves_quiet (identify : String → String) (v : Visit) : Serves (quiet identify) v := by
  cases v with
  | directory path listing => exact ⟨rfl, rfl, rfl, rfl⟩
  | file path content => exact rfl
  | skipped path => trivial

theorem regular_of_exact {identify : String → String}
    (h : Exact (quiet identify) present listing) : Regular identify (visitsBelow listing) := by
  intro hwithin
  obtain ⟨rest, hroot⟩ := @visitsBelow_eq listing
  have hnotLimit : ∀ e, (visitsBelow listing).foldlM (quiet identify).visit
      (DirectoryDownload.fresh present) = .error e → ¬IsLimit e := by
    intro e herror
    rw [← download_eq] at herror
    exact h.within hwithin e herror
  constructor
  · by_contra hcontra
    rw [not_or] at hcontra
    obtain ⟨hfree, hnodup⟩ := hcontra
    cases hrun : (visitsBelow listing).foldlM (quiet identify).visit
        (DirectoryDownload.fresh present) with
    | ok done => exact hnodup (h.nothingLost done (download_eq.trans hrun)).own
    | error e =>
        refine hnotLimit e hrun ?_
        rw [hroot] at hrun hfree
        exact isLimit_of_error (serves_quiet identify) hrun hfree
  · intro before v after heq hmany
    by_contra hfree
    cases hrun : before.foldlM (quiet identify).visit (DirectoryDownload.fresh present) with
    | ok mid =>
        have hv : (quiet identify).visit mid v = .error tooManyFiles := by
          refine visit_of_le ?_
          rw [(kept_of_foldlM hrun).stats]
          exact hmany
        exact hnotLimit _ (foldlM_eq_error.mpr ⟨before, v, after, mid, heq, hrun, hv⟩)
          (.inl rfl)
    | error e =>
        have hwhole : (visitsBelow listing).foldlM (quiet identify).visit
            (DirectoryDownload.fresh present) = .error e := by
          rw [heq, foldlM_append, hrun]
          rfl
        refine hnotLimit e hwhole ?_
        cases before with
        | nil => cases hrun
        | cons first others =>
            obtain rfl : first = .directory [] listing := by
              rw [hroot] at heq
              exact (List.cons.inj heq).1.symm
            exact isLimit_of_error (serves_quiet identify) hrun hfree

end

/-- When a download into a fresh directory loses nothing and its limits are exact. -/
theorem directoryDownload_exact_iff (identify : String → String) (present : Bool)
    (listing : RemoteDirectory) :
    (∀ download : DirectoryDownload, download.identify = identify →
      Exact download present listing) ↔ Regular identify (visitsBelow listing) :=
  ⟨fun h ↦ regular_of_exact (h (quiet identify) rfl),
    fun h _ heq ↦ exact_of_regular (heq ▸ h)⟩

/-! ## Names that differ in case -/

def lowercase (name : String) : String := String.ofList (name.toList.map Char.toLower)

def caseListing : RemoteDirectory := [("A", .leaf (.regular [1])), ("a", .leaf (.regular [2]))]

theorem visitsBelow_caseListing : visitsBelow caseListing =
    [.directory [] caseListing, .file ["A"] [1], .file ["a"] [2]] := by
  rfl

/-- One of two files is lost. -/
theorem caseListing_not_exact : ¬∀ download : DirectoryDownload, download.identify = lowercase →
    Exact download false caseListing := by
  intro h
  have hregular := regular_of_exact (h (quiet lowercase) rfl)
  rw [visitsBelow_caseListing] at hregular
  have hwithin : WithinLimits [.directory [] caseListing, .file ["A"] [1], .file ["a"] [2]] :=
    ⟨by decide, by decide, by decide⟩
  rcases (hregular hwithin).1 with
    (⟨path, listing, hmem, hlist⟩ | ⟨path, hpath, hplace⟩) | hnodup
  · obtain ⟨-, rfl⟩ : path = [] ∧ listing = caseListing := by simpa using hmem
    refine hlist fun e he _ ↦ ?_
    have hall : ∀ name ∈ caseListing.map Prod.fst, validateRemoteEntryName name = .ok () := by
      decide
    exact hall e.1 (mem_map_of_mem he)
  · obtain rfl : path = [] := mem_singleton.mp hpath
    exact absurd hplace (by decide)
  · exact absurd hnodup (by decide)

end KaduoxSsh.Desktop
