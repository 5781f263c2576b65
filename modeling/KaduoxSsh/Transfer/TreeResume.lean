import KaduoxSsh.Transfer.DeletePlan
import KaduoxSsh.Transfer.Interleaved

/-!
# Trees that are transferred with `resume`

`upload_tree` of `transfer_policy.rs` and `download_tree` of
`transfer_download_policy.rs`, as far as the files are concerned: the transfers of the
files of a tree run at the same time. The staging file of a file lies beside it under a
name that another file may have. Where none has, each file is transferred as if it were
alone. A staging file that is there already is taken for the beginning of its source
when it is not longer.

The walk that starts the transfers decides only when they begin. It also makes the
directories, which are left out: a directory under the name of a staging file is refused
by the transfer of that file, which is broken off then. Paths are lists of names below
the roots, and names are compared as they are.
-/

namespace KaduoxSsh.Transfer

open Resume FileTransfer List

/-! ## The files of a tree -/

abbrev SourceTree := DirTree String (Leaf SourceFile)

/-- A file that the scanners find in a tree. -/
structure TreeFile (tree : SourceTree) where
  path : List String
  source : SourceFile
  held : tree.get? path = some (.file (.regular source))
deriving DecidableEq

def stagingName (name : String) : String := name ++ ".kaduox.part"

/-- `stable_remote_staging_path` and `stable_local_staging_path`. -/
def stagingPath : List String → List String
  | [] => []
  | [name] => [stagingName name]
  | dir :: next :: rest => dir :: stagingPath (next :: rest)

variable {tree : SourceTree} {direction : TransferDirection} {dir path : List String}
  {name : String} {t : Files (List String)}

def TreeFile.transfer (direction : TransferDirection) (file : TreeFile tree) :
    FileTransfer (List String) where
  direction := direction
  path := file.path
  work := stagingPath file.path
  source := file.source.bytes
  mtime := file.source.mtime
  mode := file.source.sentMode direction

theorem stagingName_injective : Function.Injective stagingName := by
  intro a b h
  have hlist := congrArg String.toList h
  rw [stagingName, stagingName, String.toList_append, String.toList_append] at hlist
  exact String.toList_inj.mp (append_cancel_right hlist)

theorem stagingName_ne (name : String) : stagingName name ≠ name := by
  intro h
  have hlist := congrArg String.toList h
  rw [stagingName, String.toList_append] at hlist
  exact absurd (append_right_eq_self.mp hlist) (by decide)

theorem stagingPath_concat : stagingPath (dir ++ [name]) = dir ++ [stagingName name] := by
  induction dir with
  | nil => rfl
  | cons first rest ih =>
      cases rest with
      | nil => rfl
      | cons next rest => exact congrArg (first :: ·) ih

/-- A file of a tree has a name. -/
theorem TreeFile.exists_name (h : tree.WellFormed) (file : TreeFile tree) :
    ∃ dir name, file.path = dir ++ [name] := by
  rcases eq_nil_or_concat file.path with hnil | ⟨dir, name, hpath⟩
  · have hheld := file.held
    rw [hnil, h.root] at hheld
    cases hheld
  · exact ⟨dir, name, by rw [hpath, concat_eq_append]⟩

/-- A recursive transfer with `resume`, as it is meant, to a place where something may stand. -/
structure CopiesEveryFile (direction : TransferDirection) (tree : SourceTree)
    (t : Files (List String)) : Prop where
  apart : ∀ a b : TreeFile tree, a ≠ b →
    stagingPath a.path ≠ b.path ∧ stagingPath a.path ≠ stagingPath b.path
  copies : ∀ (o : TransferOptions) (s : Interleaved (TreeFile tree) (List String)),
    o.atomic = true → o.resume = true →
    Reaches (Interleaved.step o (TreeFile.transfer direction)) (fun _ _ ↦ True)
      (Interleaved.start t) s →
    (∀ file, s.phase file = .done) →
    ∀ file : TreeFile tree, bytesAt s.files file.path = some file.source.bytes

/-- Something stands at the place of a file, or a staging file that it does not resume. -/
def Refused (direction : TransferDirection) (t : Files (List String)) (file : TreeFile tree) : Prop :=
  t.get? file.path ≠ none ∨ (file.transfer direction).Unfit (t.get? (stagingPath file.path))

/-- A path of a tree is that of a file. -/
def HoldsFile (tree : SourceTree) (path : List String) : Prop :=
  ∃ source, tree.get? path = some (.file (.regular source))

/-- No directory holds a file and another one under the name of its staging file. -/
def NamesApart (tree : SourceTree) : Prop :=
  ∀ dir name, HoldsFile tree (dir ++ [name]) → ¬HoldsFile tree (dir ++ [stagingName name])

theorem TreeFile.ext_path {a b : TreeFile tree} (h : a.path = b.path) : a = b := by
  obtain ⟨path, source, held⟩ := a
  obtain ⟨path', source', held'⟩ := b
  cases h
  rw [held] at held'
  cases held'
  rfl

theorem NamesApart.apart (h : tree.WellFormed) (hnames : NamesApart tree) {a b : TreeFile tree}
    (hab : a ≠ b) : stagingPath a.path ≠ b.path ∧ stagingPath a.path ≠ stagingPath b.path := by
  obtain ⟨dir, name, ha⟩ := a.exists_name h
  obtain ⟨dir', name', hb⟩ := b.exists_name h
  rw [ha, hb, stagingPath_concat, stagingPath_concat]
  constructor
  · intro heq
    refine hnames dir name ⟨a.source, ha ▸ a.held⟩ ⟨b.source, ?_⟩
    rw [heq, ← hb]
    exact b.held
  · intro heq
    obtain ⟨rfl, hlast⟩ := append_inj' heq rfl
    have hname := stagingName_injective (singleton_injective hlast)
    exact hab (TreeFile.ext_path (by rw [ha, hb, hname]))

theorem NamesApart.disjoint (h : tree.WellFormed) (hnames : NamesApart tree) {o : TransferOptions}
    (hatomic : o.atomic = true) : Interleaved.Disjoint o (@TreeFile.transfer tree direction) where
  wellPlaced a _ := by
    obtain ⟨dir, name, ha⟩ := a.exists_name h
    show stagingPath a.path ≠ a.path
    rw [ha, stagingPath_concat]
    exact fun heq ↦ stagingName_ne name (singleton_injective (append_cancel_left heq))
  path _ _ hab heq := hab (TreeFile.ext_path heq)
  target _ _ hab := by
    rw [target, target, if_pos hatomic, if_pos hatomic]
    exact hnames.apart h hab

theorem HoldsFile.mem_keys (h : HoldsFile tree path) : path ∈ tree.keys := by
  obtain ⟨source, hheld⟩ := h
  rw [SortedMap.mem_keys, SortedMap.contains, hheld]
  rfl

theorem TreeFile.mem_keys (file : TreeFile tree) : file.path ∈ tree.keys :=
  HoldsFile.mem_keys ⟨file.source, file.held⟩

/-- The files of a tree are finitely many. -/
theorem exists_files (tree : SourceTree) : ∃ all : List (TreeFile tree), ∀ file, file ∈ all := by
  have hkeys : ∀ keys : List (List String), ∃ all : List (TreeFile tree),
      ∀ file : TreeFile tree, file.path ∈ keys → file ∈ all := by
    intro keys
    induction keys with
    | nil => exact ⟨[], fun file hmem ↦ absurd hmem not_mem_nil⟩
    | cons path rest ih =>
        obtain ⟨all, hall⟩ := ih
        by_cases hheld : ∃ file : TreeFile tree, file.path = path
        · obtain ⟨first, hfirst⟩ := hheld
          refine ⟨first :: all, fun file hmem ↦ ?_⟩
          rcases mem_cons.mp hmem with hpath | hmem
          · exact mem_cons.mpr (.inl (TreeFile.ext_path (hpath.trans hfirst.symm)))
          · exact mem_cons_of_mem _ (hall file hmem)
        · refine ⟨all, fun file hmem ↦ hall file ?_⟩
          exact (mem_cons.mp hmem).resolve_left fun hpath ↦ hheld ⟨file, hpath⟩
  obtain ⟨all, hall⟩ := hkeys tree.keys
  exact ⟨all, fun file ↦ hall file file.mem_keys⟩

/-- Where the staging names are apart and no file is refused, the transfer can end well. -/
theorem NamesApart.exists_done (h : tree.WellFormed) (hnames : NamesApart tree)
    (hfree : ∀ file : TreeFile tree, ¬Refused direction t file) :
    ∃ s : Interleaved (TreeFile tree) (List String),
      Reaches (Interleaved.step resuming (TreeFile.transfer direction)) (fun _ _ ↦ True)
        (Interleaved.start t) s ∧
      ∀ file, s.phase file = .done := by
  obtain ⟨all, hall⟩ := exists_files tree
  obtain ⟨s, hreach, hdone⟩ := Interleaved.exists_done (o := resuming) rfl rfl (by decide)
    (hnames.disjoint h rfl) (fun file ↦ (not_or.mp (hfree file)).imp_left not_not.mp) all
  exact ⟨s, hreach, fun file ↦ (hdone file).trans (if_pos (hall file))⟩

/-- What stands at the destination of a file in the end. -/
theorem NamesApart.bytes_of_done (h : tree.WellFormed) (hnames : NamesApart tree)
    {o : TransferOptions} {s : Interleaved (TreeFile tree) (List String)}
    (hatomic : o.atomic = true)
    (hreach : Reaches (Interleaved.step o (TreeFile.transfer direction)) (fun _ _ ↦ True) (Interleaved.start t) s)
    (file : TreeFile tree) (hdone : s.phase file = .done) :
    bytesAt s.files file.path = some (completed
      ((file.transfer direction).kept o (t.get? (stagingPath file.path))) file.source.bytes) := by
  have hbytes := Interleaved.bytes_of_done (hnames.disjoint h hatomic) hreach hdone
  rw [target, if_pos hatomic] at hbytes
  exact hbytes
/-- A recursive atomic transfer with `resume` copies every file of a tree if and only if no directory
holds a file under the name of another one's staging file, and each staging file that is resumed is a
beginning of its source, or else some file is refused. -/
theorem copiesEveryFile_iff (h : tree.WellFormed) :
    CopiesEveryFile direction tree t ↔ NamesApart tree ∧
      ((∃ file : TreeFile tree, Refused direction t file) ∨
        ∀ file : TreeFile tree, Harmless file.source.bytes (t.get? (stagingPath file.path))) := by
  constructor
  · intro hcopies
    have hnames : NamesApart tree := by
      rintro dir name ⟨source, hheld⟩ ⟨source', hheld'⟩
      have hne : (⟨_, source, hheld⟩ : TreeFile tree) ≠ ⟨_, source', hheld'⟩ := by
        intro heq
        have hname := append_cancel_left (congrArg TreeFile.path heq)
        exact stagingName_ne name (singleton_injective hname).symm
      exact (hcopies.apart _ _ hne).1 stagingPath_concat
    refine ⟨hnames, or_iff_not_imp_left.mpr fun hfree file ↦ ?_⟩
    have hfree : ∀ file : TreeFile tree, ¬Refused direction t file := not_exists.mp hfree
    obtain ⟨s, hreach, hdone⟩ := hnames.exists_done h hfree
    have hbytes := hnames.bytes_of_done h rfl hreach file (hdone file)
    rw [hcopies.copies resuming s rfl rfl hreach hdone file, Option.some.injEq, eq_comm,
      completed_eq_iff] at hbytes
    exact (kept_prefix_iff (show resuming.resume = true from rfl)).mp hbytes
  · rintro ⟨hnames, hplace⟩
    refine ⟨fun a b hab ↦ hnames.apart h hab, fun o s hatomic hresume hreach hdone file ↦ ?_⟩
    rcases hplace with ⟨refused, hrefused⟩ | hharmless
    · have hbegun := Interleaved.begun_of_reaches hatomic (hnames.disjoint h hatomic) hreach
      have hfree := hbegun.free refused (by rw [hdone]; exact FilePhase.noConfusion)
      exact absurd hrefused (not_or.mpr ⟨not_not.mpr hfree.1, hfree.2⟩)
    · have hkept : (file.transfer direction).kept o (t.get? (stagingPath file.path)) <+:
          file.source.bytes :=
        (kept_prefix_iff hresume).mpr (hharmless file)
      rw [hnames.bytes_of_done h hatomic hreach file (hdone file), completed_eq_iff.mpr hkept]

theorem NamesApart.of_keys (h : ∀ path ∈ tree.keys, stagingPath path ∉ tree.keys) :
    NamesApart tree := by
  intro dir name hfile hstaging
  refine h _ hfile.mem_keys ?_
  rw [stagingPath_concat]
  exact hstaging.mem_keys

/-- A directory with a file and a copy of it. -/
def copyTree : SourceTree :=
  SortedMap.empty.insert ["x"] (.file (.regular ⟨[97, 98], none, none⟩))
    |>.insert ["x.bak"] (.file (.regular ⟨[97, 98], none, none⟩))

/-- What an attempt that was broken off has left of the first file. -/
def copyTreeLeft : Files (List String) :=
  .insert .empty ["x.kaduox.part"] ⟨.regular [97], none, none⟩

theorem copiesEveryFile_copyTree : CopiesEveryFile .download copyTree copyTreeLeft := by
  have hwellFormed : copyTree.WellFormed := DirTree.WellFormed.of_entries (by decide)
  refine (copiesEveryFile_iff hwellFormed).mpr ⟨.of_keys (by decide), .inr fun file ↦ ?_⟩
  have hmem := file.mem_keys
  have hkeys : copyTree.keys = [["x"], ["x.bak"]] := by decide
  rw [hkeys] at hmem
  obtain ⟨path, source, hheld⟩ := file
  rcases mem_cons.mp hmem with rfl | hmem
  · cases hheld
    rintro bytes hbytes -
    cases hbytes
    decide
  · cases mem_singleton.mp hmem
    rintro bytes hbytes -
    cases hbytes

/-- A directory with a file and another one under the name of its staging file. -/
def clashingTree : SourceTree :=
  SortedMap.empty.insert ["x"] (.file (.regular ⟨[97, 98], none, none⟩))
    |>.insert ["x.kaduox.part"] (.file (.regular ⟨[122], none, none⟩))

/-- The second file is transferred first, and the first one then takes it for its own beginning. -/
theorem clashingTree_merged :
    ∃ s, Reaches (Interleaved.step { TransferOptions.default with resume := true }
        (@TreeFile.transfer clashingTree .upload)) (fun _ _ ↦ True)
        (Interleaved.start .empty) s ∧
      (∀ file, s.phase file = .done) ∧ bytesAt s.files ["x"] = some [122, 98] ∧
      s.files.get? ["x.kaduox.part"] = none := by
  let first : TreeFile clashingTree := ⟨["x"], ⟨[97, 98], none, none⟩, by decide⟩
  let second : TreeFile clashingTree := ⟨["x.kaduox.part"], ⟨[122], none, none⟩, by decide⟩
  let events : List (TreeFile clashingTree × FileRequest) :=
    [(second, .inspect), (second, .create none none), (second, .send 1), (second, .write none),
      (second, .close), (second, .publish), (second, .stamp), (first, .inspect),
      (first, .create none none), (first, .send 1), (first, .write none), (first, .close),
      (first, .publish), (first, .stamp)]
  have hfiles : ∀ file : TreeFile clashingTree, file = first ∨ file = second := by
    intro file
    have hmem := file.mem_keys
    have hkeys : clashingTree.keys = [first.path, second.path] := by decide
    rw [hkeys] at hmem
    rcases mem_cons.mp hmem with hpath | hpath
    · exact .inl (TreeFile.ext_path hpath)
    · exact .inr (TreeFile.ext_path (mem_singleton.mp hpath))
  obtain ⟨s, hrun, hfirst, hsecond, hbytes, hgone⟩ : ∃ s,
      runEvents (Interleaved.step { TransferOptions.default with resume := true }
        (TreeFile.transfer .upload)) (Interleaved.start .empty) events = some s ∧
      s.phase first = .done ∧ s.phase second = .done ∧ bytesAt s.files ["x"] = some [122, 98] ∧
      s.files.get? ["x.kaduox.part"] = none := ⟨_, rfl, rfl, rfl, rfl, rfl⟩
  refine ⟨s, Reaches.start.runEvents events hrun, fun file ↦ ?_, hbytes, hgone⟩
  rcases hfiles file with rfl | rfl
  · exact hfirst
  · exact hsecond

end KaduoxSsh.Transfer
