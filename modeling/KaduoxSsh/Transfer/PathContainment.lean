import KaduoxSsh.Transfer.RemotePath

/-!
# Names that a server chooses stay below the roots that the user chose

The other half of `remote_path.rs`: a checked path is read as a path of this
machine, component by component, and a tree is walked by joining one checked name
after the other. On either side the result is the root, followed by the names.

Paths of this machine are lists of components, as `std::path` reads them, on Unix
and on Windows.
-/

namespace KaduoxSsh.Transfer

open Text Result List

/-! ## Remote paths -/

/-- What a path holds between its slashes. -/
def splitPath (path : String) : List String :=
  (path.toList.splitOn '/').map String.ofList

/-- The components of a path that count. -/
def remoteComponents (path : String) : List String :=
  (splitPath path).filter fun component ↦ component ≠ "" ∧ component ≠ "."

def isAbsolute (path : String) : Bool := decide (path.toList.head? = some '/')

/-- `join_relative`. -/
def joinRelative (parent child : String) : String :=
  if parent = "" then child else parent ++ "/" ++ child

/-! ## Paths of this machine -/

inductive Platform where
  | unix
  | windows
deriving DecidableEq, Repr

/-- `std::path::Component`. A volume is a drive such as `C:`. -/
inductive Component where
  | volume (text : String)
  | rootDir
  | curDir
  | parentDir
  | normal (name : String)
deriving DecidableEq, Repr

abbrev LocalPath := List Component

namespace Platform

def isSeparator : Platform → Char → Bool
  | .unix, c => c = '/'
  | .windows, c => c = '/' ∨ c = '\\'

/-- The drive that a path starts with. Volumes that start with separators are of no
concern: only names that hold none are read. -/
def takeVolume : Platform → List Char → Option String × List Char
  | .windows, letter :: ':' :: rest =>
      if letter.isAlpha then (some (String.ofList [letter, ':']), rest)
      else (none, letter :: ':' :: rest)
  | _, path => (none, path)

/-- What stands between two separators. Only a leading dot counts. -/
def piece (leading : Bool) (text : List Char) : Option Component :=
  if text = [] then none
  else if text = ['.'] then if leading then some .curDir else none
  else if text = ['.', '.'] then some .parentDir
  else some (.normal (String.ofList text))

/-- `Path::components`. -/
def components (platform : Platform) (path : String) : LocalPath :=
  let (volume, rest) := platform.takeVolume path.toList
  let rooted := rest.head?.any platform.isSeparator
  let pieces := rest.splitOnP platform.isSeparator
  volume.toList.map .volume ++ (if rooted then [.rootDir] else []) ++
    (pieces.head?.bind (piece !rooted)).toList ++ pieces.tail.filterMap (piece false)

end Platform

/-- `Path::join`: a path with a volume or a root replaces what it is joined to. -/
def LocalPath.join (path other : LocalPath) : LocalPath :=
  match other with
  | .volume _ :: _ | .rootDir :: _ => other
  | _ => path ++ other

/-- One round of the loop in `local_path_from_remote_relative`. -/
def pushLocalComponent (platform : Platform) (path : LocalPath) (component : String) :
    Result LocalPath :=
  match platform.components component with
  | [.normal name] => .ok (path.join [.normal name])
  | _ => bail
      s!"sync path component is not a normal local filename on this platform: {debug component}"

/-- `local_path_from_remote_relative`. -/
def localPathFromRemoteRelative (platform : Platform) (relative : String) : Result LocalPath := do
  validateRemoteRelativePath relative
  (splitPath relative).foldlM (pushLocalComponent platform) []

/-! ## Checked names -/

/-- A name that is one component on every side. -/
structure PlainName (name : String) : Prop where
  nonempty : name ≠ ""
  not_dot : name ≠ "."
  not_dotdot : name ≠ ".."
  single : ∀ c ∈ name.toList, c ≠ '/' ∧ c ≠ '\\' ∧ c ≠ ':' ∧ isControl c = false

variable {name relative path root : String} {names : List String} {platform : Platform}

theorem plainName_of_valid (h : validateRemoteChildName name = .ok ()) : PlainName name := by
  unfold validateRemoteChildName at h
  simp only [ite_bail_eq_ok] at h
  obtain ⟨hempty, hdot, hseparator, hcontrol, hcolon, -⟩ := h
  refine ⟨hempty, fun h ↦ hdot (.inl h), fun h ↦ hdot (.inr h), fun c hc ↦ ⟨?_, ?_, ?_, ?_⟩⟩
  · rintro rfl
    exact hseparator (.inl hc)
  · rintro rfl
    exact hseparator (.inr hc)
  · rintro rfl
    exact hcolon hc
  · rw [← Bool.not_eq_true]
    exact fun h ↦ hcontrol (any_eq_true.mpr ⟨c, hc, h⟩)

/-- A name that is one component of a path. -/
def SingleName (name : String) : Prop := name ≠ "" ∧ '/' ∉ name.toList

theorem SingleName.splitPath (h : SingleName name) : splitPath name = [name] := by
  rw [Transfer.splitPath, splitOn_eq_singleton h.2, map_singleton, String.ofList_toList]

theorem PlainName.singleName (h : PlainName name) : SingleName name :=
  ⟨h.nonempty, fun hmem ↦ (h.single _ hmem).1 rfl⟩

theorem PlainName.splitPath (h : PlainName name) : splitPath name = [name] :=
  h.singleName.splitPath

theorem PlainName.isSeparator (h : PlainName name) {c : Char} (hc : c ∈ name.toList) :
    platform.isSeparator c = false := by
  obtain ⟨hslash, hbackslash, -⟩ := h.single c hc
  cases platform <;> simp [Platform.isSeparator, hslash, hbackslash]

/-- A plain name is one component of a path, on each platform. -/
theorem PlainName.components (h : PlainName name) :
    platform.components name = [.normal name] := by
  have hvolume : platform.takeVolume name.toList = (none, name.toList) := by
    unfold Platform.takeVolume
    split
    · next letter rest heq =>
      exact absurd rfl (h.single ':' (by rw [heq]; simp)).2.2.1
    · rfl
  have hpieces : name.toList.splitOnP platform.isSeparator = [name.toList] :=
    splitOnP_eq_singleton fun c hc ↦ h.isSeparator hc
  have hrooted : name.toList.head?.any platform.isSeparator = false := by
    cases hname : name.toList with
    | nil => rfl
    | cons c rest => exact h.isSeparator (by rw [hname]; exact mem_cons_self)
  have hne : ∀ {text : String}, name ≠ text → name.toList ≠ text.toList := fun hne heq ↦
    hne (String.toList_inj.mp heq)
  have hpiece : Platform.piece true name.toList = some (.normal name) := by
    rw [Platform.piece, if_neg (show name.toList ≠ [] from hne h.nonempty),
      if_neg (show name.toList ≠ ['.'] from hne h.not_dot),
      if_neg (show name.toList ≠ ['.', '.'] from hne h.not_dotdot), String.ofList_toList]
  unfold Platform.components
  rw [hvolume]
  dsimp only
  rw [hpieces, hrooted]
  simp [hpiece]

/-! ## Checked paths -/

/-- A character that is not a slash stands in a component. -/
theorem exists_mem_splitPath {c : Char} (hc : c ∈ path.toList) (hne : c ≠ '/') :
    ∃ name ∈ splitPath path, c ∈ name.toList := by
  have hpieces : ∀ l : List Char, c ∈ l → ∃ p ∈ l.splitOn '/', c ∈ p := by
    intro l hl
    induction l with
    | nil => exact absurd hl not_mem_nil
    | cons a rest ih =>
        obtain ⟨first, others, hsplit⟩ := exists_cons_of_ne_nil (splitOn_ne_nil '/' rest)
        rw [splitOn_cons_eq_if_modifyHead]
        rw [hsplit] at ih ⊢
        split
        · next hslash =>
          rcases mem_cons.mp hl with rfl | hmem
          · exact absurd (beq_iff_eq.mp hslash) hne
          · obtain ⟨p, hp, hcp⟩ := ih hmem
            exact ⟨p, mem_cons_of_mem _ hp, hcp⟩
        · rw [modifyHead_cons]
          rcases mem_cons.mp hl with rfl | hmem
          · exact ⟨c :: first, mem_cons_self, mem_cons_self⟩
          · obtain ⟨p, hp, hcp⟩ := ih hmem
            rcases mem_cons.mp hp with rfl | hp
            · exact ⟨a :: p, mem_cons_self, mem_cons_of_mem a hcp⟩
            · exact ⟨p, mem_cons_of_mem _ hp, hcp⟩
  obtain ⟨p, hp, hcp⟩ := hpieces path.toList hc
  exact ⟨String.ofList p, mem_map_of_mem hp, by rwa [String.toList_ofList]⟩

/-- No component holds a slash. -/
theorem slash_not_mem_splitPath (h : name ∈ splitPath path) : '/' ∉ name.toList := by
  obtain ⟨p, hp, rfl⟩ := mem_map.mp h
  rw [String.toList_ofList]
  exact notMem_of_mem_splitOn hp

/-- A path is checked component by component. -/
theorem valid_iff : validateRemoteRelativePath relative = .ok () ↔
    ∀ name ∈ splitPath relative, validateRemoteChildName name = .ok () := by
  have hchecks : ((relative.toList.splitOn '/').forM fun component ↦
      validateRemoteChildName (String.ofList component)) = .ok () ↔
      ∀ name ∈ splitPath relative, validateRemoteChildName name = .ok () := by
    rw [splitPath, forall_mem_map]
    exact forM_eq_ok
  unfold validateRemoteRelativePath
  simp only [ite_bail_eq_ok, hchecks]
  refine ⟨fun h ↦ h.2.2.2, fun h ↦ ⟨?_, ?_, ?_, h⟩⟩
  · rintro rfl
    exact (plainName_of_valid (h "" mem_cons_self)).nonempty rfl
  · rintro (hslash | hbackslash)
    · obtain ⟨rest, hrest⟩ := List.head?_eq_some_iff.mp hslash
      refine (plainName_of_valid (h "" (mem_map.mpr ⟨[], ?_, rfl⟩))).nonempty rfl
      rw [hrest, ← nil_append ('/' :: rest), splitOn_append_cons_self]
      exact mem_append_left _ mem_cons_self
    · obtain ⟨name, hname, hc⟩ := exists_mem_splitPath (mem_of_head? hbackslash) (by decide)
      exact ((plainName_of_valid (h name hname)).single _ hc).2.1 rfl
  · intro hnul
    obtain ⟨name, hname, hc⟩ := exists_mem_splitPath hnul (by decide)
    exact absurd ((plainName_of_valid (h name hname)).single _ hc).2.2.2 (by decide)

theorem plainName_of_valid_path (h : validateRemoteRelativePath relative = .ok ()) :
    ∀ name ∈ splitPath relative, PlainName name := fun name hname ↦
  plainName_of_valid (valid_iff.mp h name hname)

theorem not_mem_splitPath (h : validateRemoteRelativePath relative = .ok ()) :
    "" ∉ splitPath relative := fun hmem ↦ (plainName_of_valid_path h "" hmem).nonempty rfl

/-- The components of a path give the path back. -/
theorem intercalate_splitPath (path : String) :
    ['/'].intercalate ((splitPath path).map String.toList) = path.toList := by
  rw [splitPath, map_map]
  have hid : String.toList ∘ String.ofList = id := funext fun l ↦ String.toList_ofList
  rw [hid, map_id, intercalate_splitOn]

theorem splitPath_injective : Function.Injective splitPath := by
  intro a b h
  rw [← String.toList_inj, ← intercalate_splitPath a, h, intercalate_splitPath]

/-- A slash parts the components. -/
theorem splitPath_append (a b : String) : splitPath (a ++ "/" ++ b) = splitPath a ++ splitPath b := by
  have hsplit : (a ++ "/" ++ b).toList = a.toList ++ '/' :: b.toList := by simp
  rw [splitPath, hsplit, splitOn_append_cons_self, map_append]
  rfl

theorem intercalate_concat_append {α : Type} (sep last tail : List α) (front : List (List α)) :
    sep.intercalate (front ++ [last ++ tail]) = sep.intercalate (front ++ [last]) ++ tail := by
  induction front with
  | nil => rw [nil_append, nil_append, intercalate_singleton, intercalate_singleton]
  | cons first front ih =>
      rw [cons_append, cons_append, intercalate_cons_of_ne_nil (by simp),
        intercalate_cons_of_ne_nil (by simp), ih]
      simp only [append_assoc]

/-- What follows a path without a slash is part of its last component. -/
theorem splitPath_append_of_not_mem {front : List String} {last suffix : String}
    (hpath : splitPath path = front ++ [last]) (h : '/' ∉ suffix.toList) :
    splitPath (path ++ suffix) = front ++ [last ++ suffix] := by
  have hmem : ∀ l ∈ (front ++ [last ++ suffix]).map String.toList, '/' ∉ l := by
    intro l hl
    obtain ⟨name, hname, rfl⟩ := mem_map.mp hl
    rcases mem_append.mp hname with hfront | hlast
    · exact slash_not_mem_splitPath (hpath ▸ mem_append_left _ hfront)
    · rw [mem_singleton.mp hlast, String.toList_append, mem_append, not_or]
      exact ⟨slash_not_mem_splitPath (hpath ▸ mem_append_right _ mem_cons_self), h⟩
  have hpath' : (path ++ suffix).toList =
      ['/'].intercalate ((front ++ [last ++ suffix]).map String.toList) := by
    rw [String.toList_append, ← intercalate_splitPath path, hpath, map_append, map_append,
      map_singleton, map_singleton, String.toList_append, intercalate_concat_append]
  rw [splitPath, hpath', splitOn_intercalate '/' hmem (by simp), map_map]
  have hid : String.ofList ∘ String.toList = id := funext fun l ↦ String.ofList_toList
  rw [hid, map_id]
/-! ## The joins -/

theorem remoteComponents_of_plain (h : ∀ name ∈ names, PlainName name) :
    names.filter (fun component ↦ component ≠ "" ∧ component ≠ ".") = names := by
  refine filter_eq_self.mpr fun name hname ↦ ?_
  exact decide_eq_true ⟨(h name hname).nonempty, (h name hname).not_dot⟩

/-- What a root puts in front of a relative path. -/
def leading (root : String) : String :=
  if root = "" ∨ root = "." then ""
  else if root.toList.getLast? = some '/' then root else root ++ "/"

theorem joinRemoteUnderRoot_eq (h : validateRemoteRelativePath relative = .ok ()) :
    joinRemoteUnderRoot root relative = .ok (leading root ++ relative) := by
  rw [joinRemoteUnderRoot, h, bind_ok, pure_eq_ok, leading]
  by_cases hroot : root = "/"
  · subst hroot
    rfl
  · rw [if_neg hroot]
    split
    · rw [String.empty_append]
    · split <;> rfl

/-- A root ends where its last component does. -/
theorem leading_eq (root : String) :
    (leading root = "" ∧ remoteComponents root = [] ∧ isAbsolute root = false) ∨
    ∃ directory, leading root = directory ++ "/" ∧
      remoteComponents root = remoteComponents directory ∧
      ∀ path, isAbsolute (leading root ++ path) = isAbsolute root := by
  unfold leading
  split
  · next hroot =>
    rcases hroot with rfl | rfl
    · exact .inl ⟨rfl, rfl, rfl⟩
    · exact .inl ⟨rfl, rfl, rfl⟩
  · next hroot =>
    have hne : root.toList ≠ [] := fun heq ↦ hroot (.inl (String.toList_inj.mp heq))
    obtain ⟨first, others, hcons⟩ := exists_cons_of_ne_nil hne
    right
    split
    · next hlast =>
      obtain ⟨front, hfront⟩ := List.getLast?_eq_some_iff.mp hlast
      have heq : root = String.ofList front ++ "/" := by
        rw [← String.toList_inj, hfront, String.toList_append, String.toList_ofList]
        rfl
      refine ⟨String.ofList front, heq, ?_, fun path ↦ ?_⟩
      · have hsplit := splitPath_append (String.ofList front) ""
        rw [String.append_empty, ← heq] at hsplit
        rw [remoteComponents, hsplit, filter_append]
        exact append_nil _
      · rw [isAbsolute, isAbsolute, String.toList_append, hcons]
        rfl
    · refine ⟨root, rfl, rfl, fun path ↦ ?_⟩
      rw [isAbsolute, isAbsolute, String.toList_append, String.toList_append, hcons]
      rfl

/-- The result of the join: the root, followed by the names. -/
theorem joinRemoteUnderRoot_components (h : validateRemoteRelativePath relative = .ok ()) :
    remoteComponents (leading root ++ relative) = remoteComponents root ++ splitPath relative ∧
      isAbsolute (leading root ++ relative) = isAbsolute root := by
  have hplain := remoteComponents_of_plain (plainName_of_valid_path h)
  rcases leading_eq root with ⟨hlead, hroot, habsolute⟩ | ⟨directory, hlead, hroot, habsolute⟩
  · rw [hlead, hroot, habsolute, String.empty_append]
    refine ⟨hplain, decide_eq_false fun hhead ↦ ?_⟩
    obtain ⟨rest, hrest⟩ := List.head?_eq_some_iff.mp hhead
    refine not_mem_splitPath h ?_
    rw [splitPath, hrest, ← nil_append ('/' :: rest), splitOn_append_cons_self]
    exact mem_cons_self
  · refine ⟨?_, habsolute relative⟩
    rw [hroot, hlead, remoteComponents, splitPath_append, filter_append, hplain]
    rfl

theorem splitPath_ne_nil (path : String) : splitPath path ≠ [] := fun h ↦
  splitOn_ne_nil '/' path.toList (map_eq_nil_iff.mp h)

/-- A path below a root can be a root itself, and no slash has to be added but one. -/
theorem leading_join (h : validateRemoteRelativePath relative = .ok ()) :
    leading (leading root ++ relative) = leading root ++ relative ++ "/" := by
  have hcomponents :
      remoteComponents (leading root ++ relative) = remoteComponents root ++ splitPath relative :=
    (joinRemoteUnderRoot_components h).1
  have hne : ∀ path, remoteComponents path = [] → leading root ++ relative ≠ path := by
    rintro path hpath rfl
    rw [hpath] at hcomponents
    exact splitPath_ne_nil relative (append_eq_nil_iff.mp hcomponents.symm).2
  have hlast : (leading root ++ relative).toList.getLast? ≠ some '/' := by
    intro hslash
    have hrelative : relative.toList ≠ [] := by
      intro heq
      refine not_mem_splitPath h ?_
      rw [splitPath, heq]
      exact mem_cons_self
    rw [String.toList_append, List.getLast?_append_of_ne_nil _ hrelative] at hslash
    obtain ⟨front, hfront⟩ := List.getLast?_eq_some_iff.mp hslash
    refine not_mem_splitPath h ?_
    rw [splitPath, hfront, splitOn_append_cons_self, map_append]
    exact mem_append_right _ mem_cons_self
  rw [leading, if_neg (not_or.mpr ⟨hne "" rfl, hne "." rfl⟩), if_neg hlast]

/-! ## Walks -/

theorem joinRelative_eq (hrelative : relative ≠ "") :
    joinRelative relative name = relative ++ "/" ++ name :=
  if_neg hrelative

/-- The relative paths of a walk hold the names it has come by. -/
theorem splitPath_foldl_joinRelative (h : ∀ name ∈ names, SingleName name) (hne : names ≠ []) :
    splitPath (names.foldl joinRelative "") = names := by
  induction names using List.reverseRecOn with
  | nil => exact absurd rfl hne
  | append_singleton front last ih =>
      have hlast := h last (mem_append_right _ mem_cons_self)
      rw [foldl_append, foldl_cons, foldl_nil]
      cases hfront : front with
      | nil => exact hlast.splitPath
      | cons first others =>
          have ih := ih (fun name hname ↦ h name (mem_append_left _ hname))
            (by rw [hfront]; exact cons_ne_nil _ _)
          have hrelative : front.foldl joinRelative "" ≠ "" := by
            intro heq
            rw [heq] at ih
            have hempty : "" ∈ front ++ [last] := by
              rw [← ih]
              exact mem_cons_self
            exact (h "" hempty).1 rfl
          rw [← hfront, joinRelative_eq hrelative, splitPath_append, ih, hlast.splitPath]

/-- The relative path of a walk is a checked one. -/
theorem valid_foldl_joinRelative (h : ∀ name ∈ names, validateRemoteChildName name = .ok ())
    (hne : names ≠ []) : validateRemoteRelativePath (names.foldl joinRelative "") = .ok () := by
  rw [valid_iff, splitPath_foldl_joinRelative
    (fun name hname ↦ (plainName_of_valid (h name hname)).singleName) hne]
  exact h

/-- To go down name by name is to go down by the relative path. -/
theorem foldlM_joinRemoteUnderRoot (h : ∀ name ∈ names, validateRemoteChildName name = .ok ())
    (hne : names ≠ []) : names.foldlM joinRemoteUnderRoot root =
      joinRemoteUnderRoot root (names.foldl joinRelative "") := by
  induction names using List.reverseRecOn with
  | nil => exact absurd rfl hne
  | append_singleton front last ih =>
      have hlast := h last (mem_append_right _ mem_cons_self)
      have hlast' : validateRemoteRelativePath last = .ok () := by
        rw [valid_iff, (plainName_of_valid hlast).splitPath]
        exact fun name hname ↦ mem_singleton.mp hname ▸ hlast
      rw [foldlM_append, foldl_append, foldl_cons, foldl_nil]
      cases hfront : front with
      | nil =>
          show (joinRemoteUnderRoot root last >>= fun s ↦ pure s) = _
          rw [bind_pure]
          rfl
      | cons first others =>
          have hnames : ∀ name ∈ front, validateRemoteChildName name = .ok () := fun name hname ↦
            h name (mem_append_left _ hname)
          have hfront_ne : front ≠ [] := by
            rw [hfront]
            exact cons_ne_nil _ _
          have hvalid := valid_foldl_joinRelative hnames hfront_ne
          have hrelative : front.foldl joinRelative "" ≠ "" := by
            intro heq
            rw [heq] at hvalid
            cases hvalid
          have hboth := valid_foldl_joinRelative h hne
          rw [foldl_append, foldl_cons, foldl_nil] at hboth
          rw [← hfront, ih hnames hfront_ne, joinRemoteUnderRoot_eq hvalid, bind_ok,
            joinRemoteUnderRoot_eq hboth, joinRelative_eq hrelative]
          show (joinRemoteUnderRoot _ last >>= fun s ↦ pure s) = _
          rw [bind_pure, joinRemoteUnderRoot_eq hlast', leading_join hvalid]
          simp only [String.append_assoc]

theorem pushLocalComponent_of_plain (h : PlainName name) (path : LocalPath) :
    pushLocalComponent platform path name = .ok (path ++ [.normal name]) := by
  rw [pushLocalComponent, h.components]
  rfl

/-- A checked path is read as its names, on each platform. -/
theorem localPathFromRemoteRelative_eq (h : validateRemoteRelativePath relative = .ok ()) :
    localPathFromRemoteRelative platform relative = .ok ((splitPath relative).map .normal) := by
  have hfold : ∀ (names : List String) (path : LocalPath), (∀ name ∈ names, PlainName name) →
      names.foldlM (pushLocalComponent platform) path = .ok (path ++ names.map .normal) := by
    intro names
    induction names with
    | nil =>
        intro path _
        rw [map_nil, append_nil]
        rfl
    | cons first others ih =>
        intro path hplain
        rw [foldlM_cons, pushLocalComponent_of_plain (hplain first mem_cons_self),
          bind_ok, ih _ fun name hname ↦ hplain name (mem_cons_of_mem first hname),
          map_cons, append_assoc]
        rfl
  rw [localPathFromRemoteRelative, h, bind_ok]
  exact hfold (splitPath relative) [] (plainName_of_valid_path h)

/-- Below a local root, the names follow the root. -/
theorem join_normal (path : LocalPath) (names : List String) :
    path.join (names.map .normal) = path ++ names.map .normal := by
  cases names <;> rfl

/-- The local path of a walk, name by name. -/
theorem foldlM_join (h : ∀ name ∈ names, validateRemoteChildName name = .ok ()) (path : LocalPath) :
    names.foldlM (fun path name ↦ (localPathFromRemoteRelative platform name).map path.join) path =
      .ok (path ++ names.map .normal) := by
  induction names generalizing path with
  | nil =>
      rw [map_nil, append_nil]
      rfl
  | cons first others ih =>
      have hfirst := h first mem_cons_self
      have hplain := plainName_of_valid hfirst
      have hvalid : validateRemoteRelativePath first = .ok () := by
        rw [valid_iff, hplain.splitPath]
        exact fun name hname ↦ mem_singleton.mp hname ▸ hfirst
      rw [foldlM_cons, localPathFromRemoteRelative_eq hvalid, hplain.splitPath]
      show (others.foldlM _ (path.join ([first].map .normal)) : Result LocalPath) = _
      rw [join_normal, ih fun name hname ↦ h name (mem_cons_of_mem first hname),
        append_assoc]
      rfl

/-! ## Containment -/

/-- A relative path below a root, on both sides: the root, followed by the path's names. -/
structure Contained (platform : Platform) (root : String) (localRoot : LocalPath)
    (relative : String) (names : List String) : Prop where
  plain : ∀ name ∈ names, PlainName name
  remote : ∃ path, joinRemoteUnderRoot root relative = .ok path ∧
    remoteComponents path = remoteComponents root ++ names ∧ isAbsolute path = isAbsolute root
  native : (localPathFromRemoteRelative platform relative).map localRoot.join =
    .ok (localRoot ++ names.map .normal)

theorem contained (h : validateRemoteRelativePath relative = .ok ()) (localRoot : LocalPath) :
    Contained platform root localRoot relative (splitPath relative) := by
  refine ⟨plainName_of_valid_path h, ⟨_, joinRemoteUnderRoot_eq h, joinRemoteUnderRoot_components h⟩,
    ?_⟩
  rw [localPathFromRemoteRelative_eq h]
  exact congrArg Except.ok (join_normal localRoot _)

/-- Whatever names a server chooses, a checked path stays below the roots and is its own path
there. -/
theorem path_containment (platform : Platform) (root : String) (localRoot : LocalPath) :
    (∀ relative, validateRemoteRelativePath relative = .ok () →
      Contained platform root localRoot relative (splitPath relative)) ∧
    (∀ names, names ≠ [] → (∀ name ∈ names, validateRemoteChildName name = .ok ()) →
      Contained platform root localRoot (names.foldl joinRelative "") names ∧
      names.foldlM joinRemoteUnderRoot root =
        joinRemoteUnderRoot root (names.foldl joinRelative "") ∧
      names.foldlM (fun path name ↦ (localPathFromRemoteRelative platform name).map path.join)
        localRoot = .ok (localRoot ++ names.map .normal)) ∧
    (∀ a b path, joinRemoteUnderRoot root a = .ok path → joinRemoteUnderRoot root b = .ok path →
      a = b) ∧
    ∀ a b path, localPathFromRemoteRelative platform a = .ok path →
      localPathFromRemoteRelative platform b = .ok path → a = b := by
  refine ⟨fun relative h ↦ contained h localRoot, fun names hne h ↦ ⟨?_, ?_, foldlM_join h localRoot⟩,
    fun a b path ha hb ↦ ?_, fun a b path ha hb ↦ ?_⟩
  · have hsplit := splitPath_foldl_joinRelative
      (fun name hname ↦ (plainName_of_valid (h name hname)).singleName) hne
    have hcontained : Contained platform root localRoot _ _ :=
      contained (valid_foldl_joinRelative h hne) localRoot
    rw [hsplit] at hcontained
    exact hcontained
  · exact foldlM_joinRemoteUnderRoot h hne
  · obtain ⟨⟨⟩, hvalid, -⟩ := bind_eq_ok.mp ha
    obtain ⟨⟨⟩, hvalid', -⟩ := bind_eq_ok.mp hb
    rw [joinRemoteUnderRoot_eq hvalid] at ha
    rw [joinRemoteUnderRoot_eq hvalid', ← ha, Except.ok.injEq] at hb
    exact (String.append_right_inj _).mp hb.symm
  · obtain ⟨⟨⟩, hvalid, -⟩ := bind_eq_ok.mp ha
    obtain ⟨⟨⟩, hvalid', -⟩ := bind_eq_ok.mp hb
    rw [localPathFromRemoteRelative_eq hvalid] at ha
    rw [localPathFromRemoteRelative_eq hvalid', ← ha, Except.ok.injEq] at hb
    exact splitPath_injective (map_injective_iff.mpr (fun _ _ ↦ Component.normal.inj) hb.symm)

theorem path_containment_release :
    Contained .windows "/srv/app" [.volume "C:", .rootDir, .normal "data"] "releases/2026/app.bin"
      (splitPath "releases/2026/app.bin") :=
  (path_containment .windows "/srv/app" [.volume "C:", .rootDir, .normal "data"]).1 _ (by decide)

end KaduoxSsh.Transfer
