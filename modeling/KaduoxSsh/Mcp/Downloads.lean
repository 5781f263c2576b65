import KaduoxSsh.Hosts.Model
import KaduoxSsh.Lib.UnixPath
import KaduoxSsh.Mcp.Protocol

/-!
# Downloads of the MCP server

Where a client may have a file put: an absolute path that lies in the home directory once each
`..` has undone the name before it. The home directory is what the environment says it is, and
the check is that its components are the first ones of the path. A home without components lets
every path pass.

Paths are those of Unix. What a download does with the hosts is a parameter.
-/

namespace KaduoxSsh.Mcp

open Text PathBuf Result List

/-! ## The checks -/

def validateRemotePath (path : String) : Result Unit :=
  bailIf (path = "" ∨ (utf8 path).length > 4096 ∨ '\x00' ∈ path.toList ∨
      path.toList.any isControl = true)
    "远程路径长度必须在 1..=4096 字节之间且不能包含控制字符"

/-- The variables of the environment that have a value. -/
abbrev Environment : Type := String → Option PathBuf

def homeDir (env : Environment) : Option PathBuf := (env "USERPROFILE").or (env "HOME")

def normalizeComponent (out : PathBuf) : Component → PathBuf
  | .parentDir => out.pop
  | .curDir => out
  | other => out.push other.asOsStr

def normalize (path : PathBuf) : PathBuf := path.components.foldl normalizeComponent ⟨[]⟩

def validateLocalDownloadPath (env : Environment) (localPath : String) : Result PathBuf := do
  bailIf ('\x00' ∈ localPath.toList) "本地路径不能包含 NUL"
  let path := PathBuf.ofString localPath
  bailIf (¬path.isAbsolute = true) "本地路径必须是绝对路径"
  let home ← ofOption "无法确定用户主目录" (homeDir env)
  let normalized := normalize path
  bailIf (¬normalized.startsWith (normalize home) = true) "本地路径必须位于用户主目录内"
  return normalized

def requiredString (arguments : Value) (name : String) : Result String :=
  ofOption s!"缺少参数 {name}"
    (((arguments.get name).bind Value.asStr).filter fun value ↦ Hosts.trim value.toList ≠ [])

/-- `download`. -/
def download {Lease : Type} (env : Environment) (leaseFor : String → Result Lease)
    (fetch : Lease → String → PathBuf → Result Nat) (arguments : Value) : Result Value := do
  let hostAlias ← requiredString arguments "alias"
  let remotePath ← requiredString arguments "remotePath"
  let localPath ← requiredString arguments "localPath"
  validateRemotePath remotePath
  let path ← validateLocalDownloadPath env localPath
  let lease ← leaseFor hostAlias
  let bytes ← context s!"下载 {remotePath} 失败" (fetch lease remotePath path)
  return .object [("alias", .string hostAlias), ("localPath", .string localPath),
    ("bytes", .number (toString bytes))]

/-! ## Normal forms -/

section

variable {path : PathBuf} {names : List (List UInt8)} {rooted : Bool}
  {components : List Component} {c : Component}

/-- A component that may be met behind the beginning of a path. -/
def Inner : Component → Prop
  | .parentDir => True
  | .normal name => IsName name
  | _ => False

theorem follow_names (hc : Inner c) (h : ∀ name ∈ names, IsName name) :
    ∀ name ∈ follow names c, IsName name := by
  cases c with
  | rootDir => exact hc.elim
  | curDir => exact hc.elim
  | parentDir => exact fun name hmem ↦ h name (mem_of_mem_dropLast hmem)
  | normal last =>
      intro name hmem
      rcases mem_append.mp hmem with hmem | hlast
      · exact h name hmem
      · rw [mem_singleton.mp hlast]
        exact hc

theorem normalizeComponent_ofNames (hc : Inner c) (h : ∀ name ∈ names, IsName name) :
    normalizeComponent (ofNames rooted names) c = ofNames rooted (follow names c) := by
  cases c with
  | rootDir => exact hc.elim
  | curDir => exact hc.elim
  | parentDir => exact pop_ofNames h
  | normal name => exact push_ofNames h hc

/-- A component is followed in the normal form as it is among the names. -/
theorem foldl_normalizeComponent (hcomponents : ∀ c ∈ components, Inner c)
    (h : ∀ name ∈ names, IsName name) :
    components.foldl normalizeComponent (ofNames rooted names) =
        ofNames rooted (components.foldl follow names) ∧
      ∀ name ∈ components.foldl follow names, IsName name := by
  induction components generalizing names with
  | nil => exact ⟨rfl, h⟩
  | cons c components ih =>
      have hc := hcomponents c mem_cons_self
      rw [foldl_cons, foldl_cons, normalizeComponent_ofNames hc h]
      exact ih (fun c hmem ↦ hcomponents c (mem_cons_of_mem _ hmem)) (follow_names hc h)

theorem inner_of_mem (h : c ∈ path.segments.filterMap piece) : Inner c := by
  obtain ⟨segment, hmem, hpiece⟩ := mem_filterMap.mp h
  rcases piece_eq_some hpiece with rfl | rfl
  · exact trivial
  · exact ⟨notMem_of_mem_splitOn hmem, hpiece⟩

theorem normalize_place (path : PathBuf) :
    normalize path = ofNames path.isAbsolute path.place ∧ ∀ name ∈ path.place, IsName name := by
  have hbegin : path.lead.toList.foldl normalizeComponent ⟨[]⟩ = ofNames path.isAbsolute [] ∧
      path.lead.toList.foldl follow [] = [] := by
    rw [lead]
    cases path.isAbsolute with
    | true => exact ⟨rfl, rfl⟩
    | false => cases path.includesCurDir <;> exact ⟨rfl, rfl⟩
  rw [normalize, place, components, foldl_append, foldl_append, hbegin.1, hbegin.2]
  exact foldl_normalizeComponent (fun c hmem ↦ inner_of_mem hmem) fun _ hmem ↦
    absurd hmem not_mem_nil

theorem components_normalize (path : PathBuf) : (normalize path).components =
    (if path.isAbsolute = true then [.rootDir] else []) ++ path.place.map .normal := by
  rw [(normalize_place path).1, components_ofNames (normalize_place path).2]

theorem isAbsolute_normalize (path : PathBuf) : (normalize path).isAbsolute = path.isAbsolute := by
  rw [(normalize_place path).1, isAbsolute_ofNames (normalize_place path).2]

theorem place_normalize (path : PathBuf) : (normalize path).place = path.place := by
  have hnames : ∀ names front : List (List UInt8),
      (names.map Component.normal).foldl follow front = front ++ names := by
    intro names
    induction names with
    | nil => exact fun front ↦ (append_nil front).symm
    | cons first others ih =>
        intro front
        rw [map_cons, foldl_cons, ih, follow, append_assoc, singleton_append]
  rw [place, components_normalize, foldl_append]
  cases path.isAbsolute with
  | true => exact hnames path.place []
  | false => exact hnames path.place []

/-- An absolute path passes a home that is absolute when it lies there, and one that is not when
that one has no components. -/
theorem startsWith_normalize {home : PathBuf} (h : path.isAbsolute = true) :
    (normalize path).startsWith (normalize home) = true ↔
      if home.isAbsolute = true then home.place <+: path.place else home.place = [] := by
  have hinjective : Function.Injective Component.normal := fun _ _ ↦ Component.normal.inj
  rw [PathBuf.startsWith, isPrefixOf_iff_prefix, components_normalize, components_normalize,
    if_pos h]
  split
  · rw [singleton_append, singleton_append, prefix_cons_inj]
    constructor
    · intro hprefix
      obtain ⟨front, hfront, heq⟩ := prefix_map_iff.mp hprefix
      rw [hinjective.list_map heq]
      exact hfront
    · exact fun hprefix ↦ hprefix.map Component.normal
  · rw [nil_append, singleton_append]
    cases home.place with
    | nil => exact iff_of_true nil_prefix rfl
    | cons first others =>
        rw [map_cons, cons_prefix_cons]
        exact iff_of_false (fun h ↦ Component.noConfusion h.1) (cons_ne_nil first others)

end

/-! ## Confinement -/

section

variable {env : Environment} {localPath : String} {p : PathBuf}

theorem validateLocalDownloadPath_eq_ok : validateLocalDownloadPath env localPath = .ok p ↔
    '\x00' ∉ localPath.toList ∧ (PathBuf.ofString localPath).isAbsolute = true ∧
      (∃ home, homeDir env = some home ∧
        (normalize (.ofString localPath)).startsWith (normalize home) = true) ∧
      p = normalize (.ofString localPath) := by
  rw [validateLocalDownloadPath]
  dsimp only
  rw [check_bind_eq_ok, check_bind_eq_ok, bind_eq_ok]
  simp only [bailIf_eq_ok, not_not, ofOption_eq_ok, check_bind_eq_ok]
  constructor
  · rintro ⟨hnul, habsolute, home, hhome, hstarts, hp⟩
    exact ⟨hnul, habsolute, ⟨home, hhome, hstarts⟩, (Except.ok.inj hp).symm⟩
  · rintro ⟨hnul, habsolute, ⟨home, hhome, hstarts⟩, rfl⟩
    exact ⟨hnul, habsolute, home, hhome, hstarts, rfl⟩

/-- Where a file may be put: at an absolute path without `.` and `..` that lies in a home
directory, which is at an absolute path itself. -/
structure Confined (env : Environment) (p : PathBuf) : Prop where
  absolute : p.isAbsolute = true
  plain : ∀ c ∈ p.components, c ≠ .curDir ∧ c ≠ .parentDir
  inside : ∃ home, homeDir env = some home ∧ home.isAbsolute = true ∧ home.place <+: p.place

theorem confined_normalize {path home : PathBuf} (hhome : homeDir env = some home)
    (h : path.isAbsolute = true) (habsolute : home.isAbsolute = true)
    (hstarts : (normalize path).startsWith (normalize home) = true) :
    Confined env (normalize path) := by
  refine ⟨(isAbsolute_normalize path).trans h, ?_, home, hhome, habsolute, ?_⟩
  · intro c hmem
    rw [components_normalize, if_pos h, singleton_append] at hmem
    rcases mem_cons.mp hmem with rfl | hname
    · exact ⟨nofun, nofun⟩
    · obtain ⟨name, -, rfl⟩ := mem_map.mp hname
      exact ⟨nofun, nofun⟩
  · rw [place_normalize]
    rwa [startsWith_normalize h, if_pos habsolute] at hstarts

/-- A path that is let through is confined exactly when there is no relative home that leads
nowhere. -/
theorem validateLocalDownloadPath_confined_iff (env : Environment) (localPath : String) :
    (∀ p, validateLocalDownloadPath env localPath = .ok p → Confined env p) ↔
      ∀ home, homeDir env = some home → home.isAbsolute = true ∨ home.place ≠ [] ∨
        '\x00' ∈ localPath.toList ∨ ¬(PathBuf.ofString localPath).isAbsolute = true := by
  constructor
  · intro h home hhome
    by_contra hnot
    push Not at hnot
    obtain ⟨hrelative, hplace, hnul, habsolute⟩ := hnot
    have hstarts : (normalize (.ofString localPath)).startsWith (normalize home) = true := by
      rw [startsWith_normalize habsolute, if_neg hrelative]
      exact hplace
    obtain ⟨home', hhome', habsolute', -⟩ := (h _ (validateLocalDownloadPath_eq_ok.mpr
      ⟨hnul, habsolute, ⟨home, hhome, hstarts⟩, rfl⟩)).inside
    rw [hhome] at hhome'
    cases hhome'
    exact hrelative habsolute'
  · intro h p hp
    obtain ⟨hnul, habsolute, ⟨home, hhome, hstarts⟩, rfl⟩ := validateLocalDownloadPath_eq_ok.mp hp
    refine confined_normalize hhome habsolute ?_ hstarts
    by_contra hrelative
    rw [startsWith_normalize habsolute, if_neg hrelative] at hstarts
    rcases h home hhome with hhome | hplace | hmem | hrel
    · exact hrelative hhome
    · exact hplace hstarts
    · exact hnul hmem
    · exact hrel habsolute

/-- With an empty home every file may be written. -/
theorem empty_home : ¬∀ (env : Environment) (localPath : String) (p : PathBuf),
    validateLocalDownloadPath env localPath = .ok p → Confined env p := by
  intro h
  have hpasses : validateLocalDownloadPath (fun name ↦ if name = "HOME" then some ⟨[]⟩ else none)
      "/etc/passwd" = .ok (PathBuf.ofString "/etc/passwd") := by
    decide +kernel
  obtain ⟨home, hhome, habsolute, -⟩ := (h _ _ _ hpasses).inside
  cases hhome
  exact absurd habsolute (by decide)

end

end KaduoxSsh.Mcp
