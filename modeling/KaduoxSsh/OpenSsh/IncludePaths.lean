import KaduoxSsh.Lib.UnixPath
import KaduoxSsh.OpenSsh.Include
import KaduoxSsh.OpenSsh.IncludeGlob

/-!
# The files of an Include

`expand_path_pattern` of `openssh_include.rs`: the components of a path are added one
after the other to the paths that were found for those before. A component with a `*`
or `?` is matched against the names in the directory, and any other is added as it
stands, with the backslashes that are in it. The file system is a parameter.
-/

namespace KaduoxSsh.OpenSsh

open Text Result
open KaduoxSsh.PathBuf (Component)

def MAX_GLOB_COMPONENT_BYTES : Nat := 1024

/-- What the program asks of the file system: the names in a directory, and whether there is a
regular file at a path. -/
structure FileSystem where
  readDir : PathBuf → Except IoErrorKind (List (Except IoErrorKind (List UInt8)))
  isFile : PathBuf → Except IoErrorKind Bool

/-- A failure of the file system, with what was tried in front of it. -/
def ioContext {α : Type} (kind : IoErrorKind) (text : String) : Result α :=
  (io kind kind.description).context text

/-! ## The order of paths -/

/-- What components are compared by. -/
def componentKey : Component → List Nat
  | .rootDir => [0]
  | .curDir => [1]
  | .parentDir => [2]
  | .normal name => 3 :: name.map UInt8.toNat

/-- Paths are compared by their components. -/
def pathLe (a b : PathBuf) : Bool :=
  decide (a.components.map componentKey ≤ b.components.map componentKey)

/-- The paths behind one, without those that repeat the one before them. -/
def dedupFrom (last : PathBuf) : List PathBuf → List PathBuf
  | [] => []
  | path :: rest =>
      if path.components = last.components then dedupFrom last rest else path :: dedupFrom path rest

/-- `sort` and `dedup`. -/
def sortDedup (paths : List PathBuf) : List PathBuf :=
  match paths.mergeSort pathLe with
  | [] => []
  | path :: rest => path :: dedupFrom path rest

/-! ## Components with wildcards -/

def lossy (segment : List UInt8) : String := (PathBuf.mk segment).toStringLossy

def containsGlobMeta (segment : List UInt8) : Bool :=
  (lossy segment).toList.any fun ch ↦ ch = '*' || ch = '?'

def validateGlobComponent (pattern : List UInt8) : Result Unit := do
  let pattern ← ofOption "OpenSSH Include glob patterns must be valid UTF-8"
    (fromUtf8 pattern)
  bailIf (pattern.utf8ByteSize > MAX_GLOB_COMPONENT_BYTES)
    s!"OpenSSH Include glob component exceeds the {MAX_GLOB_COMPONENT_BYTES}-byte safety limit"

def patternExplicitlyStartsWithPeriod (pattern : List UInt8) : Result Bool := do
  let pattern ← ofOption "OpenSSH Include glob patterns must be valid UTF-8"
    (fromUtf8 pattern)
  return (utf8 pattern).head? == some 46 || [92, 46].isPrefixOf (utf8 pattern)

def globSegmentMatches (pattern candidate : List UInt8) : Result Bool := do
  let pattern ← ofOption "OpenSSH Include glob patterns must be valid UTF-8"
    (fromUtf8 pattern)
  let candidate ← ofOption "OpenSSH Include matched a non-UTF-8 path component"
    (fromUtf8 candidate)
  globMatch (utf8 pattern) (utf8 candidate)

def isHidden (name : List UInt8) : Bool := (lossy name).toList.head? = some '.'

section

variable (fs : FileSystem) (pattern : PathBuf)

/-- The loop over the entries of a directory, with the paths found before. -/
def matchEntries (segment : List UInt8) (allowHidden : Bool) (candidate : PathBuf) :
    List (Except IoErrorKind (List UInt8)) → List PathBuf → Result (List PathBuf)
  | [], next => .ok next
  | .error kind :: _, _ =>
      ioContext kind s!"failed to enumerate OpenSSH Include pattern {pattern.toStringLossy}"
  | .ok name :: entries, next =>
      if !allowHidden && isHidden name then matchEntries segment allowHidden candidate entries next
      else do
        let found ← globSegmentMatches segment name
        if found then
          let next := next ++ [candidate.push ⟨name⟩]
          if next.length > MAX_INCLUDE_FILES then
            bail (s!"OpenSSH Include glob expansion exceeds the {MAX_INCLUDE_FILES}-path " ++
              "safety limit")
          else matchEntries segment allowHidden candidate entries next
        else matchEntries segment allowHidden candidate entries next

/-- The directory that is listed for a path. -/
def listed (candidate : PathBuf) : PathBuf := if candidate.bytes = [] then ⟨[46]⟩ else candidate

/-- The loop over the paths for the components in front of one with wildcards. -/
def matchCandidates (segment : List UInt8) (allowHidden : Bool) :
    List PathBuf → List PathBuf → Result (List PathBuf)
  | [], next => .ok next
  | candidate :: candidates, next =>
      match fs.readDir (listed candidate) with
      | .error .notFound => matchCandidates segment allowHidden candidates next
      | .error kind =>
          ioContext kind s!"failed to expand OpenSSH Include pattern {pattern.toStringLossy}"
      | .ok entries => do
          let next ← matchEntries pattern segment allowHidden candidate entries next
          matchCandidates segment allowHidden candidates next

/-- One component more. -/
def expandComponent (candidates : List PathBuf) (component : Component) : Result (List PathBuf) :=
  match component with
  | .normal segment =>
      if containsGlobMeta segment then do
        validateGlobComponent segment
        let allowHidden ← patternExplicitlyStartsWithPeriod segment
        let next ← matchCandidates fs pattern segment allowHidden candidates []
        return sortDedup next
      else .ok (candidates.map fun candidate ↦ candidate.push ⟨segment⟩)
  | component => .ok (candidates.map fun candidate ↦ candidate.push component.asOsStr)

/-- The paths that are files. -/
def inspectFiles : List PathBuf → Result (List PathBuf)
  | [] => .ok []
  | candidate :: candidates =>
      match fs.isFile candidate with
      | .ok true => do
          let files ← inspectFiles candidates
          return candidate :: files
      | .ok false =>
          bail s!"OpenSSH Include matched a non-file path: {candidate.toStringLossy}"
      | .error .notFound => inspectFiles candidates
      | .error kind =>
          ioContext kind s!"failed to inspect OpenSSH Include path {candidate.toStringLossy}"

def expandPathPattern : Result (List PathBuf) := do
  let candidates ← pattern.components.foldlM (expandComponent fs pattern) [⟨[]⟩]
  let files ← inspectFiles fs candidates
  return sortDedup files

end

end KaduoxSsh.OpenSsh
