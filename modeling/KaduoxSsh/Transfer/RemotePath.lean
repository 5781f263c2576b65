import KaduoxSsh.Lib.Result
import KaduoxSsh.Lib.Text

/-!
# Names and paths that come from the other side

`remote_path.rs`: one directory entry returned by a server is checked before it
is combined with a root the caller chose, and a slash-separated path is checked
component by component.
-/

namespace KaduoxSsh.Transfer

open Text Result

/-- The device names that Windows resolves whatever directory they stand in. -/
def reservedDeviceNames : List String :=
  ["CON", "PRN", "AUX", "NUL", "COM1", "COM2", "COM3", "COM4", "COM5", "COM6", "COM7", "COM8",
    "COM9", "LPT1", "LPT2", "LPT3", "LPT4", "LPT5", "LPT6", "LPT7", "LPT8", "LPT9"]

/-- The part of a name before its first dot, in upper case. -/
def deviceStem (name : String) : String :=
  String.ofList (((name.toList.splitOn '.').headD name.toList).map Char.toUpper)

/-- `validate_remote_child_name`: one filename of a directory listing. -/
def validateRemoteChildName (name : String) : Result Unit :=
  if name = "" then
    bail "remote directory entry name cannot be empty"
  else if name = "." ∨ name = ".." then
    bail s!"remote directory entry cannot be a traversal component: {name}"
  else if '/' ∈ name.toList ∨ '\\' ∈ name.toList then
    bail s!"remote directory entry must be a single path component: {debug name}"
  else if name.toList.any isControl then
    bail "remote directory entry cannot contain control characters"
  else if ':' ∈ name.toList then
    bail s!"remote directory entry cannot contain ':': {debug name}"
  else if name.toList.getLast? = some '.' ∨ name.toList.getLast? = some ' ' then
    bail s!"remote directory entry cannot end with '.' or space: {debug name}"
  else if deviceStem name ∈ reservedDeviceNames then
    bail s!"remote directory entry is a Windows reserved device name: {debug name}"
  else .ok ()

/-- `validate_remote_relative_path`: a path that must stay below a root. -/
def validateRemoteRelativePath (path : String) : Result Unit :=
  if path = "" then
    bail "remote relative path cannot be empty"
  else if path.toList.head? = some '/' ∨ path.toList.head? = some '\\' then
    bail s!"remote sync path must be relative: {debug path}"
  else if '\x00' ∈ path.toList then
    bail "remote sync path cannot contain NUL bytes"
  else (path.toList.splitOn '/').forM fun component ↦
    validateRemoteChildName (String.ofList component)

/-- `join_remote_under_root`. -/
def joinRemoteUnderRoot (root relative : String) : Result String := do
  validateRemoteRelativePath relative
  return if root = "" ∨ root = "." then relative
    else if root = "/" then "/" ++ relative
    else if root.toList.getLast? = some '/' then root ++ relative
    else root ++ "/" ++ relative

/-- `path_depth`: the number of non-empty components. -/
def pathDepth (path : String) : Nat :=
  ((path.toList.splitOn '/').filter fun part ↦ !part.isEmpty).length

/-- The directory a relative path lies in, `none` for an entry of the root. -/
def parentPath (path : String) : Option String :=
  (rsplitOnce '/' path.toList).map fun e ↦ String.ofList e.1

end KaduoxSsh.Transfer
