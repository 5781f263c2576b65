import KaduoxSsh.Lib.Result
import KaduoxSsh.Lib.Text

/-!
# Targets of a connection

`target.rs`: a host with an optional user in front, as it is given on a command
line and in an inventory.
-/

namespace KaduoxSsh.OpenSsh

open Text Result

structure ConnectionTarget where
  host : String
  username : Option String
deriving DecidableEq, Repr

/-- What stands before a last character. -/
def stripSuffix (last : Char) (value : List Char) : Option (List Char) :=
  if value.getLast? = some last then some value.dropLast else none

/-- A host, an address of IPv6 without its brackets. -/
def normalizeHost (value : List Char) : Result (List Char) :=
  match value with
  | '[' :: rest =>
      match stripSuffix ']' rest with
      | none => bail "missing closing ']' in SSH target"
      | some host =>
          if host = [] then bail "SSH target host cannot be empty"
          else if '[' ∈ host ∨ ']' ∈ host then bail "invalid bracketed SSH target host"
          else .ok host
  | _ =>
      if '[' ∈ value ∨ ']' ∈ value then bail "invalid bracket syntax in SSH target"
      else if value.count ':' = 1 then
        match rsplitOnce ':' value with
        | none => .ok value
        | some (host, port) =>
            if host ≠ [] ∧ port ≠ [] ∧ port.all Char.isDigit then
              bail "SSH target does not accept host:port syntax; use -p/--port instead"
            else .ok value
      else .ok value

/-- The user before the last `@`, and the host. -/
def splitUser (value : List Char) : Result (Option (List Char) × List Char) :=
  match rsplitOnce '@' value with
  | none => .ok (none, value)
  | some (username, host) =>
      if username = [] then bail "SSH target username cannot be empty"
      else if host = [] then bail "SSH target host cannot be empty"
      else if '@' ∈ username ∨ '@' ∈ host then
        bail "SSH target must contain at most one '@'"
      else .ok (some username, host)

def ConnectionTarget.parse (value : String) : Result ConnectionTarget := do
  bailIf (value = "") "SSH target cannot be empty"
  bailIf (value.toList.any fun c ↦ isWhitespace c || isControl c)
    "SSH target cannot contain whitespace or control characters"
  let (username, rawHost) ← splitUser value.toList
  let host ← normalizeHost rawHost
  return ⟨String.ofList host, username.map String.ofList⟩

end KaduoxSsh.OpenSsh
