import KaduoxSsh.Hosts.Model
import KaduoxSsh.Lib.Words

/-!
# Hops of a ProxyJump

The part of `config.rs` that reads the value of a ProxyJump: a list of hops, each a
host with an optional user in front and an optional port behind it. Ports and the
addresses of IPv6 are read as the standard library reads them. Of an address only
whether it is one counts, since the text itself goes on.

A hop that is read names its host in full: the user and the port that it gives are
what `JumpTarget` keeps, and what is missing comes from the configuration of that
host later.
-/

namespace KaduoxSsh.Core

open Text Result
open Hosts (trim)

def MAX_JUMP_HOPS : Nat := 8

/-! ## Numbers and addresses -/

/-- The number that the rest of some digits spells, `value` being that of the digits before. -/
def readPortDigits : Nat → List Char → Result UInt16
  | value, [] => .ok (UInt16.ofNat value)
  | value, c :: rest =>
      if c.isDigit then
        let value := value * 10 + (c.toNat - '0'.toNat)
        if value < 2 ^ 16 then readPortDigits value rest
        else Result.bail "number too large to fit in target type"
      else Result.bail "invalid digit found in string"

/-- A port, as `str::parse` reads it: a sign may stand in front of the digits. -/
def parsePort (value : List Char) : Result UInt16 :=
  match value with
  | [] => Result.bail "cannot parse integer from empty string"
  | '+' :: c :: rest => readPortDigits 0 (c :: rest)
  | _ => readPortDigits 0 value

namespace Ipv6Addr

/-- What follows a number from 0 to 255 without a zero in front. -/
def readOctet (value : List Char) : Option (List Char) :=
  let digits := value.takeWhile Char.isDigit
  if digits ≠ [] ∧ digits.length ≤ 3 ∧ (digits.head? = some '0' → digits.length = 1) ∧
      Nat.ofDigitChars 10 digits 0 < 256 then
    some (value.dropWhile Char.isDigit)
  else none

def isHexDigit (c : Char) : Bool :=
  c.isDigit || ('a' ≤ c && c ≤ 'f') || ('A' ≤ c && c ≤ 'F')

/-- What follows one to four hexadecimal digits. -/
def readGroup (value : List Char) : Option (List Char) :=
  let digits := value.takeWhile isHexDigit
  if digits ≠ [] ∧ digits.length ≤ 4 then some (value.dropWhile isHexDigit) else none

/-- Read after a separator, which the first piece does not have. -/
def readSeparator (sep : Char) (index : Nat) (read : List Char → Option (List Char))
    (value : List Char) : Option (List Char) :=
  if index = 0 then read value
  else match value with
    | c :: rest => if c = sep then read rest else none
    | [] => none

def readIpv4 (value : List Char) : Option (List Char) := do
  let value ← readSeparator '.' 0 readOctet value
  let value ← readSeparator '.' 1 readOctet value
  let value ← readSeparator '.' 2 readOctet value
  readSeparator '.' 3 readOctet value

/-- Read groups from the one at `index` on: how many there are, whether the last two of them are
an address of IPv4, and what follows. -/
def readGroups (index : Nat) : Nat → List Char → Nat × Bool × List Char
  | 0, value => (index, false, value)
  | left + 1, value =>
      -- An address of IPv4 takes the room of two groups.
      match if left = 0 then none else readSeparator ':' index readIpv4 value with
      | some rest => (index + 2, true, rest)
      | none =>
          match readSeparator ':' index readGroup value with
          | some rest => readGroups (index + 1) left rest
          | none => (index, false, value)

/-- Whether a text is an address of IPv6. -/
def parses (value : List Char) : Bool :=
  let (head, ipv4, rest) := readGroups 0 8 value
  if head = 8 then rest = []
  else if ipv4 then false
  else match rest with
    | ':' :: ':' :: rest => (readGroups 0 (8 - (head + 1)) rest).2.2 = []
    | _ => false

end Ipv6Addr

/-! ## A hop -/

/-- What stands before and after the first separator. -/
def splitOnce (sep : Char) (value : List Char) : Option (List Char × List Char) :=
  match value.dropWhile (· ≠ sep) with
  | [] => none
  | _ :: after => some (value.takeWhile (· ≠ sep), after)

/-- The destination of a hop, without the scheme of a URI. -/
def jumpDestination (spec : String) : Result (List Char) :=
  match stripPrefix spec "ssh://" with
  | some uri =>
      if uri = "" then Result.bail "ProxyJump SSH URI is missing a destination"
      else if '/' ∈ uri.toList ∨ '?' ∈ uri.toList ∨ '#' ∈ uri.toList then
        Result.bail "ProxyJump SSH URI cannot contain a path, query, or fragment"
      else .ok uri.toList
  | none =>
      if contains spec "://" then Result.bail "ProxyJump URI must use the ssh:// scheme"
      else .ok spec.toList

/-- The user of a hop, and its host with the port. -/
def parseJumpDestination (spec : String) : Result (Option String × List Char) := do
  let destination ← jumpDestination spec
  if destination.count '@' > 1 then
    Result.bail s!"ProxyJump destination contains more than one '@': {debug spec}"
  else match splitOnce '@' destination with
    | none => .ok (none, destination)
    | some (user, hostPort) =>
        if user = [] then Result.bail "ProxyJump user cannot be empty"
        else if hostPort = [] then Result.bail "ProxyJump host cannot be empty"
        else .ok (some (String.ofList user), hostPort)

/-- The address of IPv6 between brackets, the first of which has been read, and its port. -/
def parseBracketed (rest : List Char) : Result (String × Option UInt16) := do
  let (host, suffix) ← ofOption "missing closing ']' in ProxyJump IPv6 address"
    (splitOnce ']' rest)
  Result.bailIf (host = []) "ProxyJump IPv6 host cannot be empty"
  context "invalid ProxyJump IPv6 address"
    (Result.bailIf (Ipv6Addr.parses host = false) "invalid IPv6 address syntax")
  match suffix with
  | [] => return (String.ofList host, none)
  | ':' :: port =>
      if port = [] then Result.bail "ProxyJump port cannot be empty"
      else do
        let port ← context "invalid ProxyJump port" (parsePort port)
        return (String.ofList host, some port)
  | _ => Result.bail s!"invalid ProxyJump address suffix: {String.ofList suffix}"

def parseHostPort (value : List Char) : Result (String × Option UInt16) := do
  Result.bailIf (value = []) "ProxyJump host cannot be empty"
  Result.bailIf (value.any fun c ↦ isWhitespace c || isControl c)
    s!"ProxyJump host contains whitespace or control characters: {debug (String.ofList value)}"
  match value with
  | '[' :: rest => parseBracketed rest
  | _ =>
      if '[' ∈ value ∨ ']' ∈ value then
        Result.bail s!"invalid ProxyJump bracket placement: {debug (String.ofList value)}"
      else match value.count ':' with
        | 0 => return (String.ofList value, none)
        | 1 => do
            let (host, port) ← ofOption "invalid ProxyJump host:port specification"
              (rsplitOnce ':' value)
            Result.bailIf (host = []) "ProxyJump host cannot be empty"
            Result.bailIf (port = []) "ProxyJump port cannot be empty"
            Result.bailIf (¬port.all Char.isDigit)
              s!"invalid ProxyJump port: {String.ofList port}"
            return (String.ofList host, some (← parsePort port))
        | _ => do
            context "invalid unbracketed ProxyJump IPv6 address"
              (Result.bailIf (Ipv6Addr.parses value = false) "invalid IPv6 address syntax")
            return (String.ofList value, none)

/-- A hop as its text gives it. -/
structure JumpTarget where
  user : Option String
  hostAlias : String
  port : Option UInt16
deriving DecidableEq, Repr

def parseJumpTarget (spec : List Char) : Result JumpTarget := do
  Result.bailIf (spec.any fun c ↦ isWhitespace c || isControl c)
    s!"ProxyJump hop contains whitespace or control characters: {debug (String.ofList spec)}"
  let (user, hostPort) ← parseJumpDestination (String.ofList spec)
  let (hostAlias, port) ← parseHostPort hostPort
  return ⟨user, hostAlias, port⟩

/-! ## The list of hops -/

/-- Whether a value says that there are no hops. -/
def isNone (spec : List Char) : Bool := eqIgnoreAsciiCase (String.ofList spec) "none"

/-- The texts of the hops. -/
def jumpSpecs (spec : String) : Result (List (List Char)) :=
  let spec := trim spec.toList
  if spec = [] ∨ isNone spec then .ok []
  else
    let hops := (spec.splitOn ',').map trim
    if [] ∈ hops then Result.bail "ProxyJump chain contains an empty hop"
    else if hops.any isNone then
      Result.bail "ProxyJump 'none' cannot be combined with other hops"
    else if hops.length > MAX_JUMP_HOPS then
      Result.bail s!"ProxyJump chain exceeds the {MAX_JUMP_HOPS}-hop safety limit"
    else .ok hops

/-- There are no hops exactly when the value is empty or says so. -/
theorem jumpSpecs_eq_nil_iff {spec : String} :
    jumpSpecs spec = .ok [] ↔ trim spec.toList = [] ∨ isNone (trim spec.toList) = true := by
  rw [jumpSpecs]
  split
  · next h => simp [h]
  · next h =>
      refine iff_of_false (fun hempty ↦ ?_) h
      simp only [ite_bail_eq_ok] at hempty
      have hnil := List.map_eq_nil_iff.mp (Except.ok.inj hempty.2.2.2)
      exact List.splitOn_ne_nil ',' _ hnil

example : parseJumpTarget "ssh://deploy@[2001:db8::1]:2222".toList =
    .ok ⟨some "deploy", "2001:db8::1", some 2222⟩ := by decide

end KaduoxSsh.Core
