import KaduoxSsh.Hosts.Toml
import KaduoxSsh.Lib.UnixPath
import KaduoxSsh.Lib.Words
import Mathlib.Algebra.GroupWithZero.Nat
import Mathlib.Data.Finset.Basic

/-!
# Include lines of an OpenSSH configuration

`openssh_include.rs`: a configuration is expanded by putting the files that its
`Include` lines name in their place. For a connection only the lines are kept that
are active for its target; the list of hosts keeps all of them.

What is outside the expansion is in the record `World`: the file system, at one
moment, the environment, and the evaluation of `Host` and `Match` lines for the
target. The expansion keeps a state over all files, also when it fails. Beside the
fields of the source the state records the files entered, each with its depth, and
the contents accepted; nothing is decided by these two.
-/

namespace KaduoxSsh.OpenSsh

open Text
open Hosts.Toml (lines)

def MAX_INCLUDE_DEPTH : Nat := 16
def MAX_INCLUDE_FILES : Nat := 256
def MAX_CONFIG_BYTES : Nat := 4 * 1024 * 1024
def MAX_INCLUDE_ARGUMENTS_PER_LINE : Nat := 64
def MAX_INCLUDE_PATH_BYTES : Nat := 16 * 1024

structure World where
  home : PathBuf
  canonicalize : PathBuf → Result PathBuf
  readUserConfigFile : PathBuf → Result String
  expandIncludeEnvironment : String → Result String
  /-- The files a pattern matches, in order. -/
  expandPathPattern : PathBuf → Result (List PathBuf)
  hostDirectiveMatches : String → Result Bool
  supportedMatchDirectiveMatches : String → Result Bool
  validateInactiveOption : String → Result Unit

structure ExpansionState where
  filesSeen : Nat
  bytesRead : Nat
  activePaths : Finset PathBuf
  /-- The files entered and their depths, in order. -/
  entered : List (PathBuf × Nat)
  /-- The contents accepted, in order. -/
  accepted : List String

def ExpansionState.new : ExpansionState := ⟨0, 0, ∅, [], []⟩

/-- A step of the expansion, which may fail and leaves a state in any case. -/
abbrev Expanding := ExceptT AnyError (StateM ExpansionState)

namespace Expanding

variable {α : Type}

def ofResult (x : Result α) : Expanding α := ExceptT.mk (pure x)

def context (text : String) (x : Expanding α) : Expanding α :=
  ExceptT.mk do return Result.context text (← x.run)

end Expanding

/-! ## Lines -/

def isAsciiWhitespace (c : Char) : Bool := c ∈ [' ', '\t', '\n', '\x0c', '\r']

def trimStart (line : String) : List Char := line.toList.dropWhile isWhitespace

def isKeyEnd (c : Char) : Bool := isAsciiWhitespace c || c == '='

/-- The first word of a line that is no comment. -/
def directiveKey (line : String) : Option String :=
  match trimStart line with
  | [] | '#' :: _ => none
  | trimmed => some (String.ofList (trimmed.takeWhile fun c ↦ !isKeyEnd c))

/-- What follows the first word and what separates it. -/
def directiveRest (line : String) : List Char :=
  ((trimStart line).dropWhile fun c ↦ !isKeyEnd c).dropWhile isKeyEnd

def hasKey (line name : String) : Bool := (directiveKey line).any (eqIgnoreAsciiCase · name)

/-- The state of the reader of arguments. -/
structure ArgumentReader where
  output : List String
  current : List Char
  quote : Option Char
  escaped : Bool

namespace ArgumentReader

def start : ArgumentReader := ⟨[], [], none, false⟩

/-- The argument being read is complete. -/
def finishWord (reader : ArgumentReader) : ArgumentReader :=
  if reader.current = [] then reader
  else { reader with output := reader.output ++ [String.ofList reader.current], current := [] }

/-- One character; none at the beginning of a comment. -/
def step (reader : ArgumentReader) (c : Char) : Option ArgumentReader :=
  if reader.escaped then
    let kept := if c ∈ ['*', '?', '\\'] then ['\\', c] else [c]
    some { reader with current := reader.current ++ kept, escaped := false }
  else if c = '\\' ∧ reader.quote ≠ some '\'' then some { reader with escaped := true }
  else
    match reader.quote with
    | some active =>
        if c = active then some { reader with quote := none }
        else some { reader with current := reader.current ++ [c] }
    | none =>
        if c = '\'' ∨ c = '"' then some { reader with quote := some c }
        else if c = '#' then none
        else if isAsciiWhitespace c then some reader.finishWord
        else some { reader with current := reader.current ++ [c] }

def read (reader : ArgumentReader) : List Char → ArgumentReader
  | [] => reader
  | c :: rest =>
      match reader.step c with
      | none => reader
      | some reader => reader.read rest

end ArgumentReader

def parseArguments (input : List Char) : Result (List String) :=
  let reader := ArgumentReader.start.read input
  if reader.escaped then Result.bail "OpenSSH Include ends with an incomplete escape"
  else if reader.quote.isSome then Result.bail "OpenSSH Include contains an unterminated quote"
  else .ok reader.finishWord.output

/-- The paths of an `Include` line; none for any other line. -/
def includeArguments (line : String) : Result (Option (List String)) :=
  if hasKey line "include" then do return some (← parseArguments (directiveRest line))
  else .ok none

/-! ## Bounded texts -/

def checkedAdd (a b : Nat) (text : String) : Result Nat :=
  if a + b < 2 ^ 64 then .ok (a + b) else Result.bail text

def pushBounded (output text : String) : Result String := do
  let newLen ← checkedAdd output.utf8ByteSize text.utf8ByteSize
    "OpenSSH Include output byte accounting overflow"
  Result.bailIf (newLen > MAX_CONFIG_BYTES)
    s!"expanded OpenSSH configuration exceeds the {MAX_CONFIG_BYTES}-byte safety limit"
  return output ++ text

def pushLineBounded (output line : String) : Result String := do
  pushBounded (← pushBounded output line) "\n"

/-- A line feed where one is missing. -/
def pushMissing (missing : Bool) (output : String) : Result String :=
  if missing then pushBounded output "\n" else .ok output

def endsWithNewline (text : String) : Bool := text.toList.getLast? = some '\n'

/-! ## Files -/

/-- A file that may be expanded: it is not too deep. -/
structure Entered (depth : Nat) where
  identity : PathBuf
  shallow : depth ≤ MAX_INCLUDE_DEPTH

section

variable (world : World)

def enterFile (path : PathBuf) (depth : Nat) : Expanding (Entered depth) := fun state ↦
  if h : depth > MAX_INCLUDE_DEPTH then
    (Result.bail s!"OpenSSH Include nesting exceeds the {MAX_INCLUDE_DEPTH}-level safety limit",
      state)
  else if state.filesSeen ≥ MAX_INCLUDE_FILES then
    (Result.bail s!"OpenSSH Include expansion exceeds the {MAX_INCLUDE_FILES}-file safety limit",
      state)
  else
    match (world.canonicalize path).context
        s!"failed to resolve OpenSSH config include {path.toStringLossy}" with
    | .error e => (.error e, state)
    | .ok identity =>
        if identity ∈ state.activePaths then
          (Result.bail s!"OpenSSH Include cycle detected at {path.toStringLossy}", state)
        else
          (.ok ⟨identity, Nat.le_of_not_lt h⟩, { state with
            activePaths := insert identity state.activePaths
            filesSeen := state.filesSeen + 1
            entered := state.entered ++ [(path, depth)] })

/-- The file is left, however its expansion ended. -/
def leaving {α : Type} (identity : PathBuf) (x : Expanding α) : Expanding α := fun state ↦
  let (result, state) := x state
  (result, { state with activePaths := state.activePaths.erase identity })

def accountInputBytes (additional : Nat) : Expanding Unit := fun state ↦
  match checkedAdd state.bytesRead additional "OpenSSH Include byte accounting overflow" with
  | .error e => (.error e, state)
  | .ok bytesRead =>
      if bytesRead > MAX_CONFIG_BYTES then
        (Result.bail
          s!"OpenSSH configuration input exceeds the {MAX_CONFIG_BYTES}-byte safety limit",
          { state with bytesRead })
      else (.ok (), { state with bytesRead })

def accept (contents : String) : Expanding Unit := fun state ↦
  (.ok (), { state with accepted := state.accepted ++ [contents] })

def readConfig (path : PathBuf) : Expanding String := do
  let contents ← Expanding.ofResult (world.readUserConfigFile path)
  accountInputBytes contents.utf8ByteSize
  accept contents
  return contents

/-- The place of a line, in messages. -/
def place (path : PathBuf) (lineIndex : Nat) : String := s!"{path.toStringLossy}:{lineIndex + 1}"

def validateIncludeArguments (path : PathBuf) (lineIndex : Nat) (arguments : List String) :
    Result Unit :=
  if arguments = [] then
    Result.bail s!"OpenSSH Include on {place path lineIndex} requires at least one path"
  else if arguments.length > MAX_INCLUDE_ARGUMENTS_PER_LINE then
    Result.bail (s!"OpenSSH Include on {place path lineIndex} exceeds the " ++
      s!"{MAX_INCLUDE_ARGUMENTS_PER_LINE}-path per-line safety limit")
  else .ok ()

/-- The path a value names once its variables are expanded. -/
def anchorExpanded (value : String) : Result PathBuf :=
  if value = "~" then .ok world.home
  else
    match (stripPrefix value "~/").orElse fun _ ↦ stripPrefix value "~\\" with
    | some rest => .ok (world.home.push (.ofString rest))
    | none =>
        if startsWith value "~" then
          Result.bail (s!"OpenSSH Include ~user expansion is not supported; refusing ambiguous " ++
            s!"path {debug value}")
        else if startsWith value "/" then .ok (PathBuf.ofString value)
        else .ok ((world.home.push (.ofString ".ssh")).push (.ofString value))

def anchorUserInclude (value : String) : Result PathBuf := do
  Result.bailIf (value = "") "OpenSSH Include path cannot be empty"
  Result.bailIf (value.utf8ByteSize > MAX_INCLUDE_PATH_BYTES)
    s!"OpenSSH Include path exceeds the {MAX_INCLUDE_PATH_BYTES}-byte safety limit"
  Result.bailIf (value.toList.any isControl)
    "OpenSSH Include path cannot contain control characters"
  let value ← world.expandIncludeEnvironment value
  Result.bailIf (value.toList.any isControl)
    "expanded OpenSSH Include path cannot contain control characters"
  Result.bailIf ('[' ∈ value.toList ∨ ']' ∈ value.toList)
    (s!"OpenSSH Include bracket glob expressions are not supported yet; refusing path " ++
      s!"{debug value}")
  anchorExpanded world value

/-! ## Including files -/

/-- The texts of some files, one behind the other; `missing` tells after which text a line feed is
missing. -/
def includeFiles (expand : PathBuf → Expanding String) (missing : String → Bool) :
    List PathBuf → String → Expanding String
  | [], expanded => return expanded
  | file :: files, expanded => do
      let included ← expand file
      let expanded ← Expanding.ofResult (pushBounded expanded included)
      let expanded ← Expanding.ofResult (pushMissing (missing included) expanded)
      includeFiles expand missing files expanded

def includeAll (expand : PathBuf → Expanding String) (missing : String → Bool) :
    List String → String → Expanding String
  | [], expanded => return expanded
  | argument :: arguments, expanded => do
      let pattern ← Expanding.ofResult (anchorUserInclude world argument)
      let files ← Expanding.ofResult (world.expandPathPattern pattern)
      let expanded ← includeFiles expand missing files expanded
      includeAll expand missing arguments expanded

/-! ## The expansion for a connection -/

/-- How the file of an `Include` line is expanded: from its path, the state of the block with the
line, and whether nothing in it may match. -/
abbrev ConnectionExpander := PathBuf → Bool → Bool → Expanding String

def missingConnection (included : String) : Bool := included ≠ "" && !endsWithNewline included

/-- One line. What is returned is whether the block is active after it, and the text so far. -/
def connectionLine (expand : ConnectionExpander) (path : PathBuf) (neverMatch : Bool)
    (lineIndex : Nat) (line : String) (active : Bool) (expanded : String) :
    Expanding (Bool × String) :=
  if hasKey line "host" then do
    let matched ← Expanding.ofResult ((world.hostDirectiveMatches line).context
      s!"invalid OpenSSH Host on {place path lineIndex}")
    return (!neverMatch && matched, expanded)
  else if hasKey line "match" then do
    let matched ← Expanding.ofResult ((world.supportedMatchDirectiveMatches line).context
      s!"unsupported OpenSSH Match on {place path lineIndex}")
    return (!neverMatch && matched, expanded)
  else do
    match ← Expanding.ofResult ((includeArguments line).context
        s!"invalid OpenSSH Include on {place path lineIndex}") with
    | none =>
        if active then
          return (active, ← Expanding.ofResult (pushLineBounded expanded line))
        else do
          Expanding.ofResult ((world.validateInactiveOption line).context
            s!"invalid inactive OpenSSH option on {place path lineIndex}")
          return (active, expanded)
    | some arguments => do
        Expanding.ofResult (validateIncludeArguments path lineIndex arguments)
        let childNeverMatch := neverMatch || !active
        let expanded ← includeAll world
          (fun file ↦ (expand file active childNeverMatch).context
            s!"while expanding OpenSSH Include from {place path lineIndex}")
          missingConnection arguments expanded
        return (active, expanded)

def connectionLines (expand : ConnectionExpander) (path : PathBuf) (neverMatch : Bool) :
    Nat → List String → Bool → String → Expanding String
  | _, [], _, expanded => return expanded
  | lineIndex, line :: rest, active, expanded => do
      let (active, expanded) ←
        connectionLine world expand path neverMatch lineIndex line active expanded
      connectionLines expand path neverMatch (lineIndex + 1) rest active expanded

def expandConnectionFileInner (expand : ConnectionExpander) (path : PathBuf)
    (inheritedActive neverMatch : Bool) : Expanding String := do
  let contents ← readConfig world path
  connectionLines world expand path neverMatch 0 ((lines contents.toList).map String.ofList)
    (inheritedActive && !neverMatch) ""

def expandConnectionFile (path : PathBuf) (depth : Nat) (inheritedActive neverMatch : Bool) :
    Expanding String := do
  let ⟨identity, shallow⟩ ← enterFile world path depth
  leaving identity (expandConnectionFileInner world
    (fun file active never ↦ expandConnectionFile file (depth + 1) active never)
    path inheritedActive neverMatch)
termination_by MAX_INCLUDE_DEPTH + 1 - depth
decreasing_by omega

def expandUserConfig (root : PathBuf) : Expanding String := do
  let contents ← expandConnectionFile world root 0 true false
  Expanding.ofResult (pushBounded "Host *\n" contents)

/-! ## The expansion for the list of hosts -/

def missingCatalog (included : String) : Bool := !endsWithNewline included

def catalogLine (expand : PathBuf → Expanding String) (path : PathBuf) (lineIndex : Nat)
    (line : String) (expanded : String) : Expanding String := do
  match ← Expanding.ofResult ((includeArguments line).context
      s!"invalid OpenSSH Include on {place path lineIndex}") with
  | none => Expanding.ofResult (pushLineBounded expanded line)
  | some arguments => do
      Expanding.ofResult (validateIncludeArguments path lineIndex arguments)
      includeAll world
        (fun file ↦ (expand file).context
          s!"while expanding OpenSSH catalog Include from {place path lineIndex}")
        missingCatalog arguments expanded

def catalogLines (expand : PathBuf → Expanding String) (path : PathBuf) :
    Nat → List String → String → Expanding String
  | _, [], expanded => return expanded
  | lineIndex, line :: rest, expanded => do
      let expanded ← catalogLine world expand path lineIndex line expanded
      catalogLines expand path (lineIndex + 1) rest expanded

def expandCatalogFileInner (expand : PathBuf → Expanding String) (path : PathBuf) :
    Expanding String := do
  let contents ← readConfig world path
  catalogLines world expand path 0 ((lines contents.toList).map String.ofList) ""

def expandCatalogFile (path : PathBuf) (depth : Nat) : Expanding String := do
  let ⟨identity, shallow⟩ ← enterFile world path depth
  leaving identity (expandCatalogFileInner world
    (fun file ↦ expandCatalogFile file (depth + 1)) path)
termination_by MAX_INCLUDE_DEPTH + 1 - depth
decreasing_by omega

def expandUserConfigForCatalog (root : PathBuf) : Expanding String :=
  expandCatalogFile world root 0

end

end KaduoxSsh.OpenSsh
