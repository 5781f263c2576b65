import KaduoxSsh.Desktop.Sessions
import KaduoxSsh.Lib.Lines
import KaduoxSsh.Lib.SortedMap
import KaduoxSsh.Lib.Words

/-!
# The histories of the desktop

`history.rs`: the commands that were used on each host, and the record of all runs, of which the
program shows one page. Both are files with one JSON object in each line; a line that is no such
object is passed over.

The file of the commands is read, changed and written as a whole. How an entry is written, and
how a line is read as one, is a parameter, of which is known that an entry is written as one line
and that it is taken back.
-/

namespace KaduoxSsh.Desktop.History

open Text Lines Result
open Sessions (trimmed)

/-! ## Files -/

/-- What opening a file gives. -/
abbrev HistoryFile : Type := Except IoErrorKind (List UInt8)

def newline : UInt8 := byte '\n'

/-- A line without its terminator, which may have a carriage return in front of it. -/
def stripTerminator (line : List UInt8) : List UInt8 :=
  if line.getLast? = some newline then
    if line.dropLast.getLast? = some (byte '\r') then line.dropLast.dropLast else line.dropLast
  else line

/-- The lines of a file, each with its text if it is UTF-8. -/
def fileLines (bytes : List UInt8) : List (Option String) :=
  (lines newline bytes).map fun line ↦ fromUtf8 (stripTerminator line)

theorem stripTerminator_append {line : List UInt8} (h : byte '\r' ∉ line) :
    stripTerminator (line ++ [newline]) = line := by
  rw [stripTerminator, List.getLast?_concat, if_pos rfl, List.dropLast_concat, if_neg]
  exact fun hlast ↦ h (List.mem_of_getLast? hlast)

/-- The lines of a file are the texts that have been put into it, each in front of a newline. -/
theorem fileLines_flatMap {texts : List String}
    (h : ∀ text ∈ texts, newline ∉ utf8 text ∧ byte '\r' ∉ utf8 text) :
    fileLines (texts.flatMap fun text ↦ utf8 text ++ [newline]) = texts.map some := by
  induction texts with
  | nil => rfl
  | cons text texts ih =>
      obtain ⟨hline, hreturn⟩ := h text List.mem_cons_self
      have hlines := lines_append_cons newline hline
        (texts.flatMap fun text ↦ utf8 text ++ [newline])
      rw [List.flatMap_cons, List.append_assoc, List.singleton_append, fileLines, hlines,
        List.map_cons, List.map_cons, stripTerminator_append hreturn, fromUtf8_utf8,
        ← ih fun text hmem ↦ h text (List.mem_cons_of_mem _ hmem), fileLines]

def lineText (line : Option String) : Result String :=
  ofOption "stream did not contain valid UTF-8" line

/-! ## Commands -/

def MAX_COMMANDS_PER_ALIAS : Nat := 500

def MAX_COMMAND_FILE_ENTRIES : Nat := 5000

structure CommandHistoryEntry where
  hostAlias : String
  command : String
  usedAtUnix : UInt64
  source : String
deriving DecidableEq, Repr

/-- What an entry is found by. -/
def CommandHistoryEntry.pair (entry : CommandHistoryEntry) : String × String :=
  (entry.hostAlias, entry.command)

/-- How an entry is written, and how a line is read as one. What is written is one line, is not
blank, and is taken back. -/
structure CommandReader where
  /-- The text that `to_vec` gives. -/
  toText : CommandHistoryEntry → String
  fromStr : String → Option CommandHistoryEntry
  oneLine : ∀ entry, newline ∉ utf8 (toText entry) ∧ byte '\r' ∉ utf8 (toText entry)
  notBlank : ∀ entry, trimmed (toText entry) ≠ ""
  fromStr_toText : ∀ entry, fromStr (toText entry) = some entry

/-- Move the entry of a command to the end, with another time, or put a new one there; and count
the new ones. -/
def useCommand (hostAlias source : String) (usedAtUnix : UInt64)
    (state : List CommandHistoryEntry × Nat) (command : String) :
    List CommandHistoryEntry × Nat :=
  let (entries, added) := state
  let command := trimmed command
  if command = "" then (entries, added)
  else
    match entries.find? fun entry ↦ entry.pair = (hostAlias, command) with
    | some existing =>
        (entries.filter (fun entry ↦ entry.pair ≠ (hostAlias, command)) ++
          [{ existing with usedAtUnix }], added)
    | none => (entries ++ [⟨hostAlias, command, usedAtUnix, source⟩], added + 1)

/-- While there are too many entries, the first one is removed. -/
def dropOldest : List CommandHistoryEntry → List CommandHistoryEntry
  | [] => []
  | entry :: entries =>
      if (entry :: entries).length > MAX_COMMAND_FILE_ENTRIES then dropOldest entries
      else entry :: entries

/-- The entries to be kept, from the newest on, with the number of those that each alias has. -/
def keepNewest (perAlias : SortedMap String Nat) :
    List CommandHistoryEntry → List CommandHistoryEntry
  | [] => []
  | entry :: older =>
      let count := (perAlias.get? entry.hostAlias).getD 0
      if count < MAX_COMMANDS_PER_ALIAS then
        entry :: keepNewest (perAlias.insert entry.hostAlias (count + 1)) older
      else keepNewest perAlias older

/-- The entries behind the two caps. -/
def trimEntries (entries : List CommandHistoryEntry) : List CommandHistoryEntry :=
  (keepNewest .empty (dropOldest entries).reverse).reverse

namespace CommandReader

variable (reader : CommandReader)

/-- The contents of the file with some entries. -/
def writeCommands (entries : List CommandHistoryEntry) : List UInt8 :=
  entries.flatMap fun entry ↦ utf8 (reader.toText entry) ++ [newline]

def readEntry (line : String) : Option CommandHistoryEntry :=
  if trimmed line = "" then none else reader.fromStr line

def readCommands : HistoryFile → Result (List CommandHistoryEntry)
  | .error .notFound => .ok []
  | .error kind => io kind kind.description
  | .ok bytes => do
      let lines ← (fileLines bytes).mapM lineText
      return lines.filterMap reader.readEntry

/-- The number of new commands, and the contents of the file from then on. -/
def appendCommands (file : HistoryFile) (hostAlias : String) (commands : List String)
    (source : String) (usedAtUnix : UInt64) : Result (Nat × List UInt8) := do
  let entries ← reader.readCommands file
  let (entries, added) := commands.foldl (useCommand hostAlias source usedAtUnix) (entries, 0)
  return (added, reader.writeCommands (trimEntries entries))

/-- The commands of an alias, from the newest entry on, behind those there are already. -/
def listFrom (hostAlias : String) (limit : Nat) (output : List String) :
    List CommandHistoryEntry → List String
  | [] => output
  | entry :: older =>
      if entry.hostAlias = hostAlias ∧ entry.source ≠ "remote" then
        let output := output ++ [entry.command]
        if output.length ≥ limit then output else listFrom hostAlias limit output older
      else listFrom hostAlias limit output older

def listCommands (file : HistoryFile) (hostAlias : String) (limit : Nat) :
    Result (List String) := do
  let entries ← reader.readCommands file
  return listFrom hostAlias limit [] entries.reverse

end CommandReader

/-! ## Runs -/

def PAGE_SIZE : Nat := 50

structure HistoryEntryDto where
  id : String
  hostAlias : String
  username : Option String
  source : Option String
  command : String
  exitStatus : Option UInt32
  succeeded : Bool
  outputPreview : String
  startedAtUnix : UInt64
  durationMs : UInt64
deriving DecidableEq, Repr

structure HistoryPage where
  entries : List HistoryEntryDto
  total : Nat
  page : Nat
  pageSize : Nat
deriving DecidableEq, Repr

/-! ### Numbers of 64 bits

An operation that does not stay within them stops the program. -/

def addUsize (a b : Nat) : Result Nat := do
  bailIf (a + b ≥ 2 ^ 64) "attempt to add with overflow"
  return a + b

def subUsize (a b : Nat) : Result Nat := do
  bailIf (a < b) "attempt to subtract with overflow"
  return a - b

def mulUsize (a b : Nat) : Result Nat := do
  bailIf (a * b ≥ 2 ^ 64) "attempt to multiply with overflow"
  return a * b

def divCeil (a b : Nat) : Nat := if a % b > 0 then a / b + 1 else a / b

/-- What is asked of a run to be shown. -/
structure PageFilter where
  dayRange : Option (UInt64 × UInt64)
  hostAlias : Option String

/-- How a line is read as a run. -/
abbrev RunReader : Type := String → Option HistoryEntryDto

namespace RunReader

variable (fromStr : RunReader) (filter : PageFilter)

def inRange (line : String) : Bool :=
  match fromStr line with
  | none => false
  | some entry =>
      if filter.hostAlias.any fun hostAlias ↦ entry.hostAlias ≠ hostAlias then false
      else
        match filter.dayRange with
        | some (start, stop) => start ≤ entry.startedAtUnix ∧ entry.startedAtUnix < stop
        | none => true

/-- The number of lines in the range, `n` being that of the lines before. -/
def countLines (n : Nat) : List (Option String) → Result Nat
  | [] => .ok n
  | line :: lines => do
      let line ← lineText line
      countLines (← addUsize n (inRange fromStr filter line).toNat) lines

/-- The lines up to the first one that is no text. -/
def textsBefore : List (Option String) → List String
  | some line :: lines => line :: textsBefore lines
  | _ => []

def page (file : HistoryFile) (requested : UInt64) : Result HistoryPage :=
  match file with
  | .error .notFound => .ok ⟨[], 0, 1, PAGE_SIZE⟩
  | .error kind => io kind kind.description
  | .ok bytes => do
      let total ← countLines fromStr filter 0 (fileLines bytes)
      let page := min (max requested.toNat 1) (max (divCeil total PAGE_SIZE) 1)
      let stop := total - (← mulUsize (← subUsize page 1) PAGE_SIZE)
      let start := stop - PAGE_SIZE
      let shown := (((textsBefore (fileLines bytes)).filter (inRange fromStr filter)).drop
        start).take (← subUsize stop start)
      let entries ← shown.mapM fun line ↦
        context "运行记录损坏；原文件已保留，请备份后检查"
          (ofOption "invalid entry" (fromStr line))
      return ⟨entries.reverse, total, page, PAGE_SIZE⟩

end RunReader

end KaduoxSsh.Desktop.History
