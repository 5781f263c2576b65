import KaduoxSsh.Hosts.Model
import KaduoxSsh.Lib.Markers
import KaduoxSsh.Lib.Words

/-!
# Names for downloaded files

`safe_local_filename` of `tui_actions.rs` makes a local name of a remote one, and
`validate_local_leaf` accepts what it leaves alone. The browser offers such a name
in a prompt. For a file the prompt is shown as it is; the one for a directory is
taken apart again, because the user is asked for the parent directory first, and
what stands behind the last marker in it is offered in a prompt of its own.
-/

namespace KaduoxSsh.Cli

open Text Hosts Markers

/-! ## Local names -/

/-- The characters that a local name must not have. -/
def isReserved (ch : Char) : Bool :=
  isControl ch || ['/', '\\', ':', '*', '?', '"', '<', '>', '|'].contains ch

def replaceReserved (ch : Char) : Char := if isReserved ch then '_' else ch

def endsBlank (output : List Char) : Bool :=
  output.getLast? = some ' ' || output.getLast? = some '.'

/-- The loop that replaces a blank or dot at the end. What it writes ends it. -/
def replaceTrailing (output : List Char) : List Char :=
  if endsBlank output then output.dropLast ++ ['_'] else output

def deviceNames : List String :=
  ["CON", "PRN", "AUX", "NUL", "COM1", "COM2", "COM3", "COM4", "COM5", "COM6", "COM7", "COM8",
    "COM9", "LPT1", "LPT2", "LPT3", "LPT4", "LPT5", "LPT6", "LPT7", "LPT8", "LPT9"]

/-- What is compared with the names of devices. -/
def stem (output : List Char) : String :=
  toAsciiUppercase (String.ofList (trim (output.takeWhile fun c ↦ c ≠ '.')))

def safeLocalFilename (remoteName : String) : String :=
  let output := replaceTrailing (remoteName.toList.map replaceReserved)
  let output :=
    if output = [] ∨ output = ['.'] ∨ output = ['.', '.'] then "download.bin".toList else output
  let output := if stem output ∈ deviceNames then '_' :: output else output
  String.ofList output

def validateLocalLeaf (name : String) : Result Unit :=
  if name = "" ∨ safeLocalFilename name ≠ name then
    Result.bail ("local download name must be a portable leaf name without path separators, " ++
      "controls, reserved punctuation/device names, or trailing space/dot")
  else .ok ()

/-! ## Prompts -/

def terminalSafeChar (ch : Char) : List Char :=
  if ch = '\n' then ['\\', 'n']
  else if ch = '\r' then ['\\', 'r']
  else if ch = '\t' then ['\\', 't']
  else if ch = '\x1b' then ['\\', 'x', '1', 'b']
  else if isControl ch then ['\\', 'u', '\x7b'] ++ Nat.toDigits 16 ch.toNat ++ ['\x7d']
  else [ch]

def terminalSafe (value : String) : String :=
  String.ofList (value.toList.flatMap terminalSafeChar)

def LOCAL_FILE_UPLOAD_PROMPT : String := "local file to upload (empty cancels): "

def LOCAL_DIRECTORY_UPLOAD_PROMPT : String :=
  "local directory to upload recursively (empty cancels): "

def RECURSIVE_DOWNLOAD_PREFIX : String := "recursively download "

def RECURSIVE_DOWNLOAD_DESTINATION_MARKER : String := " to local directory ["

def RECURSIVE_DOWNLOAD_DESTINATION_SUFFIX : String := "]: "

def RECURSIVE_DOWNLOAD_CONFIRM_PREFIX : String := "recursive download to "

def RECURSIVE_DOWNLOAD_CONFIRM_SUFFIX : String :=
  " uses bounded concurrency and skips symlinks; type YES to continue: "

def recursiveDownloadDefaultName (prompt : String) : Option String := do
  let remainder ← stripPrefix prompt RECURSIVE_DOWNLOAD_PREFIX
  let (_, defaultName) ←
    splitAtLast RECURSIVE_DOWNLOAD_DESTINATION_MARKER.toList remainder.toList
  let defaultName ← stripSuffix RECURSIVE_DOWNLOAD_DESTINATION_SUFFIX.toList defaultName
  some (String.ofList defaultName)

def isRecursiveDownloadConfirmationPrompt (prompt : String) : Bool :=
  startsWith prompt RECURSIVE_DOWNLOAD_CONFIRM_PREFIX &&
    decide (RECURSIVE_DOWNLOAD_CONFIRM_SUFFIX.toList <:+ prompt.toList)

inductive LocalPickKind where
  | file
  | directory
deriving DecidableEq, Repr

def localPickerKind (prompt : String) : Option LocalPickKind :=
  if prompt = LOCAL_FILE_UPLOAD_PROMPT then some .file
  else if prompt = LOCAL_DIRECTORY_UPLOAD_PROMPT then some .directory
  else none

/-- What `prompt_line` does with a prompt: it answers itself, asks for a parent directory and a name
in it, lets the user pick a path, or shows the prompt and reads a line. -/
inductive PromptLine where
  | skipped
  | destination (defaultName : String)
  | picker (kind : LocalPickKind)
  | plain
deriving DecidableEq, Repr

/-- The branch that `prompt_line` takes, when the last picker was cancelled or not. -/
def promptLine (pickerCancelled : Bool) (prompt : String) : PromptLine :=
  if isRecursiveDownloadConfirmationPrompt prompt && pickerCancelled then .skipped
  else
    match recursiveDownloadDefaultName prompt with
    | some defaultName => .destination defaultName
    | none =>
        match localPickerKind prompt with
        | some kind => .picker kind
        | none => .plain

/-- The loop that asks for the name of a directory, with the lines that the user types: nothing
while it still asks, otherwise the name, if the user has not cancelled. -/
def promptLocalDownloadLeaf (defaultName : String) : List String → Option (Option String)
  | [] => none
  | line :: lines =>
      let input := String.ofList (trim line.toList)
      if input = "CANCEL" then some none
      else
        let candidate := if input = "" then defaultName else input
        match validateLocalLeaf candidate with
        | .ok () => some (some candidate)
        | .error _ => promptLocalDownloadLeaf defaultName lines

/-- The prompt of `download_selected`. -/
def downloadPrompt (path name : String) : String :=
  "download " ++ terminalSafe path ++ " to local path [" ++
    terminalSafe (safeLocalFilename name) ++ "]: "

/-- Where `download_selected` writes, for a line that is read. -/
def downloadDestination (name input : String) : String :=
  if input = "" then safeLocalFilename name else input

/-- The prompt of `download_selected_directory`. -/
def recursiveDownloadPrompt (path name : String) : String :=
  "recursively download " ++ terminalSafe path ++ " to local directory [" ++
    terminalSafe (safeLocalFilename name) ++ "]: "

example : safeLocalFilename "bad\\name:?.txt" = "bad_name__.txt" := by decide

example : recursiveDownloadDefaultName
    "recursively download /srv/logs to local directory [logs]: " = some "logs" := by decide

end KaduoxSsh.Cli
