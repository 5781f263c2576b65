import KaduoxSsh.Desktop.Classify
import KaduoxSsh.Hosts.Toml

/-!
# Tool calls in an answer

The calls that `ai.rs` finds in the answer of a provider: those of the answer's own list, and
where there are none, those that the model has written into its text. There are two ways to
write them, markup in blocks and lines that begin with `command:`.

What a JSON text has at its keys is a parameter. Of the answer only what the three functions
read is here.
-/

namespace KaduoxSsh.Desktop.Ai

open Hosts Text Result

/-! ## Commands -/

def maxToolCalls : Nat := 4

/-- `validate_command` of `util.rs`. -/
def validateCommand (command : String) : Result Unit := do
  bailIf (command = "" ∨ (utf8 command).length > 16 * 1024) "命令长度必须在 1..=16384 字节之间"
  bailIf ('\x00' ∈ command.toList) "命令不能包含 NUL 字符"
  bailIf ('\n' ∈ command.toList ∨ '\r' ∈ command.toList) "命令不能包含换行符"

structure AiToolCall where
  id : String
  name : String
  hostAlias : String
  command : String
  reason : String
  riskLevel : String
deriving DecidableEq, Repr

section

variable [Alphabetic] (targetAlias : String) (platform : TargetPlatform)

/-- A call from texts in the answer. -/
def buildToolCall (id : String) (command reason : List Char) : Result AiToolCall := do
  let command := String.ofList (trim command)
  validateCommand command
  return {
    id
    name := "execute_command"
    hostAlias := targetAlias
    command
    reason := String.ofList ((trim reason).take 500)
    riskLevel := (classifyCommandFor command platform).asStr }

/-! ## Calls of the answer -/

structure CompletionToolCallFunction where
  name : Option String
  arguments : Option String

structure CompletionToolCall where
  id : Option String
  function : Option CompletionToolCallFunction

structure CompletionMessage where
  content : Option String
  toolCalls : Option (List CompletionToolCall)

/-- What a text is as JSON: what is wrong with it, or the texts at its keys. -/
abbrev JsonTexts : Type := String → Except String (String → Option String)

variable (json : JsonTexts)

def parseToolCall (index : Nat) (call : CompletionToolCall) : Result (Option AiToolCall) := do
  let function ← ofOption "AI 工具调用缺少 function" call.function
  let name := function.name.getD ""
  if name ≠ "execute_command" then return none
  else
    let arguments ← context "AI 工具调用参数不是有效 JSON"
      (match json (function.arguments.getD "\x7b\x7d") with
        | .ok arguments => .ok arguments
        | .error text => bail text)
    let command ← ofOption "AI 工具调用缺少 command"
      (((arguments "command").map fun v ↦ String.ofList (trim v.toList)).filter (· ≠ ""))
    validateCommand command
    return some {
      id := call.id.getD s!"call-{index}"
      name
      hostAlias := targetAlias
      command
      reason := String.ofList ((trim ((arguments "reason").getD "").toList).take 500)
      riskLevel := (classifyCommandFor command platform).asStr }

def parseToolCallsFrom : Nat → List CompletionToolCall → Result (List AiToolCall)
  | _, [] => .ok []
  | index, call :: rest => do
      let first ← parseToolCall targetAlias platform json index call
      let others ← parseToolCallsFrom (index + 1) rest
      return first.toList ++ others

def parseToolCalls (message : CompletionMessage) : Result (List AiToolCall) :=
  parseToolCallsFrom targetAlias platform json 0 ((message.toolCalls.getD []).take maxToolCalls)

/-! ## Markup -/

def dsmlOpen : List Char := "<|DSML|tool_calls>".toList

def dsmlClose : List Char := "</|DSML|tool_calls>".toList

def invokeOpen : List Char := "<|DSML|invoke name=\"".toList

def parameterClose : List Char := "</|DSML|parameter>".toList

def dsmlParameter (block : List Char) (name : String) : Option (List Char) := do
  let (_, after) ← splitAtFirst ("<|DSML|parameter name=\"" ++ name ++ "\"").toList block
  let (_, value) ← splitAtFirst ['>'] after
  let (value, _) ← splitAtFirst parameterClose value
  return trim value

/-- The pieces between the copies of a pattern that do not overlap. Characters of a copy are
skipped, and a piece may have been begun. -/
def splitFrom (pattern : List Char) : Nat → List Char → List Char → List (List Char)
  | _, piece, [] => [piece]
  | skip + 1, piece, _ :: cs => splitFrom pattern skip piece cs
  | 0, piece, c :: cs =>
      if pattern <+: c :: cs then piece :: splitFrom pattern (pattern.length - 1) [] cs
      else splitFrom pattern 0 (piece ++ [c]) cs

/-- The calls that a block asks for. -/
def invokes (block : List Char) : List (List Char) := (splitFrom invokeOpen 0 [] block).drop 1

/-- The command and the reason that are asked for. -/
def invokeTexts (invoke : List Char) : Option (List Char × List Char) := do
  let (name, _) ← splitAtFirst ['"'] invoke
  if name ≠ "execute_command".toList then none
  else
    let command ← dsmlParameter invoke "command"
    return (command, (dsmlParameter invoke "reason").getD [])

/-- The call that is made of what is asked for. -/
def invokeCall (id : String) (invoke : List Char) : Option AiToolCall := do
  let (command, reason) ← invokeTexts invoke
  (buildToolCall targetAlias platform id command reason).toOption

/-- A block is left as soon as there are calls enough. -/
def collectInvokes (calls : List AiToolCall) : List (List Char) → List AiToolCall
  | [] => calls
  | invoke :: rest =>
      match invokeCall targetAlias platform s!"dsml-{calls.length}" invoke with
      | none => collectInvokes calls rest
      | some call =>
          if calls.length + 1 ≥ maxToolCalls then calls ++ [call]
          else collectInvokes (calls ++ [call]) rest

omit [Alphabetic] in
/-- What is behind a block is shorter. -/
theorem length_lt_of_block {rest before afterOpen block behind : List Char}
    (hopen : splitAtFirst dsmlOpen rest = some (before, afterOpen))
    (hclose : splitAtFirst dsmlClose afterOpen = some (block, behind)) :
    behind.length < rest.length :=
  (length_lt_of_splitAtFirst (by decide) hclose).trans
    (length_lt_of_splitAtFirst (by decide) hopen)

/-- The text outside the blocks, and the blocks. An incomplete one is dropped with all that is
behind its beginning. -/
def dsmlBlocks (rest : List Char) : List Char × List (List Char) :=
  match _hopen : splitAtFirst dsmlOpen rest with
  | none => (rest, [])
  | some (before, afterOpen) =>
      match _hclose : splitAtFirst dsmlClose afterOpen with
      | none => (before, [])
      | some (block, behind) =>
          let (cleaned, blocks) := dsmlBlocks behind
          (before ++ cleaned, block :: blocks)
termination_by rest.length
decreasing_by exact length_lt_of_block _hopen _hclose

def extractDsmlToolCalls (content : String) : String × List AiToolCall :=
  let (cleaned, blocks) := dsmlBlocks content.toList
  let calls := blocks.foldl (fun calls block ↦
    collectInvokes targetAlias platform calls (invokes block)) []
  (String.ofList (trim cleaned), calls)

/-! ## Lines -/

/-- What is behind a label, with a colon of either width. -/
def labelled (label : String) (line : List Char) : Option String :=
  let trimmed := String.ofList (trim line)
  stripPrefix trimmed (label ++ ":") <|> stripPrefix trimmed (label ++ "：")

def isSeparator (line : List Char) : Bool :=
  ["---", "***", "___"].contains (String.ofList (trim line))

/-- A scan of lines, which are of any type. A reason is held back with its line. -/
structure TextualScan (α : Type) where
  calls : List AiToolCall
  kept : List α
  pendingReason : Option (List Char)
  pendingReasonLine : Option α

namespace TextualScan

variable {α : Type}

def start : TextualScan α := ⟨[], [], none, none⟩

/-- The line that is held back is kept. -/
def flush (s : TextualScan α) : TextualScan α :=
  match s.pendingReasonLine with
  | some line =>
      { s with kept := s.kept ++ [line], pendingReason := none, pendingReasonLine := none }
  | none => s

/-- A line that is no part of a call. Separators mean nothing once calls have been taken out. -/
def keep (text : α → List Char) (s : TextualScan α) (line : α) : TextualScan α :=
  let s := s.flush
  if s.calls ≠ [] ∧ isSeparator (text line) = true then s else { s with kept := s.kept ++ [line] }

def step (text : α → List Char) (s : TextualScan α) (line : α) : TextualScan α :=
  match if s.pendingReasonLine.isNone ∧ s.calls.length < maxToolCalls then
      labelled "reason" (text line) else none with
  | some reason =>
      { s with pendingReason := some (trim reason.toList), pendingReasonLine := some line }
  | none =>
      match if s.calls.length < maxToolCalls then labelled "command" (text line) else none with
      | some command =>
          let reason := s.pendingReason.getD []
          let s := { s with pendingReason := none, pendingReasonLine := none }
          let id := s!"text-{s.calls.length}"
          match buildToolCall targetAlias platform id command.toList reason with
          | .ok call => { s with calls := s.calls ++ [call] }
          | .error _ => s.keep text line
      | none => s.keep text line

def run (text : α → List Char) (s : TextualScan α) (lines : List α) : TextualScan α :=
  lines.foldl (step targetAlias platform text) s

end TextualScan

def extractTextualToolCalls (content : String) : String × List AiToolCall :=
  let s := TextualScan.start.run targetAlias platform id (Toml.lines content.toList)
  (String.ofList (trim (['\n'].intercalate s.flush.kept)), s.calls)

end

end KaduoxSsh.Desktop.Ai
