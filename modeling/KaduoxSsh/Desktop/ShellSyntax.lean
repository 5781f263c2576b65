import KaduoxSsh.Lib.Scan
import KaduoxSsh.Lib.Words

/-!
# The words of a command line

A reader of command lines for a shell, which follows the quotes and the words. It
knows the four forms of quoting, which are backslashes, single quotes, double
quotes and the `$'…'` of ANSI-C, and the bytes that end a word. Of the operators it
only tells apart what concerns redirects, and a backslash in double quotes keeps the
next byte from ending them, whether it escapes that byte or not.

A shell knows more than that. Where the reader comes to a comment, a here-document,
a substitution of commands, arithmetic, or a `$\x7b…\x7d` with more than plain text
in it, what follows is not read as a shell reads it. Up to there it is, so that the
reader also finds the first such place, and a command line without one has
`KnownSyntax`.
-/

namespace KaduoxSsh.Desktop

open Text

namespace Shell

/-- The quotes that a byte stands in. Outside of quotes, whether there is a `$` before it that
starts an expansion. -/
inductive Quoting where
  | bare (dollar : Bool)
  | single
  | double
  | ansiC
deriving DecidableEq, Repr

/-- The bytes from an index on start with two characters. -/
def startsPair (bytes : List UInt8) (i : Nat) (c d : Char) : Bool :=
  bytes[i]? == some (byte c) && bytes[i + 1]? == some (byte d)

/-- What there is of the current word. -/
inductive Word where
  | empty
  | two
  | other
deriving DecidableEq, Repr

/-- What a shell has read of the current word, and whether the last byte of it outside quotes is a
`2`. -/
structure WordState where
  i : Nat
  quoting : Quoting
  word : Word
  endsInTwo : Bool
deriving DecidableEq, Repr

/-- The bytes outside quotes that end a word. -/
def isMetacharacter (b : UInt8) : Bool :=
  [byte ' ', byte '\t', byte '\n', byte ';', byte '&', byte '|', byte '<', byte '>', byte '(',
    byte ')'].contains b

namespace WordState

def init : WordState where
  i := 0
  quoting := .bare false
  word := .empty
  endsInTwo := false

/-- Some bytes in quotes, or a quote. -/
def quote (s : WordState) (width : Nat) (quoting : Quoting) : WordState :=
  { s with i := s.i + width, quoting, word := .other }

/-- Some bytes that end a word. -/
def endWord (s : WordState) (width : Nat) : WordState :=
  { s with i := s.i + width, quoting := .bare false, word := .empty, endsInTwo := false }

/-- How many bytes an operator has that starts with some byte. -/
def operatorWidth (b : UInt8) (next : Option UInt8) : Nat :=
  if b = byte '&' ∧ (next = some (byte '&') ∨ next = some (byte '>')) then 2
  else if b = byte '|' ∧ next = some (byte '|') then 2
  else if b = byte '>' ∧ (next = some (byte '&') ∨ next = some (byte '>')) then 2
  else 1

/-- A byte outside quotes. -/
def bare (s : WordState) (bytes : List UInt8) (b : UInt8) (dollar : Bool) : WordState :=
  let next := bytes[s.i + 1]?
  if b = byte '\\' then
    -- A line continuation is no part of the word.
    if next = some (byte '\n') then
      { s with i := s.i + 2, quoting := .bare dollar, endsInTwo := false }
    else
      { s with
        i := s.i + 2
        quoting := .bare false
        word := .other
        endsInTwo := next == some (byte '2') }
  else if b = byte '\'' then s.quote 1 (if dollar then .ansiC else .single)
  else if b = byte '"' then s.quote 1 .double
  else if isMetacharacter b then s.endWord (operatorWidth b next)
  else
    { s with
      i := s.i + 1
      -- `$$` is an expansion by itself.
      quoting := .bare (b == byte '$' && !dollar)
      word := if b = byte '2' ∧ s.word = .empty then .two else .other
      endsInTwo := b == byte '2' }

/-- The next bytes, in the quotes that they stand in. -/
def next (bytes : List UInt8) (s : WordState) : WordState :=
  match bytes[s.i]? with
  | none => s
  | some b =>
      match s.quoting with
      | .bare dollar => s.bare bytes b dollar
      | .single => if b = byte '\'' then s.quote 1 (.bare false) else s.quote 1 .single
      | .double =>
          if b = byte '"' then s.quote 1 (.bare false)
          else if b = byte '\\' then s.quote 2 .double
          else s.quote 1 .double
      | .ansiC =>
          if b = byte '\'' then s.quote 1 (.bare false)
          else if b = byte '\\' then s.quote 2 .ansiC
          else s.quote 1 .ansiC

variable (s : WordState) (bytes : List UInt8) (b : UInt8)

theorem operatorWidth_pos (next : Option UInt8) : 0 < operatorWidth b next := by
  unfold operatorWidth
  split_ifs
  all_goals decide

theorem lt_next (hlt : s.i < bytes.length) : s.i < (s.next bytes).i := by
  have hwidth (b : UInt8) (next : Option UInt8) : s.i < s.i + operatorWidth b next :=
    Nat.lt_add_of_pos_right (operatorWidth_pos b next)
  unfold next
  rw [List.getElem?_eq_getElem hlt]
  unfold bare quote endWord
  dsimp only
  cases s.quoting
  all_goals
    dsimp only
    split_ifs
    all_goals first | exact Nat.lt_add_of_pos_right (by decide) | exact hwidth _ _

end WordState

/-- The reader of the words of a command line. -/
def wordReader (bytes : List UInt8) : Scanner WordState where
  stop := bytes.length
  pos := WordState.i
  next := WordState.next bytes
  pos_lt_next s hlt := s.lt_next bytes hlt

/-! ## Syntax that is not read -/

/-- Quotes, operators and line ends. -/
def intricate : List UInt8 :=
  [byte '\'', byte '"', byte '\\', byte '`', byte ';', byte '&', byte '|', byte '<', byte '>',
    byte '(', byte ')', byte '\n', byte '\r']

/-- What a `$\x7b` opens is closed, and there are no quotes, operators or line ends before. -/
def closesPlainly : Nat → List UInt8 → Bool
  | _, [] => false
  | depth, b :: rest =>
      if b = byte '\x7b' then closesPlainly (depth + 1) rest
      else if b = byte '\x7d' then depth == 0 || closesPlainly (depth - 1) rest
      else
        !intricate.contains b && closesPlainly depth rest

namespace WordState

/-- An operator `<<`. In `<<<` it is none. -/
def opensHereDocument (bytes : List UInt8) (s : WordState) : Bool :=
  startsPair bytes s.i '<' '<' && bytes[s.i + 2]? != some (byte '<') &&
    !(s.word == .empty && 0 < s.i && bytes[s.i - 1]? == some (byte '<'))

/-- Something at the current byte that the reader does not know. -/
def isForeign (bytes : List UInt8) (s : WordState) : Bool :=
  let next := bytes[s.i + 1]?
  match bytes[s.i]?, s.quoting with
  | some b, .bare dollar =>
      -- A comment.
      b == byte '#' && s.word == .empty ||
      b == byte '`' ||
      -- Arithmetic, `$(…)`, `<(…)`, `>(…)`, and what else has parentheses inside a word.
      b == byte '(' && (s.word != .empty || next == some (byte '(')) ||
      [byte '<', byte '>'].contains b && next == some (byte '(') ||
      dollar && b == byte '[' ||
      dollar && b == byte '\x7b' && !closesPlainly 0 (bytes.drop (s.i + 1)) ||
      s.opensHereDocument bytes ||
      -- A line continuation that may stand inside an operator.
      [byte '&', byte '|', byte '<', byte '>'].contains b && startsPair bytes (s.i + 1) '\\' '\n'
  | some b, .double =>
      b == byte '`' ||
      b == byte '$' &&
        ([some (byte '('), some (byte '[')].contains next || startsPair bytes (s.i + 1) '\\' '\n' ||
          next == some (byte '\x7b') && !closesPlainly 0 (bytes.drop (s.i + 2)))
  | _, _ => false

/-- A parenthesis outside quotes. -/
def opensGroup (bytes : List UInt8) (s : WordState) : Bool :=
  match s.quoting with
  | .bare _ => bytes[s.i]? == some (byte '(')
  | _ => false

end WordState

/-- Nowhere in a command line the reader comes to something that it does not know. -/
def KnownSyntax (command : String) : Prop :=
  ∀ s ∈ (wordReader (utf8 command)).trace WordState.init, s.isForeign (utf8 command) = false

instance (command : String) : Decidable (KnownSyntax command) :=
  inferInstanceAs (Decidable (∀ s ∈ (wordReader (utf8 command)).trace WordState.init, _))

/-- Without the line continuations, as far as there are no quotes. -/
def joinLines : List UInt8 → List UInt8
  | [] => []
  | [b] => [b]
  | b :: c :: rest =>
      if b = byte '\\' then if c = byte '\n' then joinLines rest else b :: c :: joinLines rest
      else b :: joinLines (c :: rest)

/-- The bytes of the first word. -/
def firstWord (bytes : List UInt8) : List UInt8 :=
  ((joinLines bytes).dropWhile fun b ↦ b == byte ' ' || b == byte '\t').takeWhile
    fun b ↦ !isMetacharacter b

/-- The words that make a command more than a simple one if they stand at its start. -/
def reservedWords : List String :=
  ["!", "\x7b", "\x7d", "[[", "case", "coproc", "do", "done", "elif", "else", "esac", "fi", "for",
    "function", "if", "select", "then", "time", "until", "while"]

def startsReserved (bytes : List UInt8) : Bool :=
  reservedWords.any fun word ↦ utf8 word == firstWord bytes

end Shell

end KaduoxSsh.Desktop
