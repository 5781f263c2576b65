import Mathlib.Data.List.TakeWhile

/-!
# The command language of POSIX

A reader that cuts a text into tokens character by character, as the rules of token
recognition have it, and a parser for simple commands that are joined by `&&`.

The reader knows quoting, comments, line continuations, the numbers of descriptors in front of a
redirection and all operators. A text in which an expansion or a here-document starts is not read,
and neither is one whose quotes are left open.
The parser knows no other operator than `&&`. What the grammar leaves to the shell, such
as whether `time` is a reserved word, is a parameter.
-/

namespace KaduoxSsh.Posix

open List

/-! ## Tokens -/

/-- A character of a word, and whether quotes make it literal. -/
structure Piece where
  char : Char
  quoted : Bool
deriving DecidableEq, Repr

abbrev Word := List Piece

namespace Word

def text (w : Word) : String := String.ofList (w.map Piece.char)

/-- Characters that stand without quotes. -/
def plain (cs : List Char) : Word := cs.map (⟨·, false⟩)

/-- Characters that stand in quotes. -/
def literal (cs : List Char) : Word := cs.map (⟨·, true⟩)

/-- Whether a path name or a home directory may be put in the place of a word. -/
def expands (w : Word) : Bool := w.any fun p ↦ !p.quoted && ['*', '?', '[', '~'].contains p.char

/-- Digits without quotes, which a redirection behind them takes for a descriptor. -/
def isNumber (w : Word) : Bool := w ≠ [] && w.all fun p ↦ !p.quoted && p.char.isDigit

/-- What a word stands for, if nothing is expanded in it. -/
def field (w : Word) : Option String := if w.expands then none else some w.text

@[simp] theorem text_plain (cs : List Char) : (plain cs).text = String.ofList cs := by
  rw [text, plain, map_map]
  exact congrArg String.ofList (map_id cs)

@[simp] theorem text_literal (cs : List Char) : (literal cs).text = String.ofList cs := by
  rw [text, literal, map_map]
  exact congrArg String.ofList (map_id cs)

theorem field_literal (cs : List Char) : (literal cs).field = some (String.ofList cs) := by
  have hexpands : (literal cs).expands = false := by
    rw [expands, any_eq_false]
    intro p hp
    obtain ⟨c, -, rfl⟩ := mem_map.mp hp
    simp
  rw [field, hexpands, if_neg Bool.false_ne_true, text_literal]

theorem field_plain {cs : List Char} (h : ∀ c ∈ cs, ['*', '?', '[', '~'].contains c = false) :
    (plain cs).field = some (String.ofList cs) := by
  have hexpands : (plain cs).expands = false := by
    rw [expands, any_eq_false]
    intro p hp
    obtain ⟨c, hc, rfl⟩ := mem_map.mp hp
    rw [h c hc]
    simp
  rw [field, hexpands, if_neg Bool.false_ne_true, text_plain]

end Word

inductive Operator where
  | newline
  | semi
  | dsemi
  | amp
  | andIf
  | pipe
  | orIf
  | lparen
  | rparen
  | less
  | lessAnd
  | lessGreat
  | great
  | dgreat
  | greatAnd
  | clobber
deriving DecidableEq, Repr

namespace Operator

/-- The operator that a character starts. -/
def ofChar : Char → Option Operator
  | '\n' => some .newline
  | ';' => some .semi
  | '&' => some .amp
  | '|' => some .pipe
  | '(' => some .lparen
  | ')' => some .rparen
  | '<' => some .less
  | '>' => some .great
  | _ => none

/-- The longer operator that a further character makes. -/
def extend : Operator → Char → Option Operator
  | .semi, ';' => some .dsemi
  | .amp, '&' => some .andIf
  | .pipe, '|' => some .orIf
  | .less, '&' => some .lessAnd
  | .less, '>' => some .lessGreat
  | .great, '>' => some .dgreat
  | .great, '&' => some .greatAnd
  | .great, '|' => some .clobber
  | _, _ => none

/-- Only the characters that start operators make one longer. -/
theorem extend_eq_none {op : Operator} {c : Char} (hc : ofChar c = none) :
    op.extend c = none := by
  unfold extend
  split <;> first | rfl | exact absurd hc (by decide)

end Operator

inductive Token where
  | word (w : Word)
  /-- The descriptor that the redirection behind it is about. -/
  | ioNumber (digits : String)
  | operator (op : Operator)
deriving DecidableEq, Repr

/-! ## The reader -/

/-- What the next character is read as. -/
inductive Mode where
  | bare
  | escaped
  | single
  | double
  | doubleEscaped
  | comment
  | operator (op : Operator)
deriving DecidableEq, Repr

structure Reader where
  tokens : List Token
  /-- The word that the next character belongs to, if it does not end it. -/
  word : Option Word
  mode : Mode
deriving DecidableEq, Repr

namespace Reader

def init : Reader := ⟨[], none, .bare⟩

/-- Quotes begin. They make a word, even with nothing in them. -/
def enter (r : Reader) (mode : Mode) : Reader := { r with word := some (r.word.getD []), mode }

def push (r : Reader) (p : Piece) (mode : Mode) : Reader :=
  { r with word := some (r.word.getD [] ++ [p]), mode }

/-- The word is complete, if there is one. -/
def delimit (r : Reader) (mode : Mode) : Reader where
  tokens := r.tokens ++ (r.word.map Token.word).toList
  word := none
  mode := mode

/-- A word of digits in front of a redirection is the number of a descriptor. -/
def number (r : Reader) : Reader :=
  match r.word with
  | some w =>
      if w.isNumber then { r with tokens := r.tokens ++ [.ioNumber w.text], word := none } else r
  | none => r

def emit (r : Reader) (op : Operator) : Reader :=
  { r with tokens := r.tokens ++ [.operator op], mode := .bare }

/-- A character outside quotes, operators and comments. -/
def bare (r : Reader) (c : Char) : Option Reader :=
  if c = '\\' then some { r with mode := .escaped }
  else if c = '\x27' then some (r.enter .single)
  else if c = '"' then some (r.enter .double)
  else if c = '$' ∨ c = '`' then none
  else match Operator.ofChar c with
    | some op =>
        some ((if c = '<' ∨ c = '>' then r.number else r).delimit (.operator op))
    | none =>
        if c = ' ' ∨ c = '\t' then some (r.delimit .bare)
        else if c = '#' ∧ r.word = none then some { r with mode := .comment }
        else some (r.push ⟨c, false⟩ .bare)

/-- One more character is read. -/
def step (r : Reader) (c : Char) : Option Reader :=
  match r.mode with
  | .bare => r.bare c
  | .operator op =>
      -- The lines of a here-document are not read.
      if op = .less ∧ c = '<' then none
      else match op.extend c with
        | some longer => some { r with mode := .operator longer }
        | none => (r.emit op).bare c
  -- A backslash at the end of a line is removed with the line end.
  | .escaped => if c = '\n' then some { r with mode := .bare } else some (r.push ⟨c, true⟩ .bare)
  | .single =>
      if c = '\x27' then some { r with mode := .bare } else some (r.push ⟨c, true⟩ .single)
  | .double =>
      if c = '"' then some { r with mode := .bare }
      else if c = '\\' then some { r with mode := .doubleEscaped }
      else if c = '$' ∨ c = '`' then none
      else some (r.push ⟨c, true⟩ .double)
  | .doubleEscaped =>
      if c = '\n' then some { r with mode := .double }
      else if ['$', '`', '"', '\\'].contains c then some (r.push ⟨c, true⟩ .double)
      else some ((r.push ⟨'\\', true⟩ .double).push ⟨c, true⟩ .double)
  | .comment => if c = '\n' then r.bare c else some r

def run (r : Reader) (cs : List Char) : Option Reader := cs.foldlM step r

/-- The tokens of a text that ends here. -/
def finish (r : Reader) : Option (List Token) :=
  match r.mode with
  | .bare | .comment => some (r.delimit .bare).tokens
  | .operator op => some (r.emit op).tokens
  | .escaped | .single | .double | .doubleEscaped => none

end Reader

def tokenize (cs : List Char) : Option (List Token) := (Reader.init.run cs).bind Reader.finish

/-! ## Reading in parts -/

/-- The character that ends a word outside quotes. -/
def Delimits (c : Char) : Prop := (Operator.ofChar c).isSome = true ∨ c = ' ' ∨ c = '\t'

instance decidableDelimits (c : Char) : Decidable (Delimits c) :=
  inferInstanceAs (Decidable (_ ∨ _))

/-- A text at which a word in front of it ends, and is not taken for a number. -/
def EndsWord (w : Word) (cs : List Char) : Prop :=
  ∀ c ∈ cs.head?, Delimits c ∧ (c = '<' ∨ c = '>' → w.isNumber = false)

namespace Reader

variable {r : Reader} {c : Char} {cs cs' : List Char}

theorem run_cons : r.run (c :: cs) = (r.step c).bind (·.run cs) := rfl

theorem run_append : r.run (cs ++ cs') = (r.run cs).bind (·.run cs') := List.foldlM_append

/-- A reader that has read some tokens before. -/
def after (ts : List Token) (r : Reader) : Reader := { r with tokens := ts ++ r.tokens }

variable (ts : List Token)

theorem number_after : (r.after ts).number = r.number.after ts := by
  have hword : (r.after ts).word = r.word := rfl
  unfold number
  rw [hword]
  cases r.word with
  | none => rfl
  | some w =>
      dsimp only
      split
      · rw [after, after, List.append_assoc]
      · rfl

theorem bare_after : (r.after ts).bare c = (r.bare c).map (after ts) := by
  have hdelimit (r : Reader) (mode : Mode) :
      (r.after ts).delimit mode = (r.delimit mode).after ts := by
    simp only [delimit, after, List.append_assoc]
  unfold bare
  rw [hdelimit r .bare]
  cases Operator.ofChar c with
  | some op =>
      dsimp only
      rw [number_after, ← apply_ite (after ts), hdelimit]
      split_ifs <;> rfl
  | none =>
      dsimp only
      have hword : (r.after ts).word = r.word := rfl
      rw [hword]
      split_ifs <;> rfl

theorem step_after : (r.after ts).step c = (r.step c).map (after ts) := by
  have hmode : (r.after ts).mode = r.mode := rfl
  unfold step
  rw [hmode]
  cases r.mode with
  | bare => exact bare_after ts
  | operator op =>
      dsimp only
      have hemit : (r.after ts).emit op = (r.emit op).after ts := by
        simp only [emit, after, List.append_assoc]
      rw [hemit, bare_after]
      cases op.extend c with
      | some longer => split_ifs <;> rfl
      | none => split_ifs <;> rfl
  | comment =>
      dsimp only
      rw [bare_after]
      split_ifs <;> rfl
  | escaped | single | double | doubleEscaped =>
      dsimp only
      split_ifs <;> rfl

theorem run_after : (r.after ts).run cs = (r.run cs).map (after ts) := by
  induction cs generalizing r with
  | nil => rfl
  | cons c cs ih =>
      rw [run_cons, run_cons, step_after]
      cases r.step c with
      | none => rfl
      | some r' => exact ih

theorem finish_after : (r.after ts).finish = r.finish.map (ts ++ ·) := by
  have hmode : (r.after ts).mode = r.mode := rfl
  unfold finish
  rw [hmode]
  cases r.mode <;> simp [delimit, emit, after]

theorem number_of_isNumber (h : ∀ w ∈ r.word, w.isNumber = false) : r.number = r := by
  unfold number
  cases hword : r.word with
  | none => rfl
  | some w => exact if_neg (Bool.eq_false_iff.mp (h w hword))

/-- At a character that ends words it makes no difference whether the word has ended before, if it
is not taken for a number there. -/
theorem bare_of_delimits (h : Delimits c)
    (hnumber : c = '<' ∨ c = '>' → ∀ w ∈ r.word, w.isNumber = false) :
    r.bare c = (r.delimit .bare).bare c := by
  have hne : c ≠ '\\' ∧ c ≠ '\x27' ∧ c ≠ '"' ∧ ¬(c = '$' ∨ c = '`') := by
    refine ⟨?_, ?_, ?_, ?_⟩
    · rintro rfl
      revert h
      decide
    · rintro rfl
      revert h
      decide
    · rintro rfl
      revert h
      decide
    · rintro (rfl | rfl) <;> revert h <;> decide
  have hagain (mode : Mode) : (r.delimit .bare).delimit mode = r.delimit mode := by
    simp [delimit]
  unfold bare
  rw [if_neg hne.1, if_neg hne.2.1, if_neg hne.2.2.1, if_neg hne.2.2.2, if_neg hne.1,
    if_neg hne.2.1, if_neg hne.2.2.1, if_neg hne.2.2.2, hagain .bare]
  have hnone : (r.delimit .bare).number = r.delimit .bare := rfl
  cases hop : Operator.ofChar c with
  | some op =>
      refine congrArg some ?_
      by_cases hredirect : c = '<' ∨ c = '>'
      · rw [if_pos hredirect, if_pos hredirect, hnone, hagain,
          number_of_isNumber (hnumber hredirect)]
      · rw [if_neg hredirect, if_neg hredirect, hagain]
  | none =>
      rcases h with hsome | hblank
      · rw [hop] at hsome
        cases hsome
      · dsimp only
        rw [if_pos hblank, if_pos hblank]

/-- A complete word is a token of its own, between those before and those behind. -/
theorem run_word {w : Word} (hmode : r.mode = .bare) (hword : r.word = some w)
    (hend : EndsWord w cs) :
    (r.run cs).bind finish = (tokenize cs).map fun back ↦ r.tokens ++ .word w :: back := by
  have hdelimit : r.delimit .bare = init.after (r.tokens ++ [.word w]) := by
    simp [delimit, after, init, hword]
  cases cs with
  | nil =>
      change r.finish = (init.finish).map _
      rw [finish, hmode]
      simp [delimit, hword, finish, init]
  | cons c cs =>
      have hstep : r.step c = (r.delimit .bare).step c := by
        have hdelimited : (r.delimit .bare).mode = .bare := rfl
        rw [step, hmode, step, hdelimited]
        refine bare_of_delimits (hend c rfl).1 fun hredirect other hother ↦ ?_
        obtain rfl := Option.some.inj (hword.symm.trans hother)
        exact (hend c rfl).2 hredirect
      rw [run_cons, hstep, ← run_cons, hdelimit, run_after, tokenize, Option.bind_map,
        Option.map_bind]
      congr 1
      funext r'
      rw [Function.comp_apply, finish_after, Function.comp_apply]
      congr 1
      funext back
      rw [append_assoc, singleton_append]

example : tokenize "2>f".toList =
    some [.ioNumber "2", .operator .great, .word (Word.plain ['f'])] := by decide

/-- Where a word may start: after a blank, or after an operator. -/
def StartsWord (r : Reader) : Prop :=
  r.word = none ∧ (r.mode = .bare ∨ ∃ op, r.mode = .operator op)

/-- The operator just read is complete. -/
def settle (r : Reader) : Reader :=
  match r.mode with
  | .operator op => r.emit op
  | _ => r

theorem StartsWord.settled (h : r.StartsWord) :
    r.settle.mode = .bare ∧ r.settle.word = none ∧ r.finish = some r.settle.tokens := by
  obtain ⟨hword, hmode | ⟨op, hmode⟩⟩ := h
  · simp [settle, finish, delimit, hmode, hword]
  · simp [settle, finish, emit, hmode, hword]

/-- A character that starts no operator does not belong to the one before either. -/
theorem StartsWord.run_settle (h : r.StartsWord) (hc : Operator.ofChar c = none) :
    r.run (c :: cs) = r.settle.run (c :: cs) := by
  obtain ⟨-, hmode | ⟨op, hmode⟩⟩ := h
  · rw [settle, hmode]
  · have hsettle : r.settle = r.emit op := by rw [settle, hmode]
    have hbare : (r.emit op).mode = .bare := rfl
    have hless : ¬(op = .less ∧ c = '<') := by
      rintro ⟨-, rfl⟩
      cases hc
    rw [run_cons, run_cons, hsettle, step, hmode, step, hbare]
    dsimp only
    rw [if_neg hless, Operator.extend_eq_none hc]

end Reader

/-! ## Simple commands -/

/-- The words that have a meaning of their own at the start of a command. -/
def reservedWords : List String :=
  ["!", "\x7b", "\x7d", "case", "do", "done", "elif", "else", "esac", "fi", "for", "if", "in", "then",
    "until", "while"]

/-- Words that a shell may reserve in addition. -/
def reservableWords : List String := ["[[", "]]", "function", "namespace", "select", "time"]

/-- Whether characters are the name of a variable. -/
def isName : List Char → Bool
  | [] => false
  | first :: rest => (first.isAlpha || first = '_') && rest.all fun c ↦ c.isAlphanum || c = '_'

theorem notMem_of_isName {name : List Char} {c : Char} (h : isName name = true)
    (hfirst : (c.isAlpha || c = '_') = false) (hrest : (c.isAlphanum || c = '_') = false) :
    c ∉ name := by
  cases name with
  | nil => exact not_mem_nil
  | cons first rest =>
      obtain ⟨hhead, htail⟩ := Bool.and_eq_true_iff.mp h
      intro hmem
      rcases mem_cons.mp hmem with rfl | hmem
      · rw [hfirst] at hhead
        cases hhead
      · have hc := all_eq_true.mp htail c hmem
        rw [hrest] at hc
        cases hc

/-- What the grammar leaves open: which words are reserved beyond those it lists, and whether
the characters before a `=` that are no name make a word an assignment. -/
structure Dialect where
  reserves : String → Bool
  assigns : Word → Bool
  reserves_of_mem : ∀ w ∈ reservedWords, reserves w = true
  mem_of_reserves : ∀ w, reserves w = true →
    w ∈ reservedWords ∨ w ∈ reservableWords ∨ ∃ name, isName name = true ∧ w.toList = name ++ [':']
  assigns_of_isName : ∀ name, isName name = true → assigns (Word.plain name) = true
  not_assigns_nil : assigns [] = false

/-- The shell that reserves and assigns no more than the grammar lists. -/
def Dialect.standard : Dialect where
  reserves := reservedWords.contains
  assigns w := w.all (!·.quoted) && isName (w.map Piece.char)
  reserves_of_mem _ hw := contains_iff_mem.mpr hw
  mem_of_reserves _ hw := .inl (contains_iff_mem.mp hw)
  assigns_of_isName name hname := by
    have hchars : (Word.plain name).map Piece.char = name := by
      rw [Word.plain, map_map]
      exact map_id name
    rw [hchars, hname, Bool.and_true, all_eq_true]
    intro p hp
    obtain ⟨c, -, rfl⟩ := mem_map.mp hp
    rfl
  not_assigns_nil := rfl

structure Command where
  assignments : List (String × String)
  argv : List String
deriving DecidableEq, Repr

namespace Dialect

variable (d : Dialect)

/-- The two sides of the first bare `=` of a word that is an assignment. -/
def assignment (w : Word) : Option (Word × Word) :=
  match w.dropWhile (· ≠ ⟨'=', false⟩) with
  | [] => none
  | _ :: value =>
      let name := w.takeWhile (· ≠ ⟨'=', false⟩)
      if d.assigns name then some (name, value) else none

/-- Whether a word is read as a reserved one where a command begins. -/
def reservesWord (w : Word) : Bool := w.all (!·.quoted) && d.reserves w.text

/-- Assignments, and from the first word on that is none the words of the command. -/
def simple : List Word → Option Command
  | [] => some ⟨[], []⟩
  | w :: ws =>
      match d.assignment w with
      | none => ((w :: ws).mapM Word.field).map (⟨[], ·⟩)
      | some (name, value) =>
          value.field.bind fun text ↦
            (simple ws).map fun command ↦
              { command with assignments := (name.text, text) :: command.assignments }

/-- The words of a simple command, which no reserved word begins. -/
def command : List Word → Option Command
  | [] => none
  | w :: ws => if d.reservesWord w then none else d.simple (w :: ws)

end Dialect

def Token.asWord : Token → Option Word
  | .word w => some w
  | .ioNumber _ | .operator _ => none

namespace Dialect

variable (d : Dialect)

/-- Simple commands that `&&` stands between. -/
def andList (tokens : List Token) : Option (List Command) :=
  (tokens.splitOn (.operator .andIf)).mapM fun ts ↦ (ts.mapM Token.asWord).bind d.command

def parse (text : String) : Option (List Command) := (tokenize text.toList).bind d.andList

variable {d} in
/-- Only the words of the grammar and those it lets a shell choose are reserved. -/
theorem reserves_eq_false {w : String} (hword : w ∉ reservedWords) (hshell : w ∉ reservableWords)
    (hcolon : w.toList.getLast? ≠ some ':') : d.reserves w = false := by
  rw [← Bool.not_eq_true]
  intro hreserves
  rcases d.mem_of_reserves w hreserves with hmem | hmem | ⟨name, -, hname⟩
  · exact hword hmem
  · exact hshell hmem
  · rw [hname, List.getLast?_concat] at hcolon
    exact hcolon rfl

variable {d} in
/-- No reserved word has a `=` in it. -/
theorem reserves_of_equals {w : String} (h : '=' ∈ w.toList) : d.reserves w = false := by
  rw [← Bool.not_eq_true]
  intro hreserves
  have hlisted : ∀ v ∈ reservedWords ++ reservableWords, '=' ∉ v.toList := by decide
  rcases d.mem_of_reserves w hreserves with hmem | hmem | ⟨name, hname, hw⟩
  · exact hlisted w (mem_append_left _ hmem) h
  · exact hlisted w (mem_append_right _ hmem) h
  · rw [hw] at h
    rcases mem_append.mp h with hmem | hmem
    · exact notMem_of_isName hname (by decide) (by decide) hmem
    · exact absurd (mem_singleton.mp hmem) (by decide)

variable {d} in
theorem assignment_eq_none {w : Word} (h : ⟨'=', false⟩ ∉ w) : d.assignment w = none := by
  have hdrop : w.dropWhile (· ≠ ⟨'=', false⟩) = [] := by
    rw [dropWhile_eq_nil_iff]
    intro p hp
    exact decide_eq_true fun heq ↦ h (heq ▸ hp)
  rw [assignment, hdrop]

variable {d} in
/-- A word is cut at its first bare `=`, if what is before it is assigned to. -/
theorem assignment_append {name value : Word} (h : ⟨'=', false⟩ ∉ name) :
    d.assignment (name ++ ⟨'=', false⟩ :: value) =
      if d.assigns name then some (name, value) else none := by
  have hall : ∀ p ∈ name, decide (p ≠ ⟨'=', false⟩) = true :=
    fun p hp ↦ decide_eq_true fun heq ↦ h (heq ▸ hp)
  have hdrop : (name ++ ⟨'=', false⟩ :: value).dropWhile (· ≠ ⟨'=', false⟩) =
      ⟨'=', false⟩ :: value := by
    rw [dropWhile_append_of_pos hall]
    rfl
  have htake : (name ++ ⟨'=', false⟩ :: value).takeWhile (· ≠ ⟨'=', false⟩) = name := by
    rw [takeWhile_append_of_pos hall]
    simp
  rw [assignment, hdrop, htake]

theorem mapM_asWord (ws : List Word) : (ws.map Token.word).mapM Token.asWord = some ws := by
  induction ws with
  | nil => rfl
  | cons w ws ih => simp [ih, Token.asWord]

variable (ws : List Word)

theorem andIf_notMem : Token.operator .andIf ∉ ws.map Token.word := by
  intro hmem
  obtain ⟨w, -, hw⟩ := mem_map.mp hmem
  cases hw

/-- Words alone are one command. -/
theorem andList_words : d.andList (ws.map .word) = (d.command ws).map ([·]) := by
  rw [andList, splitOn_eq_singleton (andIf_notMem ws), mapM_cons, mapM_asWord,
    Option.bind_some, mapM_nil]
  cases d.command ws with
  | none => rfl
  | some command => rfl

/-- The words in front of the first `&&` are a command of their own. -/
theorem andList_words_andIf (ts : List Token) :
    d.andList (ws.map .word ++ .operator .andIf :: ts) =
      (d.command ws).bind fun command ↦ (d.andList ts).map (command :: ·) := by
  rw [andList, splitOn_append_cons_self_of_not_mem (andIf_notMem ws), mapM_cons,
    mapM_asWord, Option.bind_some, andList]
  cases d.command ws with
  | none => rfl
  | some command =>
      cases (ts.splitOn (.operator .andIf)).mapM fun ts ↦ (ts.mapM Token.asWord).bind d.command with
      | none => rfl
      | some commands => rfl

end Dialect

end KaduoxSsh.Posix
