import KaduoxSsh.Core.PosixWords

/-!
# Rendered commands

What a POSIX shell reads of the text that `render_posix` makes of a command: an optional
change of the directory, and on its success one simple command. The renderer quotes each
part in the same way, wherever it stands. A program whose name goes unquoted stands where
a shell looks for assignments and reserved words, and the name can be either: `A=b` sets
a variable and runs nothing, `if` is a syntax error.
-/

namespace KaduoxSsh.Core

open Posix List

variable {r : Posix.Reader}

/-! ## Reading the parts -/

/-- The word of a variable with its value. -/
def assignmentWord (e : String × String) : Word :=
  Word.plain e.1.toList ++ ⟨'=', false⟩ :: quotedWord e.2

/-- A name of a variable has nothing in it that means something to a shell. -/
theorem notMem_of_validEnvironmentName {name : String} (h : validEnvironmentName name = true) :
    ∀ c ∈ name.toList, c ∉ shellCharacters := by
  have hall : ∀ d ∈ shellCharacters, (d.isAlpha || d = '_') = false ∧
      (d.isAlphanum || d = '_') = false := by decide
  unfold validEnvironmentName at h
  cases hname : name.toList with
  | nil => exact fun c hc ↦ absurd hc not_mem_nil
  | cons first rest =>
      rw [hname] at h
      obtain ⟨hfirst, hrest⟩ := Bool.and_eq_true_iff.mp h
      refine forall_mem_cons.mpr ⟨fun hmem ↦ ?_, fun c hc hmem ↦ ?_⟩
      · rw [(hall first hmem).1] at hfirst
        cases hfirst
      · have hc := all_eq_true.mp hrest c hc
        rw [(hall c hmem).2] at hc
        cases hc

theorem isName_of_validEnvironmentName {name : String} (h : validEnvironmentName name = true) :
    isName name.toList = true := by
  unfold validEnvironmentName at h
  unfold isName
  cases hname : name.toList with
  | nil =>
      rw [hname] at h
      cases h
  | cons first rest =>
      rw [hname] at h
      exact h

theorem run_assignment {e : String × String} (hname : validEnvironmentName e.1 = true)
    (hmode : r.mode = .bare) (hword : r.word = none) :
    r.run (e.1 ++ "=" ++ quotePosix e.2 ++ " ").toList =
      some ⟨r.tokens ++ [.word (assignmentWord e)], none, .bare⟩ := by
  have hplain : ∀ c ∈ e.1.toList ++ ['='], c ∉ shellCharacters := by
    intro c hc
    rcases mem_append.mp hc with hc | hc
    · exact notMem_of_validEnvironmentName hname c hc
    · rw [mem_singleton.mp hc]
      decide
  have hname := run_plain hplain hmode (append_ne_nil_of_right_ne_nil _ (by decide))
  have htext : (e.1 ++ "=" ++ quotePosix e.2 ++ " ").toList =
      (e.1.toList ++ ['=']) ++ ((quotePosix e.2).toList ++ [' ']) := by
    simp [String.toList_append]
  rw [htext, Posix.Reader.run_append, hname, Option.bind_some, Posix.Reader.run_append,
    run_quotePosix rfl, Option.bind_some, hword]
  simp [Posix.Reader.run, Posix.Reader.step, Posix.Reader.bare, Posix.Reader.delimit,
    Operator.ofChar, assignmentWord, Word.plain]

theorem run_environment {environment : List (String × String)}
    (hnames : ∀ e ∈ environment, validEnvironmentName e.1 = true) (hmode : r.mode = .bare)
    (hword : r.word = none) :
    r.run (String.join (environment.map fun e ↦ e.1 ++ "=" ++ quotePosix e.2 ++ " ")).toList =
      some ⟨r.tokens ++ environment.map fun e ↦ .word (assignmentWord e), none, .bare⟩ := by
  rw [String.toList_join, flatMap_map]
  induction environment generalizing r with
  | nil =>
      obtain ⟨tokens, word, mode⟩ := r
      cases hmode
      cases hword
      simp [Posix.Reader.run]
  | cons e environment ih =>
      obtain ⟨hname, hnames⟩ := forall_mem_cons.mp hnames
      rw [flatMap_cons, Posix.Reader.run_append, run_assignment hname hmode hword,
        Option.bind_some, ih hnames rfl rfl]
      simp

/-- Arguments behind a word, which the first of the blanks ends. -/
theorem run_arguments {w : Word} (arguments : List String) (hmode : r.mode = .bare)
    (hword : r.word = some w) :
    (r.run (spaced (arguments.map quotePosix)).toList).bind Posix.Reader.finish =
      some (r.tokens ++ (w :: arguments.map quotedWord).map Token.word) := by
  rw [toList_spaced, flatMap_map]
  induction arguments generalizing r w with
  | nil =>
      rw [flatMap_nil]
      change r.finish = _
      rw [Posix.Reader.finish, hmode]
      simp [Posix.Reader.delimit, hword]
  | cons argument arguments ih =>
      have hstep : r.step ' ' = some (r.delimit .bare) := by
        rw [Posix.Reader.step, hmode]
        rfl
      rw [flatMap_cons, cons_append, Posix.Reader.run_cons, hstep, Option.bind_some,
        Posix.Reader.run_append, run_quotePosix rfl, Option.bind_some, ih rfl rfl]
      simp [Posix.Reader.delimit, hword]

theorem run_directory (operand : String) :
    Posix.Reader.init.run ("cd " ++ quotePosix operand ++ " && ").toList =
      some ⟨[.word (Word.plain "cd".toList), .word (quotedWord operand), .operator .andIf], none,
        .bare⟩ := by
  have htext : ("cd " ++ quotePosix operand ++ " && ").toList =
      "cd ".toList ++ ((quotePosix operand).toList ++ " && ".toList) := by
    simp only [String.toList_append, append_assoc]
  have hcd : Posix.Reader.init.run "cd ".toList =
      some ⟨[.word (Word.plain "cd".toList)], none, .bare⟩ := rfl
  rw [htext, Posix.Reader.run_append, hcd, Option.bind_some, Posix.Reader.run_append,
    run_quotePosix rfl]
  rfl

namespace RemoteCommandSpec

variable {spec : RemoteCommandSpec} {text : String}

/-- The words that a command is rendered to, after the change of the directory. -/
def words (spec : RemoteCommandSpec) : List Word :=
  spec.environment.map assignmentWord ++ quotedWord spec.program :: spec.arguments.map quotedWord

/-- The words that change the directory. -/
def cdWords (directory : String) : List Word :=
  [Word.plain "cd".toList, quotedWord (safeCdOperand directory)]

/-- The tokens of a rendered command. -/
def tokens (spec : RemoteCommandSpec) : List Token :=
  match spec.workingDirectory with
  | none => spec.words.map .word
  | some directory => (cdWords directory).map .word ++ .operator .andIf :: spec.words.map .word

theorem renderPosix_eq_ok (h : spec.renderPosix = .ok text) : spec.validated = .ok () ∧
    text = spec.posixDirectory ++ spec.posixEnvironment ++ quotePosix spec.program ++
      spaced (spec.arguments.map quotePosix) := by
  obtain ⟨hvalid, htext⟩ := Result.check_bind_eq_ok.mp h
  exact ⟨hvalid, (Except.ok.inj htext).symm⟩

theorem run_words (hnames : ∀ e ∈ spec.environment, validEnvironmentName e.1 = true)
    (hmode : r.mode = .bare) (hword : r.word = none) :
    (r.run (spec.posixEnvironment ++ (quotePosix spec.program ++
      spaced (spec.arguments.map quotePosix))).toList).bind Posix.Reader.finish =
      some (r.tokens ++ spec.words.map .word) := by
  rw [String.toList_append, String.toList_append, Posix.Reader.run_append,
    posixEnvironment, run_environment hnames hmode hword, Option.bind_some, Posix.Reader.run_append,
    run_quotePosix rfl, Option.bind_some, run_arguments spec.arguments rfl rfl]
  simp [words, append_assoc]

theorem tokenize_renderPosix (h : spec.renderPosix = .ok text) :
    tokenize text.toList = some spec.tokens := by
  obtain ⟨hvalid, rfl⟩ := renderPosix_eq_ok h
  have hnames := environment_valid hvalid
  rw [tokenize, String.append_assoc, String.append_assoc, String.toList_append,
    Posix.Reader.run_append, tokens, posixDirectory]
  cases spec.workingDirectory with
  | none => exact run_words hnames rfl rfl
  | some directory =>
      dsimp only
      rw [run_directory, Option.bind_some, run_words hnames rfl rfl]
      rfl

/-! ## Parsing the words -/

/-- The command proper: the variables, and the program with its arguments. -/
def ownCommand (spec : RemoteCommandSpec) : Posix.Command :=
  ⟨spec.environment, spec.program :: spec.arguments⟩

end RemoteCommandSpec

section

variable (d : Dialect)

/-- Whether bare characters are read as an assignment. -/
def ReadAsAssignment (cs : List Char) : Prop :=
  ∃ name value, cs = name ++ '=' :: value ∧ '=' ∉ name ∧ d.assigns (Word.plain name) = true

/-- Whether a shell reads the program of a command as something else: the name goes unquoted,
and it is an assignment or, with no variable before it, a reserved word. -/
def RemoteCommandSpec.Misread (spec : RemoteCommandSpec) : Prop :=
  PlainWord spec.program ∧
    (ReadAsAssignment d spec.program.toList ∨
      spec.environment = [] ∧ d.reserves spec.program = true)

variable {d} {program : String}

theorem reservesWord_quotedWord (hne : program ≠ "") :
    d.reservesWord (quotedWord program) = true ↔
      PlainWord program ∧ d.reserves program = true := by
  rw [Dialect.reservesWord, quotedWord, Bool.and_eq_true]
  split_ifs with hplain
  · rw [Word.text_plain, String.ofList_toList]
    refine and_congr_left fun _ ↦ ⟨fun _ ↦ hplain, fun _ ↦ ?_⟩
    rw [all_eq_true]
    intro p hp
    obtain ⟨c, -, rfl⟩ := mem_map.mp hp
    rfl
  · refine iff_of_false (fun h ↦ ?_) fun h ↦ hplain h.1
    cases hchars : program.toList with
    | nil => exact hne (String.toList_inj.mp hchars)
    | cons c cs =>
        rw [hchars] at h
        exact absurd h.1 (by simp [Word.literal])

theorem mem_plain {cs : List Char} : (⟨'=', false⟩ : Piece) ∈ Word.plain cs ↔ '=' ∈ cs := by
  rw [Word.plain, mem_map]
  constructor
  · rintro ⟨c, hc, heq⟩
    injection heq with heq
    exact heq ▸ hc
  · exact fun h ↦ ⟨_, h, rfl⟩

/-- Where the first `=` of a text is decides whether it is read as an assignment. -/
theorem readAsAssignment_iff {name value : List Char} (hname : '=' ∉ name) :
    ReadAsAssignment d (name ++ '=' :: value) ↔ d.assigns (Word.plain name) = true := by
  constructor
  · rintro ⟨name', value', heq, hname', hassigns⟩
    obtain ⟨rfl, -⟩ := append_inj_of_separator hname hname' (.inr rfl) (.inr rfl) heq
    exact hassigns
  · exact fun hassigns ↦ ⟨name, value, rfl, hname, hassigns⟩

theorem assignment_quotedWord_eq_none :
    d.assignment (quotedWord program) = none ↔
      ¬(PlainWord program ∧ ReadAsAssignment d program.toList) := by
  rw [quotedWord]
  split_ifs with hplain
  · by_cases hmem : '=' ∈ program.toList
    · obtain ⟨name, value, hsplit, hname⟩ := eq_append_cons_of_mem hmem
      have hword : Word.plain program.toList =
          Word.plain name ++ ⟨'=', false⟩ :: Word.plain value := by
        rw [hsplit]
        simp [Word.plain]
      rw [hword, Dialect.assignment_append (mt mem_plain.mp hname), hsplit,
        readAsAssignment_iff hname]
      cases d.assigns (Word.plain name) <;> simp [hplain]
    · rw [Dialect.assignment_eq_none (mt mem_plain.mp hmem)]
      refine iff_of_true rfl ?_
      rintro ⟨-, name, value, hsplit, -⟩
      rw [hsplit] at hmem
      exact hmem (mem_append_right _ mem_cons_self)
  · rw [Dialect.assignment_eq_none]
    · exact iff_of_true rfl fun h ↦ hplain h.1
    · intro hmem
      obtain ⟨c, -, heq⟩ := mem_map.mp hmem
      cases heq
theorem mapM_field (values : List String) : (values.map quotedWord).mapM Word.field = some values := by
  induction values with
  | nil => rfl
  | cons value values ih => simp [ih, field_quotedWord]

/-- The words of a program are its own command only if the first is no assignment. -/
theorem simple_program_iff (arguments : List String) :
    d.simple (quotedWord program :: arguments.map quotedWord) =
        some ⟨[], program :: arguments⟩ ↔
      d.assignment (quotedWord program) = none := by
  rw [Dialect.simple]
  cases d.assignment (quotedWord program) with
  | none =>
      have hfields := mapM_field (program :: arguments)
      rw [map_cons] at hfields
      simp [hfields]
  | some split =>
      obtain ⟨name, value⟩ := split
      refine iff_of_false (fun h ↦ ?_) (by simp)
      obtain ⟨text, -, h⟩ := Option.bind_eq_some_iff.mp h
      obtain ⟨command, -, h⟩ := Option.map_eq_some_iff.mp h
      cases h

/-- Valid names and quoted values are read as the assignments that they are. -/
theorem simple_environment {environment : List (String × String)} (ws : List Word)
    (hnames : ∀ e ∈ environment, validEnvironmentName e.1 = true) :
    d.simple (environment.map assignmentWord ++ ws) =
      (d.simple ws).map fun command ↦
        { command with assignments := environment ++ command.assignments } := by
  induction environment with
  | nil =>
      cases hws : d.simple ws with
      | none => simpa using hws
      | some command => simpa using hws
  | cons e environment ih =>
      obtain ⟨hname, hnames⟩ := forall_mem_cons.mp hnames
      have hassignment : d.assignment (assignmentWord e) =
          some (Word.plain e.1.toList, quotedWord e.2) := by
        rw [assignmentWord,
          Dialect.assignment_append (mt mem_plain.mp (not_mem_of_validEnvironmentName hname)),
          if_pos (d.assigns_of_isName _ (isName_of_validEnvironmentName hname))]
      rw [map_cons, cons_append, Dialect.simple, hassignment]
      dsimp only
      rw [field_quotedWord, Option.bind_some, ih hnames, Option.map_map, Word.text_plain,
        String.ofList_toList]
      rfl

namespace RemoteCommandSpec

variable {spec : RemoteCommandSpec} {text : String}

theorem program_ne_empty (h : spec.validated = .ok ()) : spec.program ≠ "" := by
  obtain ⟨hprogram, -⟩ := Result.check_bind_eq_ok.mp h
  exact Result.bailIf_eq_ok.mp hprogram

/-- The words of a command are read as its own command unless its program is misread. -/
theorem command_words_iff (h : spec.validated = .ok ()) :
    d.command spec.words = some spec.ownCommand ↔ ¬spec.Misread d := by
  have hnames := environment_valid h
  have hsimple : d.simple spec.words = some spec.ownCommand ↔
      ¬(PlainWord spec.program ∧ ReadAsAssignment d spec.program.toList) := by
    rw [words, simple_environment _ hnames, ← assignment_quotedWord_eq_none,
      ← simple_program_iff spec.arguments, ownCommand]
    constructor
    · intro hmap
      obtain ⟨command, hcommand, heq⟩ := Option.map_eq_some_iff.mp hmap
      obtain ⟨assignments, argv⟩ := command
      injection heq with hassignments hargv
      have hnil : assignments = [] := append_right_eq_self.mp hassignments
      have hwords : argv = spec.program :: spec.arguments := hargv
      rw [hcommand, hnil, hwords]
    · intro hcommand
      rw [hcommand]
      simp
  rw [Misread, and_or_left, not_or, ← hsimple]
  cases henvironment : spec.environment with
  | nil =>
      have hwords : spec.words = quotedWord spec.program :: spec.arguments.map quotedWord := by
        rw [words, henvironment]
        rfl
      rw [hwords, Dialect.command]
      by_cases hreserves : d.reservesWord (quotedWord spec.program) = true
      · rw [if_pos hreserves]
        obtain ⟨hplain, hreserved⟩ := (reservesWord_quotedWord (program_ne_empty h)).mp hreserves
        simp [hplain, hreserved]
      · rw [if_neg hreserves]
        have hnot := mt (reservesWord_quotedWord (program_ne_empty h)).mpr hreserves
        simp only [true_and, hnot, not_false_eq_true, and_true]
  | cons e environment =>
      have hwords : spec.words = assignmentWord e :: (environment.map assignmentWord ++
          quotedWord spec.program :: spec.arguments.map quotedWord) := by
        rw [words, henvironment]
        rfl
      have hreserves : d.reservesWord (assignmentWord e) = false := by
        have htext : '=' ∈ (assignmentWord e).text.toList := by
          rw [Word.text, String.toList_ofList, assignmentWord, map_append, map_cons]
          exact mem_append_right _ mem_cons_self
        rw [Dialect.reservesWord, Dialect.reserves_of_equals htext, Bool.and_false]
      rw [hwords, Dialect.command, hreserves, if_neg Bool.false_ne_true]
      simp

end RemoteCommandSpec

/-! ## The directory -/

/-- Where a path leads: whether it starts at the root, and the names on the way. -/
def pathSteps (path : String) : Bool × List (List Char) :=
  (path.toList.head? == some '/',
    (path.toList.splitOn '/').filter fun step ↦ step ≠ [] ∧ step ≠ ['.'])

/-- Whether a command is `cd` with an operand that leads to a directory and is no option. -/
def ChangesTo (command : Posix.Command) (directory : String) : Prop :=
  ∃ operand, command = ⟨[], ["cd", operand]⟩ ∧ operand.toList.head? ≠ some '-' ∧
    pathSteps operand = pathSteps directory

theorem changesTo_safeCdOperand (directory : String) :
    ChangesTo ⟨[], ["cd", safeCdOperand directory]⟩ directory := by
  refine ⟨_, rfl, ?_⟩
  unfold safeCdOperand
  split_ifs with hdash
  · have htext : ("./" ++ directory).toList = '.' :: '/' :: directory.toList :=
      String.toList_append
    rw [htext]
    refine ⟨fun hhead ↦ absurd (Option.some.inj hhead) (by decide), ?_⟩
    have hsteps : ('.' :: '/' :: directory.toList).splitOn '/' =
        ['.'] :: directory.toList.splitOn '/' :=
      splitOn_append_cons_self_of_not_mem (show '/' ∉ ['.'] by decide) _
    rw [pathSteps, pathSteps, htext, hsteps, hdash]
    rfl
  · exact ⟨hdash, rfl⟩

namespace RemoteCommandSpec

variable {spec : RemoteCommandSpec} {text : String}

/-- Whether a text is read as a command: the change to its directory, if it has one, and then
exactly its variables, its program and its arguments. -/
def ReadsAs (d : Dialect) (spec : RemoteCommandSpec) (text : String) : Prop :=
  match spec.workingDirectory with
  | none => d.parse text = some [spec.ownCommand]
  | some directory =>
      ∃ change, ChangesTo change directory ∧ d.parse text = some [change, spec.ownCommand]

theorem command_cdWords (directory : String) :
    d.command (cdWords directory) = some ⟨[], ["cd", safeCdOperand directory]⟩ := by
  have hreserves : d.reserves "cd" = false :=
    Dialect.reserves_eq_false (by decide) (by decide) (by decide)
  have hreservesWord : d.reservesWord (Word.plain "cd".toList) = false := by
    rw [Dialect.reservesWord, Word.text_plain, String.ofList_toList, hreserves, Bool.and_false]
  have hassignment : d.assignment (Word.plain "cd".toList) = none :=
    Dialect.assignment_eq_none (by decide)
  have hfields : (cdWords directory).mapM Word.field = some ["cd", safeCdOperand directory] := by
    simp only [cdWords, mapM_cons, mapM_nil, field_quotedWord]
    rfl
  rw [cdWords, Dialect.command, hreservesWord, if_neg Bool.false_ne_true, Dialect.simple,
    hassignment]
  exact congrArg (Option.map _) hfields

/-- A command is rendered to a text that a shell reads as that command exactly when its program
is not misread. -/
theorem renderPosix_reads_as_iff (d : Dialect) (h : spec.renderPosix = .ok text) :
    spec.ReadsAs d text ↔ ¬spec.Misread d := by
  obtain ⟨hvalid, -⟩ := renderPosix_eq_ok h
  rw [← command_words_iff hvalid, ReadsAs, Dialect.parse, tokenize_renderPosix h, Option.bind_some,
    tokens]
  cases spec.workingDirectory with
  | none =>
      dsimp only
      rw [Dialect.andList_words]
      cases d.command spec.words <;> simp
  | some directory =>
      dsimp only
      rw [Dialect.andList_words_andIf, command_cdWords, Option.bind_some, Dialect.andList_words]
      constructor
      · rintro ⟨change, -, hparse⟩
        cases hwords : d.command spec.words with
        | none =>
            rw [hwords] at hparse
            cases hparse
        | some command =>
            rw [hwords] at hparse
            simp only [Option.map_some, Option.some.injEq, List.cons.injEq, and_true] at hparse
            rw [hparse.2]
      · intro hwords
        exact ⟨_, changesTo_safeCdOperand directory, by rw [hwords]; rfl⟩

theorem renderPosix_reads_as_iff_uname :
    ReadsAs .standard ⟨"uname", ["-a"], [("LANG", "C")], some "-srv"⟩
        "cd ./-srv && LANG=C uname -a" ↔
      ¬Misread .standard ⟨"uname", ["-a"], [("LANG", "C")], some "-srv"⟩ :=
  renderPosix_reads_as_iff .standard rfl

/-- A program that is named like an assignment is not run. -/
theorem program_read_as_assignment :
    ¬∀ (spec : RemoteCommandSpec) (text : String), spec.renderPosix = .ok text →
      spec.ReadsAs .standard text := by
  intro h
  have hreads : Dialect.standard.parse "A=b -x" = some [⟨[], ["A=b", "-x"]⟩] :=
    h ⟨"A=b", ["-x"], [], none⟩ "A=b -x" rfl
  have hparse : Dialect.standard.parse "A=b -x" = some [⟨[("A", "b")], ["-x"]⟩] := by decide
  rw [hparse] at hreads
  cases hreads

end RemoteCommandSpec

end

end KaduoxSsh.Core
