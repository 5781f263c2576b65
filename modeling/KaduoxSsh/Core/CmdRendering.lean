import KaduoxSsh.Core.Command
import KaduoxSsh.Lib.CmdShell

/-!
# Commands rendered for cmd.exe

What `cmd.exe` reads of the text that `render_cmd` makes of a command. A token is quoted when
it holds a blank, a quote or one of five operators, in the same way wherever it stands. A
parenthesis is none of the five, percent signs are replaced in quotes too, and a variable is
set to all of the text before the next command, quotes and the blank behind them included.
-/

namespace KaduoxSsh.Core

open Cmd List

/-! ## Tokens -/

/-- A token that goes without quotes. -/
def CmdBare (token : String) : Prop := token ≠ "" ∧ ¬token.toList.any isCmdActive

instance decidableCmdBare (token : String) : Decidable (CmdBare token) :=
  inferInstanceAs (Decidable (_ ∧ _))

/-- A parenthesis of a token acts, at the start of a command or behind it. -/
def CmdActs (inner start : Bool) (token : String) : Prop :=
  CmdBare token ∧ (start = true ∧ (∃ c ∈ token.toList.head?, isParen c = true) ∨
    inner = true ∧ ∃ c ∈ token.toList, isParen c = true)

variable {inner : Bool} {r r' : Cmd.Reader} {token : String} {c : Char} {cs rest : List Char}
  {word : List Char}

theorem quoteCmd_of_bare (h : CmdBare token) : quoteCmd token = token := if_pos h

theorem toList_quoteCmd_of_not_bare (h : ¬CmdBare token) :
    (quoteCmd token).toList = '"' :: (replaceChar '"' ['"', '"'] token.toList ++ ['"']) := by
  have htext : quoteCmd token =
      "\"" ++ String.ofList (replaceChar '"' ['"', '"'] token.toList) ++ "\"" := if_neg h
  rw [htext]
  simp [String.toList_append]

theorem CmdBare.not_active (h : CmdBare token) (hc : c ∈ token.toList) : isCmdActive c = false := by
  cases hactive : isCmdActive c with
  | false => rfl
  | true => exact absurd (any_eq_true.mpr ⟨c, hc, hactive⟩) h.2

theorem not_mem_operators (h : isCmdActive c = false) : c ∉ operators := by
  intro hmem
  have hall : ∀ d ∈ operators, isCmdActive d = true := by decide
  rw [hall c hmem] at h
  cases h

theorem not_blank (h : isCmdActive c = false) : isBlank c = false := by
  cases hblank : isBlank c with
  | false => rfl
  | true =>
      rw [isBlank, Bool.or_eq_true, decide_eq_true_iff, decide_eq_true_iff] at hblank
      rcases hblank with rfl | rfl <;> revert h <;> decide

/-! ## Reading a token -/

/-- In quotes each character is added, and the copy of a quote opens them again. -/
theorem run_doubled (hmode : r.mode = .quoted) :
    r.run inner (replaceChar '"' ['"', '"'] cs) =
      some ⟨r.commands, r.current ++ replaceChar '"' ['"', '"'] cs, .quoted⟩ := by
  induction cs generalizing r with
  | nil =>
      obtain ⟨commands, current, mode⟩ := r
      cases hmode
      rw [replaceChar, flatMap_nil, append_nil]
      rfl
  | cons c cs ih =>
      have hone : r.run inner (if c = '"' then ['"', '"'] else [c]) =
          some ⟨r.commands, r.current ++ (if c = '"' then ['"', '"'] else [c]), .quoted⟩ := by
        obtain ⟨commands, current, mode⟩ := r
        cases hmode
        by_cases hc : c = '"'
        · rw [if_pos hc]
          simp [Cmd.Reader.run, Cmd.Reader.step, Cmd.Reader.bare, Cmd.Reader.push]
        · rw [if_neg hc]
          simp [Cmd.Reader.run, Cmd.Reader.step, Cmd.Reader.push, hc]
      rw [replaceChar, List.flatMap_cons, Cmd.Reader.run_append, hone, Option.bind_some]
      refine (ih rfl).trans ?_
      rw [replaceChar, List.append_assoc]

/-- Behind the first character no parenthesis is at the start. -/
theorem run_bare (hmode : r.mode = .bare) (hcs : ∀ c ∈ cs, isCmdActive c = false)
    (hstart : r.current.all isBlank = true → ∀ c ∈ cs.head?, isParen c = false)
    (hinner : inner = true → ∀ c ∈ cs, isParen c = false) :
    r.run inner cs = some ⟨r.commands, r.current ++ cs, .bare⟩ := by
  cases cs with
  | nil =>
      obtain ⟨commands, current, mode⟩ := r
      cases hmode
      rw [List.append_nil]
      rfl
  | cons c cs =>
      obtain ⟨hc, hcs⟩ := List.forall_mem_cons.mp hcs
      have hfirst : r.run inner [c] = some ⟨r.commands, r.current ++ [c], .bare⟩ := by
        refine Cmd.Reader.run_idle hmode (List.forall_mem_singleton.mpr ⟨not_mem_operators hc, ?_⟩)
        intro hparen
        constructor
        · refine Bool.eq_false_iff.mpr fun h ↦ ?_
          rw [hinner h c List.mem_cons_self] at hparen
          cases hparen
        · refine Bool.eq_false_iff.mpr fun h ↦ ?_
          rw [hstart h c rfl] at hparen
          cases hparen
      rw [← List.singleton_append, Cmd.Reader.run_append, hfirst, Option.bind_some,
        Cmd.Reader.run_idle rfl, List.append_assoc]
      intro d hd
      refine ⟨not_mem_operators (hcs d hd), fun hparen ↦ ⟨?_, ?_⟩⟩
      · refine Bool.eq_false_iff.mpr fun h ↦ ?_
        rw [hinner h d (List.mem_cons_of_mem c hd)] at hparen
        cases hparen
      · change (r.current ++ [c]).all isBlank = false
        rw [List.all_append, List.all_cons, not_blank hc, Bool.false_and, Bool.and_false]

theorem run_quoteCmd (hmode : r.mode = .bare)
    (h : ¬CmdActs inner (r.current.all isBlank) token) :
    r.run inner (quoteCmd token).toList =
      some ⟨r.commands, r.current ++ (quoteCmd token).toList, .bare⟩ := by
  by_cases hbare : CmdBare token
  · obtain ⟨hstart, hinner⟩ := not_or.mp fun hacts ↦ h ⟨hbare, hacts⟩
    rw [quoteCmd_of_bare hbare]
    refine run_bare hmode (fun c ↦ hbare.not_active) (fun hblank c hc ↦ ?_) fun hin c hc ↦ ?_
    · exact Bool.eq_false_iff.mpr fun hparen ↦ hstart ⟨hblank, c, hc, hparen⟩
    · exact Bool.eq_false_iff.mpr fun hparen ↦ hinner ⟨hin, c, hc, hparen⟩
  · obtain ⟨commands, current, mode⟩ := r
    cases hmode
    rw [toList_quoteCmd_of_not_bare hbare, Cmd.Reader.run_cons]
    have hopen : Cmd.Reader.step inner ⟨commands, current, .bare⟩ '"' =
        some ⟨commands, current ++ ['"'], .quoted⟩ := rfl
    rw [hopen, Option.bind_some, Cmd.Reader.run_append, run_doubled rfl, Option.bind_some]
    simp [Cmd.Reader.run, Cmd.Reader.step, Cmd.Reader.push]

theorem step_of_acts (hmode : r.mode = .bare) (hc : isCmdActive c = false)
    (hacts : r.acts inner c = true) : r.step inner c = none := by
  have hne : ∀ d ∈ operators, c ≠ d := fun d hd heq ↦ not_mem_operators hc (heq ▸ hd)
  rw [Cmd.Reader.step, hmode]
  dsimp only
  rw [Cmd.Reader.bare, if_neg (hne _ (by decide)), if_neg (hne _ (by decide)),
    if_neg (hne _ (by decide)), if_pos (.inr hacts)]

theorem run_of_paren (hmode : r.mode = .bare) (hcs : ∀ c ∈ cs, isCmdActive c = false)
    (h : ∃ c ∈ cs, isParen c = true) : r.run true cs = none := by
  induction cs generalizing r with
  | nil =>
      obtain ⟨c, hc, -⟩ := h
      cases hc
  | cons c cs ih =>
      obtain ⟨hc, hcs⟩ := List.forall_mem_cons.mp hcs
      cases hparen : isParen c with
      | true =>
          rw [Cmd.Reader.run_cons, step_of_acts hmode hc]
          · rfl
          · rw [Cmd.Reader.acts, hparen]
            rfl
      | false =>
          have hfirst : r.run true [c] = some ⟨r.commands, r.current ++ [c], .bare⟩ := by
            refine run_bare hmode (List.forall_mem_singleton.mpr hc) (fun _ d hd ↦ ?_) fun _ ↦ ?_
            · cases hd
              exact hparen
            · exact List.forall_mem_singleton.mpr hparen
          rw [← List.singleton_append, Cmd.Reader.run_append, hfirst, Option.bind_some]
          obtain ⟨d, hd, hp⟩ := h
          rcases List.mem_cons.mp hd with rfl | hd
          · rw [hparen] at hp
            cases hp
          · exact ih rfl hcs ⟨d, hd, hp⟩

/-- Where a parenthesis acts the line is not read. -/
theorem run_quoteCmd_of_acts (hmode : r.mode = .bare)
    (h : CmdActs inner (r.current.all isBlank) token) :
    r.run inner (quoteCmd token).toList = none := by
  obtain ⟨hbare, hacts⟩ := h
  have hactive : ∀ c ∈ token.toList, isCmdActive c = false := fun c ↦ hbare.not_active
  rw [quoteCmd_of_bare hbare]
  rcases hacts with ⟨hstart, c, hc, hp⟩ | ⟨rfl, hparen⟩
  · cases hchars : token.toList with
    | nil =>
        rw [hchars] at hc
        cases hc
    | cons d cs =>
        rw [hchars] at hc
        cases hc
        rw [Cmd.Reader.run_cons, step_of_acts hmode (hactive c (hchars ▸ List.mem_cons_self))]
        · rfl
        · rw [Cmd.Reader.acts, hp, hstart, Bool.or_true, Bool.and_true]
  · exact run_of_paren hmode hactive hparen

/-- A token that has been read was read as it stands. -/
theorem run_quoteCmd_eq_some (hmode : r.mode = .bare)
    (h : r.run inner (quoteCmd token).toList = some r') :
    ¬CmdActs inner (r.current.all isBlank) token ∧
      r' = ⟨r.commands, r.current ++ (quoteCmd token).toList, .bare⟩ := by
  by_cases hacts : CmdActs inner (r.current.all isBlank) token
  · rw [run_quoteCmd_of_acts hmode hacts] at h
    cases h
  · rw [run_quoteCmd hmode hacts] at h
    exact ⟨hacts, (Option.some.inj h).symm⟩

/-! ## What a token stands for -/

theorem words_of_wordEnd {mode : Quotes} (hmode : mode ≠ .quoted) (h : WordEnd rest) :
    words (some word) mode rest = word :: words none .bare rest := by
  cases rest with
  | nil => rfl
  | cons c back =>
      obtain rfl : c = ' ' := Option.some.inj (h.resolve_left (List.cons_ne_nil c back))
      have hblank : isBlank ' ' = true := by decide
      rw [words, if_neg hmode, if_neg (by decide), if_pos hblank]
      rfl

theorem words_bare (hcs : ∀ c ∈ cs, isCmdActive c = false) :
    words (some word) .bare (cs ++ rest) = words (some (word ++ cs)) .bare rest := by
  induction cs generalizing word with
  | nil => rw [List.nil_append, List.append_nil]
  | cons c cs ih =>
      obtain ⟨hc, hcs⟩ := List.forall_mem_cons.mp hcs
      have hquote : c ≠ '"' := fun heq ↦ not_mem_operators hc (heq ▸ mem_cons_self)
      have hblank : ¬isBlank c = true := Bool.eq_false_iff.mp (not_blank hc)
      rw [cons_append, words, if_neg Quotes.noConfusion, if_neg hquote, if_neg hblank,
        Option.getD_some, ih hcs, append_assoc, singleton_append]

theorem words_doubled :
    words (some word) .quoted (replaceChar '"' ['"', '"'] cs ++ rest) =
      words (some (word ++ cs)) .quoted rest := by
  induction cs generalizing word with
  | nil => rw [List.append_nil, replaceChar, List.flatMap_nil, List.nil_append]
  | cons c cs ih =>
      have hone : ∀ back,
          words (some word) .quoted ((if c = '"' then ['"', '"'] else [c]) ++ back) =
            words (some (word ++ [c])) .quoted back := by
        intro back
        by_cases hc : c = '"'
        · rw [if_pos hc, hc]
          simp [words]
        · rw [if_neg hc]
          simp [words, hc]
      rw [replaceChar, List.flatMap_cons, List.append_assoc, hone, ← replaceChar, ih,
        List.append_assoc, List.singleton_append]

/-- A rendered token is one word, and stands for itself. -/
theorem words_quoteCmd (h : WordEnd rest) :
    words none .bare ((quoteCmd token).toList ++ rest) = token.toList :: words none .bare rest := by
  by_cases hbare : CmdBare token
  · rw [quoteCmd_of_bare hbare]
    have hactive : ∀ c ∈ token.toList, isCmdActive c = false := fun c ↦ hbare.not_active
    cases hchars : token.toList with
    | nil => exact absurd (String.toList_inj.mp hchars) hbare.1
    | cons c cs =>
        rw [hchars] at hactive
        have hfirst : words none .bare (c :: cs ++ rest) =
            words (some []) .bare (c :: cs ++ rest) := by
          obtain ⟨hc, -⟩ := List.forall_mem_cons.mp hactive
          have hblank : ¬isBlank c = true := Bool.eq_false_iff.mp (not_blank hc)
          rw [List.cons_append, words, words, if_neg hblank, if_neg hblank]
          rfl
        rw [hfirst, words_bare hactive, words_of_wordEnd Quotes.noConfusion h, List.nil_append]
  · rw [toList_quoteCmd_of_not_bare hbare, List.cons_append, List.append_assoc]
    have hopen : ∀ back, words none .bare ('"' :: back) = words (some []) .quoted back :=
      fun back ↦ rfl
    have hclose : ∀ word, words (some word) .quoted ('"' :: rest) =
        words (some word) .closing rest := fun word ↦ rfl
    rw [hopen, words_doubled, List.singleton_append, hclose, words_of_wordEnd Quotes.noConfusion h,
      List.nil_append]

theorem words_spaced (tokens : List String) :
    words none .bare (spaced (tokens.map quoteCmd)).toList = tokens.map String.toList := by
  rw [toList_spaced, List.flatMap_map]
  induction tokens with
  | nil => rfl
  | cons token tokens ih =>
      have hend : WordEnd (tokens.flatMap fun token ↦ ' ' :: (quoteCmd token).toList) := by
        cases tokens with
        | nil => exact .inl rfl
        | cons token tokens => exact .inr rfl
      have hblank : ∀ cs, words none .bare (' ' :: cs) = words none .bare cs := fun cs ↦ rfl
      rw [List.flatMap_cons, List.cons_append, hblank, words_quoteCmd hend, ih, List.map_cons]

theorem filter_replaceChar : (replaceChar '"' ['"', '"'] cs).filter (· ≠ '"') =
    cs.filter (· ≠ '"') := by
  induction cs with
  | nil => rfl
  | cons c cs ih =>
      have hone : (if c = '"' then ['"', '"'] else [c]).filter (· ≠ '"') =
          [c].filter (· ≠ '"') := by
        by_cases hc : c = '"'
        · rw [if_pos hc, hc]
          rfl
        · rw [if_neg hc]
      rw [replaceChar, flatMap_cons, filter_append, hone, ← replaceChar, ih,
        ← filter_append, singleton_append]

/-- Blanks at the two ends of a text are the only ones that `cd` drops. -/
theorem operand_of_not_blank {back : List Char} {d : Char} (hc : isBlank c = false)
    (hd : isBlank d = false) (h : c :: cs = back ++ [d]) :
    operand (c :: cs ++ [' ']) = (c :: cs).filter (· ≠ '"') := by
  have hnot : ¬isBlank c = true := Bool.eq_false_iff.mp hc
  have hlast : ¬isBlank d = true := Bool.eq_false_iff.mp hd
  rw [operand, List.cons_append, List.dropWhile_cons_of_neg hnot, ← List.cons_append,
    List.rdropWhile_concat_pos _ _ _ (by decide), h, List.rdropWhile_concat_neg _ _ _ hlast]

/-- All quotes of a directory are dropped with those around it. -/
theorem operand_quoteCmd :
    operand ((quoteCmd token).toList ++ [' ']) = token.toList.filter (· ≠ '"') := by
  by_cases hbare : CmdBare token
  · rw [quoteCmd_of_bare hbare]
    have hblank : ∀ c ∈ token.toList, isBlank c = false :=
      fun c hc ↦ not_blank (hbare.not_active hc)
    cases hchars : token.toList with
    | nil => exact absurd (String.toList_inj.mp hchars) hbare.1
    | cons c cs =>
        rw [hchars] at hblank
        have hne : c :: cs ≠ [] := cons_ne_nil c cs
        exact operand_of_not_blank (hblank c mem_cons_self)
          (hblank _ (getLast_mem hne)) (dropLast_append_getLast hne).symm
  · rw [toList_quoteCmd_of_not_bare hbare]
    have hquote : isBlank '"' = false := by decide
    rw [operand_of_not_blank hquote hquote (List.cons_append).symm]
    rw [List.filter_cons_of_neg (by decide), List.filter_append, filter_replaceChar]
    exact List.append_nil _

/-! ## Percent signs -/

section

variable {s s' : Percent}

theorem scan_replaceChar : s.scan (replaceChar '"' ['"', '"'] cs) = s.scan cs := by
  induction cs generalizing s with
  | nil => rfl
  | cons c cs ih =>
      have hone : s.scan (if c = '"' then ['"', '"'] else [c]) = s.step c := by
        by_cases hc : c = '"'
        · rw [if_pos hc, hc]
          exact Percent.away_away
        · rw [if_neg hc]
          rfl
      rw [replaceChar, flatMap_cons, Percent.scan_append, hone, ← replaceChar, ih,
        Percent.scan_cons]

/-- Behind another character quotes make no difference to the next. -/
theorem scan_quoteCmd (h : s.away = s) :
    (s.scan (quoteCmd token).toList).away = (s.scan token.toList).away := by
  by_cases hbare : CmdBare token
  · rw [quoteCmd_of_bare hbare]
  · rw [toList_quoteCmd_of_not_bare hbare, Percent.scan_of_ne (by decide), h, Percent.scan_append,
      scan_replaceChar, Percent.scan_of_ne (by decide), Percent.scan_nil, Percent.away_away]

theorem scan_spaced {tokens : List String} (h : s.away = s'.away) :
    (s.scan (spaced (tokens.map quoteCmd)).toList).away =
      (s'.scan (spaced tokens).toList).away := by
  rw [toList_spaced, toList_spaced, flatMap_map]
  induction tokens generalizing s s' with
  | nil => exact h
  | cons token tokens ih =>
      rw [flatMap_cons, flatMap_cons, Percent.scan_append, Percent.scan_append]
      apply ih
      rw [Percent.scan_of_ne (by decide), Percent.scan_of_ne (by decide), h,
        scan_quoteCmd Percent.away_away]

end

theorem count_quoteCmd : (quoteCmd token).toList.count '%' = token.toList.count '%' := by
  by_cases hbare : CmdBare token
  · rw [quoteCmd_of_bare hbare]
  · have hreplace : (replaceChar '"' ['"', '"'] token.toList).count '%' =
        token.toList.count '%' := by
      have hfilter : ∀ cs : List Char, (cs.filter (· ≠ '"')).count '%' = cs.count '%' :=
        fun cs ↦ count_filter (by decide)
      rw [← hfilter, filter_replaceChar, hfilter]
    rw [toList_quoteCmd_of_not_bare hbare, count_cons_of_ne (by decide), count_append,
      hreplace]
    rfl

theorem count_spaced {tokens : List String} :
    (spaced (tokens.map quoteCmd)).toList.count '%' =
      (tokens.map String.toList).flatten.count '%' := by
  rw [toList_spaced, flatMap_map]
  induction tokens with
  | nil => rfl
  | cons token tokens ih =>
      rw [flatMap_cons, cons_append, count_cons_of_ne (by decide),
        count_append, count_quoteCmd, ih, map_cons, flatten_cons, count_append]

/-! ## Reading the parts -/

theorem run_quoteCmd_iff (hmode : r.mode = .bare) :
    r.run inner (quoteCmd token).toList = some r' ↔
      ¬CmdActs inner (r.current.all isBlank) token ∧
        r' = ⟨r.commands, r.current ++ (quoteCmd token).toList, .bare⟩ := by
  refine ⟨run_quoteCmd_eq_some hmode, ?_⟩
  rintro ⟨hacts, rfl⟩
  exact run_quoteCmd hmode hacts

/-- A token is not blank. -/
theorem all_isBlank_quoteCmd : (quoteCmd token).toList.all isBlank = false := by
  by_cases hbare : CmdBare token
  · rw [quoteCmd_of_bare hbare]
    cases hchars : token.toList with
    | nil => exact absurd (String.toList_inj.mp hchars) hbare.1
    | cons c cs =>
        have hc := not_blank (hbare.not_active (hchars ▸ mem_cons_self))
        rw [all_cons, hc, Bool.false_and]
  · rw [toList_quoteCmd_of_not_bare hbare]
    rfl

theorem run_spaced_iff {tokens : List String} (hmode : r.mode = .bare)
    (hcurrent : r.current.all isBlank = false) :
    r.run inner (spaced (tokens.map quoteCmd)).toList = some r' ↔
      (∀ token ∈ tokens, ¬CmdActs inner false token) ∧
        r' = ⟨r.commands, r.current ++ (spaced (tokens.map quoteCmd)).toList, .bare⟩ := by
  rw [toList_spaced, flatMap_map]
  induction tokens generalizing r with
  | nil =>
      obtain ⟨commands, current, mode⟩ := r
      cases hmode
      rw [flatMap_nil, append_nil, Cmd.Reader.run_nil, and_iff_right nofun,
        Option.some_inj]
      exact eq_comm
  | cons token tokens ih =>
      have hblank : r.run inner [' '] = some ⟨r.commands, r.current ++ [' '], .bare⟩ := by
        refine Cmd.Reader.run_idle hmode (forall_mem_singleton.mpr ⟨by decide, fun h ↦ ?_⟩)
        exact absurd h (by decide)
      have hall : ∀ cs, (r.current ++ cs).all isBlank = false := fun cs ↦ by
        rw [all_append, hcurrent, Bool.false_and]
      rw [flatMap_cons, ← singleton_append, append_assoc, Cmd.Reader.run_append,
        hblank, Option.bind_some, Cmd.Reader.run_append, Option.bind_eq_some_iff,
        forall_mem_cons]
      constructor
      · rintro ⟨r₁, htoken, hrest⟩
        obtain ⟨hacts, rfl⟩ := (run_quoteCmd_iff rfl).mp htoken
        rw [hall] at hacts
        obtain ⟨hacts', rfl⟩ := (ih rfl (by rw [append_assoc, hall])).mp hrest
        refine ⟨⟨hacts, hacts'⟩, ?_⟩
        simp only [append_assoc]
      · rintro ⟨⟨hacts, hacts'⟩, rfl⟩
        refine ⟨_, (run_quoteCmd_iff rfl).mpr ⟨by rwa [hall], rfl⟩, ?_⟩
        refine (ih rfl (by rw [append_assoc, hall])).mpr ⟨hacts', ?_⟩
        simp only [append_assoc]

namespace RemoteCommandSpec

variable {spec : RemoteCommandSpec} {text : String}

/-! ## The property -/

/-- The fields of a command that are rendered as tokens. -/
def cmdFields (spec : RemoteCommandSpec) : List String :=
  spec.workingDirectory.toList ++ spec.cmdProgram :: spec.arguments

/-- Whether a line changes to the directory of a command, if it has one, sets its variables and
then runs its program with its arguments. -/
def CmdReadsAs (inner : Bool) (lookup : List Char → Option (List Char)) (spec : RemoteCommandSpec)
    (text : String) : Prop :=
  ∃ changes sets own,
    commands inner (expand lookup text.toList) = some (changes ++ sets ++ [own]) ∧
    List.Forall₂ (fun text directory ↦ ChangesTo text directory.toList) changes
      spec.workingDirectory.toList ∧
    List.Forall₂ (fun text e ↦ Sets text e.1.toList e.2.toList) sets
      spec.environment ∧
    words none .bare own = (spec.cmdProgram :: spec.arguments).map String.toList

/-- What a command must be like for `cmd.exe` to read it as it is meant. -/
structure CmdSafe (inner : Bool) (spec : RemoteCommandSpec) : Prop where
  environment : spec.environment = []
  percent : ¬Expandable (spaced spec.cmdFields).toList
  quotes : ∀ directory ∈ spec.workingDirectory, '"' ∉ directory.toList
  directory : ∀ directory ∈ spec.workingDirectory, ¬CmdActs inner false directory
  program : ¬CmdActs inner true spec.cmdProgram
  arguments : ∀ argument ∈ spec.arguments, ¬CmdActs inner false argument

/-! ## Reading a command -/

def directoryText (directory : String) : List Char :=
  "cd /d ".toList ++ ((quoteCmd directory).toList ++ [' '])

/-- The text of the program with its arguments. -/
def programText (spec : RemoteCommandSpec) : List Char :=
  (quoteCmd spec.cmdProgram).toList ++ (spaced (spec.arguments.map quoteCmd)).toList

/-- What has been read of the text behind the directory. -/
def behindDirectory (spec : RemoteCommandSpec) : Cmd.Reader where
  commands := spec.workingDirectory.toList.map directoryText
  current := if spec.workingDirectory = none then [] else [' ']
  mode := .bare

theorem renderCmd_eq_ok (h : spec.renderCmd = .ok text) : spec.validated = .ok () ∧
    text.toList = spec.cmdDirectory.toList ++ (spec.cmdEnvironment.toList ++ spec.programText) := by
  obtain ⟨hvalid, htext⟩ := Result.check_bind_eq_ok.mp h
  refine ⟨hvalid, ?_⟩
  rw [← Except.ok.inj htext, programText]
  simp only [String.toList_append, List.append_assoc]

theorem run_cmdDirectory_iff : Cmd.Reader.init.run inner spec.cmdDirectory.toList = some r ↔
    (∀ directory ∈ spec.workingDirectory, ¬CmdActs inner false directory) ∧
      r = spec.behindDirectory := by
  rw [cmdDirectory, behindDirectory]
  cases spec.workingDirectory with
  | none => exact Iff.trans Option.some_inj (by simp [Cmd.Reader.init, eq_comm])
  | some directory =>
      have htext : ("cd /d " ++ quoteCmd directory ++ " && ").toList =
          "cd /d ".toList ++ ((quoteCmd directory).toList ++ " && ".toList) := by
        simp only [String.toList_append, List.append_assoc]
      have hcd : Cmd.Reader.init.run inner "cd /d ".toList = some ⟨[], "cd /d ".toList, .bare⟩ := by
        cases inner <;> rfl
      have hand : ∀ current : List Char,
          Cmd.Reader.run inner ⟨[], current, .bare⟩ " && ".toList =
            some ⟨[current ++ [' ']], [' '], .bare⟩ := by
        cases inner <;> exact fun current ↦ rfl
      dsimp only
      rw [htext, Cmd.Reader.run_append, hcd, Option.bind_some, Cmd.Reader.run_append,
        Option.bind_eq_some_iff]
      constructor
      · rintro ⟨r₁, htoken, hrest⟩
        obtain ⟨hacts, rfl⟩ := (run_quoteCmd_iff rfl).mp htoken
        refine ⟨fun d hd ↦ ?_, ?_⟩
        · cases hd
          exact hacts
        · rw [hand] at hrest
          rw [← Option.some.inj hrest, List.append_assoc]
          rfl
      · rintro ⟨hacts, rfl⟩
        refine ⟨_, (run_quoteCmd_iff rfl).mpr ⟨hacts directory rfl, rfl⟩, ?_⟩
        rw [hand, List.append_assoc]
        rfl

theorem run_programText_iff (hmode : r.mode = .bare) (hblank : r.current.all isBlank = true) :
    r.run inner spec.programText = some r' ↔
      (¬CmdActs inner true spec.cmdProgram ∧
        ∀ argument ∈ spec.arguments, ¬CmdActs inner false argument) ∧
      r' = ⟨r.commands, r.current ++ spec.programText, .bare⟩ := by
  have hall : (r.current ++ (quoteCmd spec.cmdProgram).toList).all isBlank = false := by
    rw [List.all_append, all_isBlank_quoteCmd, Bool.and_false]
  rw [programText, Cmd.Reader.run_append, Option.bind_eq_some_iff]
  constructor
  · rintro ⟨r₁, hprogram, harguments⟩
    obtain ⟨hacts, rfl⟩ := (run_quoteCmd_iff hmode).mp hprogram
    rw [hblank] at hacts
    obtain ⟨hacts', rfl⟩ := (run_spaced_iff rfl hall).mp harguments
    refine ⟨⟨hacts, hacts'⟩, ?_⟩
    rw [List.append_assoc]
  · rintro ⟨⟨hacts, hacts'⟩, rfl⟩
    refine ⟨_, (run_quoteCmd_iff hmode).mpr ⟨by rwa [hblank], rfl⟩, ?_⟩
    refine (run_spaced_iff rfl hall).mpr ⟨hacts', ?_⟩
    rw [List.append_assoc]

theorem behindDirectory_blank : spec.behindDirectory.current.all isBlank = true := by
  rw [behindDirectory]
  split_ifs <;> rfl

/-- Without variables a rendered command is read as two texts at most. -/
theorem commands_rendered (h : spec.renderCmd = .ok text) (henvironment : spec.environment = [])
    {texts : List (List Char)} : commands inner text.toList = some texts ↔
      ((∀ directory ∈ spec.workingDirectory, ¬CmdActs inner false directory) ∧
        ¬CmdActs inner true spec.cmdProgram ∧
        ∀ argument ∈ spec.arguments, ¬CmdActs inner false argument) ∧
      texts = spec.workingDirectory.toList.map directoryText ++
        [spec.behindDirectory.current ++ spec.programText] := by
  have hnone : spec.cmdEnvironment.toList = [] := by
    rw [cmdEnvironment, henvironment]
    rfl
  rw [(renderCmd_eq_ok h).2, hnone, List.nil_append, commands, Cmd.Reader.run_append]
  constructor
  · intro htexts
    obtain ⟨r₂, hrun, hfinish⟩ := Option.bind_eq_some_iff.mp htexts
    obtain ⟨r₁, hdirectory, hprogram⟩ := Option.bind_eq_some_iff.mp hrun
    obtain ⟨hacts, rfl⟩ := run_cmdDirectory_iff.mp hdirectory
    obtain ⟨hacts', rfl⟩ := (run_programText_iff rfl behindDirectory_blank).mp hprogram
    exact ⟨⟨hacts, hacts'⟩, (Option.some.inj hfinish).symm⟩
  · rintro ⟨⟨hacts, hacts'⟩, rfl⟩
    rw [run_cmdDirectory_iff.mpr ⟨hacts, rfl⟩, Option.bind_some,
      (run_programText_iff rfl behindDirectory_blank).mpr ⟨hacts', rfl⟩]
    rfl

/-! ## Variables -/

/-- Nothing in the name of a variable acts. -/
theorem name_idle {name : String} (h : validEnvironmentName name = true) :
    ∀ c ∈ name.toList, c ∉ operators ∧ isParen c = false := by
  have hall : ∀ d ∈ '(' :: ')' :: operators, (d.isAlpha || d = '_') = false ∧
      (d.isAlphanum || d = '_') = false := by decide
  have hidle : ∀ c, c ∉ '(' :: ')' :: operators → c ∉ operators ∧ isParen c = false := by
    intro c hc
    simp only [List.mem_cons, not_or] at hc
    exact ⟨by simpa [operators] using hc.2.2, by simp [isParen, hc.1, hc.2.1]⟩
  unfold validEnvironmentName at h
  cases hname : name.toList with
  | nil => exact nofun
  | cons first rest =>
      rw [hname] at h
      obtain ⟨hfirst, hrest⟩ := Bool.and_eq_true_iff.mp h
      refine List.forall_mem_cons.mpr ⟨hidle first fun hmem ↦ ?_, fun c hc ↦ hidle c fun hmem ↦ ?_⟩
      · rw [(hall first hmem).1] at hfirst
        cases hfirst
      · have hc := List.all_eq_true.mp hrest c hc
        rw [(hall c hmem).2] at hc
        cases hc

theorem length_le_quoteCmd : token.toList.length ≤ (quoteCmd token).toList.length := by
  by_cases hbare : CmdBare token
  · rw [quoteCmd_of_bare hbare]
  · have hreplace : ∀ cs : List Char, cs.length ≤ (replaceChar '"' ['"', '"'] cs).length := by
      intro cs
      induction cs with
      | nil => exact Nat.le_refl 0
      | cons c cs ih =>
          have hone : 1 ≤ (if c = '"' then ['"', '"'] else [c]).length := by
            split_ifs <;> exact Nat.succ_pos _
          rw [replaceChar, List.flatMap_cons, List.length_append, List.length_cons, ← replaceChar]
          omega
    rw [toList_quoteCmd_of_not_bare hbare, List.length_cons, List.length_append]
    have := hreplace token.toList
    omega

/-- The text that sets a variable, with the blank before the next command. -/
def setText (e : String × String) : List Char :=
  "set ".toList ++ e.1.toList ++ '=' :: (quoteCmd e.2).toList ++ [' ']

theorem setText_eq (e : String × String) :
    setText e = "set ".toList ++ e.1.toList ++ '=' :: (quoteCmd e.2).toList ++ [' '] := rfl

/-- The value that is set is longer than the one that is meant. -/
theorem not_sets (e : String × String) {front : List Char} (hfront : front.all isBlank = true) :
    ¬Sets (front ++ setText e) e.1.toList e.2.toList := by
  intro h
  have hdrop : (front ++ setText e).dropWhile isBlank = setText e := by
    rw [List.dropWhile_append_of_pos (List.all_eq_true.mp hfront)]
    rfl
  rw [Sets, hdrop, setText_eq] at h
  have hlength := congrArg List.length h
  have hle : e.2.toList.length ≤ (quoteCmd e.2).toList.length := length_le_quoteCmd
  simp only [List.length_append, List.length_cons, List.length_nil] at hlength
  omega

/-- A variable is read as it is rendered. -/
theorem run_variable {e : String × String} (hname : validEnvironmentName e.1 = true)
    (hmode : r.mode = .bare)
    (h : r.run inner ("set " ++ e.1 ++ "=" ++ quoteCmd e.2 ++ " && ").toList = some r') :
    r'.commands = r.commands ++ [r.current ++ setText e] := by
  have htext : ("set " ++ e.1 ++ "=" ++ quoteCmd e.2 ++ " && ").toList =
      ("set ".toList ++ e.1.toList ++ ['=']) ++ ((quoteCmd e.2).toList ++ " && ".toList) := by
    simp [String.toList_append]
  have hidle : ∀ c ∈ "set ".toList ++ e.1.toList ++ ['='], c ∉ operators ∧ isParen c = false := by
    have hset : ∀ c ∈ "set ".toList, c ∉ operators ∧ isParen c = false := by decide
    have hequals : ∀ c ∈ ['='], c ∉ operators ∧ isParen c = false := by decide
    exact List.forall_mem_append.mpr ⟨List.forall_mem_append.mpr ⟨hset, name_idle hname⟩, hequals⟩
  have hset : r.run inner ("set ".toList ++ e.1.toList ++ ['=']) =
      some ⟨r.commands, r.current ++ ("set ".toList ++ e.1.toList ++ ['=']), .bare⟩ := by
    refine Cmd.Reader.run_idle hmode fun c hc ↦ ⟨(hidle c hc).1, fun hparen ↦ ?_⟩
    exact absurd hparen (Bool.eq_false_iff.mp (hidle c hc).2)
  rw [htext, Cmd.Reader.run_append, hset, Option.bind_some, Cmd.Reader.run_append] at h
  obtain ⟨r₁, htoken, hrest⟩ := Option.bind_eq_some_iff.mp h
  obtain ⟨-, rfl⟩ := (run_quoteCmd_iff rfl).mp htoken
  have hand : ∀ commands current : _,
      Cmd.Reader.run inner ⟨commands, current, .bare⟩ " && ".toList =
        some ⟨commands ++ [current ++ [' ']], [' '], .bare⟩ := by
    cases inner <;> exact fun commands current ↦ rfl
  rw [hand] at hrest
  rw [← Option.some.inj hrest, setText_eq]
  simp only [List.append_assoc, List.cons_append, List.nil_append]

/-- A command with a variable is never read as it is meant. -/
theorem environment_eq_nil (h : spec.renderCmd = .ok text)
    (hreads : spec.CmdReadsAs inner (fun _ ↦ none) text) : spec.environment = [] := by
  obtain ⟨changes, sets, own, hcommands, hchanges, hsets, -⟩ := hreads
  obtain ⟨hvalid, htext⟩ := renderCmd_eq_ok h
  have hnames := environment_valid hvalid
  have hplain : expand (fun _ ↦ none) text.toList = text.toList := expandFrom_of_none
  rw [hplain, htext, commands, cmdEnvironment] at hcommands
  cases henvironment : spec.environment with
  | nil => rfl
  | cons e environment =>
      rw [henvironment] at hcommands hsets hnames
      obtain ⟨r₃, hrun, hfinish⟩ := Option.bind_eq_some_iff.mp hcommands
      rw [Cmd.Reader.run_append] at hrun
      obtain ⟨r₁, hdirectory, hrun⟩ := Option.bind_eq_some_iff.mp hrun
      obtain ⟨-, rfl⟩ := run_cmdDirectory_iff.mp hdirectory
      rw [List.map_cons, String.toList_join, List.flatMap_cons, List.append_assoc,
        Cmd.Reader.run_append] at hrun
      obtain ⟨r₂, hvariable, hrun⟩ := Option.bind_eq_some_iff.mp hrun
      have hread := run_variable (hnames e List.mem_cons_self) rfl hvariable
      obtain ⟨back, hback⟩ := Cmd.Reader.run_commands hrun
      have htexts := Cmd.Reader.finish_eq_some hfinish
      rw [← hback, hread] at htexts
      cases hsets with
      | cons hset hsets =>
          have hlength : changes.length = spec.behindDirectory.commands.length := by
            rw [hchanges.length_eq, behindDirectory, List.length_map]
          simp only [List.append_assoc, List.cons_append] at htexts
          have hsame := (List.append_inj htexts hlength).2
          injection hsame with hfirst
          rw [hfirst] at hset
          exact absurd hset (not_sets e behindDirectory_blank)

/-! ## The whole command -/

/-- The directory of a command is changed to unless there is a quote in its name. -/
theorem changesTo_directoryText {directory : String} :
    ChangesTo (directoryText directory) directory.toList ↔ '"' ∉ directory.toList := by
  have hdrop : (directoryText directory).dropWhile isBlank =
      "cd /d ".toList ++ ((quoteCmd directory).toList ++ [' ']) := rfl
  have hfilter : directory.toList.filter (· ≠ '"') = directory.toList ↔
      '"' ∉ directory.toList := by
    rw [filter_eq_self]
    refine ⟨fun h hmem ↦ absurd (h _ hmem) (by decide), fun h c hc ↦ ?_⟩
    exact decide_eq_true fun heq ↦ h (heq ▸ hc)
  rw [ChangesTo, hdrop, ← hfilter]
  constructor
  · rintro ⟨rest, htext, hoperand⟩
    rwa [← append_cancel_left htext, operand_quoteCmd] at hoperand
  · exact fun h ↦ ⟨_, rfl, operand_quoteCmd.trans h⟩

theorem forall₂_directoryText :
    List.Forall₂ (fun text directory ↦ ChangesTo text directory.toList)
      (spec.workingDirectory.toList.map directoryText) spec.workingDirectory.toList ↔
    ∀ directory ∈ spec.workingDirectory, '"' ∉ directory.toList := by
  cases spec.workingDirectory with
  | none => exact iff_of_true .nil nofun
  | some directory =>
      rw [Option.toList_some, List.map_cons, List.map_nil, List.forall₂_cons,
        and_iff_left .nil, changesTo_directoryText]
      refine ⟨fun h d hd ↦ ?_, fun h ↦ h directory rfl⟩
      cases hd
      exact h

theorem words_programText : words none .bare (spec.behindDirectory.current ++ spec.programText) =
    (spec.cmdProgram :: spec.arguments).map String.toList := by
  have hlead : ∀ cs, words none .bare (spec.behindDirectory.current ++ cs) =
      words none .bare cs := by
    rw [behindDirectory]
    split_ifs <;> exact fun cs ↦ rfl
  rw [hlead, programText, words_quoteCmd (wordEnd_spaced _), words_spaced, List.map_cons]

/-- A line whose percent signs stand for themselves is read as it is meant exactly when no
parenthesis acts and no quote is in the name of the directory. -/
theorem cmdReadsAs_iff (h : spec.renderCmd = .ok text) (henvironment : spec.environment = [])
    {lookup : List Char → Option (List Char)} (hplain : expand lookup text.toList = text.toList) :
    spec.CmdReadsAs inner lookup text ↔
      (∀ directory ∈ spec.workingDirectory, '"' ∉ directory.toList) ∧
      (∀ directory ∈ spec.workingDirectory, ¬CmdActs inner false directory) ∧
      ¬CmdActs inner true spec.cmdProgram ∧
      ∀ argument ∈ spec.arguments, ¬CmdActs inner false argument := by
  rw [CmdReadsAs, hplain, henvironment]
  constructor
  · rintro ⟨changes, sets, own, hcommands, hchanges, hsets, -⟩
    obtain ⟨hacts, htexts⟩ := (commands_rendered h henvironment).mp hcommands
    cases hsets
    rw [append_nil] at htexts
    obtain ⟨rfl, -⟩ := append_inj' htexts rfl
    exact ⟨forall₂_directoryText.mp hchanges, hacts⟩
  · rintro ⟨hquotes, hacts⟩
    refine ⟨_, [], _, (commands_rendered h henvironment).mpr ⟨hacts, ?_⟩,
      forall₂_directoryText.mpr hquotes, .nil, words_programText⟩
    rw [append_nil]

/-! ## Percent signs of a command -/

theorem toList_renderCmd (h : spec.renderCmd = .ok text) (henvironment : spec.environment = []) :
    text.toList = spec.cmdDirectory.toList ++ spec.programText := by
  have hnone : spec.cmdEnvironment.toList = [] := by
    rw [cmdEnvironment, henvironment]
    rfl
  rw [(renderCmd_eq_ok h).2, hnone, nil_append]

theorem toList_spaced_cons (tokens : List String) :
    (spaced (token :: tokens)).toList = ' ' :: (token.toList ++ (spaced tokens).toList) := by
  rw [toList_spaced, toList_spaced, flatMap_cons, cons_append]

theorem toList_spaced_program :
    (spaced ((spec.cmdProgram :: spec.arguments).map quoteCmd)).toList =
      ' ' :: spec.programText := by
  rw [map_cons, toList_spaced_cons, programText]

theorem toList_cmdDirectory {directory : String} (h : spec.workingDirectory = some directory) :
    spec.cmdDirectory.toList =
      "cd /d ".toList ++ ((quoteCmd directory).toList ++ " && ".toList) := by
  rw [cmdDirectory, h]
  simp only [String.toList_append, append_assoc]

/-- Names between percent signs are in the rendered line exactly when they are in the fields. -/
theorem expandable_renderCmd (h : spec.renderCmd = .ok text)
    (henvironment : spec.environment = []) :
    Expandable text.toList ↔ Expandable (spaced spec.cmdFields).toList := by
  have hscan : (Percent.scan .untouched text.toList).away =
      (Percent.scan .untouched (spaced spec.cmdFields).toList).away := by
    rw [← scan_spaced rfl, toList_renderCmd h henvironment, cmdFields]
    cases hdirectory : spec.workingDirectory with
    | none =>
        have hnone : spec.cmdDirectory.toList = [] := by
          rw [cmdDirectory, hdirectory]
          rfl
        rw [hnone, Option.toList_none, nil_append, nil_append, toList_spaced_program,
          Percent.scan_of_ne (by decide), Percent.away_untouched]
    | some directory =>
        have hcd : Percent.scan .untouched "cd /d ".toList = .untouched := by decide
        have hand : ∀ s : Percent, s.scan " && ".toList = s.away := by
          intro s
          cases s <;> decide
        have hblank : ∀ (s : Percent) cs, s.scan (' ' :: cs) = s.away.scan cs :=
          fun s cs ↦ Percent.scan_of_ne (by decide)
        rw [toList_cmdDirectory hdirectory, Option.toList_some, singleton_append,
          map_cons, toList_spaced_cons, toList_spaced_program, Percent.scan_append,
          Percent.scan_append, Percent.scan_append, hcd, hand, hblank, Percent.scan_append, hblank,
          Percent.away_untouched]
  rw [← scan_eq_expands_iff.1, ← scan_eq_expands_iff.1, ← Percent.away_eq_expands, hscan,
    Percent.away_eq_expands]

theorem count_renderCmd (h : spec.renderCmd = .ok text) (henvironment : spec.environment = []) :
    text.toList.count '%' = (spec.cmdFields.map String.toList).flatten.count '%' := by
  have hprogram : spec.programText.count '%' =
      ((spec.cmdProgram :: spec.arguments).map String.toList).flatten.count '%' := by
    rw [← count_spaced, toList_spaced_program, count_cons_of_ne (by decide)]
  rw [toList_renderCmd h henvironment, cmdFields, count_append, hprogram, map_append,
    flatten_append, count_append]
  rw [Nat.add_right_cancel_iff]
  cases hdirectory : spec.workingDirectory with
  | none =>
      rw [cmdDirectory, hdirectory]
      rfl
  | some directory =>
      have hrest : "cd /d ".toList.count '%' = 0 ∧ " && ".toList.count '%' = 0 := by decide
      rw [toList_cmdDirectory hdirectory, count_append, count_append, hrest.1, hrest.2,
        count_quoteCmd, Nat.zero_add, Nat.add_zero]
      simp

/-- Where every variable is empty a command is read as it is meant only if no name stands
between percent signs. -/
theorem not_expandable (h : spec.renderCmd = .ok text) (henvironment : spec.environment = [])
    (hreads : spec.CmdReadsAs inner emptied text) : ¬Expandable text.toList := by
  intro hexpandable
  obtain ⟨changes, sets, own, hcommands, hchanges, -, hwords⟩ := hreads
  have hless : (expand emptied text.toList).count '%' < text.toList.count '%' :=
    @count_expandFrom_lt none _ (scan_eq_expands_iff.1.mpr hexpandable)
  have hown : own.count '%' =
      ((spec.cmdProgram :: spec.arguments).map String.toList).flatten.count '%' := by
    rw [← hwords, count_words]
    exact (Nat.zero_add _).symm
  have hdirectory : (spec.workingDirectory.toList.map String.toList).flatten.count '%' ≤
      changes.flatten.count '%' := by
    clear hcommands
    generalize spec.workingDirectory.toList = directories at hchanges
    induction hchanges with
    | nil => exact Nat.le_refl _
    | cons hchange _ ih =>
        rw [map_cons, flatten_cons, flatten_cons, count_append,
          count_append]
        exact Nat.add_le_add hchange.count_le ih
  have htotal := count_commands hcommands
  rw [count_renderCmd h henvironment, cmdFields, map_append, flatten_append,
    count_append] at hless
  rw [flatten_append, flatten_append, count_append, count_append,
    flatten_singleton, hown] at htotal
  omega

/-- Whatever the variables are, a rendered command is read by `cmd.exe` as it is meant exactly
when it is safe. -/
theorem renderCmd_reads_as_iff (inner : Bool) (h : spec.renderCmd = .ok text) :
    (∀ lookup, spec.CmdReadsAs inner lookup text) ↔ spec.CmdSafe inner := by
  constructor
  · intro hreads
    have henvironment := environment_eq_nil h (hreads _)
    have hplain := not_expandable h henvironment (hreads emptied)
    obtain ⟨hquotes, hdirectory, hprogram, harguments⟩ :=
      (cmdReadsAs_iff h henvironment (expand_eq_self hplain)).mp (hreads emptied)
    exact ⟨henvironment, mt (expandable_renderCmd h henvironment).mpr hplain, hquotes, hdirectory,
      hprogram, harguments⟩
  · intro hsafe lookup
    have hplain := mt (expandable_renderCmd h hsafe.environment).mp hsafe.percent
    exact (cmdReadsAs_iff h hsafe.environment (expand_eq_self hplain)).mpr
      ⟨hsafe.quotes, hsafe.directory, hsafe.program, hsafe.arguments⟩

theorem renderCmd_reads_as_iff_say :
    (∀ lookup, CmdReadsAs false lookup ⟨"cmd", ["/c", "say \"hi\""], [], some "C:\\My Files"⟩
        "cd /d \"C:\\My Files\" && cmd.exe /c \"say \"\"hi\"\"\"") ↔
      CmdSafe false ⟨"cmd", ["/c", "say \"hi\""], [], some "C:\\My Files"⟩ :=
  renderCmd_reads_as_iff false rfl

/-- The blank behind a value becomes a part of it. -/
theorem value_with_blank :
    ¬∀ (inner : Bool) (spec : RemoteCommandSpec) (text : String), spec.renderCmd = .ok text →
      ∀ lookup, spec.CmdReadsAs inner lookup text := by
  intro h
  obtain ⟨changes, sets, own, hcommands, hchanges, hsets, -⟩ :=
    h true ⟨"build", [], [("MODE", "fast")], none⟩ "set MODE=fast && build" rfl fun _ ↦ none
  have htexts : commands true (expand (fun _ ↦ none) "set MODE=fast && build".toList) =
      some ["set MODE=fast ".toList, " build".toList] := rfl
  rw [htexts] at hcommands
  cases hchanges
  cases hsets with
  | cons hset hsets =>
      have hfirst := (List.cons.inj (Option.some.inj hcommands)).1
      rw [← hfirst] at hset
      exact absurd hset (by decide)

end RemoteCommandSpec

end KaduoxSsh.Core
