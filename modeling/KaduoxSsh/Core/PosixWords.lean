import KaduoxSsh.Core.Command
import KaduoxSsh.Lib.PosixShell

/-!
# Quoted words

What a POSIX shell reads of a value that `quote_posix` has quoted: one word, which
stands for the value. The value may be any text; an apostrophe in it closes the quotes,
stands in a pair of others and opens the quotes again. Digits go unquoted, so directly in front of
a redirection they are the number of a descriptor, which is no place for a word.
-/

namespace KaduoxSsh.Core

open Posix

/-- The word that a quoted value is read as. -/
def quotedWord (value : String) : Word :=
  if PlainWord value then Word.plain value.toList else Word.literal value.toList

variable {value : String} {c : Char} {r : Posix.Reader}

/-! ## Plain characters -/

/-- The characters that mean something to a shell outside quotes. -/
def shellCharacters : List Char :=
  ['\\', '\x27', '"', '$', '`', '\n', ';', '&', '|', '(', ')', '<', '>', ' ', '\t', '#', '*', '?', '[',
    '~']

theorem notMem_shellCharacters (h : isPosixPlain c = true) : c ∉ shellCharacters := by
  intro hmem
  have hall : ∀ d ∈ shellCharacters, isPosixPlain d = false := by decide
  rw [hall c hmem] at h
  cases h

/-- A character outside the list is pushed onto the word. -/
theorem bare_of_notMem (h : c ∉ shellCharacters) : r.bare c = some (r.push ⟨c, false⟩ .bare) := by
  have hne : ∀ d ∈ shellCharacters, c ≠ d := fun d hd hc ↦ h (hc ▸ hd)
  have hop : Operator.ofChar c = none := by
    unfold Operator.ofChar
    split <;> first | rfl | exact absurd rfl (hne _ (by decide))
  unfold Posix.Reader.bare
  rw [if_neg (hne _ (by decide)), if_neg (hne _ (by decide)), if_neg (hne _ (by decide)),
    if_neg (not_or.mpr ⟨hne _ (by decide), hne _ (by decide)⟩), hop]
  dsimp only
  rw [if_neg (not_or.mpr ⟨hne _ (by decide), hne _ (by decide)⟩),
    if_neg (not_and_of_not_left _ (hne _ (by decide)))]

theorem run_plain {cs : List Char} (h : ∀ c ∈ cs, c ∉ shellCharacters) (hmode : r.mode = .bare)
    (hne : cs ≠ []) :
    r.run cs = some ⟨r.tokens, some (r.word.getD [] ++ Word.plain cs), .bare⟩ := by
  induction cs generalizing r with
  | nil => exact absurd rfl hne
  | cons c cs ih =>
      rw [Posix.Reader.run_cons, Posix.Reader.step, hmode]
      dsimp only
      rw [bare_of_notMem (h c List.mem_cons_self), Option.bind_some]
      cases cs with
      | nil => rfl
      | cons d ds =>
          rw [ih (fun x hx ↦ h x (List.mem_cons_of_mem c hx)) rfl (List.cons_ne_nil d ds)]
          simp [Posix.Reader.push, Word.plain]

/-! ## Quotes -/

/-- The five characters that stand for an apostrophe leave the reader in single quotes. -/
theorem run_apostrophe (hmode : r.mode = .single) (hword : r.word.isSome = true) :
    r.run ['\x27', '"', '\x27', '"', '\x27'] = some (r.push ⟨'\x27', true⟩ .single) := by
  obtain ⟨w, hw⟩ := Option.isSome_iff_exists.mp hword
  obtain ⟨tokens, word, mode⟩ := r
  cases hmode
  cases hw
  rfl

theorem run_replaced {cs : List Char} (hmode : r.mode = .single) (hword : r.word.isSome = true) :
    r.run (replaceChar '\x27' ['\x27', '"', '\x27', '"', '\x27'] cs) =
      some ⟨r.tokens, some (r.word.getD [] ++ Word.literal cs), .single⟩ := by
  induction cs generalizing r with
  | nil =>
      obtain ⟨w, hw⟩ := Option.isSome_iff_exists.mp hword
      obtain ⟨tokens, word, mode⟩ := r
      cases hmode
      cases hw
      exact congrArg some (by simp [Word.literal])
  | cons c cs ih =>
      have hone : r.run (if c = '\x27' then ['\x27', '"', '\x27', '"', '\x27'] else [c]) =
          some (r.push ⟨c, true⟩ .single) := by
        by_cases hc : c = '\x27'
        · rw [if_pos hc, hc]
          exact run_apostrophe hmode hword
        · rw [if_neg hc, Posix.Reader.run_cons, Posix.Reader.step, hmode]
          dsimp only
          rw [if_neg hc]
          rfl
      rw [replaceChar, List.flatMap_cons, Posix.Reader.run_append, hone, Option.bind_some]
      refine (ih rfl rfl).trans ?_
      simp [Posix.Reader.push, Word.literal]

/-! ## A quoted value -/

/-- Wherever a reader stands outside quotes, the value is added to the word it is reading. -/
theorem run_quotePosix (hmode : r.mode = .bare) :
    r.run (quotePosix value).toList =
      some ⟨r.tokens, some (r.word.getD [] ++ quotedWord value), .bare⟩ := by
  by_cases hplain : PlainWord value
  · rw [quotePosix_of_plain hplain, quotedWord, if_pos hplain]
    refine run_plain (fun c hc ↦ notMem_shellCharacters (hplain.2 c hc)) hmode fun hnil ↦ ?_
    exact hplain.1 (String.toList_inj.mp hnil)
  · obtain ⟨quoted, hquoted, rfl⟩ := quotePosix_of_not_plain hplain
    have hstep : r.step '\x27' = some (r.enter .single) := by
      rw [Posix.Reader.step, hmode]
      rfl
    rw [hquoted, quotedWord, if_neg hplain, Posix.Reader.run_cons, hstep, Option.bind_some,
      Posix.Reader.run_append, run_replaced rfl rfl, Option.bind_some]
    rfl

theorem field_quotedWord (value : String) : (quotedWord value).field = some value := by
  rw [quotedWord]
  split_ifs with hplain
  · rw [Word.field_plain, String.ofList_toList]
    intro c hc
    rw [← Bool.not_eq_true, List.contains_iff_mem]
    intro hmem
    refine notMem_shellCharacters (hplain.2 c hc) ?_
    have hall : ∀ d ∈ ['*', '?', '[', '~'], d ∈ shellCharacters := by decide
    exact hall c hmem
  · rw [Word.field_literal, String.ofList_toList]

/-- A quoted value begins with a character that is part of no operator. -/
theorem quotePosix_head (value : String) : ∃ c cs, (quotePosix value).toList = c :: cs ∧
    Operator.ofChar c = none := by
  by_cases hplain : PlainWord value
  · cases hvalue : value.toList with
    | nil => exact absurd (String.toList_inj.mp hvalue) hplain.1
    | cons c cs =>
        refine ⟨c, cs, by rw [quotePosix_of_plain hplain, hvalue], ?_⟩
        have hc := notMem_shellCharacters (hplain.2 c (hvalue ▸ List.mem_cons_self))
        unfold Operator.ofChar
        split <;> first | rfl | exact absurd (by decide) hc
  · obtain ⟨quoted, hquoted, -⟩ := quotePosix_of_not_plain hplain
    exact ⟨_, quoted, hquoted, rfl⟩

/-- Between two texts that leave room for a word, a quoted value is one token. -/
theorem read_quotePosix {front back : List Char} (hfront : Posix.Reader.init.run front = some r)
    (hstart : r.StartsWord) (hback : EndsWord (quotedWord value) back) :
    tokenize (front ++ (quotePosix value).toList ++ back) =
      (tokenize front).bind fun before ↦
        (tokenize back).map fun behind ↦ before ++ .word (quotedWord value) :: behind := by
  obtain ⟨hmode, hword, hfinish⟩ := hstart.settled
  obtain ⟨c, cs, hquoted, hc⟩ := quotePosix_head value
  have hrun : r.run (quotePosix value).toList =
      some ⟨r.settle.tokens, some (quotedWord value), .bare⟩ := by
    rw [hquoted, hstart.run_settle hc, ← hquoted, run_quotePosix hmode, hword]
    rfl
  have hread : tokenize front = some r.settle.tokens := by
    rw [tokenize, hfront, Option.bind_some, hfinish]
  rw [hread, Option.bind_some, tokenize, List.append_assoc, Posix.Reader.run_append, hfront,
    Option.bind_some, Posix.Reader.run_append, hrun, Option.bind_some]
  exact Posix.Reader.run_word rfl rfl hback

/-! ## Another user -/

/-- The words of the command that runs another one as a user. -/
def sudoWords (user command : String) : List Word :=
  [Word.plain "sudo".toList, Word.plain "-n".toList, Word.plain "-u".toList, quotedWord user,
    Word.plain "--".toList, Word.plain "sh".toList, Word.plain "-lc".toList, quotedWord command]

theorem tokenize_sudo (user command : String) :
    tokenize ("sudo -n -u " ++ quotePosix user ++ " -- sh -lc " ++ quotePosix command).toList =
      some ((sudoWords user command).map Token.word) := by
  have hlast : tokenize (" -- sh -lc ".toList ++ (quotePosix command).toList) =
      some [.word (Word.plain "--".toList), .word (Word.plain "sh".toList),
        .word (Word.plain "-lc".toList), .word (quotedWord command)] := by
    have h := @read_quotePosix command _ " -- sh -lc ".toList [] rfl ⟨rfl, .inl rfl⟩
      fun c hc ↦ nomatch hc
    rw [List.append_nil] at h
    exact h
  have hspace : EndsWord (quotedWord user)
      (" -- sh -lc ".toList ++ (quotePosix command).toList) := by
    rintro c ⟨⟩
    exact ⟨by decide, fun h ↦ absurd h (by decide)⟩
  have h := @read_quotePosix user _ "sudo -n -u ".toList _ rfl ⟨rfl, .inl rfl⟩ hspace
  simp only [String.toList_append, List.append_assoc] at h ⊢
  rw [h, hlast]
  rfl

theorem command_sudoWords (d : Dialect) (user command : String) :
    d.command (sudoWords user command) =
      some ⟨[], ["sudo", "-n", "-u", user, "--", "sh", "-lc", command]⟩ := by
  have hreserves : d.reserves "sudo" = false :=
    Dialect.reserves_eq_false (by decide) (by decide) (by decide)
  have hassignment : d.assignment (Word.plain "sudo".toList) = none :=
    Dialect.assignment_eq_none (by decide)
  have hfields : (sudoWords user command).mapM Word.field =
      some ["sudo", "-n", "-u", user, "--", "sh", "-lc", command] := by
    simp only [sudoWords, List.mapM_cons, List.mapM_nil, field_quotedWord]
    rfl
  have hreservesWord : d.reservesWord (Word.plain "sudo".toList) = false := by
    rw [Dialect.reservesWord, Word.text_plain, String.ofList_toList, hreserves, Bool.and_false]
  rw [sudoWords, Dialect.command, hreservesWord, if_neg Bool.false_ne_true, Dialect.simple,
    hassignment]
  exact congrArg (Option.map _) hfields

/-- The value is the number of a descriptor, if a redirection comes directly behind it. -/
theorem isNumber_quotedWord : (quotedWord value).isNumber = true ↔
    value ≠ "" ∧ ∀ c ∈ value.toList, c.isDigit = true := by
  have hnil : value = "" ↔ value.toList = [] := String.toList_inj.symm
  rw [Word.isNumber, Bool.and_eq_true, decide_eq_true_eq, List.all_eq_true, quotedWord]
  by_cases hplain : PlainWord value
  · rw [if_pos hplain, Word.plain, List.forall_mem_map, Ne, List.map_eq_nil_iff, Ne, hnil]
    rfl
  · rw [if_neg hplain, Word.literal, List.forall_mem_map, Ne, List.map_eq_nil_iff, Ne, hnil]
    refine and_congr_right fun hne ↦ ⟨fun h ↦ ?_, fun h ↦ absurd ?_ hplain⟩
    · obtain ⟨c, hc⟩ := List.exists_mem_of_ne_nil _ hne
      cases h c hc
    · refine ⟨hnil.not.mpr hne, fun c hc ↦ ?_⟩
      rw [isPosixPlain, Char.isAlphanum, h c hc, Bool.or_true, Bool.true_or]

/-- A quoted value is exactly one word wherever a word can stand, and a shell reads the command
for another user as the one command whose last argument is what is to be run. -/
theorem quoted_fields_are_words (value user command : String) (d : Dialect) :
    (∀ (front back : List Char) (r : Posix.Reader), Posix.Reader.init.run front = some r →
      r.StartsWord → (∀ c ∈ back.head?, Delimits c) →
      (value ≠ "" → (∀ c ∈ value.toList, c.isDigit = true) →
        ∀ c ∈ back.head?, c ≠ '<' ∧ c ≠ '>') → ∃ w, w.field = some value ∧
        tokenize (front ++ (quotePosix value).toList ++ back) =
          (tokenize front).bind fun before ↦
            (tokenize back).map fun behind ↦ before ++ .word w :: behind) ∧
    ∃ text, commandForUser command (.sudo user) .unix = .ok text ∧
      d.parse text = some [⟨[], ["sudo", "-n", "-u", user, "--", "sh", "-lc", command]⟩] := by
  constructor
  · intro front back r hfront hstart hback hdigits
    have hend : EndsWord (quotedWord value) back := by
      refine fun c hc ↦ ⟨hback c hc, fun hredirect ↦ Bool.eq_false_iff.mpr fun hnumber ↦ ?_⟩
      obtain ⟨hne, hall⟩ := isNumber_quotedWord.mp hnumber
      exact hredirect.elim (hdigits hne hall c hc).1 (hdigits hne hall c hc).2
    exact ⟨quotedWord value, field_quotedWord value, read_quotePosix hfront hstart hend⟩
  · refine ⟨_, rfl, ?_⟩
    rw [Dialect.parse, tokenize_sudo, Option.bind_some, Dialect.andList_words, command_sudoWords]
    rfl

theorem quoted_fields_are_words_apostrophe :
    (∃ w, w.field = some "it's" ∧
      tokenize ("rm ".toList ++ (quotePosix "it's").toList ++ ";ls".toList) =
        (tokenize "rm ".toList).bind fun before ↦
          (tokenize ";ls".toList).map fun behind ↦ before ++ .word w :: behind) ∧
    ∃ text, commandForUser "echo it's" (.sudo "web") .unix = .ok text ∧
      Dialect.standard.parse text =
        some [⟨[], ["sudo", "-n", "-u", "web", "--", "sh", "-lc", "echo it's"]⟩] := by
  have h := quoted_fields_are_words "it's" "web" "echo it's" .standard
  have hend : ∀ c ∈ (";ls".toList).head?, Delimits c := by
    rintro c ⟨⟩
    decide
  have hdigits : ∀ c ∈ (";ls".toList).head?, c ≠ '<' ∧ c ≠ '>' := by
    rintro c ⟨⟩
    decide
  exact ⟨h.1 "rm ".toList ";ls".toList _ rfl ⟨rfl, .inl rfl⟩ hend fun _ _ ↦ hdigits, h.2⟩

end KaduoxSsh.Core
