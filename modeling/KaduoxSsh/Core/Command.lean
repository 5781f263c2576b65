import KaduoxSsh.Lib.Result
import KaduoxSsh.Lib.Words

/-!
# Commands for the other side

`command.rs`, and from `client.rs` the quoting and the change of the user. A command is
rendered for a POSIX shell or for `cmd.exe`. The two texts are the same only for a
command without directory and environment all of whose words go through either shell
unquoted (`renderPosix_eq_renderCmd_iff`).
-/

namespace KaduoxSsh.Core

open Text List

inductive RemotePlatform where
  | unix
  | windows
deriving DecidableEq, Repr

inductive RemoteUser where
  | current
  | sudo (user : String)
deriving DecidableEq, Repr

structure RemoteCommandSpec where
  program : String
  arguments : List String
  environment : List (String × String)
  workingDirectory : Option String
deriving DecidableEq, Repr

/-! ## Quoting -/

/-- Each copy of a character replaced by a text. -/
def replaceChar (c : Char) (replacement : List Char) (value : List Char) : List Char :=
  value.flatMap fun d ↦ if d = c then replacement else [d]

def isPosixPlain (c : Char) : Bool := c.isAlphanum || "_+-./:@%,=".toList.contains c

def quotePosix (value : String) : String :=
  if value = "" then "\x27\x27"
  else if value.toList.all isPosixPlain then value
  else "\x27" ++ String.ofList (replaceChar '\x27' ['\x27', '"', '\x27', '"', '\x27'] value.toList) ++
    "\x27"

def isCmdActive (c : Char) : Bool := isWhitespace c || ['"', '&', '|', '<', '>', '^'].contains c

def quoteCmd (token : String) : String :=
  if token ≠ "" ∧ ¬token.toList.any isCmdActive then token
  else "\"" ++ String.ofList (replaceChar '"' ['"', '"'] token.toList) ++ "\""

/-! ## Rendering -/

def validEnvironmentName (name : String) : Bool :=
  match name.toList with
  | [] => false
  | first :: rest =>
      (first.isAlpha || first = '_') && rest.all fun c ↦ c.isAlphanum || c = '_'

def rejectNul (label value : String) : Result Unit :=
  Result.bailIf ('\x00' ∈ value.toList) s!"{label} cannot contain NUL bytes"

/-- The variables of an environment, and the names seen before. -/
def validateEnvironment : List String → List (String × String) → Result Unit
  | _, [] => .ok ()
  | names, (name, value) :: environment => do
      Result.bailIf (validEnvironmentName name = false)
        s!"invalid remote environment variable name: {name}"
      Result.bailIf (name ∈ names) s!"duplicate remote environment variable: {name}"
      rejectNul "remote environment value" value
      validateEnvironment (name :: names) environment

def validateDirectory (directory : String) : Result Unit := do
  Result.bailIf (directory = "") "remote working directory cannot be empty"
  rejectNul "remote working directory" directory

def RemoteCommandSpec.validated (spec : RemoteCommandSpec) : Result Unit := do
  Result.bailIf (spec.program = "") "remote command program cannot be empty"
  rejectNul "remote command program" spec.program
  spec.arguments.forM (rejectNul "remote command argument")
  spec.workingDirectory.forM validateDirectory
  validateEnvironment [] spec.environment

def safeCdOperand (directory : String) : String :=
  if directory.toList.head? = some '-' then "./" ++ directory else directory

/-- Words with a blank in front of each. -/
def spaced (words : List String) : String := String.join (words.map fun word ↦ " " ++ word)

namespace RemoteCommandSpec

variable (spec : RemoteCommandSpec)

def posixDirectory : String :=
  match spec.workingDirectory with
  | some directory => "cd " ++ quotePosix (safeCdOperand directory) ++ " && "
  | none => ""

def posixEnvironment : String :=
  String.join (spec.environment.map fun e ↦ e.1 ++ "=" ++ quotePosix e.2 ++ " ")

def renderPosix : Result String := do
  spec.validated
  return spec.posixDirectory ++ spec.posixEnvironment ++ quotePosix spec.program ++
    spaced (spec.arguments.map quotePosix)

def cmdDirectory : String :=
  match spec.workingDirectory with
  | some directory => "cd /d " ++ quoteCmd directory ++ " && "
  | none => ""

def cmdEnvironment : String :=
  String.join (spec.environment.map fun e ↦ "set " ++ e.1 ++ "=" ++ quoteCmd e.2 ++ " && ")

def cmdProgram : String := if eqIgnoreAsciiCase spec.program "cmd" then "cmd.exe" else spec.program

def renderCmd : Result String := do
  spec.validated
  return spec.cmdDirectory ++ spec.cmdEnvironment ++ quoteCmd spec.cmdProgram ++
    spaced (spec.arguments.map quoteCmd)

end RemoteCommandSpec

def commandForUser (command : String) (remoteUser : RemoteUser) (platform : RemotePlatform) :
    Result String :=
  match remoteUser with
  | .current => .ok command
  | .sudo user =>
      if platform = .windows then
        Result.bail "Windows targets do not support sudo privilege switching"
      else .ok ("sudo -n -u " ++ quotePosix user ++ " -- sh -lc " ++ quotePosix command)

/-! ## Where the two renderings agree -/

variable {word token : String} {rest rest' : List Char}

/-- A word that neither shell needs quotes for. -/
def PlainWord (word : String) : Prop := word ≠ "" ∧ ∀ c ∈ word.toList, isPosixPlain c = true

instance decidablePlainWord (word : String) : Decidable (PlainWord word) :=
  inferInstanceAs (Decidable (_ ∧ _))

/-- What a shell takes to be behind a word. -/
def WordEnd (rest : List Char) : Prop := rest = [] ∨ rest.head? = some ' '

theorem WordEnd.ne_cons {c : Char} (h : WordEnd rest) (hc : c ≠ ' ') : rest ≠ c :: rest' := by
  rintro rfl
  rcases h with hnil | hhead
  · cases hnil
  · exact hc (Option.some.inj hhead)

theorem toNat_of_isPosixPlain {c : Char} (h : isPosixPlain c = true) : c.toNat ≤ 122 := by
  rw [isPosixPlain, Bool.or_eq_true] at h
  rcases h with halnum | hmember
  · exact (toNat_of_isAlphanum halnum).2
  · have hall : ∀ d ∈ "_+-./:@%,=".toList, d.toNat ≤ 122 := by decide
    exact hall c (contains_iff_mem.mp hmember)

/-- Characters without a meaning for a POSIX shell have none for `cmd.exe` either. -/
theorem isCmdActive_of_isPosixPlain {c : Char} (h : isPosixPlain c = true) :
    isCmdActive c = false ∧ c ≠ ' ' ∧ c ≠ '\x27' ∧ c ≠ '"' := by
  have hall : ∀ n ∈ List.range 123, isPosixPlain (Char.ofNat n) = true →
      isCmdActive (Char.ofNat n) = false ∧ Char.ofNat n ≠ ' ' ∧ Char.ofNat n ≠ '\x27' ∧
        Char.ofNat n ≠ '"' := by decide +kernel
  have hc := hall c.toNat (mem_range.mpr (Nat.lt_succ_of_le (toNat_of_isPosixPlain h)))
  rw [Char.ofNat_toNat] at hc
  exact hc h

theorem quotePosix_of_plain (h : PlainWord word) : quotePosix word = word := by
  rw [quotePosix, if_neg h.1, if_pos (all_eq_true.mpr h.2)]

theorem quoteCmd_of_plain (h : PlainWord word) : quoteCmd word = word := by
  rw [quoteCmd, if_pos]
  refine ⟨h.1, fun hany ↦ ?_⟩
  obtain ⟨c, hc, hactive⟩ := any_eq_true.mp hany
  rw [(isCmdActive_of_isPosixPlain (h.2 c hc)).1] at hactive
  cases hactive

theorem quotePosix_of_not_plain (h : ¬PlainWord word) : ∃ quoted,
    (quotePosix word).toList = '\x27' :: quoted ∧
      quoted = replaceChar '\x27' ['\x27', '"', '\x27', '"', '\x27'] word.toList ++ ['\x27'] := by
  rw [quotePosix]
  by_cases hempty : word = ""
  · subst hempty
    exact ⟨_, rfl, rfl⟩
  · rw [if_neg hempty, if_neg]
    · simp only [String.toList_append, String.toList_ofList]
      exact ⟨_, rfl, rfl⟩
    · exact fun hall ↦ h ⟨hempty, all_eq_true.mp hall⟩

/-- Two texts up to a separator with what is behind each are the same only when the texts are. -/
theorem append_inj_of_separator {sep : Char} {a b : List Char} (ha : sep ∉ a) (hb : sep ∉ b)
    (hrest : rest = [] ∨ rest.head? = some sep) (hrest' : rest' = [] ∨ rest'.head? = some sep)
    (h : a ++ rest = b ++ rest') : a = b ∧ rest = rest' := by
  induction a generalizing b with
  | nil =>
      cases b with
      | nil => exact ⟨rfl, h⟩
      | cons c cs =>
          rw [nil_append] at h
          subst h
          rcases hrest with hnil | hhead
          · cases hnil
          · cases hhead
            exact absurd mem_cons_self hb
  | cons c cs ih =>
      cases b with
      | nil =>
          rw [nil_append] at h
          subst h
          rcases hrest' with hnil | hhead
          · cases hnil
          · cases hhead
            exact absurd mem_cons_self ha
      | cons d ds =>
          injection h with hcd htail
          obtain ⟨rfl, hsame⟩ := ih (fun hmem ↦ ha (mem_cons_of_mem c hmem))
            (fun hmem ↦ hb (mem_cons_of_mem d hmem)) htail
          exact ⟨by rw [hcd], hsame⟩

/-- A quoted word is read back at the front of two equal texts only when it needs no quotes. -/
theorem plain_of_quote_eq (htoken : token = word ∨ token = "cmd.exe") (hrest : WordEnd rest)
    (hrest' : WordEnd rest')
    (h : (quotePosix word).toList ++ rest = (quoteCmd token).toList ++ rest') :
    PlainWord word ∧ token = word ∧ rest = rest' := by
  by_cases hplain : PlainWord word
  · rw [quotePosix_of_plain hplain] at h
    rw [quoteCmd] at h
    split at h
    · next hbare =>
      have hspace : ' ' ∉ token.toList := fun hmem ↦
        hbare.2 (any_eq_true.mpr ⟨' ', hmem, by decide⟩)
      have hspace' : ' ' ∉ word.toList := fun hmem ↦
        (isCmdActive_of_isPosixPlain (hplain.2 ' ' hmem)).2.1 rfl
      obtain ⟨hsame, htail⟩ := append_inj_of_separator hspace' hspace hrest hrest' h
      exact ⟨hplain, (String.toList_inj.mp hsame).symm, htail⟩
    · cases hword : word.toList with
      | nil => exact absurd (String.toList_inj.mp hword) hplain.1
      | cons c cs =>
          rw [hword, String.toList_append, String.toList_append] at h
          injection h with hquote
          refine absurd hquote (isCmdActive_of_isPosixPlain (hplain.2 c ?_)).2.2.2
          rw [hword]
          exact mem_cons_self
  · exfalso
    obtain ⟨quoted, hquoted, hshape⟩ := quotePosix_of_not_plain hplain
    rw [hquoted, quoteCmd] at h
    split at h
    · next hbare =>
      rcases htoken with rfl | rfl
      · -- The word begins with a quote, which becomes five characters in the first text.
        cases hword : token.toList with
        | nil => exact hbare.1 (String.toList_inj.mp hword)
        | cons c cs =>
            rw [hword] at h hshape
            injection h with hquote htail
            subst hquote
            have hfront : ∃ more, quoted = '\x27' :: '"' :: more := ⟨_, hshape⟩
            obtain ⟨more, rfl⟩ := hfront
            cases cs with
            | nil => exact hrest'.ne_cons (by decide) htail.symm
            | cons d ds =>
                injection htail with _ htail
                cases ds with
                | nil => exact hrest'.ne_cons (by decide) htail.symm
                | cons e es =>
                    injection htail with he _
                    refine hbare.2 (List.any_eq_true.mpr ⟨e, ?_, he ▸ by decide⟩)
                    rw [hword]
                    exact List.mem_cons_of_mem _ (List.mem_cons_of_mem _ List.mem_cons_self)
      · injection h with hquote
        exact absurd hquote (by decide)
    · rw [String.toList_append, String.toList_append] at h
      injection h with hquote
      exact absurd hquote (by decide)

theorem quoteCmd_head (token : String) : ∃ c cs, (quoteCmd token).toList = c :: cs ∧ c ≠ '&' := by
  rw [quoteCmd]
  split
  · next hbare =>
    cases htoken : token.toList with
    | nil => exact absurd (String.toList_inj.mp htoken) hbare.1
    | cons c cs =>
        refine ⟨c, cs, rfl, fun hc ↦ hbare.2 (List.any_eq_true.mpr ⟨c, ?_, hc ▸ by decide⟩)⟩
        rw [htoken]
        exact List.mem_cons_self
  · simp only [String.toList_append]
    exact ⟨_, _, rfl, by decide⟩

theorem toList_spaced (words : List String) :
    (spaced words).toList = words.flatMap fun word ↦ ' ' :: word.toList := by
  rw [spaced, String.toList_join, List.flatMap_map]
  refine List.flatMap_congr fun word _ ↦ ?_
  rw [String.toList_append]
  rfl

theorem wordEnd_spaced (words : List String) : WordEnd (spaced words).toList := by
  rw [toList_spaced]
  cases words with
  | nil => exact .inl rfl
  | cons word words => exact .inr rfl

theorem plain_of_spaced_eq {arguments : List String}
    (h : (spaced (arguments.map quotePosix)).toList = (spaced (arguments.map quoteCmd)).toList) :
    ∀ argument ∈ arguments, PlainWord argument := by
  induction arguments with
  | nil => exact fun _ hmem ↦ absurd hmem List.not_mem_nil
  | cons argument arguments ih =>
      have hposix := wordEnd_spaced (arguments.map quotePosix)
      have hcmd := wordEnd_spaced (arguments.map quoteCmd)
      rw [toList_spaced] at hposix hcmd
      rw [toList_spaced, toList_spaced, List.map_cons, List.map_cons, List.flatMap_cons,
        List.flatMap_cons] at h
      injection h with _ h
      obtain ⟨hplain, -, hrest⟩ := plain_of_quote_eq (.inl rfl) hposix hcmd h
      rw [← toList_spaced, ← toList_spaced] at hrest
      exact List.forall_mem_cons.mpr ⟨hplain, ih hrest⟩

theorem not_mem_of_validEnvironmentName {name : String} (h : validEnvironmentName name = true) :
    '=' ∉ name.toList := by
  unfold validEnvironmentName at h
  cases hname : name.toList with
  | nil => exact List.not_mem_nil
  | cons first others =>
      rw [hname] at h
      obtain ⟨hfirst, hothers⟩ := Bool.and_eq_true_iff.mp h
      intro hmem
      rcases List.mem_cons.mp hmem with rfl | hmem
      · exact absurd hfirst (by decide)
      · exact absurd (List.all_eq_true.mp hothers '=' hmem) (by decide)

namespace RemoteCommandSpec

variable {spec : RemoteCommandSpec}

/-- A command that is rendered alike for either side. -/
structure Portable (spec : RemoteCommandSpec) : Prop where
  no_directory : spec.workingDirectory = none
  no_environment : spec.environment = []
  plain : ∀ word ∈ spec.program :: spec.arguments, PlainWord word
  not_cmd : eqIgnoreAsciiCase spec.program "cmd" = false

theorem names_valid {names : List String} {environment : List (String × String)}
    (h : validateEnvironment names environment = .ok ()) :
    ∀ e ∈ environment, validEnvironmentName e.1 = true := by
  induction environment generalizing names with
  | nil => exact fun _ hmem ↦ absurd hmem List.not_mem_nil
  | cons e environment ih =>
      obtain ⟨name, value⟩ := e
      obtain ⟨hname, h⟩ := Result.check_bind_eq_ok.mp h
      obtain ⟨-, h⟩ := Result.check_bind_eq_ok.mp h
      obtain ⟨-, h⟩ := Result.check_bind_eq_ok.mp h
      rw [Result.bailIf_eq_ok, Bool.not_eq_false] at hname
      exact List.forall_mem_cons.mpr ⟨hname, ih h⟩

theorem environment_valid (h : spec.validated = .ok ()) :
    ∀ e ∈ spec.environment, validEnvironmentName e.1 = true := by
  obtain ⟨-, h⟩ := Result.check_bind_eq_ok.mp h
  obtain ⟨-, h⟩ := Result.check_bind_eq_ok.mp h
  obtain ⟨-, h⟩ := Result.check_bind_eq_ok.mp h
  obtain ⟨-, h⟩ := Result.check_bind_eq_ok.mp h
  exact names_valid h

/-- A change of the directory looks different on either side. -/
theorem directory_differs {directory : String} {more more' : List Char} :
    ("cd " ++ quotePosix (safeCdOperand directory) ++ " && ").toList ++ more ≠
      ("cd /d " ++ quoteCmd directory ++ " && ").toList ++ more' := by
  intro h
  simp only [String.toList_append, List.append_assoc] at h
  have h' : (quotePosix (safeCdOperand directory)).toList ++ (" && ".toList ++ more) =
      ['/', 'd'] ++ (' ' :: ((quoteCmd directory).toList ++ (" && ".toList ++ more'))) :=
    (List.append_right_inj "cd ".toList).mp h
  by_cases hplain : PlainWord (safeCdOperand directory)
  · rw [quotePosix_of_plain hplain] at h'
    have hspace : ' ' ∉ (safeCdOperand directory).toList := fun hmem ↦
      (isCmdActive_of_isPosixPlain (hplain.2 ' ' hmem)).2.1 rfl
    obtain ⟨-, hrest⟩ := append_inj_of_separator hspace (by decide) (.inr rfl) (.inr rfl) h'
    obtain ⟨c, cs, hcmd, hc⟩ := quoteCmd_head directory
    rw [hcmd] at hrest
    injection hrest with _ hrest
    injection hrest with hhead _
    exact hc hhead.symm
  · obtain ⟨quoted, hquoted, -⟩ := quotePosix_of_not_plain hplain
    rw [hquoted] at h'
    injection h' with hhead
    exact absurd hhead (by decide)

/-- A variable looks different on either side. -/
theorem environment_differs {name value : String} {more more' : List Char}
    (h : validEnvironmentName name = true) :
    (name ++ "=" ++ quotePosix value ++ " ").toList ++ more ≠
      ("set " ++ name ++ "=" ++ quoteCmd value ++ " && ").toList ++ more' := by
  intro heq
  have hname := not_mem_of_validEnvironmentName h
  have heq' : name.toList ++ ('=' :: ((quotePosix value).toList ++ (" ".toList ++ more))) =
      ("set ".toList ++ name.toList) ++
        ('=' :: ((quoteCmd value).toList ++ (" && ".toList ++ more'))) := by
    simp only [String.toList_append, List.append_assoc] at heq
    rw [List.append_assoc]
    exact heq
  have hset : '=' ∉ "set ".toList ++ name.toList := fun hmem ↦
    (List.mem_append.mp hmem).elim (fun hset ↦ absurd hset (by decide)) hname
  obtain ⟨hsame, -⟩ := append_inj_of_separator hname hset (.inr rfl) (.inr rfl) heq'
  have hlength := congrArg List.length hsame
  rw [List.length_append] at hlength
  have hfour : "set ".toList.length = 4 := rfl
  omega

/-- A valid command is rendered alike for either side exactly when it is portable. -/
theorem renderPosix_eq_renderCmd_iff (h : spec.validated = .ok ()) :
    spec.renderPosix = spec.renderCmd ↔ spec.Portable := by
  rw [renderPosix, renderCmd, h, Result.bind_ok, Result.bind_ok, Result.pure_eq_ok,
    Result.pure_eq_ok, Except.ok.injEq]
  constructor
  · intro heq
    have hlist := congrArg String.toList heq
    rw [String.toList_append, String.toList_append, String.toList_append, String.toList_append,
      String.toList_append, String.toList_append, List.append_assoc, List.append_assoc,
      List.append_assoc, List.append_assoc] at hlist
    have hdirectory : spec.workingDirectory = none := by
      cases hwd : spec.workingDirectory with
      | none => rfl
      | some directory =>
          rw [posixDirectory, cmdDirectory, hwd] at hlist
          exact absurd hlist directory_differs
    have hnoDirectory : spec.posixDirectory = "" ∧ spec.cmdDirectory = "" := by
      rw [posixDirectory, cmdDirectory, hdirectory]
      exact ⟨rfl, rfl⟩
    rw [hnoDirectory.1, hnoDirectory.2, String.toList_empty, List.nil_append,
      List.nil_append] at hlist
    have henvironment : spec.environment = [] := by
      cases henv : spec.environment with
      | nil => rfl
      | cons e environment =>
          have hname := environment_valid h e (henv ▸ List.mem_cons_self)
          rw [posixEnvironment, cmdEnvironment, henv, List.map_cons, List.map_cons,
            String.toList_join, String.toList_join, List.flatMap_cons, List.flatMap_cons,
            List.append_assoc, List.append_assoc] at hlist
          exact absurd hlist (environment_differs hname)
    have hnoEnvironment : spec.posixEnvironment = "" ∧ spec.cmdEnvironment = "" := by
      rw [posixEnvironment, cmdEnvironment, henvironment]
      exact ⟨rfl, rfl⟩
    rw [hnoEnvironment.1, hnoEnvironment.2, String.toList_empty, List.nil_append,
      List.nil_append] at hlist
    have htoken : spec.cmdProgram = spec.program ∨ spec.cmdProgram = "cmd.exe" := by
      rw [cmdProgram]
      split
      · exact .inr rfl
      · exact .inl rfl
    obtain ⟨hplain, hprogram, hrest⟩ :=
      plain_of_quote_eq htoken (wordEnd_spaced _) (wordEnd_spaced _) hlist
    refine ⟨hdirectory, henvironment, List.forall_mem_cons.mpr ⟨hplain, plain_of_spaced_eq hrest⟩, ?_⟩
    by_contra hcmd
    rw [Bool.not_eq_false] at hcmd
    rw [cmdProgram, if_pos hcmd] at hprogram
    rw [← hprogram] at hcmd
    have hdiffers : eqIgnoreAsciiCase "cmd.exe" "cmd" = false := by decide
    rw [hdiffers] at hcmd
    cases hcmd
  · intro hportable
    have hprogram : spec.cmdProgram = spec.program := by
      rw [cmdProgram, hportable.not_cmd]
      rfl
    have harguments : spec.arguments.map quotePosix = spec.arguments.map quoteCmd := by
      refine map_congr_left fun argument hargument ↦ ?_
      have hplain := hportable.plain argument (mem_cons_of_mem _ hargument)
      rw [quotePosix_of_plain hplain, quoteCmd_of_plain hplain]
    have hplain := hportable.plain spec.program mem_cons_self
    rw [posixDirectory, cmdDirectory, posixEnvironment, cmdEnvironment, hportable.no_directory,
      hportable.no_environment, hprogram, harguments, quotePosix_of_plain hplain,
      quoteCmd_of_plain hplain]
    rfl

end RemoteCommandSpec

end KaduoxSsh.Core
