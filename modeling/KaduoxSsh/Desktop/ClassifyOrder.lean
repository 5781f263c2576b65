import KaduoxSsh.Desktop.WriteRedirect

/-!
# Comparing classifications

How the risk of a segment changes when its output is redirected and when a
wrapper such as `sudo` is put in front of it. Neither should make the segment
look more harmless. Both do for some deletions: the classifier consults the
redirect before the table of deletions, and it looks for the subcommand of
`docker` and `kubectl` at a fixed place among the words, the wrappers included.

Both results rest on `classifySegment_eq`, which cuts the chain of the
classifier's early returns into the part of the tools with subcommands, the
redirect and the tables.
-/

namespace KaduoxSsh.Desktop

open Text Option List

/-! ## The parts of the classifier -/

/-- The risk of a tool that is classified by its subcommand. -/
def toolRisk (base : String) (words : List String) : Option RiskLevel :=
  if base ∈ ["systemctl", "service"] then some (queryOrModify (serviceQuery words))
  else if base ∈ ["docker", "podman", "nerdctl"] then some (containerRisk words)
  else if base = "kubectl" then some (kubectlRisk words)
  else none

/-- The risk that the arguments and the tables give to a segment. -/
def listedRisk (segment base : String) (words : List String) : RiskLevel :=
  if base = "find" ∧ findHasExecSideEffect words then .modify
  else if base = "awk" ∧ awkHasSideEffect segment then .modify
  else if base ∈ ["curl", "wget"] ∧ downloadToolUploads words then .modify
  else if base ∈ DELETE_CMDS then .delete
  else if base ∈ MODIFY_CMDS then .modify
  else if base ∈ READONLY_CMDS then .readOnly
  else .modify

section

variable [Alphabetic] {segment : String} {hasWriteRedirect : Bool}

theorem classifySegment_eq :
    classifySegment segment hasWriteRedirect =
      if looksDangerous .unix segment then .dangerous
      else
        (toolRisk (commandBase segment) (splitWhitespace segment)).getD
          (if hasWriteRedirect ∧ commandToken segment ≠ "" ∧ commandBase segment ≠ "" then .modify
          else listedRisk segment (commandBase segment) (splitWhitespace segment)) := by
  have hdangerous : looksDangerous .unix segment =
      (matchesPattern DANGEROUS_PATTERNS segment || isDangerousRm segment) := rfl
  unfold classifySegment
  dsimp only
  by_cases hpattern : matchesPattern DANGEROUS_PATTERNS segment = true
  · rw [if_pos hpattern, if_pos (by rw [hdangerous, hpattern, Bool.true_or])]
  by_cases hrm : isDangerousRm segment = true
  · rw [if_neg hpattern, if_pos hrm, if_pos (by rw [hdangerous, hrm, Bool.or_true])]
  rw [Bool.not_eq_true] at hpattern hrm
  rw [hpattern, hrm, Bool.or_self] at hdangerous
  rw [hdangerous, hpattern, hrm, if_neg Bool.false_ne_true, if_neg Bool.false_ne_true,
    if_neg Bool.false_ne_true, toolRisk]
  by_cases hservice : commandBase segment ∈ ["systemctl", "service"]
  · rw [if_pos hservice, if_pos hservice, getD_some]
  by_cases hcontainer : commandBase segment ∈ ["docker", "podman", "nerdctl"]
  · rw [if_neg hservice, if_neg hservice, if_pos hcontainer, if_pos hcontainer, getD_some]
  by_cases hkubectl : commandBase segment = "kubectl"
  · rw [if_neg hservice, if_neg hservice, if_neg hcontainer, if_neg hcontainer, if_pos hkubectl,
      if_pos hkubectl, getD_some]
  · rw [if_neg hservice, if_neg hservice, if_neg hcontainer, if_neg hcontainer, if_neg hkubectl,
      if_neg hkubectl, getD_none, listedRisk]

end

/-! ## A redirect -/

/-- Whether a segment's command word is listed as one that deletes. -/
def isListedDeletion [Alphabetic] : TargetPlatform → String → Bool
  | .unix, segment => DELETE_CMDS.contains (commandBase segment)
  | .windows, segment => WINDOWS_DELETE_CMDS.contains (windowsBase segment)

/-- A command word that is listed to delete is none of those the chain looks at before. -/
theorem delete_not_special {base : String} (hdelete : base ∈ DELETE_CMDS) :
    base ≠ "" ∧ base ≠ "find" ∧ base ≠ "awk" ∧ base ∉ ["curl", "wget"] ∧
      base ∉ ["systemctl", "service"] ∧ base ∉ ["docker", "podman", "nerdctl"] ∧
      base ≠ "kubectl" := by
  revert base
  decide

variable {words : List String}

theorem toolRisk_of_delete {base : String} (hdelete : base ∈ DELETE_CMDS) :
    toolRisk base words = none := by
  obtain ⟨-, -, -, -, hservice, hcontainer, hkubectl⟩ := delete_not_special hdelete
  rw [toolRisk, if_neg hservice, if_neg hcontainer, if_neg hkubectl]

theorem listedRisk_of_delete {segment base : String} (hdelete : base ∈ DELETE_CMDS) :
    listedRisk segment base words = .delete := by
  obtain ⟨-, hfind, hawk, hdownload, -⟩ := delete_not_special hdelete
  rw [listedRisk, if_neg (not_and_of_not_left _ hfind), if_neg (not_and_of_not_left _ hawk),
    if_neg (not_and_of_not_left _ hdownload), if_pos hdelete]

/-- What is not listed to delete is at most `modify`. -/
theorem listedRisk_le {segment base : String} (hdelete : base ∉ DELETE_CMDS) :
    listedRisk segment base words ≤ .modify := by
  unfold listedRisk
  rw [if_neg hdelete]
  split_ifs
  all_goals first | exact le_refl _ | exact RiskLevel.readOnly_le _

section

variable [Alphabetic] {segment : String}

theorem classifySegment_redirect_iff :
    classifySegment segment false ≤ classifySegment segment true ↔
      ¬(looksDangerous .unix segment = false ∧ isListedDeletion .unix segment = true) := by
  rw [isListedDeletion, contains_iff_mem, classifySegment_eq, classifySegment_eq]
  cases looksDangerous .unix segment with
  | true => simp
  | false =>
      rw [if_neg Bool.false_ne_true, if_neg Bool.false_ne_true]
      by_cases hdelete : commandBase segment ∈ DELETE_CMDS
      · have hbase : commandBase segment ≠ "" := (delete_not_special hdelete).1
        have htoken : commandToken segment ≠ "" := mt commandBase_of_token hbase
        rw [toolRisk_of_delete hdelete, getD_none, getD_none,
          listedRisk_of_delete hdelete, if_neg (by simp), if_pos ⟨rfl, htoken, hbase⟩]
        simp only [hdelete, and_self, not_true_eq_false, iff_false]
        decide
      · simp only [hdelete, and_false, not_false_eq_true, iff_true]
        cases toolRisk (commandBase segment) (splitWhitespace segment) with
        | some risk => exact le_refl risk
        | none =>
            rw [getD_none, getD_none, if_neg (by simp)]
            split_ifs
            · exact listedRisk_le hdelete
            · exact le_refl _

omit [Alphabetic] in
/-- On Windows too, a command word that is listed to delete is none of those looked at before. -/
theorem windows_delete_not_special {base : String} (hdelete : base ∈ WINDOWS_DELETE_CMDS) :
    base ≠ "" ∧ base ≠ "sc" ∧ base ≠ "reg" ∧ base ≠ "route" ∧ base ≠ "net" ∧ base ≠ "wmic" ∧
      base ∉ ["powershell", "pwsh"] ∧ base ∉ ["rm", "shred", "dd", "mkfs"] := by
  revert base
  decide

omit [Alphabetic] in
theorem queryOrModify_le (reads : Bool) :
    queryOrModify (reads && !false) ≤ queryOrModify (reads && !true) := by
  cases reads <;> decide

theorem classifyWindowsSegment_of_dangerous {hasWriteRedirect : Bool}
    (hdangerous : looksDangerous .windows segment = true) :
    classifyWindowsSegment segment hasWriteRedirect = .dangerous := by
  unfold classifyWindowsSegment
  dsimp only
  by_cases hpattern : matchesPattern WINDOWS_DANGEROUS_PATTERNS segment = true
  · rw [if_pos hpattern]
  · rw [looksDangerous, Bool.or_eq_true] at hdangerous
    rw [if_neg hpattern, if_pos (hdangerous.resolve_left hpattern)]

theorem classifyWindowsSegment_of_delete {hasWriteRedirect : Bool}
    (hquiet : looksDangerous .windows segment = false)
    (hdelete : windowsBase segment ∈ WINDOWS_DELETE_CMDS) :
    classifyWindowsSegment segment hasWriteRedirect =
      if hasWriteRedirect then .modify else .delete := by
  obtain ⟨hempty, hsc, hreg, hroute, hnet, hwmic, hpowershell, hunix⟩ :=
    windows_delete_not_special hdelete
  have htoken : commandToken segment ≠ "" := mt windowsBase_of_token hempty
  rw [looksDangerous, Bool.or_eq_false_iff] at hquiet
  unfold classifyWindowsSegment
  dsimp only
  rw [hquiet.1, hquiet.2, if_neg Bool.false_ne_true, if_neg Bool.false_ne_true, if_neg hsc,
    if_neg hreg, if_neg hroute, if_neg hnet, if_neg hwmic, if_neg hpowershell, if_neg hunix,
    if_pos hdelete]
  exact if_congr (and_iff_left htoken) rfl rfl

omit [Alphabetic] in
theorem ite_le_ite {p : Prop} [Decidable p] {a a' b b' : RiskLevel} (ha : a ≤ a') (hb : b ≤ b') :
    (if p then a else b) ≤ if p then a' else b' := by
  split
  · exact ha
  · exact hb

/-- Nothing but a listed deletion stands behind the redirect with more than `modify`. -/
theorem classifyWindowsSegment_le_redirect (hdelete : windowsBase segment ∉ WINDOWS_DELETE_CMDS) :
    classifyWindowsSegment segment false ≤ classifyWindowsSegment segment true := by
  have hlisted : (if windowsBase segment ∈ WINDOWS_READONLY_CMDS then RiskLevel.readOnly
      else .modify) ≤ .modify := by
    split
    · exact RiskLevel.readOnly_le _
    · exact le_refl _
  unfold classifyWindowsSegment
  dsimp only
  -- The dangerous segments and the five tools do not look at the redirect.
  iterate 7 apply ite_le_ite (le_refl _)
  apply ite_le_ite (queryOrModify_le _)
  apply ite_le_ite (le_refl _)
  have hplain : ¬(false = true ∧ commandToken segment ≠ "") := fun h ↦ Bool.false_ne_true h.1
  rw [if_neg hplain, if_neg hdelete]
  by_cases htoken : true = true ∧ commandToken segment ≠ ""
  · rw [if_pos htoken]
    exact hlisted
  · rw [if_neg htoken]

theorem classifyWindowsSegment_redirect_iff :
    classifyWindowsSegment segment false ≤ classifyWindowsSegment segment true ↔
      ¬(looksDangerous .windows segment = false ∧ isListedDeletion .windows segment = true) := by
  rw [isListedDeletion, contains_iff_mem]
  by_cases hdelete : windowsBase segment ∈ WINDOWS_DELETE_CMDS
  · cases hdangerous : looksDangerous .windows segment with
    | true =>
        rw [classifyWindowsSegment_of_dangerous hdangerous,
          classifyWindowsSegment_of_dangerous hdangerous]
        exact iff_of_true (le_refl _) fun h ↦ Bool.false_ne_true h.1.symm
    | false =>
        rw [classifyWindowsSegment_of_delete hdangerous hdelete,
          classifyWindowsSegment_of_delete hdangerous hdelete]
        exact iff_of_false (by decide) fun h ↦ h ⟨rfl, hdelete⟩
  · exact iff_of_true (classifyWindowsSegment_le_redirect hdelete) fun h ↦ hdelete h.2

/-- A redirect never lowers the risk of a segment, unless the segment is one that is listed to
delete and has nothing in it that is dangerous in any case. -/
theorem redirect_monotone_iff (platform : TargetPlatform) (segment : String) :
    classifySegmentFor platform segment false ≤ classifySegmentFor platform segment true ↔
      ¬(looksDangerous platform segment = false ∧ isListedDeletion platform segment = true) := by
  cases platform with
  | unix => exact classifySegment_redirect_iff
  | windows => exact classifyWindowsSegment_redirect_iff

omit [Alphabetic] in
/-- With its output redirected, a deletion runs without approval in the mode that lets
modifications pass. -/
theorem redirected_deletion_lowered :
    ¬(@classifySegmentFor asciiAlphabetic .unix "rm old.log " false ≤
        @classifySegmentFor asciiAlphabetic .unix "rm old.log " true) ∧
      ¬(@classifySegmentFor asciiAlphabetic .windows "del C:\\Temp\\a.txt " false ≤
        @classifySegmentFor asciiAlphabetic .windows "del C:\\Temp\\a.txt " true) ∧
      needsApproval .full (@classifyCommandFor asciiAlphabetic "rm old.log" .unix) = true ∧
      needsApproval .full (@classifyCommandFor asciiAlphabetic "rm old.log >log" .unix) = false := by
  decide

end

/-! ## Wrappers -/

section

variable [Alphabetic]

theorem isSkipped_eq_false {word : String} (hassign : word.toList.contains '=' = false)
    (hplain : COMMAND_PREFIXES.contains (toAsciiLowercase word) = false) :
    isSkipped word = false := by
  rw [isSkipped, isAssignment, hassign, hplain, Bool.false_and, Bool.false_and, Bool.or_self]

/-- Whether a word is one that wrappers are not and that is no command word of the tools. -/
def isSubcommand (word : String) : Bool :=
  !word.toList.contains '=' && !COMMAND_PREFIXES.contains (toAsciiLowercase word) &&
    !(["docker", "podman", "nerdctl", "kubectl"].contains
      (lastPiece (toAsciiLowercase word) (· == '/')))

variable {segment pre : String} {hasWriteRedirect : Bool} {words : List String}

/-- A text that starts with wrappers alone. -/
def Wraps (pre : String) : Prop := ∀ word ∈ splitWhitespace pre, isSkipped word = true

instance (pre : String) : Decidable (Wraps pre) := by
  unfold Wraps
  infer_instance

theorem commandWords_wrapped (hpre : Wraps pre) :
    commandWords (pre ++ " " ++ segment) = commandWords segment := by
  rw [commandWords, splitWhitespace_append, commandWords,
    dropWhile_append_of_pos fun word hword ↦ hpre word hword]

theorem commandToken_wrapped (hpre : Wraps pre) :
    commandToken (pre ++ " " ++ segment) = commandToken segment := by
  rw [commandToken, firstToken, commandWords_wrapped hpre, commandToken, firstToken]

theorem commandBase_wrapped (hpre : Wraps pre) :
    commandBase (pre ++ " " ++ segment) = commandBase segment := by
  rw [commandBase, commandToken_wrapped hpre, commandBase]

theorem isDangerousRm_wrapped (hpre : Wraps pre) :
    isDangerousRm (pre ++ " " ++ segment) = isDangerousRm segment := by
  rw [isDangerousRm, commandWords_wrapped hpre, isDangerousRm]

omit [Alphabetic] in
theorem infix_wrapped : segment.toList <:+: (pre ++ " " ++ segment).toList := by
  rw [String.toList_append]
  exact (suffix_append _ _).isInfix

/-- Wrappers are no subcommands. -/
theorem isSubcommand_eq_false {word : String} (h : isSkipped word = true) :
    isSubcommand word = false := by
  by_contra hsub
  rw [Bool.not_eq_false, isSubcommand, Bool.and_eq_true, Bool.and_eq_true, Bool.not_eq_true',
    Bool.not_eq_true'] at hsub
  rw [isSkipped_eq_false hsub.1.1 hsub.1.2] at h
  cases h

/-- The queries of a service are words of their own, which no wrapper is. -/
theorem serviceQuery_wrapped (hpre : Wraps pre) :
    serviceQuery (splitWhitespace pre ++ words) = serviceQuery words := by
  have hnone : ∀ sub ∈ ["status", "show", "list-units", "list-unit-files", "list-timers",
      "is-active", "is-enabled", "is-failed", "cat", "help", "--version", "list-dependencies",
      "list-sockets", "list-jobs"], isSubcommand sub = true := by
    decide
  rw [Bool.eq_iff_iff, serviceQuery, serviceQuery, List.any_eq_true, List.any_eq_true]
  apply exists_congr
  intro sub
  apply and_congr_right
  intro hsub
  rw [any_append, Bool.or_eq_true, or_iff_right]
  intro hany
  obtain ⟨word, hword, heq⟩ := any_eq_true.mp hany
  have hskipped := isSubcommand_eq_false (hpre word hword)
  rw [beq_iff_eq.mp heq, hnone sub hsub] at hskipped
  cases hskipped

/-- Behind a wrapper, the second word is another wrapper or the command word itself. -/
theorem wordAt_wrapped (hpre : Wraps pre) (hne : splitWhitespace pre ≠ [])
    (htool : commandBase segment ∈ ["docker", "podman", "nerdctl", "kubectl"]) :
    isSubcommand (wordAt (splitWhitespace pre ++ splitWhitespace segment) 1) = false := by
  cases hwords : splitWhitespace pre with
  | nil => exact absurd hwords hne
  | cons first rest =>
      cases rest with
      | cons second rest =>
          show isSubcommand second = false
          exact isSubcommand_eq_false (hpre second (by rw [hwords]; simp))
      | nil =>
          show isSubcommand (wordAt (splitWhitespace segment) 0) = false
          cases hsegment : splitWhitespace segment with
          | nil =>
              rw [commandBase, commandToken, firstToken, commandWords, hsegment] at htool
              change lastPiece (toAsciiLowercase "") (· == '/') ∈ _ at htool
              exact absurd htool (by decide)
          | cons word words =>
              show isSubcommand word = false
              by_cases hskipped : isSkipped word = true
              · exact isSubcommand_eq_false hskipped
              · have hbase : commandBase segment = lastPiece (toAsciiLowercase word) (· == '/') := by
                  rw [commandBase, commandToken, firstToken, commandWords, hsegment,
                    dropWhile_cons_of_neg hskipped, headD_cons]
                rw [hbase, ← contains_iff_mem] at htool
                rw [isSubcommand, htool, Bool.not_true, Bool.and_false]

omit [Alphabetic] in
/-- The places where the classifiers of the tools look for a subcommand. -/
theorem containerRisk_of_not_subcommand (hsub : isSubcommand (wordAt words 1) = false) :
    containerRisk words = .modify := by
  have hlisted : ∀ sub ∈ ["ps", "images", "inspect", "logs", "stats", "version", "info", "top",
      "diff", "history", "port", "search", "df", "container", "image", "rm", "rmi", "kill",
      "volume", "network", "system", "stop"], isSubcommand sub = true := by
    decide
  have hne : ∀ sub, isSubcommand sub = true → wordAt words 1 ≠ sub := by
    rintro sub hsub' rfl
    rw [hsub] at hsub'
    cases hsub'
  have hnot : ∀ sub ∈ ["ps", "images", "inspect", "logs", "stats", "version", "info", "top",
      "diff", "history", "port", "search", "df", "container", "image", "rm", "rmi", "kill",
      "volume", "network", "system", "stop"], wordAt words 1 ≠ sub :=
    fun sub hmem ↦ hne sub (hlisted sub hmem)
  simp only [mem_cons, not_mem_nil, or_false, forall_eq_or_imp, forall_eq] at hnot
  simp [containerRisk, containerQuery, containerDelete, hnot]

omit [Alphabetic] in
theorem kubectlRisk_of_not_subcommand (hsub : isSubcommand (wordAt words 1) = false) :
    kubectlRisk words = .modify := by
  have hnot : ∀ sub ∈ ["get", "describe", "logs", "top", "version", "api-resources",
      "api-versions", "cluster-info", "config", "explain", "delete"], wordAt words 1 ≠ sub := by
    rintro sub hmem rfl
    have hlisted : ∀ sub ∈ ["get", "describe", "logs", "top", "version", "api-resources",
      "api-versions", "cluster-info", "config", "explain", "delete"], isSubcommand sub = true := by
      decide
    rw [hlisted _ hmem] at hsub
    cases hsub
  simp only [mem_cons, not_mem_nil, or_false, forall_eq_or_imp, forall_eq] at hnot
  simp [kubectlRisk, kubectlQuery, hnot]

omit [Alphabetic] in
/-- An upload is one whatever stands in front of it. -/
theorem downloadToolUploads_append {front words : List String}
    (h : downloadToolUploads words = true) : downloadToolUploads (front ++ words) = true := by
  induction front with
  | nil => exact h
  | cons word front ih => rw [cons_append, downloadToolUploads, ih, Bool.or_true]

omit [Alphabetic] in
/-- More words in front make the arguments of a listed command no more harmless. -/
theorem listedRisk_append {base text : String} {front words : List String}
    (hpart : segment.toList <:+: text.toList) :
    listedRisk segment base words ≤ listedRisk text base (front ++ words) := by
  have hfind (h : findHasExecSideEffect words = true) :
      findHasExecSideEffect (front ++ words) = true := by
    unfold findHasExecSideEffect at h ⊢
    rw [any_append, h, Bool.or_true]
  have hawk (h : awkHasSideEffect segment = true) : awkHasSideEffect text = true := by
    simp only [awkHasSideEffect, Bool.or_eq_true] at h ⊢
    exact h.imp (Or.imp (contains_of_isInfix hpart) (contains_of_isInfix hpart))
      (contains_of_isInfix hpart)
  have hdownload : downloadToolUploads words = true → downloadToolUploads (front ++ words) = true :=
    downloadToolUploads_append
  by_cases hdelete : base ∈ DELETE_CMDS
  · rw [listedRisk_of_delete hdelete, listedRisk_of_delete hdelete]
  · have hle : listedRisk segment base words ≤ .modify := listedRisk_le hdelete
    unfold listedRisk at hle ⊢
    split_ifs at hle ⊢
    -- What is left is an argument with a side effect that is none behind the words in front.
    all_goals first | exact le_refl _ | exact RiskLevel.readOnly_le _ | grind

/-- Whether a segment is a deletion by the subcommand of a tool. -/
def deletesByTool (segment : String) : Bool :=
  toolRisk (commandBase segment) (splitWhitespace segment) == some .delete

theorem toolRisk_wrapped (hpre : Wraps pre) (hne : splitWhitespace pre ≠ []) :
    toolRisk (commandBase segment) (splitWhitespace pre ++ splitWhitespace segment) =
      (toolRisk (commandBase segment) (splitWhitespace segment)).map fun risk ↦
        if commandBase segment ∈ ["systemctl", "service"] then risk else .modify := by
  have hword : commandBase segment ∈ ["docker", "podman", "nerdctl", "kubectl"] →
      isSubcommand (wordAt (splitWhitespace pre ++ splitWhitespace segment) 1) = false :=
    wordAt_wrapped hpre hne
  unfold toolRisk
  by_cases hservice : commandBase segment ∈ ["systemctl", "service"]
  · rw [if_pos hservice, if_pos hservice, serviceQuery_wrapped hpre, map_some,
      if_pos hservice]
  rw [if_neg hservice, if_neg hservice]
  by_cases hcontainer : commandBase segment ∈ ["docker", "podman", "nerdctl"]
  · have htool : commandBase segment ∈ ["docker", "podman", "nerdctl", "kubectl"] :=
      mem_append_left ["kubectl"] hcontainer
    rw [if_pos hcontainer, if_pos hcontainer, map_some, if_neg hservice,
      containerRisk_of_not_subcommand (hword htool)]
  rw [if_neg hcontainer, if_neg hcontainer]
  by_cases hkubectl : commandBase segment = "kubectl"
  · rw [if_pos hkubectl, if_pos hkubectl, map_some, if_neg hservice,
      kubectlRisk_of_not_subcommand (hword (by simp [hkubectl]))]
  · rw [if_neg hkubectl, if_neg hkubectl, map_none]

omit [Alphabetic] in
theorem queryOrModify_ne_delete {query : Bool} : queryOrModify query ≠ .delete := by
  cases query <;> decide

omit [Alphabetic] in
theorem toolRisk_le {base : String} {risk : RiskLevel} (htool : toolRisk base words = some risk)
    (hkeep : risk ≠ .delete) : risk ≤ .modify := by
  unfold toolRisk queryOrModify containerRisk kubectlRisk at htool
  split_ifs at htool
  all_goals cases htool
  all_goals first | exact le_refl _ | exact RiskLevel.readOnly_le _ | exact absurd rfl hkeep

theorem looksDangerous_wrapped (hpre : Wraps pre) (h : looksDangerous .unix segment = true) :
    looksDangerous .unix (pre ++ " " ++ segment) = true := by
  rw [looksDangerous, Bool.or_eq_true] at h ⊢
  rw [isDangerousRm_wrapped hpre]
  exact h.imp_left (matchesPattern_of_isInfix infix_wrapped)

/-- Tools with subcommands that are put behind a wrapper are queried as before, or modify. -/
theorem toolRisk_le_wrapped {risk : RiskLevel} (hpre : Wraps pre)
    (htool : toolRisk (commandBase segment) (splitWhitespace segment) = some risk)
    (hdelete : ¬(splitWhitespace pre ≠ [] ∧ deletesByTool segment = true)) :
    ∃ risk', toolRisk (commandBase segment) (splitWhitespace pre ++ splitWhitespace segment) =
      some risk' ∧ risk ≤ risk' := by
  by_cases hne : splitWhitespace pre = []
  · rw [hne, nil_append]
    exact ⟨risk, htool, le_refl risk⟩
  · have hkeep : risk ≠ .delete := by
      rintro rfl
      exact hdelete ⟨hne, by rw [deletesByTool, htool, beq_self_eq_true]⟩
    rw [toolRisk_wrapped hpre hne, htool, map_some]
    refine ⟨_, rfl, ?_⟩
    split_ifs
    · exact le_refl risk
    · exact toolRisk_le htool hkeep

/-- Behind wrappers a segment has at least the risk that it has by itself, unless it is a deletion
by the subcommand of a tool and nothing in it is dangerous in any case. -/
theorem wrapper_transparent_iff (pre segment : String) (hasWriteRedirect : Bool) (hpre : Wraps pre) :
    classifySegment segment hasWriteRedirect ≤
        classifySegment (pre ++ " " ++ segment) hasWriteRedirect ↔
      ¬(splitWhitespace pre ≠ [] ∧ deletesByTool segment = true ∧
        looksDangerous .unix (pre ++ " " ++ segment) = false) := by
  rw [classifySegment_eq, classifySegment_eq, commandBase_wrapped hpre, commandToken_wrapped hpre,
    splitWhitespace_append]
  cases hdangerous : looksDangerous .unix (pre ++ " " ++ segment) with
  | true => simp [RiskLevel.le_dangerous]
  | false =>
      have hquiet : looksDangerous .unix segment = false := by
        by_contra h
        rw [looksDangerous_wrapped hpre (Bool.not_eq_false _ ▸ h)] at hdangerous
        cases hdangerous
      rw [hquiet, if_neg Bool.false_ne_true, if_neg Bool.false_ne_true, eq_self, and_true]
      cases htool : toolRisk (commandBase segment) (splitWhitespace segment) with
      | none =>
          have hnone : toolRisk (commandBase segment)
              (splitWhitespace pre ++ splitWhitespace segment) = none := by
            unfold toolRisk at htool ⊢
            split_ifs at htool ⊢
            rfl
          rw [hnone, getD_none, getD_none, deletesByTool, htool]
          simp only [none_beq_some, Bool.false_eq_true, and_false, not_false_eq_true, iff_true]
          split_ifs
          · exact le_refl _
          · exact listedRisk_append infix_wrapped
      | some risk =>
          rw [getD_some]
          constructor
          · rintro hle ⟨hne, hdelete⟩
            rw [deletesByTool, htool, beq_iff_eq, Option.some.injEq] at hdelete
            have hservice : commandBase segment ∉ ["systemctl", "service"] := by
              intro hservice
              rw [toolRisk, if_pos hservice, Option.some.injEq, hdelete] at htool
              exact queryOrModify_ne_delete htool
            rw [toolRisk_wrapped hpre hne, htool, map_some, getD_some,
              if_neg hservice, hdelete] at hle
            exact absurd hle (by decide)
          · intro hkeep
            obtain ⟨risk', hrisk', hle⟩ := toolRisk_le_wrapped hpre htool hkeep
            rw [hrisk', getD_some]
            exact hle

end

theorem wrapper_transparent_sudo :
    @Wraps asciiAlphabetic "sudo" ∧
      @classifySegment asciiAlphabetic "rm x" false ≤
        @classifySegment asciiAlphabetic ("sudo" ++ " " ++ "rm x") false :=
  ⟨by decide,
    (@wrapper_transparent_iff asciiAlphabetic "sudo" "rm x" false (by decide)).mpr
      (by decide)⟩

/-- Behind `sudo`, the deletion of a container and that of a pod are modifications. -/
theorem wrapped_deletion_lowered :
    ¬(@Wraps asciiAlphabetic "sudo" →
        @classifySegment asciiAlphabetic "docker rm web" false ≤
          @classifySegment asciiAlphabetic ("sudo" ++ " " ++ "docker rm web") false) ∧
      ¬(@Wraps asciiAlphabetic "A=1 env" →
        @classifySegment asciiAlphabetic "kubectl delete pod web" false ≤
          @classifySegment asciiAlphabetic ("A=1 env" ++ " " ++ "kubectl delete pod web") false) := by
  decide

end KaduoxSsh.Desktop
