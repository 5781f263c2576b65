import KaduoxSsh.Desktop.Classify

/-!
# Redirects and the risk of a command line

A segment that redirects its output to a file writes, whatever its command word
says. The classifiers consult the redirect only after the branches of the tools
that are classified by their subcommand, so that a query of such a tool is
`readOnly` even when it overwrites a file. The result of this module is that
these queries are the only such segments.
-/

namespace KaduoxSsh.Desktop

open Text List

section

variable [Alphabetic]

/-! ## The segments that only read -/

/-- Whether a segment has a text or a deletion in it that is dangerous in any case. -/
def looksDangerous : TargetPlatform → String → Bool
  | .unix, segment => matchesPattern DANGEROUS_PATTERNS segment || isDangerousRm segment
  | .windows, segment =>
      matchesPattern WINDOWS_DANGEROUS_PATTERNS segment ||
        isDangerousWindowsDelete segment (windowsBase segment)

/-- Whether a segment is a query of a tool that is classified by its subcommand. -/
def queriesTool : TargetPlatform → String → Bool
  | .unix, segment =>
      let base := commandBase segment
      let words := splitWhitespace segment
      (["systemctl", "service"].contains base && serviceQuery words) ||
        (["docker", "podman", "nerdctl"].contains base && containerQuery words) ||
        (base == "kubectl" && kubectlQuery words)
  | .windows, segment =>
      let base := windowsBase segment
      let words := splitWhitespace segment
      (base == "sc" && scQuery words) || (base == "reg" && regQuery words) ||
        (base == "route" && routeQuery words) || (base == "net" && netQuery words) ||
        (base == "wmic" && wmicQuery words)

/-- Whether the arguments of a command that is listed as one that reads make it do more. -/
def hasSideEffect (segment : String) : Bool :=
  let base := commandBase segment
  let words := splitWhitespace segment
  (base == "find" && findHasExecSideEffect words) || (base == "awk" && awkHasSideEffect segment) ||
    (["curl", "wget"].contains base && downloadToolUploads words)

/-- Whether a segment is a command that reads, as long as its output is not redirected. -/
def plainlyReads : TargetPlatform → String → Bool
  | .unix, segment =>
      let base := commandBase segment
      READONLY_CMDS.contains base && !MODIFY_CMDS.contains base && !DELETE_CMDS.contains base &&
        !hasSideEffect segment
  | .windows, segment =>
      let base := windowsBase segment
      WINDOWS_READONLY_CMDS.contains base ||
        (["powershell", "pwsh"].contains base && powershellReads (splitWhitespace segment))

/-- The classifier of segments on a platform. -/
def classifySegmentFor : TargetPlatform → String → Bool → RiskLevel
  | .unix => classifySegment
  | .windows => classifyWindowsSegment

theorem classifyCommandFor_eq (command : String) (platform : TargetPlatform) :
    classifyCommandFor command platform = classifyWith (classifySegmentFor platform) command := by
  cases platform <;> rfl

end

variable [Alphabetic] {segment : String} {hasWriteRedirect : Bool}

theorem commandBase_of_token (htoken : commandToken segment = "") : commandBase segment = "" := by
  rw [commandBase, htoken]
  rfl

omit [Alphabetic] in
/-- The tools with subcommands are not among the commands that are listed to read only. -/
theorem not_listed_of_tool {base : String}
    (htool : base ∈ ["systemctl", "service", "docker", "podman", "nerdctl", "kubectl"]) :
    (READONLY_CMDS.contains base && !MODIFY_CMDS.contains base) = false := by
  simp only [mem_cons, not_mem_nil, or_false] at htool
  rcases htool with rfl | rfl | rfl | rfl | rfl | rfl <;> decide

omit [Alphabetic] in
/-- A branch of another level is one that is not taken. -/
theorem ite_eq_readOnly {p : Prop} [Decidable p] {level rest : RiskLevel} (hlevel : level ≠ .readOnly) :
    (if p then level else rest) = .readOnly ↔ ¬p ∧ rest = .readOnly := by
  split_ifs with hp <;> simp [hp, hlevel]

theorem classifySegment_eq_readOnly :
    classifySegment segment hasWriteRedirect = .readOnly ↔
      looksDangerous .unix segment = false ∧
        (queriesTool .unix segment = true ∨
          hasWriteRedirect = false ∧ plainlyReads .unix segment = true) := by
  have hbase : commandToken segment = "" → commandBase segment = "" := commandBase_of_token
  unfold classifySegment looksDangerous queriesTool plainlyReads hasSideEffect
  dsimp only
  generalize commandBase segment = base at hbase ⊢
  generalize commandToken segment = token at hbase ⊢
  generalize splitWhitespace segment = words
  cases matchesPattern DANGEROUS_PATTERNS segment with
  | true => simp
  | false =>
  cases isDangerousRm segment with
  | true => simp
  | false =>
  by_cases htool : base ∈ ["systemctl", "service", "docker", "podman", "nerdctl", "kubectl"]
  · rw [not_listed_of_tool htool]
    simp only [mem_cons, not_mem_nil, or_false] at htool
    rcases htool with rfl | rfl | rfl | rfl | rfl | rfl <;>
      simp [queryOrModify_eq_readOnly, containerRisk_eq_readOnly, kubectlRisk_eq_readOnly]
  · simp only [mem_cons, not_mem_nil, or_false, not_or] at htool
    obtain ⟨h₁, h₂, h₃, h₄, h₅, h₆⟩ := htool
    -- Without a word the classifier ignores the redirect, but then nothing is listed.
    have hlisted : base ∈ READONLY_CMDS → token ≠ "" ∧ base ≠ "" := by
      intro hmem
      have hne : base ≠ "" := fun h ↦ absurd (h ▸ hmem) (by decide)
      exact ⟨mt hbase hne, hne⟩
    have hservice : base ∉ ["systemctl", "service"] := by simp [h₁, h₂]
    have hcontainer : base ∉ ["docker", "podman", "nerdctl"] := by simp [h₃, h₄, h₅]
    rw [if_neg Bool.false_ne_true, if_neg Bool.false_ne_true, if_neg hservice, if_neg hcontainer,
      if_neg h₆]
    iterate 6 rw [ite_eq_readOnly (by decide)]
    rw [ite_eq_left_iff]
    simp [h₁, h₂, h₃, h₄, h₅, h₆]
    grind

theorem windowsBase_of_token (htoken : commandToken segment = "") : windowsBase segment = "" := by
  rw [windowsBase, htoken]
  decide

omit [Alphabetic] in
/-- The tools with subcommands and the commands of Unix are not listed to read only. -/
theorem not_listed_of_windows_tool {base : String}
    (htool : base ∈ ["sc", "reg", "route", "net", "wmic", "rm", "shred", "dd", "mkfs"]) :
    WINDOWS_READONLY_CMDS.contains base = false := by
  simp only [mem_cons, not_mem_nil, or_false] at htool
  rcases htool with rfl | rfl | rfl | rfl | rfl | rfl | rfl | rfl | rfl <;> decide

theorem classifyWindowsSegment_eq_readOnly :
    classifyWindowsSegment segment hasWriteRedirect = .readOnly ↔
      looksDangerous .windows segment = false ∧
        (queriesTool .windows segment = true ∨
          hasWriteRedirect = false ∧ plainlyReads .windows segment = true) := by
  have hbase : commandToken segment = "" → windowsBase segment = "" := windowsBase_of_token
  unfold classifyWindowsSegment looksDangerous queriesTool plainlyReads
  dsimp only
  generalize windowsBase segment = base at hbase ⊢
  generalize commandToken segment = token at hbase ⊢
  generalize splitWhitespace segment = words
  cases matchesPattern WINDOWS_DANGEROUS_PATTERNS segment with
  | true => simp
  | false =>
  cases isDangerousWindowsDelete segment base with
  | true => simp
  | false =>
  by_cases htool : base ∈ ["sc", "reg", "route", "net", "wmic", "rm", "shred", "dd", "mkfs"]
  · rw [not_listed_of_windows_tool htool]
    simp only [mem_cons, not_mem_nil, or_false] at htool
    rcases htool with rfl | rfl | rfl | rfl | rfl | rfl | rfl | rfl | rfl <;>
      simp [queryOrModify_eq_readOnly]
  · simp only [mem_cons, not_mem_nil, or_false, not_or] at htool
    obtain ⟨h₁, h₂, h₃, h₄, h₅, h₆, h₇, h₈, h₉⟩ := htool
    by_cases hpowershell : base ∈ ["powershell", "pwsh"]
    · simp only [mem_cons, not_mem_nil, or_false] at hpowershell
      rcases hpowershell with rfl | rfl <;>
        simp [queryOrModify_eq_readOnly, show "powershell" ∉ WINDOWS_READONLY_CMDS by decide,
          show "pwsh" ∉ WINDOWS_READONLY_CMDS by decide, and_comm]
    · have hlisted : base ∈ WINDOWS_READONLY_CMDS → token ≠ "" ∧ base ∉ WINDOWS_DELETE_CMDS := by
        intro hmem
        have hne : base ≠ "" := fun h ↦ absurd (h ▸ hmem) (by decide)
        refine ⟨mt hbase hne, fun hdelete ↦ ?_⟩
        exact (show ∀ base ∈ WINDOWS_DELETE_CMDS, base ∉ WINDOWS_READONLY_CMDS by decide)
          base hdelete hmem
      have hunix : base ∉ ["rm", "shred", "dd", "mkfs"] := by simp [h₆, h₇, h₈, h₉]
      rw [if_neg Bool.false_ne_true, if_neg Bool.false_ne_true, if_neg h₁, if_neg h₂, if_neg h₃,
        if_neg h₄, if_neg h₅, if_neg hpowershell, if_neg hunix, ite_eq_readOnly (by decide),
        ite_eq_readOnly (by decide), ite_eq_left_iff]
      simp [h₁, h₂, h₃, h₄, h₅]
      grind

/-- The segments that only read, on both platforms. The redirect counts for the listed commands
alone. -/
theorem classifySegmentFor_eq_readOnly {platform : TargetPlatform} :
    classifySegmentFor platform segment hasWriteRedirect = .readOnly ↔
      looksDangerous platform segment = false ∧
        (queriesTool platform segment = true ∨
          hasWriteRedirect = false ∧ plainlyReads platform segment = true) := by
  cases platform with
  | unix => exact classifySegment_eq_readOnly
  | windows => exact classifyWindowsSegment_eq_readOnly

/-! ## The command lines that overwrite a file and only read -/

/-- A command line whose only redirected segments are queries of tools, beside which there is
nothing but commands that read. -/
structure RedirectsQueries (platform : TargetPlatform) (command : String) : Prop where
  noSubshell : hasSubshellSyntax command = false
  noPattern : matchesPattern DANGEROUS_PATTERNS command = false
  notDangerous : ∀ s ∈ lexSegments command, looksDangerous platform (s.text command) = false
  redirected : ∃ s ∈ lexSegments command, s.hasWriteRedirect = true
  redirected_query : ∀ s ∈ lexSegments command, s.hasWriteRedirect = true →
    queriesTool platform (s.text command) = true
  others_read : ∀ s ∈ lexSegments command, s.hasWriteRedirect = false →
    queriesTool platform (s.text command) = true ∨ plainlyReads platform (s.text command) = true

omit [Alphabetic] in
theorem classifyWith_eq_readOnly {classify : String → Bool → RiskLevel} {command : String} :
    classifyWith classify command = .readOnly ↔
      hasSubshellSyntax command = false ∧ matchesPattern DANGEROUS_PATTERNS command = false ∧
        ∀ s ∈ lexSegments command, classify (s.text command) s.hasWriteRedirect = .readOnly := by
  unfold classifyWith
  rw [ite_eq_readOnly (by decide), ite_eq_readOnly (by decide), RiskLevel.highest_eq_readOnly_iff,
    forall_mem_map, Bool.not_eq_true, Bool.not_eq_true]

theorem redirectsQueries_iff {platform : TargetPlatform} {command : String} :
    RedirectsQueries platform command ↔
      (∃ s ∈ lexSegments command, s.hasWriteRedirect = true) ∧
        classifyCommandFor command platform = .readOnly := by
  rw [classifyCommandFor_eq, classifyWith_eq_readOnly]
  constructor
  · intro h
    refine ⟨h.redirected, h.noSubshell, h.noPattern, ?_⟩
    intro s hs
    rw [classifySegmentFor_eq_readOnly]
    refine ⟨h.notDangerous s hs, ?_⟩
    cases hflag : s.hasWriteRedirect with
    | true => exact .inl (h.redirected_query s hs hflag)
    | false => exact (h.others_read s hs hflag).imp id fun hreads ↦ ⟨rfl, hreads⟩
  · rintro ⟨hredirected, hsubshell, hpattern, hsegments⟩
    simp only [classifySegmentFor_eq_readOnly] at hsegments
    refine ⟨hsubshell, hpattern, fun s hs ↦ (hsegments s hs).1, hredirected, ?_, ?_⟩
    · intro s hs hflag
      rcases (hsegments s hs).2 with hquery | ⟨hnone, -⟩
      · exact hquery
      · rw [hflag] at hnone
        cases hnone
    · intro s hs _
      exact (hsegments s hs).2.imp id And.right

omit [Alphabetic] in
theorem RiskLevel.modify_le_iff {level : RiskLevel} : .modify ≤ level ↔ level ≠ .readOnly := by
  show 1 ≤ level.rank ↔ _
  cases level <;> decide

/-- A command line with a redirected segment is at least `modify`, unless all that it redirects
are queries of tools. -/
theorem modify_le_of_writeRedirect_iff (command : String) (platform : TargetPlatform) :
    ((∃ s ∈ lexSegments command, s.hasWriteRedirect = true) →
        .modify ≤ classifyCommandFor command platform) ↔
      ¬RedirectsQueries platform command := by
  rw [redirectsQueries_iff, RiskLevel.modify_le_iff, not_and]

omit [Alphabetic] in
/-- A query that overwrites a file runs without approval. -/
theorem docker_ps_overwrites :
    ¬((∃ s ∈ lexSegments "docker ps > /etc/passwd", s.hasWriteRedirect = true) →
        .modify ≤ @classifyCommandFor asciiAlphabetic "docker ps > /etc/passwd" .unix) ∧
      ¬((∃ s ∈ lexSegments "reg query HKLM > C:\\boot.ini", s.hasWriteRedirect = true) →
        .modify ≤ @classifyCommandFor asciiAlphabetic "reg query HKLM > C:\\boot.ini" .windows) := by
  decide

end KaduoxSsh.Desktop
