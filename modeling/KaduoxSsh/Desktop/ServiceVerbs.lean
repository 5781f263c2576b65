import KaduoxSsh.Desktop.ClassifyOrder

/-!
# The verbs of the tools

What `systemctl`, `docker` and `kubectl` do is said by their verb, the first of their arguments
that is no option. The classifier lets a segment of theirs run by itself when it takes the verb
for a query.

The verb of `docker` and `kubectl` is looked for at a fixed place, where behind a wrapper no verb
stands, so that no other argument is ever taken for it. The verb of `systemctl` is looked for
among all words of the segment: a unit that has the name of a query makes every verb look like one.
-/

namespace KaduoxSsh.Desktop

open Text List

/-! ## Tools and their queries -/

/-- The tools that are classified by their verb. -/
inductive VerbTool where
  | systemctl
  | docker
  | kubectl
deriving DecidableEq, Repr

namespace VerbTool

def name : VerbTool → String
  | .systemctl => "systemctl"
  | .docker => "docker"
  | .kubectl => "kubectl"

/-- The verbs of a tool that only read. -/
def queries : VerbTool → List String
  | .systemctl =>
      ["status", "show", "list-units", "list-unit-files", "list-timers", "is-active",
       "is-enabled", "is-failed", "cat", "help", "--version", "list-dependencies",
       "list-sockets", "list-jobs"]
  | .docker =>
      ["ps", "images", "inspect", "logs", "stats", "version", "info", "top", "diff", "history",
       "port", "search", "df"]
  | .kubectl =>
      ["get", "describe", "logs", "top", "version", "api-resources", "api-versions",
       "cluster-info", "config", "explain"]

/-- The verbs of `docker` that only read behind the kind of their object. -/
def objectQueries : List String := ["ls", "inspect", "logs", "stats", "top", "history"]

/-- Whether arguments that start with the verb of a tool are a query. -/
def isQuery (tool : VerbTool) : List String → Bool
  | [] => false
  | verb :: operands =>
      tool.queries.contains verb ||
        (tool == .docker && ["container", "image"].contains verb &&
          objectQueries.contains (operands.headD ""))

end VerbTool

/-- Whether an argument is an option. -/
def isOption (argument : String) : Bool := startsWith argument "-"

section

variable [Alphabetic]

/-- The arguments of a segment: what stands behind its command word. -/
def arguments (segment : String) : List String := (commandWords segment).tail

/-- The arguments of a segment from its effective verb on. -/
def verbAndOperands (segment : String) : List String := (arguments segment).dropWhile isOption

/-- A segment is let run by itself only if its effective verb is a query of its tool. -/
def ReadsByVerb (tool : VerbTool) (segment : String) (hasWriteRedirect : Bool) : Prop :=
  classifySegment segment hasWriteRedirect = .readOnly →
    tool.isQuery (verbAndOperands segment) = true

/-! ## Where the classifier looks -/

variable {segment : String} {tool : VerbTool} {words : List String} {command : String}

/-- The wrappers of a segment stand in front of its command word. -/
theorem splitWhitespace_eq_skipped (segment : String) :
    splitWhitespace segment = (splitWhitespace segment).takeWhile isSkipped ++ commandWords segment :=
  (takeWhile_append_dropWhile).symm

theorem commandBase_eq :
    commandBase segment =
      lastPiece (toAsciiLowercase ((commandWords segment).headD "")) (· == '/') := rfl

/-- A segment with a command word of a tool starts, behind its wrappers, with that word. -/
theorem commandWords_eq_cons (htool : commandBase segment = tool.name) :
    ∃ command, commandWords segment = command :: arguments segment ∧
      lastPiece (toAsciiLowercase command) (· == '/') = tool.name := by
  rw [commandBase_eq] at htool
  cases hwords : commandWords segment with
  | nil =>
      rw [hwords, headD_nil] at htool
      exact absurd htool (by cases tool <;> decide)
  | cons command rest =>
      rw [hwords, headD_cons] at htool
      exact ⟨command, by rw [arguments, hwords, tail_cons], htool⟩

omit [Alphabetic] in
/-- Neither a wrapper nor the command word itself is a query of `systemctl`. -/
theorem not_mem_queries {word : String}
    (hword : isSubcommand word = false ∨
      lastPiece (toAsciiLowercase word) (· == '/') = VerbTool.systemctl.name) :
    word ∉ VerbTool.systemctl.queries := by
  intro hmem
  have hqueries : ∀ query ∈ VerbTool.systemctl.queries, isSubcommand query = true ∧
      lastPiece (toAsciiLowercase query) (· == '/') ≠ VerbTool.systemctl.name := by
    decide
  rcases hword with hword | hword
  · rw [(hqueries word hmem).1] at hword
    cases hword
  · exact (hqueries word hmem).2 hword

omit [Alphabetic] in
theorem serviceQuery_iff :
    serviceQuery words = true ↔ ∃ word ∈ words, word ∈ VerbTool.systemctl.queries := by
  rw [serviceQuery, any_eq_true]
  constructor
  · rintro ⟨query, hquery, hany⟩
    obtain ⟨word, hword, heq⟩ := any_eq_true.mp hany
    exact ⟨word, hword, beq_iff_eq.mp heq ▸ hquery⟩
  · rintro ⟨word, hword, hquery⟩
    exact ⟨word, hquery, any_eq_true.mpr ⟨word, hword, beq_self_eq_true word⟩⟩

/-- `systemctl` is taken for a query as soon as some argument has the name of one. -/
theorem serviceQuery_segment_iff (htool : commandBase segment = VerbTool.systemctl.name) :
    serviceQuery (splitWhitespace segment) = true ↔
      ∃ word ∈ arguments segment, word ∈ VerbTool.systemctl.queries := by
  obtain ⟨command, hwords, hcommand⟩ := commandWords_eq_cons htool
  rw [serviceQuery_iff]
  constructor
  · rintro ⟨word, hword, hquery⟩
    rw [splitWhitespace_eq_skipped, mem_append, hwords, mem_cons] at hword
    rcases hword with hskipped | rfl | hargument
    · have hsub := isSubcommand_eq_false (mem_takeWhile_imp hskipped)
      exact absurd hquery (not_mem_queries (.inl hsub))
    · exact absurd hquery (not_mem_queries (.inr hcommand))
    · exact ⟨word, hargument, hquery⟩
  · rintro ⟨word, hargument, hquery⟩
    rw [splitWhitespace_eq_skipped, hwords]
    exact ⟨word, mem_append_right _ (mem_cons_of_mem _ hargument), hquery⟩

/-- Behind a wrapper, the second word is another wrapper or the command word. -/
theorem wordAt_skipped {front arguments : List String} (hne : front ≠ [])
    (hfront : ∀ word ∈ front, isSkipped word = true) (hcommand : isSubcommand command = false) :
    isSubcommand (wordAt (front ++ command :: arguments) 1) = false := by
  cases front with
  | nil => exact absurd rfl hne
  | cons first rest =>
      cases rest with
      | nil => exact hcommand
      | cons second rest => exact isSubcommand_eq_false (hfront second (by simp))

/-- The second word of a segment of a tool is its first argument, or no verb at all. -/
theorem splitWhitespace_or_not_subcommand (htool : commandBase segment = tool.name)
    (hmanaged : tool.name ∈ ["docker", "podman", "nerdctl", "kubectl"]) :
    (∃ command, splitWhitespace segment = command :: arguments segment) ∨
      isSubcommand (wordAt (splitWhitespace segment) 1) = false := by
  obtain ⟨command, hwords, hcommand⟩ := commandWords_eq_cons htool
  have hsplit := splitWhitespace_eq_skipped segment
  rw [hwords] at hsplit
  by_cases hne : (splitWhitespace segment).takeWhile isSkipped = []
  · rw [hne, nil_append] at hsplit
    exact .inl ⟨command, hsplit⟩
  · right
    rw [hsplit]
    apply wordAt_skipped hne
    · intro word hword
      exact mem_takeWhile_imp hword
    · rw [isSubcommand, hcommand, contains_iff_mem.mpr hmanaged, Bool.not_true,
        Bool.and_false]

/-! ## The classification -/

omit [Alphabetic] in
/-- A query starts with its verb, which is no option but for `--version`. -/
theorem isQuery_dropWhile (htool : tool ≠ .systemctl) (hquery : tool.isQuery words = true) :
    tool.isQuery (words.dropWhile isOption) = true := by
  cases words with
  | nil => exact hquery
  | cons verb operands =>
      have hverb : isOption verb = false := by
        have hverbs : ∀ query ∈ tool.queries ++ ["container", "image"], isOption query = false := by
          cases tool with
          | systemctl => exact absurd rfl htool
          | docker => decide
          | kubectl => decide
        apply hverbs
        simp only [VerbTool.isQuery, Bool.or_eq_true, Bool.and_eq_true,
          contains_iff_mem] at hquery
        exact mem_append.mpr (hquery.imp_right fun h ↦ h.1.2)
      rw [dropWhile_cons_of_neg (by rw [hverb]; exact Bool.false_ne_true)]
      exact hquery

omit [Alphabetic] in
theorem toolRisk_eq :
    toolRisk tool.name words = some
      (match tool with
        | .systemctl => queryOrModify (serviceQuery words)
        | .docker => containerRisk words
        | .kubectl => kubectlRisk words) := by
  cases tool <;> simp [toolRisk, VerbTool.name]

/-- A tool of the list is let run by itself when its own check says so. -/
theorem classifySegment_readOnly_iff {hasWriteRedirect : Bool}
    (htool : commandBase segment = tool.name) :
    classifySegment segment hasWriteRedirect = .readOnly ↔
      looksDangerous .unix segment = false ∧
        toolRisk tool.name (splitWhitespace segment) = some .readOnly := by
  rw [classifySegment_eq, htool, toolRisk_eq, Option.getD_some, Option.some.injEq]
  cases looksDangerous .unix segment <;> simp

omit [Alphabetic] in
theorem containerQuery_cons :
    containerQuery (command :: words) = VerbTool.docker.isQuery words := by
  cases words with
  | nil => simp [containerQuery, wordAt, VerbTool.isQuery]
  | cons verb operands => cases operands <;> rfl

omit [Alphabetic] in
theorem kubectlQuery_cons : kubectlQuery (command :: words) = VerbTool.kubectl.isQuery words := by
  cases words with
  | nil => simp [kubectlQuery, wordAt, VerbTool.isQuery]
  | cons verb operands => exact (Bool.or_false _).symm

omit [Alphabetic] in
/-- Without wrappers, `docker` and `kubectl` are classified by their first argument. -/
theorem isQuery_of_toolRisk (hne : tool ≠ .systemctl)
    (hrisk : toolRisk tool.name (command :: words) = some .readOnly) :
    tool.isQuery words = true := by
  rw [toolRisk_eq, Option.some.injEq] at hrisk
  cases tool with
  | systemctl => exact absurd rfl hne
  | docker => exact containerQuery_cons.symm.trans (containerRisk_eq_readOnly.mp hrisk)
  | kubectl => exact kubectlQuery_cons.symm.trans (kubectlRisk_eq_readOnly.mp hrisk)

omit [Alphabetic] in
theorem toolRisk_of_not_subcommand (hne : tool ≠ .systemctl)
    (hsub : isSubcommand (wordAt words 1) = false) : toolRisk tool.name words = some .modify := by
  rw [toolRisk_eq]
  cases tool with
  | systemctl => exact absurd rfl hne
  | docker => exact congrArg some (containerRisk_of_not_subcommand hsub)
  | kubectl => exact congrArg some (kubectlRisk_of_not_subcommand hsub)

/-- `docker` and `kubectl` are let run by themselves behind no wrapper only, and for their
effective verb. -/
theorem readsByVerb_of_ne_systemctl {hasWriteRedirect : Bool} (hne : tool ≠ .systemctl)
    (htool : commandBase segment = tool.name) : ReadsByVerb tool segment hasWriteRedirect := by
  intro hread
  obtain ⟨-, hrisk⟩ := (classifySegment_readOnly_iff htool).mp hread
  have hmanaged : tool.name ∈ ["docker", "podman", "nerdctl", "kubectl"] := by
    cases tool with
    | systemctl => exact absurd rfl hne
    | docker => simp [VerbTool.name]
    | kubectl => simp [VerbTool.name]
  rcases splitWhitespace_or_not_subcommand htool hmanaged with ⟨command, hwords⟩ | hsub
  · rw [hwords] at hrisk
    exact isQuery_dropWhile hne (isQuery_of_toolRisk hne hrisk)
  · rw [toolRisk_of_not_subcommand hne hsub] at hrisk
    cases hrisk

/-- A segment of a tool is let run by itself for its effective verb alone, unless the tool is
`systemctl`, nothing in the segment is dangerous, its effective verb is no query and some other
argument has the name of one. -/
theorem readsByVerb_iff (tool : VerbTool) (segment : String) (hasWriteRedirect : Bool)
    (htool : commandBase segment = tool.name) :
    ReadsByVerb tool segment hasWriteRedirect ↔
      ¬(tool = .systemctl ∧ looksDangerous .unix segment = false ∧
        tool.isQuery (verbAndOperands segment) = false ∧
          ∃ word ∈ arguments segment, word ∈ tool.queries) := by
  cases tool with
  | docker => simp [readsByVerb_of_ne_systemctl _ htool]
  | kubectl => simp [readsByVerb_of_ne_systemctl _ htool]
  | systemctl =>
      rw [ReadsByVerb, classifySegment_readOnly_iff htool, toolRisk_eq, Option.some.injEq]
      dsimp only
      rw [queryOrModify_eq_readOnly, serviceQuery_segment_iff htool]
      constructor
      · rintro hreads ⟨-, hquiet, hverb, hother⟩
        rw [hreads ⟨hquiet, hother⟩] at hverb
        cases hverb
      · rintro hcondition ⟨hquiet, hother⟩
        by_contra hverb
        exact hcondition ⟨rfl, hquiet, Bool.not_eq_true _ ▸ hverb, hother⟩

end

theorem readsByVerb_restart :
    @commandBase asciiAlphabetic "sudo systemctl restart web" = VerbTool.systemctl.name ∧
      @ReadsByVerb asciiAlphabetic .systemctl "sudo systemctl restart web" false :=
  ⟨by decide,
    (@readsByVerb_iff asciiAlphabetic .systemctl "sudo systemctl restart web" false
      (by decide)).mpr (by decide)⟩

/-- Restarting a unit with the name of a query is let run by itself. -/
theorem restart_runs_by_itself :
    ¬(@commandBase asciiAlphabetic "systemctl restart status" = VerbTool.systemctl.name →
        @ReadsByVerb asciiAlphabetic .systemctl "systemctl restart status" false) := by
  unfold ReadsByVerb
  decide

end KaduoxSsh.Desktop
