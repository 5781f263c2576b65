import KaduoxSsh.Hosts.Document
import KaduoxSsh.OpenSsh.IncludeBounds

/-!
# What an expansion shows

The text of a configuration with its files in place is described without the
state of the expansion: `Textual` lists, depth first, the files entered and the
lines of each. An option line comes with the state of the block it lies in, which
the `Host` and `Match` lines of its own file decide, and with the states of the
blocks that the `Include` lines lie in through which its file was come to.

The expansion for a connection shows the option lines for which all of these are
active, and no others (`include_scoping`).
-/

namespace KaduoxSsh.OpenSsh

open Text List
open Hosts.Toml (lines unlines unlines_append)

/-- A `Host` or `Match` line. -/
def isScope (line : String) : Bool := hasKey line "host" || hasKey line "match"

namespace World

variable (world : World)

/-- Whether the condition of a `Host` or `Match` line holds of the target. -/
def holds (line : String) : Bool :=
  match if hasKey line "host" then world.hostDirectiveMatches line
    else world.supportedMatchDirectiveMatches line with
  | .ok matched => matched
  | .error _ => false

/-- The files of an `Include` line, in order. -/
def resolveIncludes : List String → Result (List PathBuf)
  | [] => .ok []
  | argument :: arguments => do
      let pattern ← anchorUserInclude world argument
      let files ← world.expandPathPattern pattern
      return files ++ (← resolveIncludes arguments)

end World

/-! ## The text with its files in place -/

inductive Piece where
  | file (path : PathBuf)
  | line (text : String)

inductive Event where
  | entered (path : PathBuf)
  | scope (line : String)
  /-- An option line, the state of its block, and those of the blocks of the `Include` lines. -/
  | option (line : String) (block : Bool) (chain : List Bool)

/-- The depth-first expansion of files and lines. A file begins with a block that is active. -/
inductive Textual (world : World) : List Bool → Bool → List Piece → List Event → Prop
  | nil {chain : List Bool} {block : Bool} : Textual world chain block [] []
  | scope {chain : List Bool} {block : Bool} {line : String} {rest : List Piece}
      {trace : List Event} (hline : isScope line = true)
      (h : Textual world chain (world.holds line) rest trace) :
      Textual world chain block (.line line :: rest) (.scope line :: trace)
  | option {chain : List Bool} {block : Bool} {line : String} {rest : List Piece}
      {trace : List Event} (hline : isScope line = false)
      (hargs : includeArguments line = .ok none) (h : Textual world chain block rest trace) :
      Textual world chain block (.line line :: rest) (.option line block chain :: trace)
  | includes {chain : List Bool} {block : Bool} {line : String} {rest : List Piece}
      {arguments : List String} {files : List PathBuf} {inner trace : List Event}
      (hline : isScope line = false) (hargs : includeArguments line = .ok (some arguments))
      (hfiles : world.resolveIncludes arguments = .ok files)
      (hinner : Textual world (chain ++ [block]) true (files.map .file) inner)
      (h : Textual world chain block rest trace) :
      Textual world chain block (.line line :: rest) (inner ++ trace)
  | file {chain : List Bool} {block : Bool} {path : PathBuf} {contents : String}
      {rest : List Piece} {inner trace : List Event}
      (hread : world.readUserConfigFile path = .ok contents)
      (hinner : Textual world chain true
        ((lines contents.toList).map fun line ↦ .line (String.ofList line)) inner)
      (h : Textual world chain block rest trace) :
      Textual world chain block (.file path :: rest) (.entered path :: inner ++ trace)

namespace Event

/-- The file that is entered. -/
def path : Event → Option PathBuf
  | .entered path => some path
  | _ => none

/-- The line that is active: its block is, and the blocks that include it are. -/
def shown : Event → Option String
  | .option line block chain => if block = true ∧ ∀ b ∈ chain, b = true then some line else none
  | _ => none

/-- The line, whether active or not. -/
def text : Event → Option String
  | .entered _ => none
  | .scope line | .option line _ _ => some line

end Event

namespace Textual

variable {world : World} {chain : List Bool} {block : Bool} {pieces : List Piece}
  {trace trace' : List Event}

/-- There is one expansion at most. -/
theorem unique (h : Textual world chain block pieces trace)
    (h' : Textual world chain block pieces trace') : trace = trace' := by
  induction h generalizing trace' with
  | nil =>
      cases h'
      rfl
  | scope hline _ ih =>
      cases h' with
      | scope _ h' => rw [ih h']
      | option hline' _ _ | includes hline' _ _ _ _ => exact absurd (hline.symm.trans hline') nofun
  | option hline hargs _ ih =>
      cases h' with
      | scope hline' _ => exact absurd (hline.symm.trans hline') nofun
      | option _ _ h' => rw [ih h']
      | includes _ hargs' _ _ _ => cases hargs.symm.trans hargs'
  | includes hline hargs hfiles _ _ ihinner ih =>
      cases h' with
      | scope hline' _ => exact absurd (hline.symm.trans hline') nofun
      | option _ hargs' _ => cases hargs.symm.trans hargs'
      | includes _ hargs' hfiles' hinner' h' =>
          cases hargs.symm.trans hargs'
          cases hfiles.symm.trans hfiles'
          rw [ihinner hinner', ih h']
  | file hread _ _ ihinner ih =>
      cases h' with
      | file hread' hinner' h' =>
          cases hread.symm.trans hread'
          rw [ihinner hinner', ih h']

theorem cons_file {path : PathBuf} (h : Textual world chain block [.file path] trace)
    (hrest : Textual world chain block pieces trace') :
    Textual world chain block (.file path :: pieces) (trace ++ trace') := by
  cases h with
  | file hread hinner hnil =>
      cases hnil
      rw [append_nil]
      exact .file hread hinner hrest

end Textual

/-! ## Texts that show a trace -/

/-- How texts show traces: piece by piece, and with a line feed added where it is missing. -/
structure Showing (Shows : List Event → String → Prop) (missing : String → Bool) : Prop where
  nil : Shows [] ""
  append : ∀ {trace trace' text text'}, Shows trace text → Shows trace' text' →
    Shows (trace ++ trace') (text ++ text')
  missing : ∀ {trace text}, Shows trace text → missing text = true → Shows trace (text ++ "\n")

def ExpansionState.files (state : ExpansionState) : List PathBuf := state.entered.map Prod.fst

/-- Some pieces have been expanded, from one state to another, into a text. -/
def Traced (world : World) (Shows : List Event → String → Prop) (chain : List Bool) (block : Bool)
    (pieces : List Piece) (state state' : ExpansionState) (text : String) : Prop :=
  ∃ trace, Textual world chain block pieces trace ∧ Shows trace text ∧
    state'.files = state.files ++ trace.filterMap Event.path

theorem pushBounded_eq {output text out : String} (h : pushBounded output text = .ok out) :
    out = output ++ text := by
  simp only [pushBounded, Result.bind_eq_ok] at h
  obtain ⟨-, -, -, -, hret⟩ := h
  cases hret
  rfl

theorem pushLineBounded_eq {output line out : String} (h : pushLineBounded output line = .ok out) :
    out = output ++ (line ++ "\n") := by
  obtain ⟨middle, hmiddle, hpush⟩ := Result.bind_eq_ok.mp h
  rw [pushBounded_eq hpush, pushBounded_eq hmiddle, String.append_assoc]

theorem pushMissing_eq {missing : Bool} {output out : String}
    (h : pushMissing missing output = .ok out) :
    out = output ++ if missing then "\n" else "" := by
  rw [pushMissing] at h
  cases missing with
  | true => exact pushBounded_eq h
  | false =>
      cases h
      exact String.append_empty.symm

section

variable {world : World} {Shows : List Event → String → Prop} {missing : String → Bool}
  {chain : List Bool} {path : PathBuf}

theorem includeFiles_traced (hshowing : Showing Shows missing)
    {expand : PathBuf → Expanding String}
    (hexpand : ∀ file state out state', (expand file).run state = (.ok out, state') →
      Traced world Shows chain true [.file file] state state' out)
    {files : List PathBuf} {expanded out : String} {state state' : ExpansionState}
    (h : (includeFiles expand missing files expanded).run state = (.ok out, state')) :
    ∃ text, out = expanded ++ text ∧
      Traced world Shows chain true (files.map .file) state state' text := by
  induction files generalizing expanded state with
  | nil =>
      obtain ⟨rfl, rfl⟩ := Stateful.pure_eq_ok.mp h
      exact ⟨"", String.append_empty.symm, [], .nil, hshowing.nil, (append_nil _).symm⟩
  | cons file files ih =>
      rw [includeFiles, Stateful.bind_eq_ok] at h
      obtain ⟨included, s₁, hfile, h⟩ := h
      obtain ⟨joined, s₂, hjoined, h⟩ := Stateful.bind_eq_ok.mp h
      obtain ⟨ended, s₃, hended, h⟩ := Stateful.bind_eq_ok.mp h
      obtain ⟨hjoin, rfl⟩ := Stateful.mk_pure_eq_ok.mp hjoined
      obtain ⟨hend, rfl⟩ := Stateful.mk_pure_eq_ok.mp hended
      obtain ⟨trace, htextual, hshows, hfiles⟩ := hexpand file state included s₁ hfile
      obtain ⟨text, rfl, trace', htextual', hshows', hfiles'⟩ := ih h
      have hterminated : Shows trace (included ++ if missing included then "\n" else "") := by
        cases hmissing : missing included with
        | true => exact hshowing.missing hshows hmissing
        | false =>
            rw [if_neg Bool.false_ne_true, String.append_empty]
            exact hshows
      refine ⟨(included ++ if missing included then "\n" else "") ++ text, ?_, trace ++ trace',
        htextual.cons_file htextual', hshowing.append hterminated hshows', ?_⟩
      · rw [pushMissing_eq hend, pushBounded_eq hjoin]
        simp only [String.append_assoc]
      · rw [hfiles', hfiles, filterMap_append, append_assoc]

theorem files_append {files files' : List PathBuf} {trace trace' : List Event}
    (h : Textual world chain true (files.map .file) trace)
    (h' : Textual world chain true (files'.map .file) trace') :
    Textual world chain true ((files ++ files').map .file) (trace ++ trace') := by
  induction files generalizing trace with
  | nil =>
      cases h
      exact h'
  | cons file files ih =>
      cases h with
      | file hread hinner hrest =>
          rw [cons_append, append_assoc, ← cons_append]
          exact .file hread hinner (ih hrest)

theorem includeAll_traced (hshowing : Showing Shows missing)
    {expand : PathBuf → Expanding String}
    (hexpand : ∀ file state out state', (expand file).run state = (.ok out, state') →
      Traced world Shows chain true [.file file] state state' out)
    {arguments : List String} {expanded out : String} {state state' : ExpansionState}
    (h : (includeAll world expand missing arguments expanded).run state = (.ok out, state')) :
    ∃ files text, world.resolveIncludes arguments = .ok files ∧ out = expanded ++ text ∧
      Traced world Shows chain true (files.map .file) state state' text := by
  induction arguments generalizing expanded state with
  | nil =>
      obtain ⟨rfl, rfl⟩ := Stateful.pure_eq_ok.mp h
      exact ⟨[], "", rfl, String.append_empty.symm, [], .nil, hshowing.nil,
        (append_nil _).symm⟩
  | cons argument arguments ih =>
      rw [includeAll, Stateful.bind_eq_ok] at h
      obtain ⟨pattern, s₁, hpattern, h⟩ := h
      obtain ⟨matched, s₂, hmatched, h⟩ := Stateful.bind_eq_ok.mp h
      obtain ⟨joined, s₃, hjoined, h⟩ := Stateful.bind_eq_ok.mp h
      obtain ⟨hanchor, rfl⟩ := Stateful.mk_pure_eq_ok.mp hpattern
      obtain ⟨hmatch, rfl⟩ := Stateful.mk_pure_eq_ok.mp hmatched
      obtain ⟨text, rfl, trace, htextual, hshows, hfiles⟩ :=
        includeFiles_traced hshowing hexpand hjoined
      obtain ⟨others, text', hothers, rfl, trace', htextual', hshows', hfiles'⟩ := ih h
      refine ⟨matched ++ others, text ++ text', ?_, String.append_assoc, trace ++ trace',
        files_append htextual htextual', hshowing.append hshows hshows', ?_⟩
      · simp [World.resolveIncludes, hanchor, hmatch, hothers]
      · rw [hfiles', hfiles, filterMap_append, append_assoc]

/-! ## Lines and files -/

/-- One line has been expanded, with the block in one state before it and in another after it. -/
def Stepped (world : World) (Shows : List Event → String → Prop) (chain : List Bool) (line : String)
    (block block' : Bool) (state state' : ExpansionState) (text : String) : Prop :=
  ∃ first, (∀ rest trace, Textual world chain block' rest trace →
      Textual world chain block (.line line :: rest) (first ++ trace)) ∧
    Shows first text ∧ state'.files = state.files ++ first.filterMap Event.path

theorem Stepped.cons (hshowing : Showing Shows missing) {line : String} {block block' : Bool}
    {state s₁ state' : ExpansionState} {text text' : String} {rest : List Piece}
    (h : Stepped world Shows chain line block block' state s₁ text)
    (hrest : Traced world Shows chain block' rest s₁ state' text') :
    Traced world Shows chain block (.line line :: rest) state state' (text ++ text') := by
  obtain ⟨first, hfirst, hshows, hfiles⟩ := h
  obtain ⟨trace, htextual, hshows', hfiles'⟩ := hrest
  refine ⟨first ++ trace, hfirst rest trace htextual, hshowing.append hshows hshows', ?_⟩
  rw [hfiles', hfiles, filterMap_append, append_assoc]

theorem Stepped.includes {line : String} {arguments : List String} {files : List PathBuf}
    {block : Bool} {state state' : ExpansionState} {text : String} (hline : isScope line = false)
    (hargs : includeArguments line = .ok (some arguments))
    (hfiles : world.resolveIncludes arguments = .ok files)
    (h : Traced world Shows (chain ++ [block]) true (files.map .file) state state' text) :
    Stepped world Shows chain line block block state state' text := by
  obtain ⟨inner, htextual, hshows, hentered⟩ := h
  exact ⟨inner, fun rest trace h ↦ .includes hline hargs hfiles htextual h, hshows, hentered⟩

theorem enterFile_files {depth : Nat} {entered : Entered depth} {state state' : ExpansionState}
    (h : (enterFile world path depth).run state = (.ok entered, state')) :
    state'.files = state.files ++ [path] := by
  obtain ⟨e, hrun⟩ | ⟨entered, -, -, hrun⟩ := enterFile_cases path depth state
  · cases hrun.symm.trans h
  · cases hrun.symm.trans h
    exact map_append

theorem leaving_files {α : Type} {identity : PathBuf} {x : Expanding α} {a : α}
    {state state' : ExpansionState} (h : (leaving identity x).run state = (.ok a, state')) :
    ∃ s₁, x.run state = (.ok a, s₁) ∧ state'.files = s₁.files := by
  rcases hx : x state with ⟨e | a, s₁⟩
  · simp only [leaving, ExceptT.run, hx] at h
    cases h
  · simp only [leaving, ExceptT.run, hx] at h
    cases h
    exact ⟨s₁, hx, rfl⟩

theorem readConfig_files {contents : String} {state state' : ExpansionState}
    (h : (readConfig world path).run state = (.ok contents, state')) :
    world.readUserConfigFile path = .ok contents ∧ state'.files = state.files := by
  obtain ⟨read, s₁, hread, h⟩ := Stateful.bind_eq_ok.mp h
  obtain ⟨hok, rfl⟩ := Stateful.mk_pure_eq_ok.mp hread
  obtain ⟨_, s₂, haccount, h⟩ := Stateful.bind_eq_ok.mp h
  obtain ⟨_, s₃, haccept, h⟩ := Stateful.bind_eq_ok.mp h
  obtain ⟨rfl, rfl⟩ := Stateful.pure_eq_ok.mp h
  cases haccept
  refine ⟨hok, ?_⟩
  simp only [accountInputBytes, ExceptT.run] at haccount
  split at haccount
  · cases haccount
  split at haccount
  · cases haccount
  · cases haccount
    rfl

/-- A file is expanded when its lines are, between entering and leaving it. -/
theorem file_traced {depth : Nat} {body : String → Expanding String}
    (hbody : ∀ contents state out state', depth ≤ MAX_INCLUDE_DEPTH → (body contents).run state = (.ok out, state') → Traced world Shows chain true ((lines contents.toList).map fun line ↦ .line (String.ofList line)) state state' out)
    {block : Bool} {state state' : ExpansionState} {out : String}
    (h : (enterFile world path depth >>= fun entered ↦ leaving entered.identity (readConfig world path >>= body)).run state = (.ok out, state'))
    (hentered : ∀ trace, Shows trace out → Shows (.entered path :: trace) out) :
    Traced world Shows chain block [.file path] state state' out := by
  obtain ⟨entered, s₁, henter, h⟩ := Stateful.bind_eq_ok.mp h
  obtain ⟨s₂, h, hleft⟩ := leaving_files h
  obtain ⟨contents, s₃, hread, h⟩ := Stateful.bind_eq_ok.mp h
  obtain ⟨hcontents, hkept⟩ := readConfig_files hread
  obtain ⟨trace, htextual, hshows, hfiles⟩ := hbody contents s₃ out s₂ entered.shallow h
  refine ⟨.entered path :: trace, ?_, hentered trace hshows, ?_⟩
  · have hfile : Textual world chain block [.file path] (.entered path :: trace ++ []) :=
      .file hcontents htextual .nil
    rwa [append_nil] at hfile
  · rw [hleft, hfiles, hkept, enterFile_files henter, append_assoc]
    rfl

theorem context_eq_ok {α : Type} {text : String} {x : Expanding α} {a : α}
    {state state' : ExpansionState} :
    (x.context text).run state = (.ok a, state') ↔ x.run state = (.ok a, state') := by
  show (Result.context text (x state).1, (x state).2) = (.ok a, state') ↔ x state = (.ok a, state')
  rw [Prod.mk.injEq, Result.context_eq_ok, Prod.ext_iff]

end

/-! ## The expansion for a connection -/

/-- The text is of the lines shown, each with a line feed. -/
def ShowsActive (trace : List Event) (text : String) : Prop :=
  text.toList = unlines ((trace.filterMap Event.shown).map String.toList)

theorem getLast?_unlines {ls : List (List Char)} (h : ls ≠ []) :
    (unlines ls).getLast? = some '\n' := by
  rw [← dropLast_append_getLast h, unlines_append]
  simp [unlines]

theorem showsActive_showing : Showing ShowsActive missingConnection where
  nil := rfl
  append {trace trace' text text'} h h' := by
    rw [ShowsActive, String.toList_append, h, h', filterMap_append, map_append,
      unlines_append]
  missing {trace text} h hmissing := by
    simp only [missingConnection, endsWithNewline, Bool.and_eq_true, Bool.not_eq_true',
      decide_eq_true_eq, decide_eq_false_iff_not] at hmissing
    obtain ⟨hempty, hlast⟩ := hmissing
    rw [h] at hlast
    refine absurd (getLast?_unlines fun hnil ↦ hempty ?_) hlast
    rw [ShowsActive, hnil] at h
    exact String.toList_eq_nil_iff.mp h

theorem shown_option (line : String) (block : Bool) (chain : List Bool) :
    (Event.option line block chain).shown = if chain.all id && block then some line else none := by
  simp only [Event.shown, Bool.and_eq_true, all_eq_true, id, and_comm]

section

variable {world : World} {chain : List Bool}

theorem all_concat (chain : List Bool) (block : Bool) :
    (chain ++ [block]).all id = (chain.all id && block) := by
  rw [all_append, all_cons, all_nil, Bool.and_true]
  rfl

/-- What a line does for a connection: to the block it lies in, and to the text. -/
def LineStepped (world : World) (chain : List Bool) (line : String) (block active : Bool)
    (expanded out : String) (state state' : ExpansionState) : Prop :=
  ∃ block' text, active = (chain.all id && block') ∧ out = expanded ++ text ∧
    Stepped world ShowsActive chain line block block' state state' text

section

variable {line expanded out : String} {block active : Bool} {state state' : ExpansionState}

theorem scopeLine_stepped {condition : Result Bool} {text : String} (hline : isScope line = true)
    (hholds : ∀ matched, condition = .ok matched → world.holds line = matched)
    (h : (do
        let matched ← Expanding.ofResult (condition.context text)
        return (!!chain.all id && matched, expanded) : Expanding (Bool × String)).run state =
      (.ok (active, out), state')) :
    LineStepped world chain line block active expanded out state state' := by
  obtain ⟨matched, s₁, hmatched, h⟩ := Stateful.bind_eq_ok.mp h
  obtain ⟨hok, rfl⟩ := Stateful.mk_pure_eq_ok.mp hmatched
  obtain ⟨hresult, rfl⟩ := Stateful.pure_eq_ok.mp h
  cases hresult
  refine ⟨world.holds line, "", ?_, String.append_empty.symm, [.scope line],
    fun _ _ h ↦ .scope hline h, rfl, (append_nil _).symm⟩
  rw [hholds matched (Result.context_eq_ok.mp hok), Bool.not_not]

/-- An option line is kept where it is active, and otherwise only checked. -/
theorem optionLine_stepped {check : Result Unit} (hline : isScope line = false)
    (hargs : includeArguments line = .ok none)
    (h : (if chain.all id && block then do
        return (chain.all id && block, ← Expanding.ofResult (pushLineBounded expanded line))
      else do
        Expanding.ofResult check
        return (chain.all id && block, expanded) : Expanding (Bool × String)).run state =
      (.ok (active, out), state')) :
    LineStepped world chain line block active expanded out state state' := by
  have hoption : ∀ text, ShowsActive [.option line block chain] text →
      Stepped world ShowsActive chain line block block state state text := fun text hshows ↦
    ⟨[.option line block chain], fun _ _ h ↦ .option hline hargs h, hshows,
      (append_nil _).symm⟩
  split at h
  · next hactive =>
      obtain ⟨pushed, s₁, hpushed, h⟩ := Stateful.bind_eq_ok.mp h
      obtain ⟨hpush, rfl⟩ := Stateful.mk_pure_eq_ok.mp hpushed
      obtain ⟨hresult, rfl⟩ := Stateful.pure_eq_ok.mp h
      cases hresult
      refine ⟨block, line ++ "\n", rfl, pushLineBounded_eq hpush, hoption _ ?_⟩
      simp [ShowsActive, shown_option, hactive, unlines]
  · next hinactive =>
      obtain ⟨_, s₁, hchecked, h⟩ := Stateful.bind_eq_ok.mp h
      obtain ⟨-, rfl⟩ := Stateful.mk_pure_eq_ok.mp hchecked
      obtain ⟨hresult, rfl⟩ := Stateful.pure_eq_ok.mp h
      cases hresult
      refine ⟨block, "", rfl, String.append_empty.symm, hoption _ ?_⟩
      simp [ShowsActive, shown_option, hinactive, unlines]

theorem connectionLine_stepped {expand : ConnectionExpander}
    (hexpand : ∀ block file state out state',
      (expand file (chain.all id && block) (!(chain ++ [block]).all id)).run state =
        (.ok out, state') →
      Traced world ShowsActive (chain ++ [block]) true [.file file] state state' out)
    {path : PathBuf} {lineIndex : Nat}
    (h : (connectionLine world expand path (!chain.all id) lineIndex line (chain.all id && block)
      expanded).run state = (.ok (active, out), state')) :
    LineStepped world chain line block active expanded out state state' := by
  unfold connectionLine at h
  split at h
  · next hhost =>
      refine scopeLine_stepped (by simp [isScope, hhost]) (fun matched hok ↦ ?_) h
      simp [World.holds, hhost, hok]
  next hhost =>
  split at h
  · next hmatch =>
      refine scopeLine_stepped (by simp [isScope, hmatch]) (fun matched hok ↦ ?_) h
      simp [World.holds, hhost, hok]
  next hmatch =>
  have hline : isScope line = false := by simp [isScope, hhost, hmatch]
  obtain ⟨arguments, s₁, harguments, h⟩ := Stateful.bind_eq_ok.mp h
  obtain ⟨hok, rfl⟩ := Stateful.mk_pure_eq_ok.mp harguments
  have hargs := Result.context_eq_ok.mp hok
  cases arguments with
  | none => exact optionLine_stepped hline hargs h
  | some arguments =>
      obtain ⟨_, s₁, hchecked, h⟩ := Stateful.bind_eq_ok.mp h
      obtain ⟨-, rfl⟩ := Stateful.mk_pure_eq_ok.mp hchecked
      obtain ⟨joined, s₁, hjoined, h⟩ := Stateful.bind_eq_ok.mp h
      obtain ⟨hresult, rfl⟩ := Stateful.pure_eq_ok.mp h
      cases hresult
      have hnever : (!chain.all id || !(chain.all id && block)) = !(chain ++ [block]).all id := by
        rw [all_concat]
        cases chain.all id <;> rfl
      rw [hnever] at hjoined
      obtain ⟨files, text, hfiles, rfl, htraced⟩ := includeAll_traced showsActive_showing
        (fun file s out s' hrun ↦ hexpand block file s out s' (context_eq_ok.mp hrun)) hjoined
      exact ⟨block, text, rfl, rfl, .includes hline hargs hfiles htraced⟩

end

theorem connectionLines_traced {expand : ConnectionExpander}
    (hexpand : ∀ block file state out state',
      (expand file (chain.all id && block) (!(chain ++ [block]).all id)).run state =
        (.ok out, state') →
      Traced world ShowsActive (chain ++ [block]) true [.file file] state state' out)
    {path : PathBuf} {lineIndex : Nat} {rest : List String} {block : Bool} {expanded out : String}
    {state state' : ExpansionState}
    (h : (connectionLines world expand path (!chain.all id) lineIndex rest (chain.all id && block)
      expanded).run state = (.ok out, state')) :
    ∃ text, out = expanded ++ text ∧
      Traced world ShowsActive chain block (rest.map .line) state state' text := by
  induction rest generalizing lineIndex block expanded state with
  | nil =>
      obtain ⟨rfl, rfl⟩ := Stateful.pure_eq_ok.mp h
      exact ⟨"", String.append_empty.symm, [], .nil, rfl, (append_nil _).symm⟩
  | cons line rest ih =>
      rw [connectionLines] at h
      obtain ⟨⟨active, joined⟩, s₁, hline, h⟩ := Stateful.bind_eq_ok.mp h
      obtain ⟨block', text, rfl, rfl, hstepped⟩ := connectionLine_stepped hexpand hline
      obtain ⟨text', rfl, htraced⟩ := ih h
      exact ⟨text ++ text', String.append_assoc, hstepped.cons showsActive_showing htraced⟩

/-- The expansion of a file, come to through blocks of the given states. -/
theorem expandConnectionFile_traced (path : PathBuf) (depth : Nat) (chain : List Bool)
    {inheritedActive : Bool} (hinherited : chain.all id = true → inheritedActive = true)
    {block : Bool} {state state' : ExpansionState} {out : String}
    (h : (expandConnectionFile world path depth inheritedActive (!chain.all id)).run state =
      (.ok out, state')) :
    Traced world ShowsActive chain block [.file path] state state' out := by
  induction hlevels : MAX_INCLUDE_DEPTH + 1 - depth using Nat.strong_induction_on
    generalizing path depth chain inheritedActive block state state' out with
  | _ levels ih =>
      rw [expandConnectionFile] at h
      refine file_traced (fun contents s out s' hshallow hbody ↦ ?_) h fun _ hshows ↦ hshows
      have hactive : (inheritedActive && !!chain.all id) = (chain.all id && true) := by
        cases hall : chain.all id with
        | true => rw [hinherited hall]; rfl
        | false => cases inheritedActive <;> rfl
      rw [hactive] at hbody
      have hexpand : ∀ block file s out s',
          (expandConnectionFile world file (depth + 1) (chain.all id && block)
            (!(chain ++ [block]).all id)).run s = (.ok out, s') →
          Traced world ShowsActive (chain ++ [block]) true [.file file] s s' out := by
        intro block file s out s' hrun
        refine ih _ (by omega) file (depth + 1) (chain ++ [block]) (fun hall ↦ ?_) hrun rfl
        rwa [all_concat] at hall
      obtain ⟨text, rfl, htraced⟩ := connectionLines_traced hexpand hbody
      rw [String.empty_append]
      rwa [map_map] at htraced

/-- A line has one key only. -/
theorem hasKey_unique {line name name' : String} (h : hasKey line name = true)
    (h' : hasKey line name' = true) : toAsciiLowercase name = toAsciiLowercase name' := by
  rw [hasKey, Option.any_eq_true] at h h'
  obtain ⟨key, hkey, h⟩ := h
  obtain ⟨key', hkey', h'⟩ := h'
  cases hkey.symm.trans hkey'
  exact (eq_of_beq h).symm.trans (eq_of_beq h')

theorem isScope_of_includeArguments {line : String} {arguments : List String}
    (h : includeArguments line = .ok (some arguments)) : isScope line = false := by
  have hinclude : hasKey line "include" = true := by
    by_contra hother
    rw [includeArguments, if_neg hother] at h
    cases h
  rw [isScope, Bool.or_eq_false_iff, Bool.eq_false_iff, Bool.eq_false_iff]
  constructor
  · intro hhost
    exact absurd (hasKey_unique hinclude hhost) (by decide)
  · intro hmatch
    exact absurd (hasKey_unique hinclude hmatch) (by decide)

theorem connectionLine_include {expand : ConnectionExpander} {path : PathBuf} {neverMatch : Bool}
    {lineIndex : Nat} {line expanded out : String} {arguments : List String} {active active' : Bool}
    {state state' : ExpansionState} (hargs : includeArguments line = .ok (some arguments))
    (h : (connectionLine world expand path neverMatch lineIndex line active expanded).run state =
      (.ok (active', out), state')) : active' = active := by
  obtain ⟨hhost, hmatch⟩ := Bool.or_eq_false_iff.mp (isScope_of_includeArguments hargs)
  unfold connectionLine at h
  rw [if_neg (Bool.eq_false_iff.mp hhost), if_neg (Bool.eq_false_iff.mp hmatch), hargs] at h
  obtain ⟨found, s₁, hfound, h⟩ := Stateful.bind_eq_ok.mp h
  obtain ⟨hok, rfl⟩ := Stateful.mk_pure_eq_ok.mp hfound
  cases hok
  obtain ⟨_, s₁, -, h⟩ := Stateful.bind_eq_ok.mp h
  obtain ⟨_, s₂, -, h⟩ := Stateful.bind_eq_ok.mp h
  obtain ⟨hresult, -⟩ := Stateful.pure_eq_ok.mp h
  cases hresult
  rfl

end

/-- A file is expanded, at any depth, when the `Include` lines it was come to through lie in blocks
of the states of `chain`; the first file is so with no such lines. Its text is that of the active
option lines, in the order of the textual expansion, and no `Include` line changes the block it lies
in. -/
theorem include_scoping (world : World) (path : PathBuf) (depth : Nat) (chain : List Bool)
    (inheritedActive : Bool) (hinherited : chain.all id = true → inheritedActive = true)
    (state state' : ExpansionState) (out : String)
    (h : (expandConnectionFile world path depth inheritedActive (!chain.all id)).run state =
      (.ok out, state')) :
    (∃ trace, Textual world chain true [.file path] trace ∧
      out.toList = unlines ((trace.filterMap Event.shown).map String.toList)) ∧
    ∀ expand path neverMatch lineIndex line arguments active expanded state active' out' state'',
      includeArguments line = .ok (some arguments) →
      (connectionLine world expand path neverMatch lineIndex line active expanded).run state =
        (.ok (active', out'), state'') → active' = active := by
  constructor
  · obtain ⟨trace, htextual, hshows, -⟩ := expandConnectionFile_traced path depth chain hinherited h
    exact ⟨trace, htextual, hshows⟩
  · intro expand path neverMatch lineIndex line arguments active expanded state active' out' state''
      hargs hrun
    exact connectionLine_include hargs hrun

/-- A configuration that includes one file twice, from a block that is active for the target and
from one that is not. -/
def nestedWorld : World where
  home := PathBuf.ofString "/h"
  canonicalize path := .ok path
  readUserConfigFile path :=
    if path = PathBuf.ofString "/h/.ssh/config" then
      .ok "User a\nHost prod\nInclude nested\nPort 1\nHost other\nInclude nested\nPort 2\n"
    else .ok "User b\nHost x\nUser c\n"
  expandIncludeEnvironment value := .ok value
  expandPathPattern path := .ok [path]
  hostDirectiveMatches line := .ok (decide (line = "Host prod"))
  supportedMatchDirectiveMatches _ := .ok false
  validateInactiveOption _ := .ok ()

theorem nestedWorld_connection :
    ((expandConnectionFile nestedWorld (PathBuf.ofString "/h/.ssh/config") 0 true false).run
      .new).1 = .ok "User a\nUser b\nPort 1\n" := by
  decide +kernel

/-- In the block that is not active the file is read, and none of its lines are kept. -/
theorem include_scoping_nested :
    ∃ trace, Textual nestedWorld [] true [.file (PathBuf.ofString "/h/.ssh/config")] trace ∧
      "User a\nUser b\nPort 1\n".toList =
        unlines ((trace.filterMap Event.shown).map String.toList) :=
  (include_scoping nestedWorld _ 0 [] true (fun _ ↦ rfl) .new _ _
    (Prod.ext nestedWorld_connection rfl)).1

end KaduoxSsh.OpenSsh
