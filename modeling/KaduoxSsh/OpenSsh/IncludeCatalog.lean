import KaduoxSsh.OpenSsh.IncludeScope

/-!
# The list of hosts sees what a connection uses

The expansion for the list of hosts keeps all lines, the `Host` and `Match` lines
among them. It runs through the same textual expansion as the one for a
connection, of which there is one only, so that both enter the same files and the
lines kept for a connection are among its lines (`catalog_covers_connection`).
-/

namespace KaduoxSsh.OpenSsh

open Text List
open Hosts.Toml (lines unlines unlines_append chomp splitInclusive splitInclusive_append)

/-- The text is of all lines, each with a line feed, and of empty lines that are put between
files. -/
def ShowsAll (trace : List Event) (text : String) : Prop :=
  ∃ ls, text.toList = unlines ls ∧
    ((trace.filterMap Event.text).map String.toList).Sublist ls ∧
    ∀ l ∈ ls, l = [] ∨ l ∈ (trace.filterMap Event.text).map String.toList

theorem showsAll_showing : Showing ShowsAll missingCatalog where
  nil := ⟨[], rfl, .slnil, nofun⟩
  append {trace trace' text text'} h h' := by
    obtain ⟨ls, htext, hsub, hls⟩ := h
    obtain ⟨ls', htext', hsub', hls'⟩ := h'
    refine ⟨ls ++ ls', ?_, ?_, fun l hl ↦ ?_⟩
    · rw [String.toList_append, htext, htext', unlines_append]
    · rw [filterMap_append, map_append]
      exact hsub.append hsub'
    · rw [filterMap_append, map_append, mem_append]
      rcases mem_append.mp hl with hl | hl
      · exact (hls l hl).imp_right .inl
      · exact (hls' l hl).imp_right .inr
  missing {trace text} h _ := by
    obtain ⟨ls, htext, hsub, hls⟩ := h
    refine ⟨ls ++ [[]], ?_, hsub.trans (sublist_append_left ls [[]]), fun l hl ↦ ?_⟩
    · rw [String.toList_append, htext, unlines_append]
      rfl
    · rcases mem_append.mp hl with hl | hl
      · exact hls l hl
      · exact .inl (mem_singleton.mp hl)

section

variable {world : World} {chain : List Bool} {state state' : ExpansionState}

theorem catalogLine_stepped {expand : PathBuf → Expanding String}
    (hexpand : ∀ chain file state out state', (expand file).run state = (.ok out, state') → Traced world ShowsAll chain true [.file file] state state' out)
    {path : PathBuf} {lineIndex : Nat} {line expanded out : String} (block : Bool)
    (h : (catalogLine world expand path lineIndex line expanded).run state = (.ok out, state')) :
    ∃ block' text, out = expanded ++ text ∧
      Stepped world ShowsAll chain line block block' state state' text := by
  obtain ⟨arguments, s₁, harguments, h⟩ := Stateful.bind_eq_ok.mp h
  obtain ⟨hok, rfl⟩ := Stateful.mk_pure_eq_ok.mp harguments
  have hargs := Result.context_eq_ok.mp hok
  cases arguments with
  | none =>
      obtain ⟨hpush, rfl⟩ := Stateful.mk_pure_eq_ok.mp h
      have hshows : ∀ event, Event.text event = some line → ShowsAll [event] (line ++ "\n") :=
        fun event hevent ↦ ⟨[line.toList], by simp [unlines], by simp [hevent],
          by simp [hevent]⟩
      cases hline : isScope line with
      | true =>
          exact ⟨world.holds line, line ++ "\n", pushLineBounded_eq hpush, [.scope line],
            fun _ _ h ↦ .scope hline h, hshows _ rfl, (append_nil _).symm⟩
      | false =>
          exact ⟨block, line ++ "\n", pushLineBounded_eq hpush, [.option line block chain],
            fun _ _ h ↦ .option hline hargs h, hshows _ rfl, (append_nil _).symm⟩
  | some arguments =>
      obtain ⟨_, s₁, hchecked, h⟩ := Stateful.bind_eq_ok.mp h
      obtain ⟨-, rfl⟩ := Stateful.mk_pure_eq_ok.mp hchecked
      obtain ⟨files, text, hfiles, rfl, htraced⟩ := includeAll_traced showsAll_showing
        (fun file s out s' hrun ↦ hexpand (chain ++ [block]) file s out s' (context_eq_ok.mp hrun)) h
      exact ⟨block, text, rfl, .includes (isScope_of_includeArguments hargs) hargs hfiles htraced⟩

theorem catalogLines_traced {expand : PathBuf → Expanding String}
    (hexpand : ∀ chain file state out state', (expand file).run state = (.ok out, state') → Traced world ShowsAll chain true [.file file] state state' out)
    {path : PathBuf} {lineIndex : Nat} {rest : List String} {expanded out : String} {block : Bool}
    (h : (catalogLines world expand path lineIndex rest expanded).run state = (.ok out, state')) :
    ∃ text, out = expanded ++ text ∧
      Traced world ShowsAll chain block (rest.map .line) state state' text := by
  induction rest generalizing lineIndex block expanded state with
  | nil =>
      obtain ⟨rfl, rfl⟩ := Stateful.pure_eq_ok.mp h
      exact ⟨"", String.append_empty.symm, [], .nil, showsAll_showing.nil,
        (append_nil _).symm⟩
  | cons line rest ih =>
      rw [catalogLines] at h
      obtain ⟨joined, s₁, hline, h⟩ := Stateful.bind_eq_ok.mp h
      obtain ⟨block', text, rfl, hstepped⟩ := catalogLine_stepped hexpand block hline
      obtain ⟨text', rfl, htraced⟩ := ih h
      exact ⟨text ++ text', String.append_assoc, hstepped.cons showsAll_showing htraced⟩

theorem expandCatalogFile_traced (path : PathBuf) (depth : Nat) (chain : List Bool) {block : Bool}
    {out : String} (h : (expandCatalogFile world path depth).run state = (.ok out, state')) :
    Traced world ShowsAll chain block [.file path] state state' out := by
  induction hlevels : MAX_INCLUDE_DEPTH + 1 - depth using Nat.strong_induction_on
    generalizing path depth chain block state state' out with
  | _ levels ih =>
      rw [expandCatalogFile] at h
      refine file_traced (fun contents s out s' hshallow hbody ↦ ?_) h fun _ hshows ↦ hshows
      have hexpand : ∀ chain file s out s',
          (expandCatalogFile world file (depth + 1)).run s = (.ok out, s') →
          Traced world ShowsAll chain true [.file file] s s' out := by
        intro chain file s out s' hrun
        exact ih _ (by omega) file (depth + 1) chain hrun rfl
      obtain ⟨text, rfl, htraced⟩ := catalogLines_traced hexpand hbody
      rw [String.empty_append]
      rwa [map_map] at htraced

end

/-! ## Lines of a text -/

theorem mem_splitInclusive {text piece : List Char} (h : piece ∈ splitInclusive text) :
    ∃ body, '\n' ∉ body ∧ (piece = body ∨ piece = body ++ ['\n']) := by
  induction text generalizing piece with
  | nil => cases h
  | cons c rest ih =>
      rw [splitInclusive] at h
      split at h
      · next hc =>
          rcases mem_cons.mp h with rfl | h
          · exact ⟨[], not_mem_nil, .inr (by rw [hc]; rfl)⟩
          · exact ih h
      next hc =>
      split at h
      · rw [mem_singleton.mp h]
        exact ⟨[c], by simpa using Ne.symm hc, .inl rfl⟩
      · next first pieces heq =>
          rw [heq] at ih
          rcases mem_cons.mp h with rfl | h
          · obtain ⟨body, hbody, hpiece⟩ := ih mem_cons_self
            refine ⟨c :: body, not_mem_cons_of_ne_of_not_mem (Ne.symm hc) hbody, ?_⟩
            exact hpiece.imp (congrArg (c :: ·)) (congrArg (c :: ·))
          · exact ih (mem_cons_of_mem first h)

theorem mem_of_mem_chomp {line : List Char} {c : Char} (h : c ∈ chomp line) : c ∈ line := by
  rw [chomp] at h
  split at h
  · next rest heq =>
      rw [← mem_reverse, heq]
      exact .tail _ (.tail _ (mem_reverse.mp h))
  · next rest heq =>
      rw [← mem_reverse, heq]
      exact .tail _ (mem_reverse.mp h)
  · exact h

theorem newline_notMem_chomp {body : List Char} (h : '\n' ∉ body) :
    '\n' ∉ chomp (body ++ ['\n']) := by
  rw [chomp, reverse_append, reverse_singleton, singleton_append]
  intro hmem
  split at hmem
  · next rest heq =>
      rw [List.cons.injEq] at heq
      refine h (mem_reverse.mp ?_)
      rw [heq.2]
      exact .tail _ (mem_reverse.mp hmem)
  · next rest _ heq =>
      rw [List.cons.injEq] at heq
      rw [← heq.2, reverse_reverse] at hmem
      exact h hmem
  · next hother => exact hother body.reverse rfl

theorem newline_notMem_lines {text line : List Char} (h : line ∈ lines text) : '\n' ∉ line := by
  obtain ⟨piece, hpiece, rfl⟩ := mem_map.mp h
  obtain ⟨body, hbody, rfl | rfl⟩ := mem_splitInclusive hpiece
  · exact fun hmem ↦ hbody (mem_of_mem_chomp hmem)
  · exact newline_notMem_chomp hbody

theorem lines_unlines_map {ls : List (List Char)} (h : ∀ l ∈ ls, '\n' ∉ l) :
    lines (unlines ls) = ls.map fun l ↦ chomp (l ++ ['\n']) := by
  induction ls with
  | nil => rfl
  | cons l ls ih =>
      have hcons : unlines (l :: ls) = l ++ '\n' :: unlines ls := by simp [unlines]
      rw [lines, hcons, splitInclusive_append (h l mem_cons_self), map_cons]
      exact congrArg _ (ih fun l hl ↦ h l (mem_cons_of_mem _ hl))

theorem Textual.newline_notMem {world : World} {chain : List Bool} {block : Bool}
    {pieces : List Piece} {trace : List Event} (h : Textual world chain block pieces trace)
    (hpieces : ∀ line, .line line ∈ pieces → '\n' ∉ line.toList) :
    ∀ line ∈ trace.filterMap Event.text, '\n' ∉ line.toList := by
  induction h with
  | nil => exact nofun
  | scope _ _ ih | option _ _ _ ih =>
      intro line hline
      rcases mem_cons.mp hline with rfl | hline
      · exact hpieces _ mem_cons_self
      · exact ih (fun line hmem ↦ hpieces line (.tail _ hmem)) line hline
  | includes _ _ _ _ _ ihinner ih =>
      intro line hline
      rw [filterMap_append, mem_append] at hline
      rcases hline with hline | hline
      · exact ihinner (by simp) line hline
      · exact ih (fun line hmem ↦ hpieces line (.tail _ hmem)) line hline
  | file _ _ _ ihinner ih =>
      intro line hline
      rw [cons_append, filterMap_cons_none rfl, filterMap_append,
        mem_append] at hline
      rcases hline with hline | hline
      · refine ihinner (fun line hmem ↦ ?_) line hline
        obtain ⟨chars, hchars, heq⟩ := mem_map.mp hmem
        cases heq
        rw [String.toList_ofList]
        exact newline_notMem_lines hchars
      · exact ih (fun line hmem ↦ hpieces line (.tail _ hmem)) line hline

theorem shown_sublist_text (trace : List Event) :
    (trace.filterMap Event.shown).Sublist (trace.filterMap Event.text) := by
  induction trace with
  | nil => exact .slnil
  | cons event trace ih =>
      cases event with
      | entered path => exact ih
      | scope line => exact ih.cons line
      | option line block chain =>
          have htext : (Event.option line block chain :: trace).filterMap Event.text =
              line :: trace.filterMap Event.text := rfl
          rw [htext]
          cases hshown : (Event.option line block chain).shown with
          | none =>
              rw [filterMap_cons_none hshown]
              exact ih.cons line
          | some shown =>
              rw [filterMap_cons_some hshown]
              rw [Event.shown, Option.ite_none_right_eq_some] at hshown
              cases hshown.2
              exact ih.cons_cons line

/-- The expansions of one configuration for a connection and for the list of hosts, from whatever
states they begin in: the same files are entered, in the same order, and the lines for the
connection, without the block they are put in, are among those of the list. -/
theorem catalog_covers_connection (world : World) (root : PathBuf)
    (state state' state₁ state₁' : ExpansionState) (out catalog : String)
    (hconnection : (expandUserConfig world root).run state = (.ok out, state'))
    (hcatalog : (expandUserConfigForCatalog world root).run state₁ = (.ok catalog, state₁')) :
    ∃ files files' body, state'.files = state.files ++ files ∧
      state₁'.files = state₁.files ++ files' ∧ files.Sublist files' ∧
      out = "Host *\n" ++ body ∧ (lines body.toList).Sublist (lines catalog.toList) := by
  obtain ⟨body, s₁, hbody, hpushed⟩ := Stateful.bind_eq_ok.mp hconnection
  obtain ⟨hpush, rfl⟩ := Stateful.mk_pure_eq_ok.mp hpushed
  have hconnection : Traced world ShowsActive [] true [.file root] state s₁ body :=
    expandConnectionFile_traced root 0 [] (fun _ ↦ rfl) hbody
  have hcatalog : Traced world ShowsAll [] true [.file root] state₁ state₁' catalog :=
    expandCatalogFile_traced root 0 [] hcatalog
  obtain ⟨trace, htextual, hshows, hfiles⟩ := hconnection
  obtain ⟨trace', htextual', ⟨ls, hls, hsub, hmem⟩, hfiles'⟩ := hcatalog
  cases htextual.unique htextual'
  have htexts : ∀ l ∈ (trace.filterMap Event.text).map String.toList, '\n' ∉ l := by
    intro l hl
    obtain ⟨line, hline, rfl⟩ := mem_map.mp hl
    exact htextual.newline_notMem (by simp) line hline
  have hshown := (shown_sublist_text trace).map String.toList
  refine ⟨trace.filterMap Event.path, trace.filterMap Event.path, body, hfiles, hfiles', .refl _,
    pushBounded_eq hpush, ?_⟩
  rw [hshows, hls, lines_unlines_map fun l hl ↦ htexts l (hshown.subset hl),
    lines_unlines_map fun l hl ↦ ?_]
  · exact (hshown.trans hsub).map _
  · rcases hmem l hl with rfl | hl
    · exact nofun
    · exact htexts l hl

theorem catalog_covers_connection_nested :
    ∃ body, "Host *\nUser a\nUser b\nPort 1\n" = "Host *\n" ++ body ∧
      (lines body.toList).Sublist (lines ("User a\nHost prod\nUser b\nHost x\nUser c\n" ++
        "Port 1\nHost other\nUser b\nHost x\nUser c\nPort 2\n").toList) := by
  have hconnection : ((expandUserConfig nestedWorld (PathBuf.ofString "/h/.ssh/config")).run
      .new).1 = .ok "Host *\nUser a\nUser b\nPort 1\n" := by decide +kernel
  have hcatalog : ((expandUserConfigForCatalog nestedWorld (PathBuf.ofString "/h/.ssh/config")).run
      .new).1 = .ok ("User a\nHost prod\nUser b\nHost x\nUser c\n" ++
        "Port 1\nHost other\nUser b\nHost x\nUser c\nPort 2\n") := by decide +kernel
  obtain ⟨-, -, body, -, -, -, hout, hlines⟩ := catalog_covers_connection nestedWorld
    (PathBuf.ofString "/h/.ssh/config") .new _ .new _ _ _ (Prod.ext hconnection rfl)
    (Prod.ext hcatalog rfl)
  exact ⟨body, hout, hlines⟩

end KaduoxSsh.OpenSsh
