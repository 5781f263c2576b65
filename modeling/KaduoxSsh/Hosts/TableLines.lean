import KaduoxSsh.Hosts.TomlStrings
import Mathlib.Algebra.GroupWithZero.Nat
import Mathlib.Data.List.Perm.Basic

/-!
# Texts of whole tables

A text of the format is lines, and its lines are those before the first table and
then those of one table after the other. What a table says depends on its own lines
only: on where it stands it depends through the number of its first line, which no
more than a message about a failure makes use of.

Line endings do not matter either. A carriage return at the end of a line is white
space, whether it is taken for a part of the line ending or not.
-/

namespace KaduoxSsh.Hosts.Toml

open Text Result List

/-! ## Lines of a text -/

/-- Lines with line feeds between them. -/
def joinLines (ls : List (List Char)) : List Char := ['\n'].intercalate ls

theorem chomp_concat_cases (l : List Char) :
    chomp (l ++ ['\n']) = l ∨ l = chomp (l ++ ['\n']) ++ ['\r'] := by
  by_cases hreturn : l.getLast? = some '\r'
  · obtain ⟨l', rfl⟩ := List.getLast?_eq_some_iff.mp hreturn
    exact .inr (by simp [chomp])
  · exact .inl (chomp_concat hreturn)

theorem chomp_of_notMem {l : List Char} (h : '\n' ∉ l) : chomp l = l := by
  rw [chomp]
  split
  · next rest heq =>
      exact absurd (mem_reverse.mp (heq ▸ mem_cons_self)) h
  · next rest _ heq =>
      exact absurd (mem_reverse.mp (heq ▸ mem_cons_self)) h
  · rfl

theorem splitInclusive_of_notMem {l : List Char} (h : '\n' ∉ l) (hne : l ≠ []) :
    splitInclusive l = [l] := by
  induction l with
  | nil => exact absurd rfl hne
  | cons c l ih =>
      obtain ⟨hc, hl⟩ := ne_and_not_mem_of_not_mem_cons h
      rw [splitInclusive, if_neg (Ne.symm hc)]
      cases l with
      | nil => rfl
      | cons d l => rw [ih hl (cons_ne_nil d l)]

/-- A separator that has been found stays the first one. -/
theorem breakAt_append_of_found {sep c : Char} {quote last : Quote} {l before after : List Char}
    (h : breakAt sep quote l = (before, last, c :: after)) (rest : List Char) :
    breakAt sep quote (l ++ rest) = (before, last, c :: after ++ rest) := by
  induction l generalizing quote before with
  | nil => cases h
  | cons d l ih =>
      rw [breakAt] at h
      rw [cons_append, breakAt]
      split at h
      · next hd =>
          cases h
          rw [if_pos hd]
          rfl
      · next hd =>
          rcases hl : breakAt sep (quote.step d) l with ⟨before', last', after'⟩
          rw [hl] at h
          cases h
          rw [if_neg hd, ih hl]

theorem breakAt_return {quote last : Quote} {l before : List Char}
    (h : breakAt '#' quote l = (before, last, [])) :
    ∃ last', breakAt '#' quote (l ++ ['\r']) = (before ++ ['\r'], last', []) ∧
      last'.isOpen = last.isOpen := by
  induction l generalizing quote before with
  | nil =>
      cases h
      have hne : ¬(last.inString = false ∧ '\r' = '#') := fun hc ↦ absurd hc.2 (by decide)
      refine ⟨last.step '\r', by rw [nil_append, breakAt, if_neg hne]; rfl, ?_⟩
      obtain ⟨inString, escaped⟩ := last
      cases inString <;> cases escaped <;> rfl
  | cons c l ih =>
      rw [breakAt] at h
      rw [cons_append, breakAt]
      split at h
      · cases h
      · next hc =>
          rcases hl : breakAt '#' (quote.step c) l with ⟨before', last', after'⟩
          rw [hl] at h
          cases h
          obtain ⟨next, hnext, hopen⟩ := ih hl
          rw [if_neg hc, hnext]
          exact ⟨next, rfl, hopen⟩

/-- A carriage return after the text of a line is white space or in its comment. -/
theorem stripComment_return (l : List Char) :
    (∃ line, stripComment l = .ok line ∧ (stripComment (l ++ ['\r']) = .ok line ∨
      stripComment (l ++ ['\r']) = .ok (line ++ ['\r']))) ∨
    (∃ e e', stripComment l = .error e ∧ stripComment (l ++ ['\r']) = .error e') := by
  rcases hl : breakAt '#' .outside l with ⟨before, last, after⟩
  rw [stripComment, stripComment, hl]
  cases after with
  | cons c after =>
      rw [breakAt_append_of_found hl]
      exact .inl ⟨before, rfl, .inl rfl⟩
  | nil =>
      obtain ⟨last', hreturn, hopen⟩ := breakAt_return hl
      simp only [hreturn, hopen]
      by_cases hlast : last.isOpen = true
      · rw [if_pos hlast, if_pos hlast]
        exact .inr ⟨_, _, rfl, rfl⟩
      · rw [if_neg hlast, if_neg hlast]
        exact .inl ⟨l, rfl, .inr rfl⟩

theorem lineContent_return (l : List Char) (content : LineContent) :
    lineContent (l ++ ['\r']) = .ok content ↔ lineContent l = .ok content := by
  have hblank : Blank ['\r'] := by
    intro c hc
    rw [mem_singleton.mp hc]
    decide
  have htrim (line : List Char) : trim ([] ++ line ++ ['\r']) = trim line :=
    trim_blanks (fun _ h ↦ by cases h) hblank
  rw [lineContent, lineContent]
  rcases stripComment_return l with ⟨line, hline, hreturn | hreturn⟩ | ⟨e, e', he, he'⟩
  · rw [hline, hreturn]
  · rw [hline, hreturn, bind_ok, bind_ok, ← htrim line, nil_append]
  · rw [he, he']
    exact iff_of_false (fun h ↦ by cases h) fun h ↦ by cases h

namespace Document

theorem readLine_return {document next : Document} {lineNo : Nat} (l : List Char) :
    document.readLine lineNo (l ++ ['\r']) = .ok next ↔ document.readLine lineNo l = .ok next := by
  rw [readLine_eq_ok_iff, readLine_eq_ok_iff]
  exact exists_congr fun content ↦ and_congr_left' (lineContent_return l content)

/-- What is read of the lines of a text is what is read of its pieces between line feeds. -/
theorem readLines_joinLines {ls : List (List Char)} (h : ∀ l ∈ ls, '\n' ∉ l)
    {document next : Document} {lineNo : Nat} :
    document.readLines lineNo (lines (joinLines ls)) = .ok next ↔
      document.readLines lineNo ls = .ok next := by
  induction ls generalizing document lineNo with
  | nil => rfl
  | cons l ls ih =>
      have hl := h l mem_cons_self
      cases ls with
      | nil =>
          rw [joinLines, intercalate_singleton]
          by_cases hnil : l = []
          · rw [hnil]
            rfl
          · rw [lines, splitInclusive_of_notMem hl hnil, map_singleton, chomp_of_notMem hl]
      | cons m ls =>
          rw [joinLines, intercalate_cons_cons, append_assoc, singleton_append,
            ← joinLines, lines, splitInclusive_append hl, map_cons, ← lines, readLines,
            readLines, bind_eq_ok, bind_eq_ok]
          refine exists_congr fun document' ↦ ?_
          rw [ih fun l' hl' ↦ h l' (mem_cons_of_mem l hl')]
          refine and_congr_left fun _ ↦ ?_
          rcases chomp_concat_cases l with heq | heq
          · rw [heq]
          · conv_rhs => rw [heq, readLine_return]

end Document

/-! ## Lengths -/

theorem length_utf8_ofList (l : List Char) :
    (utf8 (String.ofList l)).length = (l.map Char.utf8Size).sum := by
  show (String.ofList l).utf8ByteSize = _
  induction l with
  | nil => rfl
  | cons c l ih =>
      rw [String.ofList_cons, String.utf8ByteSize_append, String.utf8ByteSize_singleton, ih,
        map_cons, sum_cons]

theorem joinLines_concat {ls : List (List Char)} (hne : ls ≠ []) :
    joinLines ls ++ ['\n'] = unlines ls := by
  induction ls with
  | nil => exact absurd rfl hne
  | cons l ls ih =>
      cases ls with
      | nil => simp [joinLines, unlines]
      | cons m ls =>
          rw [joinLines, intercalate_cons_cons, append_assoc, ← joinLines,
            ih (cons_ne_nil m ls), unlines, unlines]
          rfl

/-- Lines in another order make a text of the same length. -/
theorem length_joinLines_perm {ls ls' : List (List Char)} (h : ls.Perm ls') :
    (utf8 (String.ofList (joinLines ls))).length =
      (utf8 (String.ofList (joinLines ls'))).length := by
  by_cases hne : ls = []
  · subst hne
    rw [h.nil_eq]
  · have hne' : ls' ≠ [] := fun hnil ↦ hne (by simpa [hnil] using h)
    have hperm : (joinLines ls ++ ['\n']).Perm (joinLines ls' ++ ['\n']) := by
      rw [joinLines_concat hne, joinLines_concat hne']
      exact h.flatMap_right _
    have hsum := (hperm.map Char.utf8Size).sum_nat
    rw [map_append, map_append, sum_append, sum_append] at hsum
    rw [length_utf8_ofList, length_utf8_ofList]
    exact Nat.add_right_cancel hsum

/-! ## Tables -/

/-- No line begins a table. -/
def NoHeader (ls : List (List Char)) : Prop :=
  ∀ l ∈ ls, ∀ kind, lineContent l ≠ .ok (.header kind)

/-- The lines of one whole table: the first one begins it, and no other begins one. -/
def IsTable (ls : List (List Char)) : Prop :=
  ∃ first rest kind, ls = first :: rest ∧ lineContent first = .ok (.header kind) ∧ NoHeader rest

theorem TableKind.mem_all (kind : TableKind) : kind ∈ [TableKind.host, .chain, .hop] := by
  cases kind <;> simp

instance (ls : List (List Char)) : Decidable (NoHeader ls) :=
  decidable_of_iff
    (∀ l ∈ ls, ∀ kind ∈ [TableKind.host, .chain, .hop], lineContent l ≠ .ok (.header kind))
    ⟨fun h l hl kind ↦ h l hl kind kind.mem_all, fun h l hl kind _ ↦ h l hl kind⟩

theorem isTable_iff {ls : List (List Char)} : IsTable ls ↔
    (∃ kind ∈ [TableKind.host, .chain, .hop], ls.head?.map lineContent = some (.ok (.header kind))) ∧
      NoHeader ls.tail := by
  constructor
  · rintro ⟨first, rest, kind, rfl, hfirst, hrest⟩
    exact ⟨⟨kind, kind.mem_all, congrArg some hfirst⟩, hrest⟩
  · rintro ⟨⟨kind, -, hfirst⟩, hrest⟩
    cases ls with
    | nil => cases hfirst
    | cons first rest => exact ⟨first, rest, kind, rfl, Option.some.inj hfirst, hrest⟩

instance (ls : List (List Char)) : Decidable (IsTable ls) := decidable_of_iff _ isTable_iff.symm

/-- Fields with those of some more lines, unless one of them is set again. -/
def assignAll : SortedMap String Value → List LineContent → Option (SortedMap String Value)
  | values, [] => some values
  | values, .blank :: rest => assignAll values rest
  | _, .header _ :: _ => none
  | values, .assignment key value :: rest =>
      if values.contains key then none else assignAll (values.insert key value) rest

/-- Lines that assign fields give a table more fields. -/
def ReadsFields (values : SortedMap String Value) (ls : List (List Char))
    (values' : SortedMap String Value) : Prop :=
  ∃ contents, List.Forall₂ (fun l content ↦ lineContent l = .ok content) ls contents ∧
    assignAll values contents = some values'

theorem readsFields_nil {values values' : SortedMap String Value} :
    ReadsFields values [] values' ↔ values' = values := by
  simp [ReadsFields, assignAll, eq_comm]

theorem readsFields_cons {values values' : SortedMap String Value} {l : List Char}
    {ls : List (List Char)} : ReadsFields values (l :: ls) values' ↔
      (lineContent l = .ok .blank ∧ ReadsFields values ls values') ∨
      ∃ key value, lineContent l = .ok (.assignment key value) ∧ values.get? key = none ∧
        ReadsFields (values.insert key value) ls values' := by
  simp only [ReadsFields, forall₂_cons_left_iff]
  constructor
  · rintro ⟨_, ⟨content, contents, hcontent, hcontents, rfl⟩, hassign⟩
    cases content with
    | blank => exact .inl ⟨hcontent, contents, hcontents, hassign⟩
    | header kind => cases hassign
    | assignment key value =>
        rw [assignAll] at hassign
        split at hassign
        · cases hassign
        · next hnew =>
            exact .inr ⟨key, value, hcontent,
              SortedMap.contains_eq_false_iff.mp (Bool.not_eq_true _ ▸ hnew), contents, hcontents,
              hassign⟩
  · rintro (⟨hcontent, contents, hcontents, hassign⟩ |
      ⟨key, value, hcontent, hnew, contents, hcontents, hassign⟩)
    · exact ⟨_, ⟨_, contents, hcontent, hcontents, rfl⟩, hassign⟩
    · refine ⟨_, ⟨_, contents, hcontent, hcontents, rfl⟩, ?_⟩
      rw [assignAll, SortedMap.contains_eq_false_iff.mpr hnew]
      exact hassign

/-- The kind and the fields of a table. -/
abbrev Parsed := TableKind × SortedMap String Value

def ReadsTable (ls : List (List Char)) (parsed : Parsed) : Prop :=
  ∃ first rest, ls = first :: rest ∧ lineContent first = .ok (.header parsed.1) ∧
    ReadsFields .empty rest parsed.2

namespace Document

variable {document next : Document} {lineNo : Nat}

/-- Lines without a header add fields to the table that is being read. -/
theorem readLines_noHeader {ls : List (List Char)} (h : NoHeader ls) :
    document.readLines lineNo ls = .ok next ↔
      ∃ values, ReadsFields document.values ls values ∧ next = document.setValues values := by
  induction ls generalizing document lineNo with
  | nil =>
      simp only [readsFields_nil, exists_eq_left, setValues_values, readLines, Except.ok.injEq]
      exact eq_comm
  | cons l ls ih =>
      have hrest : NoHeader ls := fun l' hl' ↦ h l' (mem_cons_of_mem l hl')
      rw [readLines, bind_eq_ok]
      simp only [readLine_eq_ok_iff, ih hrest, readsFields_cons]
      constructor
      · rintro ⟨document', ⟨content, hcontent, hextend⟩, values, hvalues, rfl⟩
        cases content with
        | blank =>
            cases hextend
            exact ⟨values, .inl ⟨hcontent, hvalues⟩, rfl⟩
        | header kind => exact absurd hcontent (h l mem_cons_self kind)
        | assignment key value =>
            rw [extend] at hextend
            split at hextend
            · cases hextend
            · next hnew =>
                cases hextend
                rw [values_setValues] at hvalues
                refine ⟨values, .inr ⟨key, value, hcontent, ?_, hvalues⟩, setValues_setValues ..⟩
                exact SortedMap.contains_eq_false_iff.mp (Bool.not_eq_true _ ▸ hnew)
      · rintro ⟨values, ⟨hcontent, hvalues⟩ | ⟨key, value, hcontent, hnew, hvalues⟩, rfl⟩
        · exact ⟨document, ⟨_, hcontent, rfl⟩, values, hvalues, rfl⟩
        · refine ⟨document.setValues (document.values.insert key value), ⟨_, hcontent, ?_⟩, values,
            by rwa [values_setValues], (setValues_setValues ..).symm⟩
          rw [extend, SortedMap.contains_eq_false_iff.mpr hnew]
          rfl

/-- The lines of a table add this table. -/
theorem readLines_isTable {ls : List (List Char)} (h : IsTable ls) :
    document.readLines lineNo ls = .ok next ↔
      ∃ parsed, ReadsTable ls parsed ∧ next = { document with
        tables := document.close, current := some ⟨parsed.1, lineNo, parsed.2⟩ } := by
  obtain ⟨first, rest, kind, rfl, hfirst, hrest⟩ := h
  have hheader : document.readLine lineNo first = .ok { document with
      tables := document.close, current := some ⟨kind, lineNo, .empty⟩ } :=
    readLine_eq_ok_iff.mpr ⟨_, hfirst, rfl⟩
  rw [readLines, hheader, bind_ok, readLines_noHeader hrest]
  constructor
  · rintro ⟨values, hvalues, rfl⟩
    exact ⟨(kind, values), ⟨first, rest, rfl, hfirst, hvalues⟩, rfl⟩
  · rintro ⟨⟨kind', values⟩, ⟨_, _, heq, hfirst', hvalues⟩, rfl⟩
    cases heq
    cases hfirst.symm.trans hfirst'
    exact ⟨values, hvalues, rfl⟩

/-- The lines of whole tables are read as these tables, in order. -/
theorem readLines_flatten {tables : List (List (List Char))} (h : ∀ ls ∈ tables, IsTable ls)
    (hread : document.readLines lineNo tables.flatten = .ok next) :
    ∃ parsed, List.Forall₂ ReadsTable tables parsed ∧ next.root = document.root ∧
      next.close.map content = document.close.map content ++ parsed := by
  induction tables generalizing document lineNo with
  | nil =>
      cases hread
      exact ⟨[], .nil, rfl, (append_nil _).symm⟩
  | cons ls tables ih =>
      rw [flatten_cons, readLines_append, bind_eq_ok] at hread
      obtain ⟨document', hfirst, hrest⟩ := hread
      obtain ⟨parsed, hparsed, rfl⟩ :=
        (readLines_isTable (h ls mem_cons_self)).mp hfirst
      obtain ⟨rest, htables, hroot, hclose⟩ :=
        ih (fun ls' hls' ↦ h ls' (mem_cons_of_mem ls hls')) hrest
      refine ⟨parsed :: rest, .cons hparsed htables, hroot, ?_⟩
      rw [hclose]
      simp [close, content]

/-- Tables that can be read one by one can be read one after the other. -/
theorem exists_readLines_flatten {tables : List (List (List Char))}
    (h : ∀ ls ∈ tables, IsTable ls) {parsed : List Parsed}
    (hparsed : List.Forall₂ ReadsTable tables parsed) (document : Document) (lineNo : Nat) :
    ∃ next, document.readLines lineNo tables.flatten = .ok next ∧ next.root = document.root ∧
      next.close.map content = document.close.map content ++ parsed := by
  induction hparsed generalizing document lineNo with
  | nil => exact ⟨document, rfl, rfl, (append_nil _).symm⟩
  | @cons ls first tables rest hfirst _ ih =>
      obtain ⟨next, hnext, hroot, hclose⟩ := ih (fun ls' hls' ↦ h ls' (mem_cons_of_mem ls hls'))
        { document with tables := document.close, current := some ⟨first.1, lineNo, first.2⟩ }
        (lineNo + ls.length)
      refine ⟨next, ?_, hroot, ?_⟩
      · rw [flatten_cons, readLines_append, (readLines_isTable (h ls mem_cons_self)).mpr
          ⟨first, hfirst, rfl⟩, bind_ok, hnext]
      · rw [hclose]
        simp [close, content]

end Document

end KaduoxSsh.Hosts.Toml
