import KaduoxSsh.OpenSsh.IncludeEscapes

/-!
# The file that an escaped name finds

The components of a directory without wildcards are added as they stand, and so what
is found depends on the last component alone. With a `*` or `?` in the name it is a
pattern that takes this name and no other, and the file is found when all names in the
directory can be read. Without them it is taken as it stands, and this is the name when
there is no backslash in it.
-/

namespace KaduoxSsh.OpenSsh

open Text Result List
open KaduoxSsh.PathBuf (Component IsName piece slash rebuilt pushAll components_push
  components_rebuilt)

/-! ## Texts as components -/

/-- The bytes of the argument that is read from an escaped name. -/
def keptBytes (name : String) : List UInt8 := utf8 (String.ofList (keptName name.toList))

section

variable {name : String} {bytes : List UInt8}

theorem utf8_injective {s t : String} (h : utf8 s = utf8 t) : s = t := by
  have hs := fromUtf8_utf8 s
  rw [h, fromUtf8_utf8] at hs
  exact (Option.some.inj hs).symm

theorem isName_utf8 (hempty : name ≠ "") (hdot : name ≠ ".") (hdotDot : name ≠ "..")
    (hslash : '/' ∉ name.toList) : IsName (utf8 name) := by
  constructor
  · intro hmem
    obtain ⟨c, hc, hnat⟩ := exists_of_mem_utf8 (by decide) hmem
    have heq : c = '/' := Char.toNat_inj.mp hnat
    exact hslash (heq ▸ hc)
  · have hne : ∀ s : String, name ≠ s → utf8 name ≠ utf8 s := fun s h heq ↦ h (utf8_injective heq)
    have hdotDotBytes : utf8 name ≠ PathBuf.dotDot := hne ".." hdotDot
    rw [piece, if_neg, if_neg hdotDotBytes]
    rintro (h | h)
    · exact hne "" hempty h
    · exact hne "." hdot h

theorem FileName.isName (h : FileName name) : IsName (utf8 name) :=
  isName_utf8 h.ne_empty h.ne_dot h.ne_dotDot h.slash

/-- What is kept of a name is the name of a file. -/
theorem FileName.isName_kept (h : FileName name) : IsName (keptBytes name) := by
  by_cases hplain : ∀ c ∈ name.toList, c ∉ ['*', '?', '\\']
  · rw [keptBytes, keptName_eq_self hplain, String.ofList_toList]
    exact h.isName
  · push Not at hplain
    obtain ⟨c, hc, hspecial⟩ := hplain
    have hbackslash : '\\' ∈ keptName name.toList :=
      mem_flatMap.mpr ⟨c, hc, by rw [if_pos hspecial]; exact mem_cons_self⟩
    have hne : ∀ s : String, '\\' ∉ s.toList → String.ofList (keptName name.toList) ≠ s := by
      rintro s hs rfl
      rw [String.toList_ofList] at hs
      exact hs hbackslash
    refine isName_utf8 (hne "" (by decide)) (hne "." (by decide)) (hne ".." (by decide)) ?_
    rw [String.toList_ofList]
    exact slash_keptName h.slash

theorem lossy_utf8 (s : String) : lossy (utf8 s) = s := PathBuf.toStringLossy_ofString s

theorem containsGlobMeta_utf8 (s : String) :
    containsGlobMeta (utf8 s) = s.toList.any isGlobMeta := by
  rw [containsGlobMeta, lossy_utf8]
  rfl

theorem isHidden_utf8 (s : String) : isHidden (utf8 s) = decide (s.toList.head? = some '.') := by
  rw [isHidden, lossy_utf8]

theorem containsGlobMeta_kept : containsGlobMeta (keptBytes name) = name.toList.any isGlobMeta := by
  rw [keptBytes, containsGlobMeta_utf8, String.toList_ofList, any_keptName]

theorem head?_utf8EncodeChar {c : Char} : ∃ b rest, String.utf8EncodeChar c = b :: rest := by
  refine exists_cons_of_length_pos ?_
  rw [String.length_utf8EncodeChar]
  exact c.utf8Size_pos

/-- What is kept of a name begins with a period when the name does. -/
theorem patternExplicitlyStartsWithPeriod_kept :
    patternExplicitlyStartsWithPeriod (keptBytes name) =
      .ok (decide (name.toList.head? = some '.')) := by
  have hread : patternExplicitlyStartsWithPeriod (keptBytes name) =
      .ok ((keptBytes name).head? == some 46 || [92, 46].isPrefixOf (keptBytes name)) := by
    rw [patternExplicitlyStartsWithPeriod, keptBytes, fromUtf8_utf8]
    rfl
  rw [hread, keptBytes]
  refine congrArg Except.ok ?_
  cases name.toList with
  | nil => rfl
  | cons c rest =>
      rw [keptName_cons, List.head?_cons]
      by_cases hc : c ∈ ['*', '?', '\\']
      · have hslash : String.utf8EncodeChar '\\' = [92] := by decide
        have hall : ∀ d ∈ ['*', '?', '\\'], ((46 : UInt8) == UInt8.ofNat d.toNat) = false ∧
            String.utf8EncodeChar d = [UInt8.ofNat d.toNat] ∧ ¬some d = some '.' := by decide
        obtain ⟨hbyte, hencode, hperiod⟩ := hall c hc
        rw [if_pos hc, cons_append, singleton_append, utf8_ofList_cons, utf8_ofList_cons,
          hslash, hencode, decide_eq_false hperiod, singleton_append, singleton_append,
          List.isPrefixOf, List.isPrefixOf, hbyte]
        rfl
      · obtain ⟨b, bytes, hencode⟩ := @head?_utf8EncodeChar c
        have hb : b ∈ String.utf8EncodeChar c := hencode ▸ mem_cons_self
        have hescape : b ≠ 92 := (ne_of_mem_utf8EncodeChar hc hb).2.2
        rw [if_neg hc, singleton_append, utf8_ofList_cons, hencode, cons_append,
          List.head?_cons, List.isPrefixOf, beq_eq_false_iff_ne.mpr (Ne.symm hescape),
          Bool.false_and, Bool.or_false, Bool.eq_iff_iff, beq_iff_eq, decide_eq_true_iff,
          Option.some_inj, Option.some_inj]
        constructor
        · rintro rfl
          exact Char.toNat_inj.mp (toNat_of_mem_utf8EncodeChar (by decide) hb)
        · rintro rfl
          have hperiod : String.utf8EncodeChar '.' = [46] := by decide
          exact (List.cons.inj (hencode.symm.trans hperiod)).1

end

/-! ## Directories without wildcards -/

/-- No component of a path is a pattern. -/
def Plain (directory : PathBuf) : Prop :=
  ∀ segment, .normal segment ∈ directory.components → containsGlobMeta segment = false

section

variable {fs : FileSystem} {pattern directory built : PathBuf} {segment : List UInt8}

theorem expandComponent_plain {c : Component}
    (hc : ∀ segment, c = .normal segment → containsGlobMeta segment = false) :
    expandComponent fs pattern [built] c = .ok [built.push c.asOsStr] := by
  cases c with
  | rootDir => rfl
  | curDir => rfl
  | parentDir => rfl
  | normal segment =>
      rw [expandComponent, hc segment rfl]
      rfl

theorem foldlM_plain {components : List Component}
    (h : ∀ segment, .normal segment ∈ components → containsGlobMeta segment = false) :
    components.foldlM (expandComponent fs pattern) [built] = .ok [built.pushAll components] := by
  induction components generalizing built with
  | nil => rfl
  | cons c components ih =>
      have hc : ∀ segment, c = .normal segment → containsGlobMeta segment = false :=
        fun segment heq ↦ h segment (heq ▸ mem_cons_self)
      rw [foldlM_cons, expandComponent_plain hc]
      exact ih fun segment hmem ↦ h segment (mem_cons_of_mem c hmem)

/-- What is found in a plain directory depends on the last component. -/
theorem expandPathPattern_push (hplain : Plain directory) (hsegment : IsName segment) :
    expandPathPattern fs (directory.push ⟨segment⟩) = (do
      let candidates ← expandComponent fs (directory.push ⟨segment⟩) [rebuilt directory]
        (.normal segment)
      let files ← inspectFiles fs candidates
      return sortDedup files) := by
  rw [expandPathPattern, components_push hsegment.slash_notMem hsegment.counts,
    foldlM_append, foldlM_plain hplain, rebuilt]
  show (List.foldlM _ _ [Component.normal segment] >>= _) = _
  rw [foldlM_cons]
  simp only [foldlM_nil, bind_pure]

theorem sortDedup_nil : sortDedup [] = [] := by
  rw [sortDedup, mergeSort_nil]

theorem ioContext_ne_ok {α : Type} {kind : IoErrorKind} {text : String} {a : α} :
    ioContext kind text ≠ .ok a := by
  rw [ioContext, io, context]
  rintro ⟨⟩

theorem sortDedup_singleton (path : PathBuf) : sortDedup [path] = [path] := by
  rw [sortDedup, mergeSort_singleton]
  rfl

/-- One path is a file, or there is nothing. -/
theorem inspectFiles_singleton {path : PathBuf} {files : List PathBuf} :
    inspectFiles fs [path] = .ok files ↔
      fs.isFile path = .ok true ∧ files = [path] ∨
        fs.isFile path = .error .notFound ∧ files = [] := by
  rw [inspectFiles]
  split
  case h_1 h =>
    rw [h]
    simp [inspectFiles, eq_comm]
  case h_2 h =>
    rw [h]
    simp [bail]
  case h_3 h =>
    rw [h]
    simp [inspectFiles, eq_comm]
  case h_4 kind hkind h =>
    rw [h]
    refine iff_of_false ioContext_ne_ok ?_
    rintro (⟨heq, -⟩ | ⟨heq, -⟩)
    · cases heq
    · exact hkind (Except.error.inj heq)

end

/-! ## Names in a directory -/

/-- The names that are listed. -/
def names (entries : List (Except IoErrorKind (List UInt8))) : List (List UInt8) :=
  entries.filterMap Except.toOption

/-- All entries can be read, and the names that are not left out as hidden are texts. -/
def Readable (allowHidden : Bool) (entries : List (Except IoErrorKind (List UInt8))) : Prop :=
  ∀ entry ∈ entries, ∃ name, entry = .ok name ∧
    ((!allowHidden && isHidden name) = true ∨ (fromUtf8 name).isSome = true)

section

variable {pattern candidate : PathBuf} {next result : List PathBuf} {name : String}
  {segment : List UInt8} {allowHidden : Bool} {entries : List (Except IoErrorKind (List UInt8))}

theorem readable_cons_error {kind : IoErrorKind} :
    ¬Readable allowHidden (.error kind :: entries) := by
  intro h
  obtain ⟨name, heq, -⟩ := h _ mem_cons_self
  cases heq

theorem readable_cons_ok : Readable allowHidden (.ok segment :: entries) ↔
    ((!allowHidden && isHidden segment) = true ∨ (fromUtf8 segment).isSome = true) ∧
      Readable allowHidden entries := by
  rw [Readable, forall_mem_cons, ← Readable]
  refine and_congr_left fun _ ↦ ?_
  constructor
  · rintro ⟨name, heq, h⟩
    cases heq
    exact h
  · exact fun h ↦ ⟨segment, rfl, h⟩

theorem globSegmentMatches_kept : globSegmentMatches (keptBytes name) segment =
    if (fromUtf8 segment).isSome = true then .ok (decide (segment = utf8 name))
    else bail "OpenSSH Include matched a non-UTF-8 path component" := by
  rw [globSegmentMatches, keptBytes, fromUtf8_utf8]
  cases htext : fromUtf8 segment with
  | none => rfl
  | some s =>
      obtain rfl := fromUtf8_eq_some_iff.mp htext
      have hmatch := @globMatch_keptName name.toList (utf8 s)
      rw [String.ofList_toList] at hmatch
      rw [Option.isSome_some, if_pos rfl]
      exact hmatch

/-- The entries are read to their end when all can be read, and each that has the name of the file
adds its path. -/
theorem matchEntries_eq_ok (hname : (!allowHidden && isHidden (utf8 name)) = false) :
    matchEntries pattern (keptBytes name) allowHidden candidate entries next = .ok result ↔
      Readable allowHidden entries ∧
        result = next ++ List.replicate ((names entries).count (utf8 name))
          (candidate.push ⟨utf8 name⟩) ∧
        ((names entries).count (utf8 name) = 0 ∨ result.length ≤ MAX_INCLUDE_FILES) := by
  induction entries generalizing next with
  | nil =>
      rw [matchEntries, Except.ok.injEq]
      have hread : Readable allowHidden [] := fun _ hmem ↦ absurd hmem not_mem_nil
      simp [hread, names, eq_comm]
  | cons entry entries ih =>
      cases entry with
      | error kind =>
          rw [matchEntries]
          exact iff_of_false ioContext_ne_ok fun h ↦ readable_cons_error h.1
      | ok segment =>
          have hnames : names (.ok segment :: entries) = segment :: names entries := rfl
          rw [matchEntries, readable_cons_ok, hnames]
          by_cases hskip : (!allowHidden && isHidden segment) = true
          · have hne : segment ≠ utf8 name := by
              rintro rfl
              rw [hskip] at hname
              cases hname
            rw [if_pos hskip, ih, count_cons_of_ne hne]
            simp only [hskip, true_or, true_and]
          · rw [if_neg hskip, globSegmentMatches_kept]
            by_cases htext : (fromUtf8 segment).isSome = true
            · rw [if_pos htext, or_iff_right hskip, and_iff_right htext]
              by_cases heq : segment = utf8 name
              · rw [heq, decide_eq_true rfl, count_cons_self, replicate_succ,
                  append_cons next _ (List.replicate _ _)]
                show (if (next ++ [candidate.push ⟨utf8 name⟩]).length > MAX_INCLUDE_FILES then _
                  else _) = _ ↔ _
                split
                case isTrue hmany =>
                  refine iff_of_false nofun ?_
                  rintro ⟨-, rfl, hcount | hlength⟩
                  · cases hcount
                  · rw [length_append] at hlength
                    omega
                case isFalse hfew =>
                  rw [ih]
                  refine and_congr_right fun _ ↦ and_congr_right fun hresult ↦ ?_
                  have hlength := congrArg List.length hresult
                  rw [length_append, length_replicate] at hlength
                  omega
              · rw [decide_eq_false heq, count_cons_of_ne heq]
                exact ih
            · rw [if_neg htext]
              refine iff_of_false nofun fun h ↦ ?_
              exact h.1.1.elim hskip htext

end

/-! ## The file that is found -/

/-- What is relied on of the file system: how a directory is spelled makes no difference, a
directory lists no name twice, and every file in it is listed there. -/
structure FileSystem.Lawful (fs : FileSystem) : Prop where
  isFile_spelling : ∀ {p q : PathBuf} {name : List UInt8}, p.components = q.components →
    IsName name → fs.isFile (p.push ⟨name⟩) = fs.isFile (q.push ⟨name⟩)
  readDir_spelling : ∀ {p q : PathBuf}, p.components = q.components →
    fs.readDir (listed p) = fs.readDir (listed q)
  distinct : ∀ {p : PathBuf} {entries}, fs.readDir (listed p) = .ok entries → (names entries).Nodup
  complete : ∀ {p : PathBuf} {entries} {name : List UInt8}, fs.readDir (listed p) = .ok entries →
    IsName name → fs.isFile (p.push ⟨name⟩) = .ok true → (∀ kind, .error kind ∉ entries) →
    .ok name ∈ entries
  absent : ∀ {p : PathBuf} {name : List UInt8}, fs.readDir (listed p) = .error .notFound →
    IsName name → fs.isFile (p.push ⟨name⟩) ≠ .ok true

section

variable (fs : FileSystem) (directory : PathBuf) (name : String)

/-- An escaped name is one argument, and in a directory it finds the file of this name when there
is one and nothing otherwise. -/
def FindsExactly : Prop :=
  ∃ argument, parseArguments (escapeName name.toList) = .ok [argument] ∧
    (fs.isFile (directory.push ⟨utf8 name⟩) = .ok true → ∃ path,
      expandPathPattern fs (directory.push ⟨utf8 argument⟩) = .ok [path] ∧
        path.components = (directory.push ⟨utf8 name⟩).components) ∧
    (fs.isFile (directory.push ⟨utf8 name⟩) ≠ .ok true → ∀ paths,
      expandPathPattern fs (directory.push ⟨utf8 argument⟩) = .ok paths → paths = [])

/-- The matcher can go through the names in a directory for a name. -/
def Searchable : Prop :=
  (keptBytes name).length ≤ MAX_GLOB_COMPONENT_BYTES ∧ ∃ entries,
    fs.readDir (listed directory) = .ok entries ∧
      Readable (decide (name.toList.head? = some '.')) entries

end

section

variable {fs : FileSystem} {directory : PathBuf} {name : String} {segment : List UInt8}
  {paths : List PathBuf}

/-- A file that is looked for under its path. -/
def LookedUp (fs : FileSystem) (path : PathBuf) (paths : List PathBuf) : Prop :=
  fs.isFile path = .ok true ∧ paths = [path] ∨ fs.isFile path = .error .notFound ∧ paths = []

theorem inspected_singleton {path : PathBuf} :
    (do let files ← inspectFiles fs [path]; return sortDedup files : Result (List PathBuf)) =
      .ok paths ↔ LookedUp fs path paths := by
  rw [bind_eq_ok]
  constructor
  · rintro ⟨files, hfiles, heq⟩
    cases heq
    refine (inspectFiles_singleton.mp hfiles).imp ?_ ?_
    · rintro ⟨hfile, rfl⟩
      exact ⟨hfile, sortDedup_singleton path⟩
    · rintro ⟨habsent, rfl⟩
      exact ⟨habsent, sortDedup_nil⟩
  · rintro (⟨hfile, rfl⟩ | ⟨habsent, rfl⟩)
    · exact ⟨[path], inspectFiles_singleton.mpr (.inl ⟨hfile, rfl⟩),
        congrArg Except.ok (sortDedup_singleton path)⟩
    · exact ⟨[], inspectFiles_singleton.mpr (.inr ⟨habsent, rfl⟩), congrArg Except.ok sortDedup_nil⟩

/-- A component without wildcards is looked up as it stands. -/
theorem expandPathPattern_literal (hplain : Plain directory) (hsegment : IsName segment)
    (hmeta : containsGlobMeta segment = false) :
    expandPathPattern fs (directory.push ⟨segment⟩) = .ok paths ↔
      LookedUp fs ((rebuilt directory).push ⟨segment⟩) paths := by
  rw [expandPathPattern_push hplain hsegment, expandComponent_plain fun other heq ↦ ?_]
  · exact inspected_singleton
  · cases heq
    exact hmeta

theorem hidden_eq_false :
    (!decide (name.toList.head? = some '.') && isHidden (utf8 name)) = false := by
  rw [isHidden_utf8, Bool.not_and_self]

/-- The search for a name goes through one directory. -/
theorem matchCandidates_kept {pattern built : PathBuf} {allowHidden : Bool} {next : List PathBuf}
    (hname : (!allowHidden && isHidden (utf8 name)) = false) :
    matchCandidates fs pattern (keptBytes name) allowHidden [built] [] = .ok next ↔
      fs.readDir (listed built) = .error .notFound ∧ next = [] ∨ ∃ entries,
        fs.readDir (listed built) = .ok entries ∧ Readable allowHidden entries ∧
        next = List.replicate ((names entries).count (utf8 name)) (built.push ⟨utf8 name⟩) ∧
        (names entries).count (utf8 name) ≤ MAX_INCLUDE_FILES := by
  rw [matchCandidates]
  split
  case h_1 h =>
    rw [h]
    simp [matchCandidates, eq_comm]
  case h_2 kind hkind h =>
    rw [h]
    refine iff_of_false ioContext_ne_ok ?_
    rintro (⟨heq, -⟩ | ⟨entries, heq, -⟩)
    · exact hkind (Except.error.inj heq)
    · cases heq
  case h_3 entries h =>
    have hentries : (do
        let next ← matchEntries pattern (keptBytes name) allowHidden built entries []
        matchCandidates fs pattern (keptBytes name) allowHidden [] next) =
        matchEntries pattern (keptBytes name) allowHidden built entries [] := bind_pure _
    rw [h, hentries, matchEntries_eq_ok hname, nil_append]
    constructor
    · rintro ⟨hread, rfl, hcount⟩
      refine .inr ⟨entries, rfl, hread, rfl, ?_⟩
      rw [length_replicate] at hcount
      omega
    · rintro (⟨heq, -⟩ | ⟨others, heq, hread, rfl, hcount⟩)
      · cases heq
      · cases heq
        refine ⟨hread, rfl, .inr ?_⟩
        rwa [length_replicate]

theorem expandComponent_kept {pattern built : PathBuf} {candidates : List PathBuf}
    (hmeta : name.toList.any isGlobMeta = true) :
    expandComponent fs pattern [built] (.normal (keptBytes name)) = .ok candidates ↔
      (keptBytes name).length ≤ MAX_GLOB_COMPONENT_BYTES ∧ ∃ next,
        matchCandidates fs pattern (keptBytes name) (decide (name.toList.head? = some '.'))
          [built] [] = .ok next ∧ candidates = sortDedup next := by
  have hvalid : validateGlobComponent (keptBytes name) = bailIf
      ((keptBytes name).length > MAX_GLOB_COMPONENT_BYTES)
      s!"OpenSSH Include glob component exceeds the {MAX_GLOB_COMPONENT_BYTES}-byte safety limit" := by
    rw [validateGlobComponent, keptBytes, fromUtf8_utf8]
    rfl
  rw [expandComponent, if_pos (containsGlobMeta_kept.trans hmeta), hvalid,
    patternExplicitlyStartsWithPeriod_kept, bind_eq_ok]
  constructor
  · rintro ⟨_, hlength, hrest⟩
    obtain ⟨_, hallow, hrest⟩ := bind_eq_ok.mp hrest
    cases hallow
    obtain ⟨next, hnext, heq⟩ := bind_eq_ok.mp hrest
    exact ⟨Nat.le_of_not_lt (bailIf_eq_ok.mp hlength), next, hnext,
      (Except.ok.inj heq).symm⟩
  · rintro ⟨hlength, next, hnext, rfl⟩
    exact ⟨⟨⟩, bailIf_eq_ok.mpr (Nat.not_lt.mpr hlength),
      bind_eq_ok.mpr ⟨_, rfl, bind_eq_ok.mpr ⟨next, hnext, rfl⟩⟩⟩

theorem inspected_nil :
    (do let files ← inspectFiles fs []; return sortDedup files : Result (List PathBuf)) =
      .ok paths ↔ paths = [] := by
  show Except.ok (sortDedup []) = Except.ok paths ↔ _
  rw [sortDedup_nil, Except.ok.injEq, eq_comm]

/-- A name with wildcards is looked up when it is listed. -/
theorem expandPathPattern_kept (h : fs.Lawful) (hplain : Plain directory) (hname : FileName name)
    (hmeta : name.toList.any isGlobMeta = true) :
    expandPathPattern fs (directory.push ⟨keptBytes name⟩) = .ok paths ↔
      (keptBytes name).length ≤ MAX_GLOB_COMPONENT_BYTES ∧
        (fs.readDir (listed (rebuilt directory)) = .error .notFound ∧ paths = [] ∨ ∃ entries,
          fs.readDir (listed (rebuilt directory)) = .ok entries ∧
          Readable (decide (name.toList.head? = some '.')) entries ∧
          (utf8 name ∉ names entries ∧ paths = [] ∨ utf8 name ∈ names entries ∧
            LookedUp fs ((rebuilt directory).push ⟨utf8 name⟩) paths)) := by
  rw [expandPathPattern_push hplain hname.isName_kept, bind_eq_ok]
  simp only [expandComponent_kept hmeta, matchCandidates_kept hidden_eq_false]
  constructor
  · rintro ⟨_, ⟨hlength, next, hnext, rfl⟩, hpaths⟩
    refine ⟨hlength, ?_⟩
    rcases hnext with ⟨habsent, rfl⟩ | ⟨entries, hentries, hread, rfl, -⟩
    · rw [sortDedup_nil] at hpaths
      exact .inl ⟨habsent, inspected_nil.mp hpaths⟩
    · refine .inr ⟨entries, hentries, hread, ?_⟩
      by_cases hmem : utf8 name ∈ names entries
      · rw [count_eq_one_of_mem (h.distinct hentries) hmem, replicate_one,
          sortDedup_singleton] at hpaths
        exact .inr ⟨hmem, inspected_singleton.mp hpaths⟩
      · rw [count_eq_zero.mpr hmem, replicate_zero, sortDedup_nil] at hpaths
        exact .inl ⟨hmem, inspected_nil.mp hpaths⟩
  · rintro ⟨hlength, ⟨habsent, rfl⟩ | ⟨entries, hentries, hread, hfound⟩⟩
    · refine ⟨_, ⟨hlength, [], .inl ⟨habsent, rfl⟩, sortDedup_nil.symm⟩, inspected_nil.mpr rfl⟩
    · rcases hfound with ⟨hmem, rfl⟩ | ⟨hmem, hlooked⟩
      · have hcount := count_eq_zero.mpr hmem
        refine ⟨[], ⟨hlength, [], .inr ⟨entries, hentries, hread, ?_, ?_⟩, sortDedup_nil.symm⟩,
          inspected_nil.mpr rfl⟩
        · rw [hcount, replicate_zero]
        · rw [hcount]
          exact Nat.zero_le _
      · have hcount := count_eq_one_of_mem (h.distinct hentries) hmem
        refine ⟨_, ⟨hlength, [_], .inr ⟨entries, hentries, hread, ?_, ?_⟩,
          (sortDedup_singleton _).symm⟩, inspected_singleton.mpr hlooked⟩
        · rw [hcount, replicate_one]
        · rw [hcount]
          decide

theorem findsExactly_iff (hname : FileName name) : FindsExactly fs directory name ↔
    (fs.isFile (directory.push ⟨utf8 name⟩) = .ok true → ∃ path,
      expandPathPattern fs (directory.push ⟨keptBytes name⟩) = .ok [path] ∧
        path.components = (directory.push ⟨utf8 name⟩).components) ∧
    (fs.isFile (directory.push ⟨utf8 name⟩) ≠ .ok true → ∀ paths,
      expandPathPattern fs (directory.push ⟨keptBytes name⟩) = .ok paths → paths = []) := by
  have hne : name.toList ≠ [] := fun hnil ↦ hname.ne_empty (String.toList_eq_nil_iff.mp hnil)
  have hparse := parseArguments_escapeName hne hname.control
  constructor
  · rintro ⟨argument, harguments, h⟩
    rw [hparse] at harguments
    cases harguments
    exact h
  · exact fun h ↦ ⟨_, hparse, h⟩

/-- Both spellings of the directory lead to the name. -/
theorem components_rebuilt_push (h : IsName segment) :
    ((rebuilt directory).push ⟨segment⟩).components = (directory.push ⟨segment⟩).components := by
  rw [components_push h.slash_notMem h.counts, components_push h.slash_notMem h.counts,
    components_rebuilt]

theorem isFile_rebuilt (h : fs.Lawful) (hsegment : IsName segment) :
    fs.isFile ((rebuilt directory).push ⟨segment⟩) = fs.isFile (directory.push ⟨segment⟩) :=
  h.isFile_spelling components_rebuilt hsegment

/-- A name with wildcards is found when the directory can be searched. -/
theorem findsExactly_pattern (h : fs.Lawful) (hplain : Plain directory) (hname : FileName name)
    (hmeta : name.toList.any isGlobMeta = true) : FindsExactly fs directory name ↔
      (fs.isFile (directory.push ⟨utf8 name⟩) = .ok true → Searchable fs directory name) := by
  have hspelling := @isFile_rebuilt fs directory (utf8 name) h hname.isName
  have hlisted : fs.readDir (listed (rebuilt directory)) = fs.readDir (listed directory) :=
    h.readDir_spelling components_rebuilt
  simp only [findsExactly_iff hname, expandPathPattern_kept h hplain hname hmeta, hlisted]
  constructor
  · rintro ⟨hfound, -⟩ hfile
    obtain ⟨path, ⟨hlength, ⟨habsent, -⟩ | ⟨entries, hentries, hread, -⟩⟩, -⟩ := hfound hfile
    · exact absurd hfile (h.absent habsent hname.isName)
    · exact ⟨hlength, entries, hentries, hread⟩
  · intro hsearch
    constructor
    · intro hfile
      obtain ⟨hlength, entries, hentries, hread⟩ := hsearch hfile
      have herrors : ∀ kind, .error kind ∉ entries := by
        intro kind hmem
        obtain ⟨name, heq, -⟩ := hread _ hmem
        cases heq
      have hmem : utf8 name ∈ names entries := mem_filterMap.mpr
        ⟨_, h.complete hentries hname.isName hfile herrors, rfl⟩
      exact ⟨_, ⟨hlength, .inr ⟨entries, hentries, hread,
        .inr ⟨hmem, .inl ⟨hspelling.trans hfile, rfl⟩⟩⟩⟩, components_rebuilt_push hname.isName⟩
    · rintro hfile paths ⟨-, ⟨-, hnil⟩ | ⟨entries, -, -, ⟨-, hnil⟩ | ⟨-, ⟨hfound, -⟩ | ⟨-, hnil⟩⟩⟩⟩
      · exact hnil
      · exact hnil
      · exact absurd (hspelling.symm.trans hfound) hfile
      · exact hnil

/-- A name without wildcards is found when it has no backslash. -/
theorem findsExactly_literal (h : fs.Lawful) (hplain : Plain directory) (hname : FileName name)
    (hmeta : name.toList.any isGlobMeta = false) : FindsExactly fs directory name ↔
      ('\\' ∈ name.toList → fs.isFile (directory.push ⟨utf8 name⟩) ≠ .ok true ∧
        fs.isFile (directory.push ⟨keptBytes name⟩) ≠ .ok true) := by
  have hspelling := @isFile_rebuilt fs directory (keptBytes name) h hname.isName_kept
  simp only [findsExactly_iff hname,
    expandPathPattern_literal hplain hname.isName_kept (containsGlobMeta_kept.trans hmeta)]
  constructor
  · rintro ⟨hfound, hnothing⟩ hbackslash
    have hfile : fs.isFile (directory.push ⟨utf8 name⟩) ≠ .ok true := by
      intro hfile
      obtain ⟨path, ⟨-, heq⟩ | ⟨-, heq⟩, hcomponents⟩ := hfound hfile
      · cases heq
        rw [components_rebuilt_push hname.isName_kept,
          components_push hname.isName_kept.slash_notMem hname.isName_kept.counts,
          components_push hname.isName.slash_notMem hname.isName.counts] at hcomponents
        have hkept : keptBytes name = utf8 name :=
          Component.normal.inj (singleton_inj.mp (append_cancel_left hcomponents))
        have hlist := congrArg String.toList (utf8_injective hkept)
        rw [String.toList_ofList] at hlist
        exact keptName_ne_self hbackslash hlist
      · cases heq
    refine ⟨hfile, fun hother ↦ ?_⟩
    exact absurd (hnothing hfile _ (.inl ⟨hspelling.trans hother, rfl⟩)) (cons_ne_nil _ _)
  · intro hcondition
    by_cases hbackslash : '\\' ∈ name.toList
    · obtain ⟨hfile, hother⟩ := hcondition hbackslash
      refine ⟨fun h ↦ absurd h hfile, ?_⟩
      rintro - paths (⟨hfound, -⟩ | ⟨-, hnil⟩)
      · exact absurd (hspelling.symm.trans hfound) hother
      · exact hnil
    · have hkept : keptBytes name = utf8 name := by
        have hself : keptName name.toList = name.toList := by
          refine keptName_eq_self fun c hc hspecial ↦ ?_
          have hnotMeta : isGlobMeta c = false := by
            rw [any_eq_false] at hmeta
            exact Bool.eq_false_iff.mpr (hmeta c hc)
          have hall : ∀ d ∈ ['*', '?', '\\'], isGlobMeta d = false → d = '\\' := by decide
          exact hbackslash (hall c hspecial hnotMeta ▸ hc)
        rw [keptBytes, hself, String.ofList_toList]
      rw [hkept] at hspelling ⊢
      constructor
      · exact fun hfile ↦ ⟨_, .inl ⟨hspelling.trans hfile, rfl⟩,
          components_rebuilt_push hname.isName⟩
      · rintro hfile paths (⟨hfound, -⟩ | ⟨-, hnil⟩)
        · exact absurd (hspelling.symm.trans hfound) hfile
        · exact hnil

end

/-- When an escaped name finds the file of this name and no other. -/
theorem escapedName_findsExactly_iff (fs : FileSystem) (h : fs.Lawful) (directory : PathBuf)
    (hplain : Plain directory) (name : String) (hname : FileName name) :
    FindsExactly fs directory name ↔
      if name.toList.any isGlobMeta = true then
        fs.isFile (directory.push ⟨utf8 name⟩) = .ok true → Searchable fs directory name
      else '\\' ∈ name.toList → fs.isFile (directory.push ⟨utf8 name⟩) ≠ .ok true ∧
        fs.isFile (directory.push ⟨keptBytes name⟩) ≠ .ok true := by
  split
  case isTrue hmeta => exact findsExactly_pattern h hplain hname hmeta
  case isFalse hmeta =>
    exact findsExactly_literal h hplain hname (Bool.eq_false_iff.mpr hmeta)

/-! ## One file -/

/-- A file system with one file in one directory. -/
def oneFile (directory : List Component) (name : List UInt8) : FileSystem where
  readDir path := if path.components = directory then .ok [.ok name] else .error .notFound
  isFile path :=
    if path.components = directory ++ [.normal name] then .ok true else .error .notFound

variable {path : PathBuf} {c : Component}

theorem oneFile_isFile {directory : List Component} {name segment : List UInt8}
    (h : IsName segment) : (oneFile directory name).isFile (path.push ⟨segment⟩) = .ok true ↔
      path.components = directory ∧ segment = name := by
  show (if (path.push ⟨segment⟩).components = directory ++ [.normal name] then _ else _) = _ ↔ _
  rw [components_push h.slash_notMem h.counts]
  split
  case isTrue heq =>
    obtain ⟨hdirectory, hlast⟩ := append_inj' heq rfl
    exact iff_of_true rfl ⟨hdirectory, Component.normal.inj (singleton_inj.mp hlast)⟩
  case isFalse hne =>
    refine iff_of_false nofun ?_
    rintro ⟨rfl, rfl⟩
    exact hne rfl

theorem components_listed_eq_iff {directory : List Component} (hc : c ≠ .curDir) :
    (listed path).components = c :: directory ↔ path.components = c :: directory := by
  rw [listed]
  split
  case isTrue hnil =>
    obtain ⟨bytes⟩ := path
    cases hnil
    refine iff_of_false (fun h ↦ ?_) nofun
    exact hc (List.cons.inj h).1.symm
  case isFalse => rfl

theorem oneFile_readDir {directory : List Component} {name : List UInt8} (hc : c ≠ .curDir) :
    (oneFile (c :: directory) name).readDir (listed path) =
      if path.components = c :: directory then .ok [.ok name] else .error .notFound :=
  if_congr (components_listed_eq_iff hc) rfl rfl

theorem oneFile_lawful {directory : List Component} {name : List UInt8} (hc : c ≠ .curDir) :
    (oneFile (c :: directory) name).Lawful where
  isFile_spelling hpq hname := by
    show (if _ then _ else _) = (if _ then _ else _)
    rw [components_push hname.slash_notMem hname.counts,
      components_push hname.slash_notMem hname.counts, hpq]
  readDir_spelling hpq := by rw [oneFile_readDir hc, oneFile_readDir hc, hpq]
  distinct hentries := by
    rw [oneFile_readDir hc] at hentries
    split at hentries
    · cases hentries
      exact nodup_singleton name
    · cases hentries
  complete hentries hname hfile _ := by
    obtain ⟨hcomponents, rfl⟩ := (oneFile_isFile hname).mp hfile
    rw [oneFile_readDir hc, if_pos hcomponents] at hentries
    cases hentries
    exact mem_singleton_self _
  absent habsent hname hfile := by
    rw [oneFile_readDir hc, if_pos ((oneFile_isFile hname).mp hfile).1] at habsent
    cases habsent

def etc : PathBuf := ⟨[47, 101, 116, 99]⟩

theorem components_etc : etc.components = [.rootDir, .normal [101, 116, 99]] := by decide

theorem plain_etc : Plain etc := by
  intro segment hmem
  rw [components_etc, mem_cons, mem_singleton] at hmem
  rcases hmem with heq | heq
  · cases heq
  · cases heq
    exact containsGlobMeta_utf8 "etc"

/-- The file is found by its escaped name. -/
theorem escapedName_found :
    FindsExactly (oneFile [.rootDir, .normal [101, 116, 99]] (utf8 "a*b c")) etc "a*b c" := by
  have hname : FileName "a*b c" :=
    ⟨by decide, by decide, by decide, by decide, by decide⟩
  refine (escapedName_findsExactly_iff _ (oneFile_lawful (by decide)) etc plain_etc _ hname).mpr ?_
  rw [if_pos (by decide)]
  intro _
  refine ⟨by decide, [.ok (utf8 "a*b c")], ?_, ?_⟩
  · rw [oneFile_readDir (by decide), if_pos components_etc]
  · exact readable_cons_ok.mpr ⟨.inr (by rw [fromUtf8_utf8]; rfl),
      fun _ hmem ↦ absurd hmem not_mem_nil⟩

/-- A name with a backslash is looked for with two. -/
theorem backslash_not_found :
    ¬FindsExactly (oneFile [.rootDir, .normal [101, 116, 99]] (utf8 "a\\b")) etc "a\\b" := by
  have hname : FileName "a\\b" :=
    ⟨by decide, by decide, by decide, by decide, by decide⟩
  rw [findsExactly_literal (oneFile_lawful (by decide)) plain_etc hname (by decide)]
  exact fun h ↦ (h (by decide)).1 ((oneFile_isFile hname.isName).mpr ⟨components_etc, rfl⟩)

end KaduoxSsh.OpenSsh
