import KaduoxSsh.Lib.Text
import Mathlib.Data.List.DropRight

/-!
# Paths on Unix

`std::path` on Unix: a path is bytes, and its components are what stands between slashes. Its
parent is one of its beginnings, and to push onto it adds to its end.

A path in normal form is made of names alone. Such paths are built and taken apart as lists of
names are.
-/

namespace KaduoxSsh.PathBuf

open List

def slash : UInt8 := 47

def dot : List UInt8 := [46]

def dotDot : List UInt8 := [46, 46]

/-- `std::path::Component`. -/
inductive Component where
  | rootDir
  | curDir
  | parentDir
  | normal (name : List UInt8)
deriving DecidableEq, Repr

/-- `as_os_str`. -/
def Component.asOsStr : Component → PathBuf
  | .rootDir => ⟨[slash]⟩
  | .curDir => ⟨dot⟩
  | .parentDir => ⟨dotDot⟩
  | .normal name => ⟨name⟩

/-- What stands between two slashes. -/
def piece (segment : List UInt8) : Option Component :=
  if segment = [] ∨ segment = dot then none
  else if segment = dotDot then some .parentDir
  else some (.normal segment)

section

variable (path : PathBuf)

/-- On Unix a path is absolute when it has a root. -/
def isAbsolute : Bool := path.bytes.head? = some slash

/-- A path starts with a component `.` of its own. -/
def includesCurDir : Bool := (path.bytes.splitOn slash).head? = some dot

/-- The root or the `.` that a path starts with. -/
def lead : Option Component :=
  if path.isAbsolute = true then some .rootDir
  else if path.includesCurDir = true then some .curDir
  else none

def leadBytes : List UInt8 := path.lead.elim [] fun c ↦ c.asOsStr.bytes

/-- What stands between the slashes behind that. -/
def segments : List (List UInt8) := (path.bytes.drop path.leadBytes.length).splitOn slash

def components : List Component := path.lead.toList ++ path.segments.filterMap piece

/-- `parent`, which leaves out what counts for nothing before the end. -/
def parent : Option PathBuf :=
  match path.segments.rdropWhile fun segment ↦ (piece segment).isNone with
  | [] => if path.lead = some .curDir then some ⟨[]⟩ else none
  | first :: others => some ⟨path.leadBytes ++ [slash].intercalate
      ((first :: others).dropLast.rdropWhile fun segment ↦ (piece segment).isNone)⟩

def pop : PathBuf := path.parent.getD path

/-- `push`. An absolute path replaces the one it is pushed onto. -/
def push (other : PathBuf) : PathBuf :=
  if other.isAbsolute = true then other
  else if path.bytes = [] ∨ path.bytes.getLast? = some slash then ⟨path.bytes ++ other.bytes⟩
  else ⟨path.bytes ++ slash :: other.bytes⟩

def startsWith (base : PathBuf) : Bool := base.components.isPrefixOf path.components

end

/-! ## Places -/

/-- Follow one component from a directory, which is given by the names that lead to it. The root
is its own parent. -/
def follow (place : List (List UInt8)) : Component → List (List UInt8)
  | .rootDir => []
  | .curDir => place
  | .parentDir => place.dropLast
  | .normal name => place ++ [name]

/-- The names that a path leads along when `..` undoes the one before it. -/
def place (path : PathBuf) : List (List UInt8) := path.components.foldl follow []

/-! ## Normal forms -/

/-- A component that is a name. -/
structure IsName (name : List UInt8) : Prop where
  slash_notMem : slash ∉ name
  counts : piece name = some (.normal name)

/-- The path of some names. -/
def ofNames (rooted : Bool) (names : List (List UInt8)) : PathBuf :=
  ⟨(if rooted = true then [slash] else []) ++ [slash].intercalate names⟩

section

variable {rooted : Bool} {names : List (List UInt8)} {name segment : List UInt8} {path : PathBuf}
  {bytes : List UInt8} {c : Component}

theorem IsName.ne_nil (h : IsName name) : name ≠ [] := by
  rintro rfl
  exact absurd h.counts (by decide)

theorem IsName.ne_dot (h : IsName name) : name ≠ dot := by
  rintro rfl
  exact absurd h.counts (by decide)

/-- What is a component between slashes is `..` or a name. -/
theorem piece_eq_some (h : piece segment = some c) : c = .parentDir ∨ c = .normal segment := by
  rw [piece] at h
  split_ifs at h
  · exact .inl (Option.some.inj h).symm
  · exact .inr (Option.some.inj h).symm

/-! ### Paths of names -/

section

variable (h : ∀ name ∈ names, IsName name)

include h

theorem head?_intercalate : ([slash].intercalate names).head? ≠ some slash := by
  cases names with
  | nil => exact nofun
  | cons first others =>
      have hfirst := h first mem_cons_self
      obtain ⟨b, rest, rfl⟩ := exists_cons_of_ne_nil hfirst.ne_nil
      intro hslash
      refine hfirst.slash_notMem ?_
      cases others with
      | nil =>
          rw [intercalate_singleton] at hslash
          exact mem_of_mem_head? hslash
      | cons second others =>
          rw [intercalate_cons_cons] at hslash
          exact mem_of_mem_head? hslash

theorem isAbsolute_ofNames : (ofNames rooted names).isAbsolute = rooted := by
  cases rooted with
  | true => rfl
  | false => exact decide_eq_false (head?_intercalate h)

theorem splitOn_intercalate (hne : names ≠ []) :
    ([slash].intercalate names).splitOn slash = names :=
  List.splitOn_intercalate slash (fun name hmem ↦ (h name hmem).slash_notMem) hne

theorem lead_ofNames :
    (ofNames rooted names).lead = if rooted = true then some .rootDir else none := by
  rw [lead, isAbsolute_ofNames h]
  cases rooted with
  | true => rfl
  | false =>
      have hdot : (ofNames false names).includesCurDir = false := by
        refine decide_eq_false ?_
        rw [ofNames, if_neg Bool.false_ne_true, nil_append]
        cases names with
        | nil => exact nofun
        | cons first others =>
            rw [splitOn_intercalate h (cons_ne_nil first others)]
            exact fun hfirst ↦ (h first mem_cons_self).ne_dot (Option.some.inj hfirst)
      rw [hdot]
      rfl

theorem segments_ofNames :
    (ofNames rooted names).segments = ([slash].intercalate names).splitOn slash := by
  rw [segments, leadBytes, lead_ofNames h]
  cases rooted with
  | true => rfl
  | false => rfl

theorem filterMap_piece : names.filterMap piece = names.map .normal := by
  induction names with
  | nil => rfl
  | cons first others ih =>
      rw [filterMap_cons_some (h first mem_cons_self).counts, map_cons,
        ih fun name hmem ↦ h name (mem_cons_of_mem first hmem)]

/-- The path of some names has these for components. -/
theorem components_ofNames : (ofNames rooted names).components =
    (if rooted = true then [.rootDir] else []) ++ names.map .normal := by
  have hbody : (ofNames rooted names).segments.filterMap piece = names.map .normal := by
    rw [segments_ofNames h]
    by_cases hne : names = []
    · rw [hne]
      rfl
    · rw [splitOn_intercalate h hne, filterMap_piece h]
  rw [components, hbody, lead_ofNames h]
  cases rooted with
  | true => rfl
  | false => rfl

/-- All of some names count. -/
theorem rdropWhile_names : (names.rdropWhile fun segment ↦ (piece segment).isNone) = names := by
  refine rdropWhile_eq_self_iff.mpr fun hne hskipped ↦ ?_
  rw [(h _ (names.getLast_mem hne)).counts] at hskipped
  exact Bool.false_ne_true hskipped

/-- The last name is dropped. -/
theorem pop_ofNames : (ofNames rooted names).pop = ofNames rooted names.dropLast := by
  have hleadBytes : (ofNames rooted names).leadBytes = if rooted = true then [slash] else [] := by
    rw [leadBytes, lead_ofNames h]
    cases rooted with
    | true => rfl
    | false => rfl
  rw [pop, parent, segments_ofNames h]
  cases names with
  | nil =>
      have hlead : (ofNames rooted []).lead ≠ some .curDir := by
        rw [lead_ofNames h]
        split
        · exact fun hlead ↦ nomatch hlead
        · exact nofun
      have hskipped : (([slash].intercalate []).splitOn slash).rdropWhile
          (fun segment ↦ (piece segment).isNone) = [] := rfl
      rw [hskipped]
      dsimp only
      rw [if_neg hlead]
      rfl
  | cons first others =>
      have hdrop : ∀ name ∈ (first :: others).dropLast, IsName name :=
        fun name hmem ↦ h name (mem_of_mem_dropLast hmem)
      rw [splitOn_intercalate h (cons_ne_nil first others), rdropWhile_names h]
      dsimp only
      rw [rdropWhile_names hdrop, hleadBytes]
      rfl

end

theorem intercalate_concat (hne : names ≠ []) :
    [slash].intercalate (names ++ [name]) = [slash].intercalate names ++ slash :: name := by
  induction names with
  | nil => exact absurd rfl hne
  | cons first others ih =>
      cases others with
      | nil =>
          rw [singleton_append, intercalate_cons_cons, intercalate_singleton,
            intercalate_singleton, append_assoc, singleton_append]
      | cons second others =>
          rw [cons_append, cons_append, intercalate_cons_cons, ← cons_append,
            ih (cons_ne_nil second others), intercalate_cons_cons]
          simp only [append_assoc]

theorem getLast?_intercalate (h : ∀ name ∈ names, IsName name) (hne : names ≠ []) :
    ∃ b, ([slash].intercalate names).getLast? = some b ∧ b ≠ slash := by
  obtain ⟨front, last, rfl⟩ := (eq_nil_or_concat' names).resolve_left hne
  have hlast := h last (mem_append_right front mem_cons_self)
  obtain ⟨b, hb⟩ := List.getLast?_isSome.mpr hlast.ne_nil |> Option.isSome_iff_exists.mp
  refine ⟨b, ?_, fun hslash ↦ hlast.slash_notMem (hslash ▸ mem_of_getLast? hb)⟩
  by_cases hfront : front = []
  · rw [hfront, nil_append, intercalate_singleton, hb]
  · rw [intercalate_concat hfront, List.getLast?_append, List.getLast?_cons, hb]
    rfl

/-- A name is added at the end. -/
theorem push_ofNames (h : ∀ name ∈ names, IsName name) (hname : IsName name) :
    (ofNames rooted names).push ⟨name⟩ = ofNames rooted (names ++ [name]) := by
  have hrelative : ¬(⟨name⟩ : PathBuf).isAbsolute = true :=
    fun habs ↦ hname.slash_notMem (mem_of_mem_head? (of_decide_eq_true habs))
  rw [push, if_neg hrelative]
  by_cases hne : names = []
  · have hopen : (ofNames rooted []).bytes = [] ∨
        (ofNames rooted []).bytes.getLast? = some slash := by
      cases rooted with
      | true => exact .inr rfl
      | false => exact .inl rfl
    rw [hne, if_pos hopen, ofNames, ofNames, nil_append, intercalate_singleton]
    exact congrArg PathBuf.mk (congrArg (· ++ name) (append_nil _))
  · obtain ⟨b, hb, hslash⟩ := getLast?_intercalate h hne
    have hlast : (ofNames rooted names).bytes.getLast? = some b := by
      rw [ofNames, List.getLast?_append, hb]
      rfl
    have hclosed : ¬((ofNames rooted names).bytes = [] ∨
        (ofNames rooted names).bytes.getLast? = some slash) := by
      rw [hlast]
      rintro (hnil | hsome)
      · rw [hnil] at hlast
        cases hlast
      · exact hslash (Option.some.inj hsome)
    rw [if_neg hclosed, ofNames, ofNames, intercalate_concat hne, append_assoc]

/-! ### Paths that grow -/

theorem splitOn_append_cons (front back : List UInt8) :
    (front ++ slash :: back).splitOn slash = front.splitOn slash ++ back.splitOn slash :=
  splitOnP_append_cons front back (beq_self_eq_true slash)

theorem splitOn_of_notMem (h : slash ∉ segment) : segment.splitOn slash = [segment] :=
  splitOnP_eq_singleton fun _ hb ↦ beq_eq_false_iff_ne.mpr fun heq ↦ h (heq ▸ hb)

theorem head?_splitOn_append (bytes rest : List UInt8) :
    ((bytes ++ slash :: rest).splitOn slash).head? = (bytes.splitOn slash).head? := by
  rw [splitOn_append_cons, List.head?_append]
  obtain ⟨first, others, hsplit⟩ :=
    exists_cons_of_ne_nil (splitOn_ne_nil slash bytes)
  rw [hsplit]
  rfl

theorem lead_append (hne : bytes ≠ []) (rest : List UInt8) :
    (⟨bytes ++ slash :: rest⟩ : PathBuf).lead = (⟨bytes⟩ : PathBuf).lead := by
  have habsolute : (⟨bytes ++ slash :: rest⟩ : PathBuf).isAbsolute =
      (⟨bytes⟩ : PathBuf).isAbsolute := by
    rw [isAbsolute, isAbsolute, List.head?_append_of_ne_nil bytes hne]
  have hcurDir : (⟨bytes ++ slash :: rest⟩ : PathBuf).includesCurDir =
      (⟨bytes⟩ : PathBuf).includesCurDir := by
    rw [includesCurDir, includesCurDir, head?_splitOn_append]
  rw [lead, lead, habsolute, hcurDir]

theorem length_leadBytes_le (hne : bytes ≠ []) :
    (⟨bytes⟩ : PathBuf).leadBytes.length ≤ bytes.length := by
  have hone : (⟨bytes⟩ : PathBuf).leadBytes.length ≤ 1 := by
    rw [leadBytes, lead]
    split_ifs
    · exact Nat.le_refl 1
    · exact Nat.le_refl 1
    · exact Nat.zero_le 1
  exact hone.trans (length_pos_iff.mpr hne)

/-- What follows a slash adds its components. -/
theorem components_append (hne : bytes ≠ []) (rest : List UInt8) :
    (⟨bytes ++ slash :: rest⟩ : PathBuf).components =
      (⟨bytes⟩ : PathBuf).components ++ (rest.splitOn slash).filterMap piece := by
  have hlead : (⟨bytes ++ slash :: rest⟩ : PathBuf).leadBytes = (⟨bytes⟩ : PathBuf).leadBytes := by
    rw [leadBytes, leadBytes, lead_append hne]
  rw [components, components, lead_append hne, segments, segments, hlead,
    drop_append_of_le_length (length_leadBytes_le hne), splitOn_append_cons,
    filterMap_append, append_assoc]

/-- A component is added at the end. -/
theorem components_push (h : slash ∉ segment) (hc : piece segment = some c) :
    (path.push ⟨segment⟩).components = path.components ++ [c] := by
  have hsegment : (segment.splitOn slash).filterMap piece = [c] := by
    rw [splitOn_of_notMem h, filterMap_cons_some hc, filterMap_nil]
  have hrelative : (⟨segment⟩ : PathBuf).isAbsolute = false :=
    decide_eq_false fun hhead ↦ h (mem_of_mem_head? hhead)
  obtain ⟨bytes⟩ := path
  rw [push, hrelative, if_neg Bool.false_ne_true]
  rcases bytes.eq_nil_or_concat' with rfl | ⟨front, last, rfl⟩
  · have hlead : (⟨segment⟩ : PathBuf).lead = none := by
      have hcurDir : (⟨segment⟩ : PathBuf).includesCurDir = false := by
        refine decide_eq_false fun hdot ↦ ?_
        rw [splitOn_of_notMem h] at hdot
        rw [Option.some.inj hdot] at hc
        exact absurd hc (by rw [piece, if_pos (.inr rfl)]; nofun)
      rw [lead, hrelative, hcurDir]
      rfl
    rw [if_pos (.inl rfl), nil_append, components, segments, leadBytes, hlead]
    exact hsegment
  by_cases hlast : last = slash
  · subst hlast
    rw [if_pos (.inr List.getLast?_concat), append_assoc, singleton_append]
    by_cases hfront : front = []
    · rw [hfront, nil_append, nil_append]
      exact congrArg (Component.rootDir :: ·) hsegment
    · rw [components_append hfront, components_append hfront, hsegment, append_assoc]
      rfl
  · rw [if_neg, components_append (append_ne_nil_of_right_ne_nil _ (cons_ne_nil _ _)),
      hsegment]
    rintro (hnil | hslash)
    · exact append_ne_nil_of_right_ne_nil _ (cons_ne_nil _ _) hnil
    · rw [List.getLast?_concat] at hslash
      exact hlast (Option.some.inj hslash)

/-! ### Paths from components -/

/-- One component is pushed after the other. -/
def pushAll (built : PathBuf) (components : List Component) : PathBuf :=
  components.foldl (fun built c ↦ built.push c.asOsStr) built

/-- The path that is built of the components of one. -/
def rebuilt (path : PathBuf) : PathBuf := pushAll ⟨[]⟩ path.components

theorem components_pushAll {built : PathBuf} {components : List Component}
    (h : ∀ c ∈ components, slash ∉ c.asOsStr.bytes ∧ piece c.asOsStr.bytes = some c) :
    (built.pushAll components).components = built.components ++ components := by
  induction components generalizing built with
  | nil => exact (append_nil _).symm
  | cons c components ih =>
      obtain ⟨⟨hslash, hpiece⟩, hrest⟩ := forall_mem_cons.mp h
      have hpush : (built.push c.asOsStr).components = built.components ++ [c] :=
        components_push hslash hpiece
      rw [pushAll, foldl_cons, ← pushAll, ih hrest, hpush, append_assoc,
        singleton_append]

/-- What stands between slashes is one component. -/
theorem asOsStr_of_mem_segments (h : c ∈ path.segments.filterMap piece) :
    slash ∉ c.asOsStr.bytes ∧ piece c.asOsStr.bytes = some c := by
  obtain ⟨segment, hmem, hpiece⟩ := mem_filterMap.mp h
  rcases piece_eq_some hpiece with rfl | rfl
  · exact ⟨by decide, rfl⟩
  · exact ⟨Text.notMem_of_mem_splitOn hmem, hpiece⟩

theorem components_rebuilt : (rebuilt path).components = path.components := by
  have hlead : (pushAll ⟨[]⟩ path.lead.toList).components = path.lead.toList := by
    rw [lead]
    split_ifs
    · rfl
    · rfl
    · rfl
  have hsplit : path.components = path.lead.toList ++ path.segments.filterMap piece := rfl
  rw [rebuilt, hsplit, pushAll, foldl_append, ← pushAll, ← pushAll,
    components_pushAll fun c hc ↦ asOsStr_of_mem_segments hc, hlead]

/-! ### Texts of paths -/

/-- A text whose bytes begin with a slash does so too. -/
theorem head?_of_fromUtf8 {s : String} (h : Text.fromUtf8 (slash :: bytes) = some s) :
    s.toList.head? = some '/' := by
  have hbytes := Text.fromUtf8_eq_some_iff.mp h
  obtain ⟨l, rfl⟩ : ∃ l, s = String.ofList l := ⟨s.toList, String.ofList_toList.symm⟩
  cases l with
  | nil => cases hbytes
  | cons c l =>
      have hfirst : (String.ofList (c :: l)).toByteArray.utf8DecodeChar? 0 = some c := by
        rw [String.toByteArray_ofList, utf8Encode_cons, utf8Encode_singleton]
        exact ByteArray.utf8DecodeChar?_utf8EncodeChar_append
      have hslash : (String.ofList (c :: l)).toByteArray =
          (String.utf8EncodeChar '/').toByteArray ++ ⟨bytes.toArray⟩ := by
        apply ByteArray.ext
        apply Array.toList_inj.mp
        rw [ByteArray.toList_data_append]
        exact hbytes
      rw [hslash, ByteArray.utf8DecodeChar?_utf8EncodeChar_append] at hfirst
      rw [String.toList_ofList, List.head?_cons, Option.some.inj hfirst]

/-- Bytes that are no text are read piece by piece. -/
theorem head?_replaceInvalid {fuel : Nat} (bytes : List UInt8) :
    (Text.replaceInvalid (fuel + 1) (slash :: bytes)).head? = some '/' := by
  have hone : Text.fromUtf8 [slash] = some "/" := Text.fromUtf8_eq_some_iff.mpr (by decide)
  have hlead : Text.leadingPiece (slash :: bytes) = (true, 1) := rfl
  rw [Text.replaceInvalid, hlead]
  · dsimp only
    rw [take_succ_cons, take_zero, hone]
    rfl
  · exact nofun

/-- The text of an absolute path begins with a slash. -/
theorem head?_toStringLossy (h : path.isAbsolute = true) :
    path.toStringLossy.toList.head? = some '/' := by
  obtain ⟨bytes⟩ := path
  cases bytes with
  | nil => cases h
  | cons b rest =>
      obtain rfl := Option.some.inj (of_decide_eq_true h)
      rw [toStringLossy]
      cases htext : Text.fromUtf8 (slash :: rest) with
      | some s => exact head?_of_fromUtf8 htext
      | none =>
          rw [Option.getD_none, String.toList_ofList]
          exact head?_replaceInvalid rest

/-- What is pushed onto an absolute path is one. -/
theorem isAbsolute_push {other : PathBuf} (h : path.isAbsolute = true) :
    (path.push other).isAbsolute = true := by
  have hhead : path.bytes.head? = some slash := of_decide_eq_true h
  have hne : path.bytes ≠ [] := fun hnil ↦ by rw [hnil] at hhead; cases hhead
  rw [push]
  split_ifs with hother
  · exact hother
  · exact decide_eq_true (by rw [List.head?_append, hhead]; rfl)
  · exact decide_eq_true (by rw [List.head?_append, hhead]; rfl)

theorem isAbsolute_ofString (l : List Char) :
    (ofString (String.ofList ('/' :: l))).isAbsolute = true := by
  have hslash : Text.utf8 (String.singleton '/') = [slash] := by decide
  refine decide_eq_true ?_
  rw [ofString, String.ofList_cons, Text.utf8_append, hslash]
  rfl

theorem toStringLossy_ofString (s : String) : (ofString s).toStringLossy = s := by
  rw [toStringLossy, ofString, Text.fromUtf8_utf8, Option.getD_some]

end

end KaduoxSsh.PathBuf
