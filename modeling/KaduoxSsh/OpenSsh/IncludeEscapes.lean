import KaduoxSsh.Lib.Boundaries
import KaduoxSsh.OpenSsh.IncludePaths

/-!
# Names that are escaped in an Include

A name with a backslash in front of each special character is read as one argument.
The reader takes some of the backslashes away and leaves those in front of `*`, `?`
and another backslash for the matcher. The matcher is asked only when there is a `*`
or `?` in the argument. A name with a backslash and neither of the two keeps the
backslash that was put in front of it, and so another file is looked for.
-/

namespace KaduoxSsh.OpenSsh

open Text Glob List
open KaduoxSsh.PathBuf (Component IsName piece slash)

/-! ## What the reader leaves -/

/-- The characters that are escaped. -/
def escapedChars : List Char := [' ', '\'', '"', '\\', '#', '*', '?']

/-- A name with a backslash in front of the characters that are escaped. -/
def escapeName (name : List Char) : List Char :=
  name.flatMap fun c ↦ if c ∈ escapedChars then ['\\', c] else [c]

/-- What the reader makes of an escaped name. -/
def keptName (name : List Char) : List Char :=
  name.flatMap fun c ↦ if c ∈ ['*', '?', '\\'] then ['\\', c] else [c]

/-- The name of a file, without control characters. -/
structure FileName (name : String) : Prop where
  ne_empty : name ≠ ""
  ne_dot : name ≠ "."
  ne_dotDot : name ≠ ".."
  slash : '/' ∉ name.toList
  control : ∀ c ∈ name.toList, isControl c = false

section

variable {name : List Char} {c : Char}

theorem escapeName_cons : escapeName (c :: name) =
    (if c ∈ escapedChars then ['\\', c] else [c]) ++ escapeName name := List.flatMap_cons

theorem keptName_cons : keptName (c :: name) =
    (if c ∈ ['*', '?', '\\'] then ['\\', c] else [c]) ++ keptName name := List.flatMap_cons

/-- A character that is not escaped is read as it stands. -/
theorem step_plain {output : List String} {current : List Char} (hc : c ∉ escapedChars)
    (hcontrol : isControl c = false) :
    (⟨output, current, none, false⟩ : ArgumentReader).step c =
      some ⟨output, current ++ [c], none, false⟩ := by
  have hne : ∀ d ∈ escapedChars, c ≠ d := fun d hd h ↦ hc (h ▸ hd)
  have hblank : isAsciiWhitespace c = false := by
    have hall : ∀ d ∈ [' ', '\t', '\n', '\x0c', '\r'], d = ' ' ∨ isControl d = true := by decide
    by_contra hwhite
    rw [Bool.not_eq_false] at hwhite
    rcases hall c (of_decide_eq_true hwhite) with h | h
    · exact hne ' ' (by decide) h
    · rw [hcontrol] at h
      cases h
  rw [ArgumentReader.step, if_neg Bool.false_ne_true, if_neg fun h ↦ hne '\\' (by decide) h.1]
  dsimp only
  rw [if_neg, if_neg (hne '#' (by decide)), hblank]
  · rfl
  · rintro (h | h)
    · exact hne '\'' (by decide) h
    · exact hne '"' (by decide) h

/-- An escaped name is read to its end, as a part of one argument. -/
theorem read_escapeName (output : List String) (current : List Char)
    (hcontrol : ∀ c ∈ name, isControl c = false) :
    (⟨output, current, none, false⟩ : ArgumentReader).read (escapeName name) =
      ⟨output, current ++ keptName name, none, false⟩ := by
  induction name generalizing current with
  | nil =>
      rw [keptName, flatMap_nil, append_nil]
      rfl
  | cons c name ih =>
      obtain ⟨hc, hname⟩ := forall_mem_cons.mp hcontrol
      rw [escapeName_cons, keptName_cons]
      by_cases hescaped : c ∈ escapedChars
      · rw [if_pos hescaped]
        show (⟨output, current ++ (if c ∈ ['*', '?', '\\'] then ['\\', c] else [c]), none, false⟩ :
          ArgumentReader).read (escapeName name) = _
        rw [ih _ hname, append_assoc]
      · have hkept : c ∉ ['*', '?', '\\'] := fun h ↦ hescaped (by
          have hsub : ∀ d ∈ ['*', '?', '\\'], d ∈ escapedChars := by decide
          exact hsub c h)
        rw [if_neg hescaped, if_neg hkept, singleton_append, ArgumentReader.read,
          step_plain hescaped hc]
        dsimp only
        rw [ih _ hname, append_assoc]

theorem keptName_ne_nil (h : name ≠ []) : keptName name ≠ [] := by
  obtain ⟨c, rest, rfl⟩ := exists_cons_of_ne_nil h
  rw [keptName_cons]
  split
  · exact cons_ne_nil _ _
  · exact cons_ne_nil _ _

/-- An escaped name is one argument. -/
theorem parseArguments_escapeName (hne : name ≠ []) (hcontrol : ∀ c ∈ name, isControl c = false) :
    parseArguments (escapeName name) = .ok [String.ofList (keptName name)] := by
  have hread := read_escapeName [] [] hcontrol
  rw [parseArguments, ArgumentReader.start, hread, nil_append]
  dsimp only
  rw [if_neg Bool.false_ne_true, if_neg (by decide), ArgumentReader.finishWord,
    if_neg (keptName_ne_nil hne)]
  rfl

/-! ## What the matcher reads -/

/-- The characters that make a component a pattern. -/
def isGlobMeta (c : Char) : Bool := c = '*' || c = '?'

theorem any_keptName : (keptName name).any isGlobMeta = name.any isGlobMeta := by
  induction name with
  | nil => rfl
  | cons c name ih =>
      rw [keptName_cons, any_append, ih, any_cons]
      congr 1
      split
      · exact (any_cons ..).trans (by simp [isGlobMeta])
      · exact (any_cons ..).trans (by simp)

/-- A name without the three characters is kept as it stands. -/
theorem keptName_eq_self (h : ∀ c ∈ name, c ∉ ['*', '?', '\\']) : keptName name = name := by
  induction name with
  | nil => rfl
  | cons c name ih =>
      obtain ⟨hc, hname⟩ := forall_mem_cons.mp h
      rw [keptName_cons, if_neg hc, ih hname]
      rfl

theorem length_le_keptName : name.length ≤ (keptName name).length := by
  induction name with
  | nil => exact Nat.le_refl 0
  | cons c name ih =>
      rw [keptName_cons, length_append, length_cons]
      split
      · rw [length_cons, length_singleton]
        omega
      · rw [length_singleton]
        omega

/-- A backslash is doubled. -/
theorem keptName_ne_self (h : '\\' ∈ name) : keptName name ≠ name := by
  have hlt : name.length < (keptName name).length := by
    induction name with
    | nil => cases h
    | cons c name ih =>
        have hle := @length_le_keptName name
        rw [keptName_cons, length_append, length_cons]
        by_cases hc : c = '\\'
        · rw [hc, if_pos (by decide), length_cons, length_singleton]
          omega
        · have hrest := ih ((mem_cons.mp h).resolve_left (Ne.symm hc))
          split
          · rw [length_cons, length_singleton]
            omega
          · rw [length_singleton]
            omega
  exact fun heq ↦ absurd (congrArg List.length heq) (Nat.ne_of_gt hlt)

theorem slash_keptName (h : '/' ∉ name) : '/' ∉ keptName name := by
  intro hmem
  obtain ⟨c, hc, hpart⟩ := mem_flatMap.mp hmem
  split at hpart
  · have hne : '/' ≠ '\\' := by decide
    rcases mem_cons.mp hpart with heq | heq
    · exact hne heq
    · exact h (mem_singleton.mp heq ▸ hc)
  · exact h (mem_singleton.mp hpart ▸ hc)

/-- The bytes of other characters than the three stand for themselves. -/
theorem includeTokens_append {front rest : List UInt8}
    (h : ∀ b ∈ front, b ≠ 42 ∧ b ≠ 63 ∧ b ≠ 92) : includeTokens (front ++ rest) =
      (includeTokens rest).map (front.map .exactly ++ ·) := by
  induction front with
  | nil =>
      rw [nil_append]
      exact Option.map_id'.symm
  | cons b front ih =>
      obtain ⟨⟨hstar, hmark, hescape⟩, hfront⟩ := forall_mem_cons.mp h
      have hletter : letterToken 42 63 b = .exactly b := by
        rw [letterToken, if_neg hstar, if_neg hmark]
      rw [cons_append, includeTokens_cons hescape, ih hfront, hletter, Option.map_map]
      rfl

theorem ne_of_mem_utf8EncodeChar {b : UInt8} (hc : c ∉ ['*', '?', '\\'])
    (hb : b ∈ String.utf8EncodeChar c) : b ≠ 42 ∧ b ≠ 63 ∧ b ≠ 92 := by
  have hne : ∀ d ∈ ['*', '?', '\\'], UInt8.ofNat d.toNat < 0x80 ∧
      (UInt8.ofNat d.toNat).toNat = d.toNat := by decide
  have hbyte : ∀ d ∈ ['*', '?', '\\'], b ≠ UInt8.ofNat d.toNat := by
    rintro d hd rfl
    obtain ⟨hascii, hround⟩ := hne d hd
    have hnat := toNat_of_mem_utf8EncodeChar hascii hb
    exact hc (Char.toNat_inj.mp (hnat.trans hround) ▸ hd)
  exact ⟨hbyte '*' (by decide), hbyte '?' (by decide), hbyte '\\' (by decide)⟩

/-- What is kept of a name is a pattern in which every byte of the name stands for itself. -/
theorem includeTokens_keptName : includeTokens (utf8 (String.ofList (keptName name))) =
    some ((utf8 (String.ofList name)).map .exactly) := by
  induction name with
  | nil => rfl
  | cons c name ih =>
      rw [keptName_cons]
      split
      case isTrue hc =>
        obtain ⟨b, hb⟩ : ∃ b, String.utf8EncodeChar c = [b] := by
          have hall : ∀ d ∈ ['*', '?', '\\'], (String.utf8EncodeChar d).length = 1 := by decide
          exact length_eq_one_iff.mp (hall c hc)
        have hslash : String.utf8EncodeChar '\\' = [92] := by decide
        rw [cons_append, singleton_append, utf8_ofList_cons, utf8_ofList_cons,
          utf8_ofList_cons, hslash, hb, singleton_append, singleton_append,
          includeTokens_escape, ih]
        rfl
      case isFalse hc =>
        rw [singleton_append, utf8_ofList_cons, utf8_ofList_cons,
          includeTokens_append fun b hb ↦ ne_of_mem_utf8EncodeChar hc hb, ih, map_append]
        rfl

/-- The matcher takes the bytes of the name and nothing else. -/
theorem globMatch_keptName (candidate : List UInt8) :
    globMatch (utf8 (String.ofList (keptName name))) candidate =
      .ok (decide (candidate = utf8 (String.ofList name))) := by
  obtain ⟨result, hresult, hiff⟩ := @plainGlob_eq_ok _ candidate _ (@includeTokens_keptName name)
  rw [globMatch_eq_plainGlob, hresult]
  refine congrArg Except.ok ?_
  rw [Bool.eq_iff_iff, hiff, matches_map_exactly, decide_eq_true_iff]

end

end KaduoxSsh.OpenSsh
