import KaduoxSsh.Lib.Text
import Mathlib.Data.List.DropRight
import Mathlib.Data.List.Infix

/-!
# Words and pieces of a text

Searching a text, cutting it into words and comparing it without regard to case:
the string operations that programs which look at a command line are made of.
Like those of `Lib.Text` they are functions on characters, so that they compute.
-/

namespace KaduoxSsh.Text

open List

/-- The byte of a character of ASCII. -/
def byte (c : Char) : UInt8 := UInt8.ofNat c.toNat

/-- The bytes of a text from one index to another, where both are boundaries of characters. -/
def slice (s : String) (start stop : Nat) : Option String :=
  if start ≤ stop ∧ stop ≤ (utf8 s).length then fromUtf8 ((utf8 s).extract start stop) else none

/-! ## Searching -/

/-- Whether a text has a pattern somewhere in it. -/
def contains (s pattern : String) : Bool := decide (pattern.toList <:+: s.toList)

def startsWith (s pattern : String) : Bool := decide (pattern.toList <+: s.toList)

/-- A text has all in it that one of its parts has. -/
theorem contains_of_isInfix {s t pattern : String} (hpart : s.toList <:+: t.toList)
    (h : contains s pattern = true) : contains t pattern = true :=
  decide_eq_true ((of_decide_eq_true h).trans hpart)

/-- What follows a pattern that a text starts with. -/
def stripPrefix (s pattern : String) : Option String :=
  if startsWith s pattern then some (String.ofList (s.toList.drop pattern.toList.length)) else none

theorem stripPrefix_eq_some {s pattern rest : String} :
    stripPrefix s pattern = some rest ↔ s.toList = pattern.toList ++ rest.toList := by
  rw [stripPrefix, startsWith]
  constructor
  · intro h
    split_ifs at h with hstarts
    obtain ⟨tail, htail⟩ := of_decide_eq_true hstarts
    obtain rfl := Option.some.inj h
    rw [String.toList_ofList, ← htail, drop_left]
  · intro h
    rw [if_pos (decide_eq_true ⟨_, h.symm⟩), h, drop_left, String.ofList_toList]

theorem stripPrefix_eq_none {s pattern : String} :
    stripPrefix s pattern = none ↔ ¬pattern.toList <+: s.toList := by
  rw [stripPrefix, startsWith, ite_eq_right_iff]
  constructor
  · exact fun h hstarts ↦ nomatch h (decide_eq_true hstarts)
  · exact fun h hstarts ↦ absurd (of_decide_eq_true hstarts) h

/-- The characters without the copies of a pattern in front. -/
def dropCopies (pattern : List Char) : Nat → List Char → List Char
  | 0, l => l
  | fuel + 1, l =>
      if pattern ≠ [] ∧ pattern <+: l then dropCopies pattern fuel (l.drop pattern.length) else l

/-- A text without all copies of a pattern in front. -/
def trimStartMatches (s pattern : String) : String :=
  String.ofList (dropCopies pattern.toList s.toList.length s.toList)

/-- A text without all copies of a pattern at the end. -/
def trimEndMatches (s pattern : String) : String :=
  String.ofList
    (dropCopies pattern.toList.reverse s.toList.length s.toList.reverse).reverse

/-- What stands before and behind the first copy of a pattern. -/
def splitAtFirst (pattern : List Char) : List Char → Option (List Char × List Char)
  | [] => none
  | c :: rest =>
      if pattern <+: c :: rest then some ([], (c :: rest).drop pattern.length)
      else (splitAtFirst pattern rest).map fun split ↦ (c :: split.1, split.2)

section

variable {pattern cs before after : List Char} {c : Char}

/-- A character in front of the first copy of a pattern does not start one. -/
theorem splitAtFirst_cons_cons (h : splitAtFirst pattern (c :: cs) = some (c :: before, after)) :
    ¬pattern <+: c :: cs ∧ splitAtFirst pattern cs = some (before, after) := by
  rw [splitAtFirst] at h
  split_ifs at h with hpattern
  · cases h
  · obtain ⟨split, hsplit, heq⟩ := Option.map_eq_some_iff.mp h
    cases heq
    exact ⟨hpattern, hsplit⟩

theorem splitAtFirst_cons_eq_none (h : splitAtFirst pattern (c :: cs) = none) :
    ¬pattern <+: c :: cs ∧ splitAtFirst pattern cs = none := by
  rw [splitAtFirst] at h
  split_ifs at h with hpattern
  exact ⟨hpattern, Option.map_eq_none_iff.mp h⟩

theorem splitAtFirst_eq_some (h : splitAtFirst pattern cs = some (before, after)) :
    cs = before ++ pattern ++ after := by
  induction cs generalizing before with
  | nil => cases h
  | cons c cs ih =>
      rw [splitAtFirst] at h
      split_ifs at h with hpattern
      · cases h
        exact (prefix_iff_eq_append.mp hpattern).symm
      · obtain ⟨split, hsplit, heq⟩ := Option.map_eq_some_iff.mp h
        cases heq
        rw [ih hsplit]
        rfl

/-- There is less behind a copy of a pattern than in the text. -/
theorem length_lt_of_splitAtFirst (hne : pattern ≠ [])
    (h : splitAtFirst pattern cs = some (before, after)) : after.length < cs.length := by
  rw [splitAtFirst_eq_some h, length_append, length_append]
  have hpos := length_pos_iff.mpr hne
  omega

/-- A character is the pattern of which no copy stands in front of the first one. -/
theorem notMem_of_splitAtFirst (h : splitAtFirst [c] cs = some (before, after)) : c ∉ before := by
  induction before generalizing cs with
  | nil => exact not_mem_nil
  | cons d before ih =>
      rw [splitAtFirst_eq_some h, cons_append] at h
      obtain ⟨hbegins, hsplit⟩ := splitAtFirst_cons_cons h
      refine not_or.mpr ⟨fun hd ↦ hbegins ?_, ih hsplit⟩ ∘ mem_cons.mp
      rw [hd]
      exact prefix_append [d] _

theorem notMem_of_splitAtFirst_eq_none (h : splitAtFirst [c] cs = none) : c ∉ cs := by
  induction cs with
  | nil => exact not_mem_nil
  | cons d cs ih =>
      obtain ⟨hbegins, hsplit⟩ := splitAtFirst_cons_eq_none h
      refine not_or.mpr ⟨fun hd ↦ hbegins ?_, ih hsplit⟩ ∘ mem_cons.mp
      rw [hd]
      exact prefix_append [d] cs

end

/-! ## Words -/

/-- The words of a text, which white space stands between. -/
def splitWhitespace (s : String) : List String :=
  ((s.toList.splitOnP isWhitespace).filter (· ≠ [])).map String.ofList

/-- The last piece of a text that is cut at each separator. -/
def lastPiece (s : String) (isSeparator : Char → Bool) : String :=
  String.ofList (s.toList.rtakeWhile fun c ↦ !isSeparator c)

/-- White space between two texts parts their words. -/
theorem splitWhitespace_append (s t : String) :
    splitWhitespace (s ++ " " ++ t) = splitWhitespace s ++ splitWhitespace t := by
  have hlist : (s ++ " " ++ t).toList = s.toList ++ ' ' :: t.toList := by
    simp [String.toList_append]
  rw [splitWhitespace, hlist, splitOnP_append_cons _ _ (by decide), filter_append,
    map_append]
  rfl

/-! ## Case -/

def toAsciiLowercase (s : String) : String := String.ofList (s.toList.map Char.toLower)

def toAsciiUppercase (s : String) : String := String.ofList (s.toList.map Char.toUpper)

/-- A character in upper case is itself, or is the capital of a small letter. -/
theorem toUpper_eq_or (c : Char) :
    c.toUpper = c ∨ 97 ≤ c.toNat ∧ c.toNat ≤ 122 ∧ c.toUpper.toNat + 32 = c.toNat := by
  delta Char.toUpper
  split_ifs with h
  · right
    obtain ⟨hle, hge⟩ := h
    have hle' : 97 ≤ c.toNat := UInt32.le_iff_toNat_le.mp hle
    have hge' : c.toNat ≤ 122 := UInt32.le_iff_toNat_le.mp hge
    refine ⟨hle', hge', ?_⟩
    show (c.val + 4294967264).toNat + 32 = c.toNat
    rw [UInt32.toNat_add]
    show (c.toNat + 4294967264) % 4294967296 + 32 = c.toNat
    omega
  · exact .inl rfl

/-- A character in lower case is itself, or is the small letter of a capital. -/
theorem toLower_eq_or (c : Char) :
    c.toLower = c ∨ 65 ≤ c.toNat ∧ c.toNat ≤ 90 ∧ c.toLower.toNat = c.toNat + 32 := by
  delta Char.toLower
  split_ifs with h
  · right
    obtain ⟨hle, hge⟩ := h
    have hle' : 65 ≤ c.toNat := UInt32.le_iff_toNat_le.mp hle
    have hge' : c.toNat ≤ 90 := UInt32.le_iff_toNat_le.mp hge
    refine ⟨hle', hge', ?_⟩
    show (c.val + 32).toNat = c.toNat + 32
    rw [UInt32.toNat_add]
    show (c.toNat + 32) % 4294967296 = c.toNat + 32
    omega
  · exact .inl rfl

/-- A part of a text is one in lower case too. -/
theorem toAsciiLowercase_isInfix {s t : String} (hpart : s.toList <:+: t.toList) :
    (toAsciiLowercase s).toList <:+: (toAsciiLowercase t).toList := by
  rw [toAsciiLowercase, toAsciiLowercase, String.toList_ofList, String.toList_ofList]
  exact hpart.map Char.toLower

def eqIgnoreAsciiCase (s t : String) : Bool := toAsciiLowercase s == toAsciiLowercase t

end KaduoxSsh.Text
