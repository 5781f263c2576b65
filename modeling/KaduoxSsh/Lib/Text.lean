import Mathlib.Data.List.Basic
import Mathlib.Data.List.Infix
import Mathlib.Data.String.Basic

/-!
# Text, as lists of characters

The string operations the model needs beyond those of the standard library, each
by recursion on the characters, so that they compute and their lemmas are
inductions on the text.  A function on `String` is the function on characters
between `toList` and `ofList`.
-/

namespace KaduoxSsh.Text

open List

/-- A statement about the characters of a text is decided by going through the text, also where
there is an instance that goes through all characters. -/
instance decidableForallChars (p : Char → Prop) [DecidablePred p] (l : List Char) : Decidable (∀ c ∈ l, p c) :=
  List.decidableBAll p l

/-- Letters and digits of ASCII lie between the first digit and the last letter. -/
theorem toNat_of_isAlphanum {c : Char} (h : c.isAlphanum = true) :
    48 ≤ c.toNat ∧ c.toNat ≤ 122 := by
  change (decide (c.val ≥ 'A'.val ∧ c.val ≤ 'Z'.val) || (c.val ≥ 'a'.val && c.val ≤ 'z'.val) ||
    (c.val ≥ '0'.val && c.val ≤ '9'.val)) = true at h
  simp [UInt32.le_iff_toNat_le] at h
  omega

/-! ## The last separator -/

/-- What stands before and after the last separator. -/
def rsplitOnce (sep : Char) : List Char → Option (List Char × List Char)
  | [] => none
  | c :: cs =>
      match rsplitOnce sep cs with
      | some (a, b) => some (c :: a, b)
      | none => if c = sep then some ([], cs) else none

variable {sep : Char}

theorem rsplitOnce_ne_none (a b : List Char) : rsplitOnce sep (a ++ sep :: b) ≠ none := by
  induction a with
  | nil =>
      rw [nil_append, rsplitOnce]
      cases rsplitOnce sep b <;> simp
  | cons c cs ih =>
      rw [cons_append, rsplitOnce]
      cases hr : rsplitOnce sep (cs ++ sep :: b) with
      | none => exact absurd hr ih
      | some e => simp

theorem rsplitOnce_eq_some {l a b : List Char} (h : rsplitOnce sep l = some (a, b)) :
    l = a ++ sep :: b ∧ sep ∉ b := by
  induction l generalizing a with
  | nil => simp [rsplitOnce] at h
  | cons c cs ih =>
      rw [rsplitOnce] at h
      cases hr : rsplitOnce sep cs with
      | some e =>
          simp only [hr, Option.some.injEq, Prod.mk.injEq] at h
          obtain ⟨rfl, rfl⟩ := h
          obtain ⟨hl, hb⟩ := ih hr
          exact ⟨by rw [cons_append, ← hl], hb⟩
      | none =>
          simp only [hr, Option.ite_none_right_eq_some, Option.some.injEq, Prod.mk.injEq] at h
          obtain ⟨rfl, rfl, rfl⟩ := h
          refine ⟨rfl, fun hmem ↦ ?_⟩
          -- A separator that is there at all has a last occurrence.
          obtain ⟨u, v, rfl⟩ := append_of_mem hmem
          exact absurd hr (rsplitOnce_ne_none u v)

theorem rsplitOnce_append {b : List Char} (a : List Char) (hb : sep ∉ b) :
    rsplitOnce sep (a ++ sep :: b) = some (a, b) := by
  induction a with
  | nil =>
      have hnone : rsplitOnce sep b = none := by
        refine Option.eq_none_iff_forall_ne_some.mpr fun e he ↦ hb ?_
        rw [(rsplitOnce_eq_some he).1]
        exact mem_append_right _ mem_cons_self
      rw [nil_append, rsplitOnce, hnone]
      exact if_pos rfl
  | cons c cs ih => rw [cons_append, rsplitOnce, ih]

/-- What stands between separators holds none. -/
theorem notMem_of_mem_splitOn {α : Type} [DecidableEq α] {sep : α} {l piece : List α}
    (h : piece ∈ l.splitOn sep) : sep ∉ piece := by
  induction l generalizing piece with
  | nil =>
      rw [splitOn_nil, mem_singleton] at h
      rw [h]
      exact not_mem_nil
  | cons a rest ih =>
      rw [splitOn_cons_eq_if_modifyHead] at h
      split at h
      · rcases mem_cons.mp h with rfl | hmem
        · exact not_mem_nil
        · exact ih hmem
      · next hsep =>
        obtain ⟨first, others, hsplit⟩ := exists_cons_of_ne_nil (splitOn_ne_nil sep rest)
        rw [hsplit] at h ih
        rw [modifyHead_cons] at h
        rcases mem_cons.mp h with rfl | hmem
        · intro hc
          rcases mem_cons.mp hc with rfl | hfirst
          · exact hsep (beq_self_eq_true _)
          · exact ih mem_cons_self hfirst
        · exact ih (mem_cons_of_mem _ hmem)

/-! ## Character classes -/

/-- The control characters: the general category `Cc`. -/
def isControl (c : Char) : Bool := c.val < 0x20 || (0x7f ≤ c.val && c.val ≤ 0x9f)

/-- The characters with the property `White_Space`. -/
def isWhitespace (c : Char) : Bool :=
  (0x09 ≤ c.val && c.val ≤ 0x0d) || c.val == 0x20 || c.val == 0x85 || c.val == 0xa0 ||
  c.val == 0x1680 || (0x2000 ≤ c.val && c.val ≤ 0x200a) || c.val == 0x2028 || c.val == 0x2029 ||
  c.val == 0x202f || c.val == 0x205f || c.val == 0x3000

/-- The visible characters of ASCII are no white space. -/
theorem isWhitespace_of_visible {c : Char} (hle : 33 ≤ c.toNat) (hge : c.toNat ≤ 126) :
    isWhitespace c = false := by
  have hval : c.val.toNat = c.toNat := rfl
  by_contra hwhite
  simp only [isWhitespace, Bool.not_eq_false, Bool.or_eq_true, Bool.and_eq_true, beq_iff_eq,
    decide_eq_true_eq, UInt32.le_iff_toNat_le, ← UInt32.toNat_inj, hval,
    UInt32.reduceToNat] at hwhite
  omega

/-! ## Quoted text in messages -/

/-- A character as a quoted, escaped text shows it. -/
def debugChar (c : Char) : List Char :=
  if c = '"' then ['\\', '"']
  else if c = '\\' then ['\\', '\\']
  else if c = '\n' then ['\\', 'n']
  else if c = '\r' then ['\\', 'r']
  else if c = '\t' then ['\\', 't']
  else if c.val = 0 then ['\\', '0']
  else if isControl c then
    ['\\', 'u', '\x7b'] ++ Nat.toDigits 16 c.toNat ++ ['\x7d']
  else [c]

/-- A text in quotes, with the characters escaped that would be misread. -/
def debug (s : String) : String :=
  String.ofList ('"' :: s.toList.flatMap debugChar ++ ['"'])

/-! ## UTF-8 -/

/-- The UTF-8 bytes of a text. -/
def utf8 (s : String) : List UInt8 := s.toByteArray.data.toList

/-- The text that some bytes spell, when they are valid UTF-8. -/
def fromUtf8 (bytes : List UInt8) : Option String := String.fromUTF8? ⟨bytes.toArray⟩

/-- A text is the only one that its bytes spell, and they are the only bytes that spell it. -/
theorem fromUtf8_eq_some_iff {bytes : List UInt8} {s : String} :
    fromUtf8 bytes = some s ↔ utf8 s = bytes := by
  rw [fromUtf8, String.fromUTF8?, utf8]
  constructor
  · intro h
    split at h
    · cases h
      rfl
    · cases h
  · rintro rfl
    rw [dif_pos s.isValidUTF8]
    rfl

theorem utf8_append (s t : String) : utf8 (s ++ t) = utf8 s ++ utf8 t := by
  rw [utf8, String.toByteArray_append, ByteArray.toList_data_append, utf8, utf8]

theorem utf8_singleton (c : Char) : utf8 (String.singleton c) = String.utf8EncodeChar c := by
  rw [utf8, String.toByteArray_singleton, utf8Encode_singleton, data_toByteArray]

theorem utf8_ofList_cons (c : Char) (l : List Char) :
    utf8 (String.ofList (c :: l)) = String.utf8EncodeChar c ++ utf8 (String.ofList l) := by
  rw [String.ofList_cons, utf8_append, utf8_singleton]

theorem le_of_mem_utf8EncodeChar {n : Nat} (hn : n ≤ 128) {c : Char} (h : n ≤ c.toNat) {b : UInt8}
    (hb : b ∈ String.utf8EncodeChar c) : n ≤ b.toNat := by
  have hc : n ≤ c.val.toNat := h
  rw [String.utf8EncodeChar] at hb
  split_ifs at hb
  all_goals
    simp only [mem_cons, not_mem_nil, or_false] at hb
    rcases hb with rfl | rfl | rfl | rfl
  all_goals
    rw [UInt8.toNat_ofNat']
    omega

/-- The bytes of a text are no smaller than its characters, as far as these are ASCII. -/
theorem le_of_mem_utf8 {n : Nat} (hn : n ≤ 128) {s : String} (h : ∀ c ∈ s.toList, n ≤ c.toNat)
    {b : UInt8} (hb : b ∈ utf8 s) : n ≤ b.toNat := by
  obtain ⟨l, rfl⟩ : ∃ l, s = String.ofList l := ⟨s.toList, String.ofList_toList.symm⟩
  rw [String.toList_ofList] at h
  induction l with
  | nil => cases hb
  | cons c l ih =>
      rw [utf8_ofList_cons, mem_append] at hb
      obtain hb | hb := hb
      · exact le_of_mem_utf8EncodeChar hn (h c mem_cons_self) hb
      · exact ih (fun d hd ↦ h d (mem_cons_of_mem c hd)) hb

/-- A character takes at most four bytes. -/
theorem length_utf8_ofList_le (l : List Char) : (utf8 (String.ofList l)).length ≤ 4 * l.length := by
  show (String.ofList l).utf8ByteSize ≤ 4 * l.length
  induction l with
  | nil => exact Nat.zero_le _
  | cons c l ih =>
      rw [String.ofList_cons, String.utf8ByteSize_append, String.utf8ByteSize_singleton,
        length_cons]
      have := c.utf8Size_le_four
      omega

theorem length_debugChar (c : Char) : (debugChar c).length ≤ 6 := by
  have hdigits : ∀ n < 160, (Nat.toDigits 16 n).length ≤ 2 := by decide +kernel
  rw [debugChar]
  by_cases hcontrol : isControl c = true
  · have hlt : c.toNat < 160 := by
      simp [isControl, UInt32.le_iff_toNat_le, UInt32.lt_iff_toNat_lt] at hcontrol
      omega
    have := hdigits c.toNat hlt
    split_ifs
    all_goals simp
    omega
  · split_ifs
    all_goals simp

/-- What quoting adds to a text. -/
theorem length_debug_le (s : String) :
    (debug s).toList.length ≤ 6 * s.toList.length + 2 := by
  have hflat : ∀ l : List Char, (l.flatMap debugChar).length ≤ 6 * l.length := by
    intro l
    induction l with
    | nil => exact Nat.le_refl _
    | cons c l ih =>
        have := length_debugChar c
        rw [flatMap_cons, length_append, length_cons]
        omega
  have := hflat s.toList
  rw [debug, String.toList_ofList]
  simp only [length_append, length_cons, length_nil]
  omega

/-- A text has at most as many characters as bytes. -/
theorem length_toList_le (s : String) : s.toList.length ≤ (utf8 s).length := by
  show s.toList.length ≤ s.utf8ByteSize
  obtain ⟨l, rfl⟩ : ∃ l, s = String.ofList l := ⟨s.toList, (String.ofList_toList).symm⟩
  induction l with
  | nil => exact Nat.zero_le _
  | cons c l ih =>
      rw [String.toList_ofList] at *
      rw [String.ofList_cons, String.utf8ByteSize_append, String.utf8ByteSize_singleton,
        length_cons]
      have := c.utf8Size_pos
      omega
/-- Whether a byte continues a character. -/
def isContinuation (b : UInt8) : Bool := 0x80 ≤ b && b ≤ 0xbf

/-- Whether a second byte may follow the first byte of a character of three or four bytes. -/
def secondInRange (first second : UInt8) : Bool :=
  if first == 0xe0 then 0xa0 ≤ second && second ≤ 0xbf
  else if first == 0xed then 0x80 ≤ second && second ≤ 0x9f
  else if first == 0xf0 then 0x90 ≤ second && second ≤ 0xbf
  else if first == 0xf4 then 0x80 ≤ second && second ≤ 0x8f
  else isContinuation second

/-- How many bytes in front are one character (`true`) or the longest piece of one that is cut
short (`false`). -/
def leadingPiece : List UInt8 → Bool × Nat
  | [] => (false, 0)
  | b :: rest =>
      if b < 0x80 then (true, 1)
      else if 0xc2 ≤ b && b ≤ 0xdf then
        match rest with
        | c :: _ => if isContinuation c then (true, 2) else (false, 1)
        | [] => (false, 1)
      else if 0xe0 ≤ b && b ≤ 0xef then
        match rest with
        | c :: d :: _ =>
            if secondInRange b c then if isContinuation d then (true, 3) else (false, 2)
            else (false, 1)
        | [c] => if secondInRange b c then (false, 2) else (false, 1)
        | [] => (false, 1)
      else if 0xf0 ≤ b && b ≤ 0xf4 then
        match rest with
        | c :: d :: e :: _ =>
            if secondInRange b c then
              if isContinuation d then if isContinuation e then (true, 4) else (false, 3)
              else (false, 2)
            else (false, 1)
        | [c, d] =>
            if secondInRange b c then if isContinuation d then (false, 3) else (false, 2)
            else (false, 1)
        | [c] => if secondInRange b c then (false, 2) else (false, 1)
        | [] => (false, 1)
      else (false, 1)

/-- Each piece that is not a character becomes the replacement character. -/
def replaceInvalid : Nat → List UInt8 → List Char
  | 0, _ => []
  | _, [] => []
  | fuel + 1, bytes =>
      let (whole, length) := leadingPiece bytes
      let chars := if whole then ((fromUtf8 (bytes.take length)).getD "").toList else ['\uFFFD']
      chars ++ replaceInvalid fuel (bytes.drop length)

@[simp] theorem fromUtf8_utf8 (s : String) : fromUtf8 (utf8 s) = some s :=
  fromUtf8_eq_some_iff.mpr rfl

end KaduoxSsh.Text

namespace KaduoxSsh

/-- A path of the operating system: bytes that need not be text. -/
structure PathBuf where
  bytes : List UInt8
deriving DecidableEq, Repr

namespace PathBuf

/-- The path that a text names. -/
def ofString (s : String) : PathBuf := ⟨Text.utf8 s⟩

/-- The path as a text, when it is one. -/
def toStr (path : PathBuf) : Option String := Text.fromUtf8 path.bytes

/-- The path as a text in any case. -/
def toStringLossy (path : PathBuf) : String :=
  (Text.fromUtf8 path.bytes).getD
    (String.ofList (Text.replaceInvalid path.bytes.length path.bytes))

theorem toStr_eq_some_iff {path : PathBuf} {s : String} :
    path.toStr = some s ↔ ofString s = path := by
  rw [toStr, Text.fromUtf8_eq_some_iff, ofString]
  constructor
  · rintro h
    rw [h]
  · rintro rfl
    rfl

end PathBuf

end KaduoxSsh
