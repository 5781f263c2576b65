import Mathlib.Data.List.Basic
import Mathlib.Tactic.FinCases

/-!
# Texts in JSON

How a serializer writes texts and natural numbers as JSON, and a reader that takes them back
from what stands in front of other text. `readString_quoted` and `readNat_digits` say that a
reader finds what was written, and `control_free` that writing a text leaves no control
character, so that what is written is one line.
-/

namespace KaduoxSsh.JsonText

open List

variable {c : Char} {rest : List Char}

/-! ## Characters -/

/-- The characters with an escape of two characters, and the second of these. -/
def shortEscapes : List (Char × Char) :=
  [('"', '"'), ('\\', '\\'), ('\x08', 'b'), ('\t', 't'), ('\n', 'n'), ('\x0c', 'f'), ('\r', 'r')]

def hexDigit (n : Nat) : Char := if n < 10 then Char.ofNat (48 + n) else Char.ofNat (87 + n)

def hexValue (c : Char) : Option Nat :=
  if '0' ≤ c ∧ c ≤ '9' then some (c.toNat - 48)
  else if 'a' ≤ c ∧ c ≤ 'f' then some (c.toNat - 87)
  else if 'A' ≤ c ∧ c ≤ 'F' then some (c.toNat - 55)
  else none

/-- A character of a text, as it is written between the quotes. -/
def escapeChar (c : Char) : List Char :=
  match shortEscapes.find? fun escape ↦ escape.1 = c with
  | some escape => ['\\', escape.2]
  | none =>
      if c.toNat < 32 then
        ['\\', 'u', '0', '0', hexDigit (c.toNat / 16), hexDigit (c.toNat % 16)]
      else [c]

/-- The character that an escape stands for, with what is behind it. Pairs of surrogates are not
read. -/
def readEscape : List Char → Option (Char × List Char)
  | 'u' :: a :: b :: c :: d :: rest => do
      let a ← hexValue a
      let b ← hexValue b
      let c ← hexValue c
      let d ← hexValue d
      let n := ((a * 16 + b) * 16 + c) * 16 + d
      if n.isValidChar then some (Char.ofNat n, rest) else none
  | e :: rest => (shortEscapes.find? fun escape ↦ escape.2 = e).map fun escape ↦ (escape.1, rest)
  | [] => none

/-- A character of a text, with what is behind it. -/
def readChar : List Char → Option (Char × List Char)
  | '\\' :: rest => readEscape rest
  | c :: rest => if c.toNat < 32 then none else some (c, rest)
  | [] => none

theorem hexValue_hexDigit : ∀ n < 16, hexValue (hexDigit n) = some n := by decide

/-- The three ways in which a character is written. -/
theorem escapeChar_cases (c : Char) :
    (∃ escape ∈ shortEscapes, escape.1 = c ∧ escapeChar c = ['\\', escape.2]) ∨
      (c.toNat < 32 ∧ escapeChar c =
        ['\\', 'u', '0', '0', hexDigit (c.toNat / 16), hexDigit (c.toNat % 16)]) ∨
      (32 ≤ c.toNat ∧ c ≠ '"' ∧ c ≠ '\\' ∧ escapeChar c = [c]) := by
  rw [escapeChar]
  cases hfind : shortEscapes.find? fun escape ↦ escape.1 = c with
  | some escape =>
      have hc := List.find?_some hfind
      exact .inl ⟨escape, List.mem_of_find?_eq_some hfind, of_decide_eq_true hc, rfl⟩
  | none =>
      dsimp only
      by_cases hlt : c.toNat < 32
      · exact .inr (.inl ⟨hlt, if_pos hlt⟩)
      · refine .inr (.inr ⟨Nat.not_lt.mp hlt, ?_, ?_, if_neg hlt⟩)
        · rintro rfl
          exact absurd hfind (by decide)
        · rintro rfl
          exact absurd hfind (by decide)

/-- A character is read back from what is written for it. -/
theorem readChar_escapeChar (c : Char) (rest : List Char) :
    readChar (escapeChar c ++ rest) = some (c, rest) := by
  obtain ⟨escape, hmem, rfl, heq⟩ | ⟨hlt, heq⟩ | ⟨hle, -, hslash, heq⟩ := escapeChar_cases c
  · rw [heq]
    fin_cases hmem
    all_goals rfl
  · have hhigh := hexValue_hexDigit (c.toNat / 16) (by omega)
    have hlow := hexValue_hexDigit (c.toNat % 16) (by omega)
    have hzero : hexValue '0' = some 0 := by decide
    have hvalue : ((0 * 16 + 0) * 16 + c.toNat / 16) * 16 + c.toNat % 16 = c.toNat := by omega
    rw [heq]
    change readEscape ('u' :: '0' :: '0' :: hexDigit (c.toNat / 16) :: hexDigit (c.toNat % 16) ::
      rest) = _
    rw [readEscape, hzero, hhigh, hlow]
    simp only [Option.bind_eq_bind, Option.bind_some, hvalue, Char.ofNat_toNat]
    exact if_pos c.valid
  · rw [heq, List.singleton_append, readChar, if_neg (Nat.not_lt.mpr hle)]
    exact fun h ↦ hslash h

theorem escapeChar_head (c : Char) : ∃ d rest, escapeChar c = d :: rest ∧ d ≠ '"' := by
  obtain ⟨escape, -, -, heq⟩ | ⟨-, heq⟩ | ⟨-, hquote, -, heq⟩ := escapeChar_cases c
  · exact ⟨_, _, heq, by decide⟩
  · exact ⟨_, _, heq, by decide⟩
  · exact ⟨_, _, heq, hquote⟩

/-! ## Strings -/

/-- A text in quotes. -/
def quoted (text : String) : List Char := '"' :: text.toList.flatMap escapeChar ++ ['"']

/-- The characters up to the closing quote, with what is behind it. -/
def readChars : Nat → List Char → Option (List Char × List Char)
  | 0, _ => none
  | fuel + 1, input =>
      if input.head? = some '"' then some ([], input.tail)
      else do
        let (c, input) ← readChar input
        let (text, input) ← readChars fuel input
        return (c :: text, input)

/-- A text in quotes, with what is behind it. -/
def readString : List Char → Option (String × List Char)
  | '"' :: input => (readChars input.length input).map fun (text, rest) ↦ (String.ofList text, rest)
  | _ => none

theorem readChars_flatMap (text rest : List Char) {fuel : Nat} (h : text.length < fuel) :
    readChars fuel (text.flatMap escapeChar ++ '"' :: rest) = some (text, rest) := by
  induction text generalizing fuel with
  | nil =>
      obtain ⟨n, rfl⟩ := Nat.exists_eq_succ_of_ne_zero h.ne'
      rfl
  | cons c text ih =>
      obtain ⟨n, rfl⟩ := Nat.exists_eq_succ_of_ne_zero (Nat.zero_lt_of_lt h).ne'
      obtain ⟨d, more, hhead, hne⟩ := escapeChar_head c
      rw [List.flatMap_cons, List.append_assoc, readChars, if_neg, readChar_escapeChar]
      · simp only [Option.bind_eq_bind, Option.bind_some, ih (Nat.lt_of_succ_lt_succ h)]
        rfl
      · rw [hhead]
        exact fun h ↦ hne (Option.some.inj h)

theorem length_le_flatMap (text : List Char) : text.length ≤ (text.flatMap escapeChar).length := by
  induction text with
  | nil => exact Nat.le_refl 0
  | cons c text ih =>
      obtain ⟨d, more, hhead, -⟩ := escapeChar_head c
      rw [List.flatMap_cons, List.length_append, hhead, List.length_cons, List.length_cons]
      omega

/-- A text is read back from what is written for it. -/
theorem readString_quoted (text : String) (rest : List Char) :
    readString (quoted text ++ rest) = some (text, rest) := by
  have hinput : quoted text ++ rest = '"' :: (text.toList.flatMap escapeChar ++ '"' :: rest) := by
    rw [quoted, List.append_assoc, List.cons_append, List.singleton_append]
  have hfuel : text.toList.length < (text.toList.flatMap escapeChar ++ '"' :: rest).length := by
    have hlength := length_le_flatMap text.toList
    rw [length_append, length_cons]
    omega
  rw [hinput, readString, readChars_flatMap _ _ hfuel, Option.map_some]
  exact congrArg (fun text ↦ some (text, rest)) String.ofList_toList

/-- There is no control character in what is written for a text. -/
theorem le_of_mem_quoted {text : String} (h : c ∈ quoted text) : 32 ≤ c.toNat := by
  have hshort : ∀ escape ∈ shortEscapes, 32 ≤ escape.2.toNat := by decide
  have hhex : ∀ n < 16, 32 ≤ (hexDigit n).toNat := by decide
  rw [quoted, cons_append, mem_cons, mem_append, mem_flatMap,
    mem_singleton] at h
  obtain rfl | ⟨d, -, hc⟩ | rfl := h
  · decide
  · obtain ⟨escape, hmem, -, heq⟩ | ⟨hlt, heq⟩ | ⟨hle, -, -, heq⟩ := escapeChar_cases d
    · rw [heq, mem_pair] at hc
      obtain rfl | rfl := hc
      · decide
      · exact hshort escape hmem
    · have hhigh := hhex (d.toNat / 16) (by omega)
      have hlow := hhex (d.toNat % 16) (by omega)
      rw [heq] at hc
      simp only [mem_cons, not_mem_nil, or_false] at hc
      obtain rfl | rfl | rfl | rfl | rfl | rfl := hc
      · decide
      · decide
      · decide
      · decide
      · exact hhigh
      · exact hlow
    · rw [heq, mem_singleton] at hc
      rwa [hc]
  · decide

/-! ## Numbers -/

/-- A number in front of what is no digit. -/
def readNat (input : List Char) : Option (Nat × List Char) :=
  let digits := input.takeWhile Char.isDigit
  if digits = [] then none
  else some (Nat.ofDigitChars 10 digits 0, input.dropWhile Char.isDigit)

/-- A number is read back from its digits. -/
theorem readNat_digits (n : Nat) {d : Char} (hd : d.isDigit = false) (rest : List Char) :
    readNat (Nat.toDigits 10 n ++ d :: rest) = some (n, d :: rest) := by
  have hdigits : ∀ c ∈ Nat.toDigits 10 n, c.isDigit = true :=
    fun c hc ↦ Nat.isDigit_of_mem_toDigits (by decide) (by decide) hc
  rw [readNat, takeWhile_append_of_pos hdigits, dropWhile_append_of_pos hdigits,
    takeWhile_cons_of_neg (by simp [hd]), dropWhile_cons_of_neg (by simp [hd]),
    append_nil, if_neg Nat.toDigits_ne_nil, Nat.ofDigitChars_ten_toDigits]

theorem le_of_mem_digits {n : Nat} (h : c ∈ Nat.toDigits 10 n) : 32 ≤ c.toNat := by
  have hdigit := Nat.isDigit_of_mem_toDigits (by decide) (by decide) h
  rw [Char.isDigit, Bool.and_eq_true, decide_eq_true_iff] at hdigit
  exact (by decide : 32 ≤ '0'.toNat).trans hdigit.1

/-! ## Objects -/

/-- The members of an object, each with its name and the text of its value. -/
def members : List (String × List Char) → List Char
  | [] => []
  | [(name, value)] => quoted name ++ ':' :: value
  | (name, value) :: next :: rest =>
      quoted name ++ ':' :: value ++ ',' :: members (next :: rest)

def object (values : List (String × List Char)) : List Char := '\x7b' :: members values ++ ['\x7d']

/-- There is no control character in an object when there is none in its values. -/
theorem le_of_mem_object {values : List (String × List Char)}
    (h : ∀ value ∈ values, ∀ c ∈ value.2, 32 ≤ c.toNat) (hc : c ∈ object values) :
    32 ≤ c.toNat := by
  have hmember : ∀ value ∈ values, ∀ c ∈ quoted value.1 ++ ':' :: value.2, 32 ≤ c.toNat := by
    intro value hvalue c hc
    rw [mem_append, mem_cons] at hc
    obtain hc | rfl | hc := hc
    · exact le_of_mem_quoted hc
    · decide
    · exact h value hvalue c hc
  have hmembers : ∀ c ∈ members values, 32 ≤ c.toNat := by
    clear h hc
    fun_induction members values with
    | case1 => exact fun c hc ↦ absurd hc not_mem_nil
    | case2 name value => exact hmember (name, value) mem_cons_self
    | case3 name value next rest ih =>
        intro c hc
        rw [mem_append, mem_cons] at hc
        obtain hc | rfl | hc := hc
        · exact hmember (name, value) mem_cons_self c hc
        · decide
        · exact ih (fun value hvalue ↦ hmember value (mem_cons_of_mem _ hvalue)) c hc
  rw [object, cons_append, mem_cons, mem_append, mem_singleton] at hc
  obtain rfl | hc | rfl := hc
  · decide
  · exact hmembers c hc
  · decide

/-- What is behind some text. -/
def dropFront (front input : List Char) : Option (List Char) :=
  if front <+: input then some (input.drop front.length) else none

theorem dropFront_append (front rest : List Char) :
    dropFront front (front ++ rest) = some rest := by
  rw [dropFront, if_pos (prefix_append front rest), drop_left]

/-- The value of a member with some name, with what is behind it. -/
def readMember {α : Type} (name : String) (read : List Char → Option (α × List Char))
    (input : List Char) : Option (α × List Char) :=
  (dropFront (quoted name ++ [':']) input).bind read

theorem readMember_append {α : Type} {read : List Char → Option (α × List Char)} {a : α}
    {value : List Char} (name : String) (h : read (value ++ rest) = some (a, rest)) :
    readMember name read (quoted name ++ ':' :: value ++ rest) = some (a, rest) := by
  have hinput : quoted name ++ ':' :: value ++ rest = quoted name ++ [':'] ++ (value ++ rest) := by
    rw [append_assoc, append_assoc, singleton_append, cons_append]
  rw [hinput, readMember, dropFront_append]
  exact h

end KaduoxSsh.JsonText
