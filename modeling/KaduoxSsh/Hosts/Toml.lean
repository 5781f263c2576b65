import KaduoxSsh.Hosts.Model

/-!
# The text format of the host library

The part of `codec.rs` that knows nothing of hosts: a subset of TOML, read line
by line into a root table and a list of tables, and written field by field.

What is written as a value is read back as this value, except for one kind of
string: a control character that has no escape is written as it is, and refused
when it is read. `Readable` singles out the strings without such a character.
-/

namespace KaduoxSsh.Hosts.Toml

open Text Result List

inductive Value where
  | string (value : String)
  | integer (value : UInt64)
  | strings (values : List String)
deriving DecidableEq, Repr

inductive TableKind where
  | host
  | chain
  | hop
deriving DecidableEq, Repr

structure Table where
  kind : TableKind
  line : Nat
  values : SortedMap String Value

/-! ## Strings and separators -/

/-- Where a scan of a line is: in a string, and there behind a backslash. -/
structure Quote where
  inString : Bool
  escaped : Bool
deriving DecidableEq, Repr

namespace Quote

/-- Outside of strings. -/
def outside : Quote := ⟨false, false⟩

/-- In a string. -/
def inside : Quote := ⟨true, false⟩

def step (quote : Quote) (c : Char) : Quote :=
  if quote.inString then
    if quote.escaped then { quote with escaped := false }
    else if c = '\\' then { quote with escaped := true }
    else if c = '"' then { quote with inString := false }
    else quote
  else if c = '"' then { quote with inString := true }
  else quote

/-- Whether a string that began has not ended. -/
def isOpen (quote : Quote) : Bool := quote.inString || quote.escaped

end Quote

/-- What stands before the first separator outside of strings, the state there, and the text from
the separator on. -/
def breakAt (sep : Char) : Quote → List Char → List Char × Quote × List Char
  | quote, [] => ([], quote, [])
  | quote, c :: rest =>
      if quote.inString = false ∧ c = sep then ([], quote, c :: rest)
      else
        let (before, last, after) := breakAt sep (quote.step c) rest
        (c :: before, last, after)

/-! ## Reading -/

def stripComment (line : List Char) : Result (List Char) :=
  match breakAt '#' .outside line with
  | (before, _, _ :: _) => .ok before
  | (_, quote, []) => if quote.isOpen then bail "unterminated TOML string" else .ok line

def parseHeader (line : List Char) : Result (Option TableKind) :=
  if line.head? ≠ some '[' then .ok none
  else if line = "[[host]]".toList then .ok (some .host)
  else if line = "[[chain]]".toList then .ok (some .chain)
  else if line = "[[hop]]".toList then .ok (some .hop)
  else bail s!"unsupported TOML table header {debug (String.ofList line)}"

/-- The characters of a string between its quotes. -/
def unescape : List Char → Result (List Char)
  | [] => .ok []
  | c :: rest =>
      if c ≠ '\\' then
        if isControl c then
          bail "literal control character is not allowed in TOML string"
        else do
          return c :: (← unescape rest)
      else
        match rest with
        | [] => bail "trailing TOML string escape"
        | escaped :: rest =>
            if escaped = '"' then do return '"' :: (← unescape rest)
            else if escaped = '\\' then do return '\\' :: (← unescape rest)
            else if escaped = 'n' then do return '\n' :: (← unescape rest)
            else if escaped = 'r' then do return '\r' :: (← unescape rest)
            else if escaped = 't' then do return '\t' :: (← unescape rest)
            else bail s!"unsupported TOML escape \\{escaped}"

-- Two characters are needed for the two quotes: a single character of two bytes or more is no
-- quote, so that counting characters instead of bytes gives the same answer.
def parseString (value : List Char) : Result String :=
  if value.length < 2 ∨ value.getLast? ≠ some '"' then Result.bail "unterminated TOML string"
  else if value.head? ≠ some '"' then bail "expected TOML basic string"
  else do
    return String.ofList (← unescape value.tail.dropLast)

/-- The strings of an array, `segment` being what has been read of the next one. -/
def parseSegments : Quote → List Char → List Char → Result (List String)
  | quote, segment, [] =>
      if quote.isOpen then bail "unterminated string in TOML array"
      else do
        return [← parseString (trim segment)]
  | quote, segment, c :: rest =>
      if quote.inString = false ∧ c = ',' then do
        let value ← parseString (trim segment)
        return value :: (← parseSegments quote [] rest)
      else parseSegments (quote.step c) (segment ++ [c]) rest

def parseStringArray (value : List Char) : Result (List String) :=
  if value.getLast? ≠ some ']' then bail "unterminated TOML array"
  else
    let inner := trim value.tail.dropLast
    if inner = [] then .ok [] else parseSegments .outside [] inner

/-- The number that some digits spell, as `str::parse` reads it. -/
def parseInteger (digits : List Char) : Result UInt64 :=
  let value := Nat.ofDigitChars 10 digits 0
  if value < 2 ^ 64 then .ok (UInt64.ofNat value)
  else bail "number too large to fit in target type"

def parseValue (value : List Char) : Result Value :=
  if value.head? = some '"' then do return .string (← parseString value)
  else if value.head? = some '[' then do return .strings (← parseStringArray value)
  else if value.all Char.isDigit then do return .integer (← parseInteger value)
  else Result.bail s!"unsupported TOML value {debug (String.ofList value)}"

def isKeyChar (c : Char) : Bool := c.isAlphanum || c = '_'

def parseAssignment (line : List Char) : Result (String × Value) :=
  match breakAt '=' .outside line with
  | (_, _, []) => Result.bail "assignment is missing '='"
  | (before, _, _ :: after) =>
      let key := trim before
      let value := trim after
      if key = [] ∨ ¬key.all isKeyChar then
        Result.bail s!"invalid TOML key {debug (String.ofList key)}"
      else if value = [] then
        Result.bail s!"assignment {debug (String.ofList key)} has no value"
      else do
        return (String.ofList key, ← parseValue value)

/-- A text in pieces, each but the last one ending with a line feed. -/
def splitInclusive : List Char → List (List Char)
  | [] => []
  | c :: rest =>
      if c = '\n' then [c] :: splitInclusive rest
      else
        match splitInclusive rest with
        | [] => [[c]]
        | piece :: pieces => (c :: piece) :: pieces

/-- A line without the line feed, or the carriage return and line feed, at its end. -/
def chomp (line : List Char) : List Char :=
  match line.reverse with
  | '\n' :: '\r' :: rest => rest.reverse
  | '\n' :: rest => rest.reverse
  | _ => line

/-- The lines of a text, as `str::lines` gives them. -/
def lines (text : List Char) : List (List Char) := (splitInclusive text).map chomp

/-- What has been read so far: the root, the tables that are complete, and the one being read. -/
structure Document where
  root : SortedMap String Value
  tables : List Table
  current : Option Table

namespace Document

def empty : Document := ⟨.empty, [], none⟩

/-- The tables, with the one being read. -/
def close (document : Document) : List Table := document.tables ++ document.current.toList

/-- The fields of the table being read, or of the root. -/
def values (document : Document) : SortedMap String Value :=
  match document.current with
  | some table => table.values
  | none => document.root

def setValues (document : Document) (values : SortedMap String Value) : Document :=
  match document.current with
  | some table => { document with current := some { table with values } }
  | none => { document with root := values }

def assign (document : Document) (lineNo : Nat) (line : List Char) : Result Document := do
  let (key, value) ← Result.context s!"invalid host TOML at line {lineNo}" (parseAssignment line)
  if document.values.contains key then
    Result.bail s!"duplicate key {debug key} at line {lineNo}"
  else return document.setValues (document.values.insert key value)

def readLine (document : Document) (lineNo : Nat) (rawLine : List Char) : Result Document := do
  let line ← Result.context s!"invalid TOML comment/string state at line {lineNo}"
    (stripComment rawLine)
  let line := trim line
  if line = [] then return document
  else
    match ← parseHeader line with
    | some kind => return { document with
        tables := document.close, current := some ⟨kind, lineNo, .empty⟩ }
    | none => document.assign lineNo line

def readLines : Document → Nat → List (List Char) → Result Document
  | document, _, [] => .ok document
  | document, lineNo, line :: rest => do
      let document ← document.readLine lineNo line
      readLines document (lineNo + 1) rest

end Document

/-! ## Writing -/

def escapeChar (c : Char) : List Char :=
  if c = '"' then ['\\', '"']
  else if c = '\\' then ['\\', '\\']
  else if c = '\n' then ['\\', 'n']
  else if c = '\r' then ['\\', 'r']
  else if c = '\t' then ['\\', 't']
  else [c]

/-- A string in quotes. -/
def quoted (value : String) : List Char := '"' :: value.toList.flatMap escapeChar ++ ['"']

def writeString (key value : String) : List Char :=
  key.toList ++ " = ".toList ++ quoted value ++ ['\n']

def writeStrings (key : String) (values : List String) : List Char :=
  key.toList ++ " = [".toList ++ [',', ' '].intercalate (values.map quoted) ++ [']', '\n']

def writeInteger (key : String) (value : Nat) : List Char :=
  key.toList ++ " = ".toList ++ value.repr.toList ++ ['\n']

/-! ## Scanning written text -/

/-- The state after a text in which no separator stands outside of strings. -/
def passes (sep : Char) : Quote → List Char → Option Quote
  | quote, [] => some quote
  | quote, c :: rest =>
      if quote.inString = false ∧ c = sep then none else passes sep (quote.step c) rest

section

variable {sep : Char} {quote last : Quote} {l rest segment : List Char}

theorem passes_append : passes sep quote (l ++ rest) =
    (passes sep quote l).bind (passes sep · rest) := by
  induction l generalizing quote with
  | nil => rfl
  | cons c l ih =>
      rw [List.cons_append, passes, passes]
      split
      · rfl
      · exact ih

theorem breakAt_append (h : passes sep quote l = some last) :
    breakAt sep quote (l ++ rest) =
      (l ++ (breakAt sep last rest).1, (breakAt sep last rest).2) := by
  induction l generalizing quote with
  | nil =>
      cases h
      rfl
  | cons c l ih =>
      rw [passes] at h
      split at h
      · cases h
      · next hc => rw [List.cons_append, breakAt, if_neg hc, ih h, List.cons_append]

theorem breakAt_of_passes (h : passes sep quote l = some last) :
    breakAt sep quote l = (l, last, []) := by
  have happ : breakAt sep quote (l ++ []) = _ := breakAt_append h
  rwa [List.append_nil, breakAt, List.append_nil] at happ

/-- What a scan reads up to a separator goes to the segment. -/
theorem append_of_passes {α : Type} {f : Quote → List Char → List Char → α}
    (hstep : ∀ {quote segment c rest}, ¬(quote.inString = false ∧ c = ',') →
      f quote segment (c :: rest) = f (quote.step c) (segment ++ [c]) rest)
    (h : passes ',' quote l = some last) :
    f quote segment (l ++ rest) = f last (segment ++ l) rest := by
  induction l generalizing quote segment with
  | nil =>
      cases h
      rw [List.nil_append, List.append_nil]
  | cons c l ih =>
      rw [passes] at h
      split at h
      · cases h
      · next hc => rw [List.cons_append, hstep hc, ih h, List.append_assoc, List.singleton_append]

theorem parseSegments_append (h : passes ',' quote l = some last) :
    parseSegments quote segment (l ++ rest) = parseSegments last (segment ++ l) rest :=
  append_of_passes (fun hc ↦ by rw [parseSegments, if_neg hc]) h

theorem passes_plain (h : ∀ c ∈ l, c ≠ '"' ∧ c ≠ sep) :
    passes sep .outside l = some .outside := by
  induction l with
  | nil => rfl
  | cons c l ih =>
      obtain ⟨hquote, hsep⟩ := h c mem_cons_self
      have hstep : Quote.outside.step c = .outside := by simp [Quote.step, Quote.outside, hquote]
      rw [passes, if_neg fun hc ↦ hsep hc.2, hstep]
      exact ih fun d hd ↦ h d (mem_cons_of_mem c hd)

/-- Whatever the character, its escape neither ends the string nor leaves a backslash pending. -/
theorem passes_escapeChar (c : Char) : passes sep .inside (escapeChar c) = some .inside := by
  rw [escapeChar]
  split
  · rfl
  split
  · rfl
  split
  · rfl
  split
  · rfl
  split
  · rfl
  next hquote hslash _ _ _ =>
    have hstep : Quote.inside.step c = .inside := by
      simp [Quote.step, Quote.inside, hquote, hslash]
    rw [passes, if_neg fun hc ↦ Bool.noConfusion hc.1, hstep, passes]

theorem passes_escaped (value : List Char) :
    passes sep .inside (value.flatMap escapeChar) = some .inside := by
  induction value with
  | nil => rfl
  | cons c value ih =>
      rw [flatMap_cons, passes_append, passes_escapeChar, Option.bind_some, ih]

theorem passes_quoted (hsep : sep ≠ '"') (value : String) :
    passes sep .outside (quoted value) = some .outside := by
  rw [quoted, List.cons_append, passes, if_neg fun hc ↦ hsep hc.2.symm,
    show Quote.outside.step '"' = .inside from rfl, passes_append, passes_escaped,
    Option.bind_some, passes, if_neg fun hc ↦ hsep hc.2.symm]
  rfl

end

/-! ## Strings -/

/-- The strings that the reader takes: a control character has to be one that is escaped. -/
def Readable (value : String) : Prop :=
  ∀ c ∈ value.toList, isControl c = true → c = '\n' ∨ c = '\r' ∨ c = '\t'

instance (value : String) : Decidable (Readable value) :=
  inferInstanceAs (Decidable (∀ c ∈ value.toList, _))

variable {key : String} {values : List String} {c : Char}

theorem unescape_cons_of_ne (hslash : c ≠ '\\') (l : List Char) :
    unescape (c :: l) =
      if isControl c then
        bail "literal control character is not allowed in TOML string"
      else do
        return c :: (← unescape l) := by
  cases l with
  | nil => exact if_pos hslash
  | cons d l => exact if_pos hslash

theorem unescape_escapeChar (c : Char) (l : List Char) :
    unescape (escapeChar c ++ l) =
      if isControl c ∧ ¬(c = '\n' ∨ c = '\r' ∨ c = '\t') then
        bail "literal control character is not allowed in TOML string"
      else do
        return c :: (← unescape l) := by
  by_cases hquote : c = '"'
  · subst hquote
    rfl
  by_cases hslash : c = '\\'
  · subst hslash
    rfl
  by_cases hn : c = '\n'
  · subst hn
    rfl
  by_cases hr : c = '\r'
  · subst hr
    rfl
  by_cases ht : c = '\t'
  · subst ht
    rfl
  have hescape : escapeChar c = [c] := by simp [escapeChar, hquote, hslash, hn, hr, ht]
  rw [hescape, List.singleton_append, unescape_cons_of_ne hslash]
  simp [hn, hr, ht]

/-- What is escaped is read back as it was, unless it has other control characters than those. -/
theorem unescape_escaped {value result : List Char} :
    unescape (value.flatMap escapeChar) = .ok result ↔
      (∀ c ∈ value, isControl c = true → c = '\n' ∨ c = '\r' ∨ c = '\t') ∧ result = value := by
  induction value generalizing result with
  | nil =>
      rw [List.flatMap_nil, unescape, Except.ok.injEq, eq_comm]
      simp
  | cons c value ih =>
      rw [List.flatMap_cons, unescape_escapeChar, Result.ite_bail_eq_ok, Result.bind_eq_ok]
      simp only [ih, Result.pure_eq_ok, Except.ok.injEq, List.forall_mem_cons, not_and, not_not]
      constructor
      · rintro ⟨hc, _, ⟨hvalue, rfl⟩, rfl⟩
        exact ⟨⟨hc, hvalue⟩, rfl⟩
      · rintro ⟨⟨hc, hvalue⟩, rfl⟩
        exact ⟨hc, value, ⟨hvalue, rfl⟩, rfl⟩

theorem head?_quoted (value : String) : (quoted value).head? = some '"' := rfl

theorem getLast?_quoted (value : String) : (quoted value).getLast? = some '"' := by
  rw [quoted, List.getLast?_concat]

/-- A text is read back if it is readable, and as nothing else. -/
theorem parseString_quoted {value result : String} :
    parseString (quoted value) = .ok result ↔ Readable value ∧ result = value := by
  have hmiddle : (quoted value).tail.dropLast = value.toList.flatMap escapeChar := by
    rw [quoted, List.cons_append, List.tail_cons, List.dropLast_concat]
  have hlength : ¬((quoted value).length < 2 ∨ (quoted value).getLast? ≠ some '"') := by
    rw [getLast?_quoted]
    simp [quoted]
  have hhead := not_not.mpr (head?_quoted value)
  rw [parseString, if_neg hlength, if_neg hhead, hmiddle, bind_eq_ok]
  simp only [unescape_escaped, pure_eq_ok, Except.ok.injEq]
  constructor
  · rintro ⟨_, ⟨hvalue, rfl⟩, rfl⟩
    exact ⟨hvalue, String.ofList_toList⟩
  · rintro ⟨hvalue, rfl⟩
    exact ⟨_, ⟨hvalue, rfl⟩, String.ofList_toList⟩

/-! ## Surrounding space -/

/-- Neither the first nor the last character is a space. -/
def Trimmed (l : List Char) : Prop :=
  (∀ c ∈ l.head?, isWhitespace c = false) ∧ ∀ c ∈ l.getLast?, isWhitespace c = false

theorem dropWhile_eq_self {l : List Char} (h : ∀ c ∈ l.head?, isWhitespace c = false) :
    l.dropWhile isWhitespace = l := by
  cases l with
  | nil => rfl
  | cons c l => rw [dropWhile_cons_of_neg (by simpa using h)]

theorem Trimmed.trim_eq {l : List Char} (h : Trimmed l) : trim l = l := by
  have hlast : ∀ c ∈ l.reverse.head?, isWhitespace c = false := by
    rw [List.head?_reverse]
    exact h.2
  rw [trim, dropWhile_eq_self h.1, dropWhile_eq_self hlast, reverse_reverse]

theorem trim_space_cons (l : List Char) : trim (' ' :: l) = trim l := rfl

theorem Trimmed.trim_concat_space {l : List Char} (h : Trimmed l) (hne : l ≠ []) :
    trim (l ++ [' ']) = l := by
  have hhead : ∀ c ∈ (l ++ [' ']).head?, isWhitespace c = false := by
    cases l with
    | nil => exact absurd rfl hne
    | cons c l => exact h.1
  have hlast : ∀ c ∈ l.reverse.head?, isWhitespace c = false := by
    rw [List.head?_reverse]
    exact h.2
  rw [trim, dropWhile_eq_self hhead, reverse_append, reverse_singleton,
    singleton_append, dropWhile_cons_of_pos rfl, dropWhile_eq_self hlast,
    reverse_reverse]

theorem trimmed_of_forall {l : List Char} (h : ∀ c ∈ l, isWhitespace c = false) : Trimmed l :=
  ⟨fun c hc ↦ h c (mem_of_mem_head? hc), fun c hc ↦ h c (mem_of_mem_getLast? hc)⟩

theorem trimmed_quoted (value : String) : Trimmed (quoted value) := by
  refine ⟨?_, ?_⟩
  · rintro c hc
    cases hc
    rfl
  · rw [getLast?_quoted]
    rintro c hc
    cases hc
    rfl

/-! ## Values -/

/-- A value as it is written. -/
def render : Value → List Char
  | .string value => quoted value
  | .integer value => value.toNat.repr.toList
  | .strings values => '[' :: [',', ' '].intercalate (values.map quoted) ++ [']']

/-- The values that the reader takes. -/
def Value.Readable : Value → Prop
  | .string value => Toml.Readable value
  | .integer _ => True
  | .strings values => ∀ value ∈ values, Toml.Readable value

instance : (value : Value) → Decidable value.Readable
  | .string value => inferInstanceAs (Decidable (Toml.Readable value))
  | .integer _ => inferInstanceAs (Decidable True)
  | .strings values => inferInstanceAs (Decidable (∀ value ∈ values, Toml.Readable value))

theorem isDigit_of_mem_repr {n : Nat} (h : c ∈ n.repr.toList) : c.isDigit = true := by
  rw [Nat.toList_repr] at h
  exact Nat.isDigit_of_mem_toDigits (by omega) (by omega) h

theorem repr_ne_nil (n : Nat) : n.repr.toList ≠ [] := by
  rw [Nat.toList_repr]
  exact Nat.toDigits_ne_nil

theorem isWhitespace_of_isKeyChar (h : isKeyChar c = true) : isWhitespace c = false := by
  have hkey : 48 ≤ c.toNat ∧ c.toNat ≤ 122 := by
    rw [isKeyChar, Bool.or_eq_true, decide_eq_true_eq] at h
    rcases h with h | rfl
    · exact toNat_of_isAlphanum h
    · decide
  rw [← Bool.not_eq_true]
  intro hspace
  simp [isWhitespace, UInt32.le_iff_toNat_le, ← UInt32.toNat_inj] at hspace
  omega

theorem isKeyChar_of_isDigit (h : c.isDigit = true) : isKeyChar c = true := by
  have halnum : c.isAlphanum = true := (Bool.or_eq_true _ _).mpr (.inr h)
  rw [isKeyChar, halnum, Bool.true_or]

theorem ne_of_isKeyChar {c d : Char} (h : isKeyChar c = true) (hd : isKeyChar d = false) :
    c ≠ d := by
  rintro rfl
  rw [h] at hd
  cases hd

/-- A number is read back. -/
theorem parseInteger_repr (value : UInt64) : parseInteger value.toNat.repr.toList = .ok value := by
  rw [parseInteger, Nat.toList_repr, Nat.ofDigitChars_ten_toDigits]
  rw [if_pos value.toNat_lt,
    UInt64.ofNat_toNat]

theorem parseSegments_quoted (h : ∀ value ∈ values, Readable value) (hne : values ≠ [])
    {segment : List Char} (hsegment : segment = [] ∨ segment = [' ']) :
    parseSegments .outside segment ([',', ' '].intercalate (values.map quoted)) = .ok values := by
  have htrim (value : String) : trim (segment ++ quoted value) = quoted value := by
    rcases hsegment with rfl | rfl
    · exact (trimmed_quoted value).trim_eq
    · exact (trimmed_quoted value).trim_eq
  induction values generalizing segment with
  | nil => exact absurd rfl hne
  | cons value values ih =>
      have hparse := parseString_quoted.mpr ⟨h value mem_cons_self, rfl⟩
      have hpasses : passes ',' .outside (quoted value) = some .outside :=
        passes_quoted (by decide) value
      cases values with
      | nil =>
          have happ : parseSegments .outside segment (quoted value ++ []) = _ :=
            parseSegments_append hpasses
          rw [append_nil] at happ
          rw [map_singleton, intercalate_singleton, happ, parseSegments, htrim, hparse]
          rfl
      | cons next values =>
          have hrest := ih (fun v hv ↦ h v (mem_cons_of_mem value hv)) (by simp)
            (.inr rfl : [' '] = [] ∨ [' '] = [' ']) fun v ↦ (trimmed_quoted v).trim_eq
          rw [map_cons, map_cons, intercalate_cons_cons, append_assoc,
            parseSegments_append hpasses, ← map_cons, cons_append, parseSegments,
            if_pos ⟨rfl, rfl⟩, htrim, hparse, bind_ok, singleton_append, parseSegments,
            if_neg (by decide)]
          rw [show Quote.outside.step ' ' = .outside from rfl, nil_append, hrest]
          rfl

theorem intercalate_ends (hne : values ≠ []) :
    ([',', ' '].intercalate (values.map quoted)).head? = some '"' ∧
      ([',', ' '].intercalate (values.map quoted)).getLast? = some '"' := by
  induction values with
  | nil => exact absurd rfl hne
  | cons value values ih =>
      cases values with
      | nil =>
          rw [map_singleton, intercalate_singleton]
          exact ⟨head?_quoted value, getLast?_quoted value⟩
      | cons next values =>
          have hlast := (ih (cons_ne_nil next values)).2
          rw [map_cons, map_cons, intercalate_cons_cons, ← map_cons]
          refine ⟨rfl, ?_⟩
          rw [List.getLast?_append, hlast]
          rfl

theorem trimmed_intercalate (values : List String) :
    Trimmed ([',', ' '].intercalate (values.map quoted)) := by
  cases values with
  | nil => exact ⟨nofun, nofun⟩
  | cons value values =>
      obtain ⟨hhead, hlast⟩ := intercalate_ends (cons_ne_nil value values)
      rw [Trimmed, hhead, hlast]
      constructor
      · rintro c ⟨⟩
        decide
      · rintro c ⟨⟩
        decide

/-- A list of readable texts is read back. -/
theorem parseStringArray_render (h : ∀ value ∈ values, Readable value) :
    parseStringArray ('[' :: [',', ' '].intercalate (values.map quoted) ++ [']']) = .ok values := by
  have hmiddle : ('[' :: [',', ' '].intercalate (values.map quoted) ++ [']']).tail.dropLast =
      [',', ' '].intercalate (values.map quoted) := by
    rw [cons_append, tail_cons, dropLast_concat]
  rw [parseStringArray, List.getLast?_concat, if_neg (not_not.mpr rfl), hmiddle,
    (trimmed_intercalate values).trim_eq]
  cases values with
  | nil => rfl
  | cons value values =>
      rw [← parseSegments_quoted h (cons_ne_nil _ _) (.inl rfl)]
      refine if_neg fun hnil ↦ ?_
      have hhead := (intercalate_ends (cons_ne_nil value values)).1
      rw [hnil] at hhead
      cases hhead

/-- What is written for a readable value is read as that value. -/
theorem parseValue_render {value : Value} (h : value.Readable) :
    parseValue (render value) = .ok value := by
  cases value with
  | string value =>
      rw [render, parseValue, if_pos (head?_quoted value), parseString_quoted.mpr ⟨h, rfl⟩]
      rfl
  | integer value =>
      have hdigits : ∀ c ∈ value.toNat.repr.toList, c.isDigit = true := fun c ↦ isDigit_of_mem_repr
      have hhead {c : Char} (hc : c.isDigit = false) : value.toNat.repr.toList.head? ≠ some c := by
        intro h
        rw [hdigits c (mem_of_mem_head? h)] at hc
        cases hc
      rw [render, parseValue, if_neg (hhead (by decide)), if_neg (hhead (by decide)),
        if_pos (all_eq_true.mpr hdigits), parseInteger_repr]
      rfl
  | strings values =>
      rw [render, parseValue, if_neg (by simp), if_pos (by simp), parseStringArray_render h]
      rfl

theorem readable_of_parseValue {value : String} {result : Value}
    (h : parseValue (quoted value) = .ok result) : Readable value := by
  rw [parseValue, if_pos (head?_quoted value), bind_eq_ok] at h
  obtain ⟨_, hparse, -⟩ := h
  exact (parseString_quoted.mp hparse).1

theorem passes_intercalate {sep : Char} (hsep : sep = '#' ∨ sep = '=') (values : List String) :
    passes sep .outside ([',', ' '].intercalate (values.map quoted)) = some .outside := by
  have hquote : sep ≠ '"' := by rcases hsep with rfl | rfl <;> decide
  induction values with
  | nil => rfl
  | cons value values ih =>
      cases values with
      | nil => 
          rw [List.map_singleton, List.intercalate_singleton]
          exact passes_quoted hquote value
      | cons next values =>
          rw [List.map_cons, List.map_cons, List.intercalate_cons_cons, List.append_assoc,
            passes_append, passes_quoted hquote, Option.bind_some, passes_append,
            passes_plain (by rcases hsep with rfl | rfl <;> decide), Option.bind_some,
            ← List.map_cons, ih]

/-- A reader that looks for a comment or for the sign of equality finds none in a value. -/
theorem passes_render {sep : Char} (hsep : sep = '#' ∨ sep = '=') (value : Value) :
    passes sep .outside (render value) = some .outside := by
  have hquote : sep ≠ '"' := by rcases hsep with rfl | rfl <;> decide
  have hkey : isKeyChar sep = false := by rcases hsep with rfl | rfl <;> decide
  cases value with
  | string value => exact passes_quoted hquote value
  | integer value =>
      refine passes_plain fun c hc ↦ ?_
      have hc' := isKeyChar_of_isDigit (isDigit_of_mem_repr hc)
      exact ⟨ne_of_isKeyChar hc' (by decide), ne_of_isKeyChar hc' hkey⟩
  | strings values =>
      have hbracket : ∀ l ∈ [['['], [']']], passes sep .outside l = some .outside := by
        rcases hsep with rfl | rfl <;> decide
      rw [render, cons_append, ← singleton_append, passes_append,
        hbracket _ (by simp), Option.bind_some, passes_append, passes_intercalate hsep,
        Option.bind_some, hbracket _ (by simp)]

theorem trimmed_render (value : Value) : Trimmed (render value) := by
  cases value with
  | string value => exact trimmed_quoted value
  | integer value =>
      exact trimmed_of_forall fun c hc ↦
        isWhitespace_of_isKeyChar (isKeyChar_of_isDigit (isDigit_of_mem_repr hc))
  | strings values =>
      refine ⟨?_, ?_⟩
      · intro c hc
        cases hc
        rfl
      · rw [render, List.getLast?_concat]
        intro c hc
        cases hc
        rfl

theorem render_ne_nil (value : Value) : render value ≠ [] := by
  cases value with
  | string value => exact cons_ne_nil _ _
  | integer value => exact repr_ne_nil value.toNat
  | strings values => exact cons_ne_nil _ _

/-! ## Lines -/

/-- The line of a field. -/
def fieldLine (key : String) (value : Value) : List Char :=
  key.toList ++ " = ".toList ++ render value

/-- A key that the reader takes. -/
def IsKey (key : String) : Prop := key ≠ "" ∧ ∀ c ∈ key.toList, isKeyChar c = true

instance (key : String) : Decidable (IsKey key) := inferInstanceAs (Decidable (_ ∧ _))

theorem IsKey.ne_nil (h : IsKey key) : key.toList ≠ [] := by
  simpa using h.1

theorem IsKey.trimmed (h : IsKey key) : Trimmed key.toList :=
  trimmed_of_forall fun c hc ↦ isWhitespace_of_isKeyChar (h.2 c hc)

theorem IsKey.passes (h : IsKey key) {sep : Char} (hsep : isKeyChar sep = false) :
    passes sep .outside key.toList = some .outside :=
  passes_plain fun c hc ↦ ⟨ne_of_isKeyChar (h.2 c hc) (by decide), ne_of_isKeyChar (h.2 c hc) hsep⟩

theorem stripComment_of_passes {line : List Char} (h : passes '#' .outside line = some .outside) :
    stripComment line = .ok line := by
  rw [stripComment, breakAt_of_passes h]
  rfl

/-- The line of a field has no comment. -/
theorem stripComment_fieldLine (hkey : IsKey key) (value : Value) :
    stripComment (fieldLine key value) = .ok (fieldLine key value) := by
  apply stripComment_of_passes
  rw [fieldLine, passes_append, passes_append, hkey.passes (by decide), Option.bind_some,
    show passes '#' .outside " = ".toList = some .outside by decide, Option.bind_some,
    passes_render (.inl rfl)]

theorem fieldLine_ne_nil (hkey : IsKey key) (value : Value) : fieldLine key value ≠ [] := by
  rw [fieldLine, append_assoc]
  exact append_ne_nil_of_left_ne_nil hkey.ne_nil _

theorem head?_fieldLine (hkey : IsKey key) (value : Value) :
    ∀ c ∈ (fieldLine key value).head?, isKeyChar c = true := by
  intro c hc
  rw [fieldLine, append_assoc, List.head?_append_of_ne_nil _ hkey.ne_nil] at hc
  exact hkey.2 c (mem_of_mem_head? hc)

theorem trim_fieldLine (hkey : IsKey key) (value : Value) :
    trim (fieldLine key value) = fieldLine key value := by
  refine Trimmed.trim_eq ⟨fun c hc ↦ isWhitespace_of_isKeyChar (head?_fieldLine hkey value c hc), ?_⟩
  rw [fieldLine, List.getLast?_append_of_ne_nil _ (render_ne_nil value)]
  exact (trimmed_render value).2

/-- The line of a field is no header. -/
theorem parseHeader_fieldLine (hkey : IsKey key) (value : Value) :
    parseHeader (fieldLine key value) = .ok none := by
  rw [parseHeader, if_pos]
  intro hhead
  have := head?_fieldLine hkey value _ hhead
  exact absurd this (by decide)

/-- The line of a field is read as its key and what is written for its value. -/
theorem parseAssignment_fieldLine (hkey : IsKey key) (value : Value) :
    parseAssignment (fieldLine key value) = do return (key, ← parseValue (render value)) := by
  have hbreak : breakAt '=' .outside (fieldLine key value) =
      (key.toList ++ [' '], .outside, '=' :: ' ' :: render value) := by
    have hpasses : passes '=' .outside (key.toList ++ [' ']) = some .outside := by
      rw [passes_append, hkey.passes (by decide)]
      rfl
    rw [fieldLine, show " = ".toList = [' '] ++ ['=', ' '] from rfl, ← append_assoc,
      append_assoc, breakAt_append hpasses]
    simp [breakAt, Quote.outside]
  rw [parseAssignment, hbreak]
  simp only [hkey.trimmed.trim_concat_space hkey.ne_nil, trim_space_cons,
    (trimmed_render value).trim_eq, render_ne_nil, if_false, String.ofList_toList]
  rw [if_neg]
  rintro (h | h)
  · exact hkey.ne_nil h
  · exact h (all_eq_true.mpr hkey.2)

end KaduoxSsh.Hosts.Toml
