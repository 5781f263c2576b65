import KaduoxSsh.Lib.Scan
import KaduoxSsh.Lib.Words

/-!
# The lexer of command lines

`lex_segments` of `command_classify.rs`: one pass over the bytes of a command
line that cuts it at `;`, `&&`, `||`, `|`, `&` and line ends outside quotes, and
notes for each segment whether it redirects its output to a file. A segment
borrows its text from the command, so here it is a range of the command's bytes.
-/

namespace KaduoxSsh.Desktop

open Text

/-- A part of a command line, and whether it writes to a file by a redirect. -/
structure Segment where
  start : Nat
  stop : Nat
  hasWriteRedirect : Bool
deriving DecidableEq, Repr

/-- The text that a segment borrows from its command. -/
def Segment.text (command : String) (segment : Segment) : String :=
  (slice command segment.start segment.stop).getD ""

/-- The variables of the lexer's loop. -/
structure LexState where
  i : Nat
  start : Nat
  inSingle : Bool
  inDouble : Bool
  hasWrite : Bool
  prevWordTail : Option UInt8
  segments : List Segment
deriving DecidableEq, Repr

namespace LexState

def init : LexState where
  i := 0
  start := 0
  inSingle := false
  inDouble := false
  hasWrite := false
  prevWordTail := none
  segments := []

/-- A segment ends before the current byte, and the next one starts behind the operator. -/
def splitHere (s : LexState) (advance : Nat) : LexState :=
  { s with
    segments := s.segments ++ [⟨s.start, s.i, s.hasWrite⟩]
    hasWrite := false
    i := s.i + advance
    start := s.i + advance
    prevWordTail := none }

/-- What follows a `>` outside quotes. -/
def redirect (s : LexState) (bytes : List UInt8) : LexState :=
  let next := bytes[s.i + 1]?
  let isStderrFd := s.prevWordTail == some (byte '2')
  if next = some (byte '&') then
    -- `>&2` and `>&-` copy or close a descriptor; `>&file` writes to a file.
    let fdCopy := match bytes[s.i + 2]? with
      | some c => (byte '0' ≤ c && c ≤ byte '9') || c == byte '-'
      | none => false
    { s with hasWrite := s.hasWrite || !fdCopy, i := s.i + 2, prevWordTail := none }
  else if next = some (byte '>') then
    { s with hasWrite := s.hasWrite || !isStderrFd, i := s.i + 2, prevWordTail := none }
  else
    { s with hasWrite := s.hasWrite || !isStderrFd, i := s.i + 1, prevWordTail := none }

/-- The loop's body at a byte outside quotes. -/
def bare (s : LexState) (bytes : List UInt8) (b : UInt8) : LexState :=
  let next := bytes[s.i + 1]?
  if b = byte '\\' then { s with prevWordTail := next, i := s.i + 2 }
  else if b = byte '\'' then { s with inSingle := true, i := s.i + 1 }
  else if b = byte '"' then { s with inDouble := true, i := s.i + 1 }
  else if b = byte ';' ∨ b = byte '\n' ∨ b = byte '\r' then s.splitHere 1
  else if b = byte '&' then
    if next = some (byte '&') then s.splitHere 2
    else if next = some (byte '>') then
      { s with hasWrite := true, i := s.i + 2, prevWordTail := none }
    else s.splitHere 1
  else if b = byte '|' then
    if next = some (byte '|') then s.splitHere 2 else s.splitHere 1
  else if b = byte '>' then s.redirect bytes
  else if b = byte ' ' ∨ b = byte '\t' then { s with prevWordTail := none, i := s.i + 1 }
  else { s with prevWordTail := some b, i := s.i + 1 }

/-- The loop's body. -/
def next (bytes : List UInt8) (s : LexState) : LexState :=
  match bytes[s.i]? with
  | none => s
  | some b =>
      if s.inSingle then
        if b = byte '\'' then { s with inSingle := false, i := s.i + 1 }
        else { s with i := s.i + 1 }
      else if s.inDouble then
        if b = byte '"' then { s with inDouble := false, i := s.i + 1 }
        else if b = byte '\\' then { s with i := s.i + 2 }
        else { s with i := s.i + 1 }
      else s.bare bytes b

variable (s : LexState) (bytes : List UInt8) (b : UInt8)

theorem lt_redirect : s.i < (s.redirect bytes).i := by
  unfold redirect
  dsimp only
  repeat' first | exact Nat.lt_add_of_pos_right (by decide) | apply Scanner.lt_ite

theorem lt_bare : s.i < (s.bare bytes b).i := by
  unfold bare
  dsimp only
  repeat'
    first
    | exact Nat.lt_add_of_pos_right (by decide)
    | exact s.lt_redirect bytes
    | apply Scanner.lt_ite

theorem lt_next (hlt : s.i < bytes.length) : s.i < (s.next bytes).i := by
  unfold next
  rw [List.getElem?_eq_getElem hlt]
  dsimp only
  repeat'
    first
    | exact Nat.lt_add_of_pos_right (by decide)
    | exact s.lt_bare bytes _
    | apply Scanner.lt_ite

theorem ite_le {n : Nat} {p : Prop} [Decidable p] {t u : LexState} (ht : t.i ≤ n) (hu : u.i ≤ n) :
    (if p then t else u).i ≤ n := by
  split
  · exact ht
  · exact hu

/-- A step reads at most two bytes. -/
theorem next_le : (s.next bytes).i ≤ s.i + 2 := by
  unfold next
  cases bytes[s.i]? with
  | none => exact Nat.le_add_right _ _
  | some b =>
      unfold bare redirect
      dsimp only
      repeat' first | exact Nat.add_le_add_left (by decide) _ | apply ite_le

/-! What a step does with the segments. -/

/-- A step that reads on in the current segment. -/
structure Continues (s t : LexState) : Prop where
  segments : t.segments = s.segments
  start : t.start = s.start
  hasWrite : s.hasWrite = true → t.hasWrite = true

/-- A step that ends the current segment before the current byte. -/
structure Ends (s t : LexState) : Prop where
  segments : t.segments = s.segments ++ [⟨s.start, s.i, s.hasWrite⟩]
  start : t.start = t.i
  hasWrite : t.hasWrite = false

theorem ends_splitHere (advance : Nat) : s.Ends (s.splitHere advance) := ⟨rfl, rfl, rfl⟩

theorem continues_or_ends_ite {p : Prop} [Decidable p] {t u : LexState}
    (ht : s.Continues t ∨ s.Ends t) (hu : s.Continues u ∨ s.Ends u) :
    s.Continues (if p then t else u) ∨ s.Ends (if p then t else u) := by
  split
  · exact ht
  · exact hu

theorem continues_or_ends : s.Continues (s.next bytes) ∨ s.Ends (s.next bytes) := by
  have hwrite (b : Bool) (h : s.hasWrite = true) : (s.hasWrite || b) = true := by
    rw [h, Bool.true_or]
  unfold next
  cases bytes[s.i]? with
  | none => exact .inl ⟨rfl, rfl, id⟩
  | some b =>
      unfold bare redirect
      dsimp only
      repeat'
        first
        | exact .inl ⟨rfl, rfl, id⟩
        | exact .inl ⟨rfl, rfl, hwrite _⟩
        | exact .inl ⟨rfl, rfl, fun _ ↦ rfl⟩
        | exact .inr (s.ends_splitHere _)
        | apply continues_or_ends_ite

variable {s bytes b}

theorem next_single (hb : bytes[s.i]? = some b) (hsingle : s.inSingle = true) :
    s.next bytes =
      if b = byte '\'' then { s with inSingle := false, i := s.i + 1 }
      else { s with i := s.i + 1 } := by
  rw [next, hb]
  dsimp only
  rw [if_pos hsingle]

theorem next_double (hb : bytes[s.i]? = some b) (hsingle : s.inSingle = false)
    (hdouble : s.inDouble = true) :
    s.next bytes =
      if b = byte '"' then { s with inDouble := false, i := s.i + 1 }
      else if b = byte '\\' then { s with i := s.i + 2 }
      else { s with i := s.i + 1 } := by
  rw [next, hb]
  dsimp only
  rw [if_neg (Bool.not_eq_true _ ▸ hsingle), if_pos hdouble]

theorem next_bare (hb : bytes[s.i]? = some b) (hsingle : s.inSingle = false)
    (hdouble : s.inDouble = false) : s.next bytes = s.bare bytes b := by
  rw [next, hb]
  dsimp only
  rw [if_neg (Bool.not_eq_true _ ▸ hsingle), if_neg (Bool.not_eq_true _ ▸ hdouble)]

/-- Outside quotes. -/
def Bare (s : LexState) : Prop := s.inSingle = false ∧ s.inDouble = false

instance : Decidable s.Bare := inferInstanceAs (Decidable (_ ∧ _))

/-- What the loop's body does at a byte outside quotes, case by case. -/
inductive BareStep (bytes : List UInt8) (s : LexState) (b : UInt8) : LexState → Prop
  | escape (hb : b = byte '\\') :
      BareStep bytes s b { s with prevWordTail := bytes[s.i + 1]?, i := s.i + 2 }
  | single (hb : b = byte '\'') : BareStep bytes s b { s with inSingle := true, i := s.i + 1 }
  | double (hb : b = byte '"') : BareStep bytes s b { s with inDouble := true, i := s.i + 1 }
  | separator (hb : b = byte ';' ∨ b = byte '\n' ∨ b = byte '\r') :
      BareStep bytes s b (s.splitHere 1)
  | andAnd (hb : b = byte '&') (hnext : bytes[s.i + 1]? = some (byte '&')) :
      BareStep bytes s b (s.splitHere 2)
  | andGreater (hb : b = byte '&') (hnext : bytes[s.i + 1]? = some (byte '>')) :
      BareStep bytes s b { s with hasWrite := true, i := s.i + 2, prevWordTail := none }
  | and (hb : b = byte '&') (hand : bytes[s.i + 1]? ≠ some (byte '&'))
      (hgreater : bytes[s.i + 1]? ≠ some (byte '>')) : BareStep bytes s b (s.splitHere 1)
  | pipePipe (hb : b = byte '|') (hnext : bytes[s.i + 1]? = some (byte '|')) :
      BareStep bytes s b (s.splitHere 2)
  | pipe (hb : b = byte '|') (hpipe : bytes[s.i + 1]? ≠ some (byte '|')) :
      BareStep bytes s b (s.splitHere 1)
  | greater (hb : b = byte '>') : BareStep bytes s b (s.redirect bytes)
  | blank (hb : b = byte ' ' ∨ b = byte '\t') :
      BareStep bytes s b { s with prevWordTail := none, i := s.i + 1 }
  | other (hmem : b ∉ [byte '\\', byte '\'', byte '"', byte ';', byte '\n', byte '\r', byte '&',
        byte '|', byte '>', byte ' ', byte '\t']) :
      BareStep bytes s b { s with prevWordTail := some b, i := s.i + 1 }

theorem bareStep : BareStep bytes s b (s.bare bytes b) := by
  unfold bare
  dsimp only
  by_cases hescape : b = byte '\\'
  · rw [if_pos hescape]
    exact .escape hescape
  rw [if_neg hescape]
  by_cases hsingle : b = byte '\''
  · rw [if_pos hsingle]
    exact .single hsingle
  rw [if_neg hsingle]
  by_cases hdouble : b = byte '"'
  · rw [if_pos hdouble]
    exact .double hdouble
  rw [if_neg hdouble]
  by_cases hseparator : b = byte ';' ∨ b = byte '\n' ∨ b = byte '\r'
  · rw [if_pos hseparator]
    exact .separator hseparator
  rw [if_neg hseparator]
  by_cases hand : b = byte '&'
  · rw [if_pos hand]
    by_cases hnext : bytes[s.i + 1]? = some (byte '&')
    · rw [if_pos hnext]
      exact .andAnd hand hnext
    rw [if_neg hnext]
    by_cases hnext' : bytes[s.i + 1]? = some (byte '>')
    · rw [if_pos hnext']
      exact .andGreater hand hnext'
    · rw [if_neg hnext']
      exact .and hand hnext hnext'
  rw [if_neg hand]
  by_cases hpipe : b = byte '|'
  · rw [if_pos hpipe]
    by_cases hnext : bytes[s.i + 1]? = some (byte '|')
    · rw [if_pos hnext]
      exact .pipePipe hpipe hnext
    · rw [if_neg hnext]
      exact .pipe hpipe hnext
  rw [if_neg hpipe]
  by_cases hgreater : b = byte '>'
  · rw [if_pos hgreater]
    exact .greater hgreater
  rw [if_neg hgreater]
  by_cases hblank : b = byte ' ' ∨ b = byte '\t'
  · rw [if_pos hblank]
    exact .blank hblank
  · rw [if_neg hblank]
    apply BareStep.other
    simp only [List.mem_cons, List.not_mem_nil, or_false]
    tauto

/-! What the loop's body does at the bytes of the operators. -/

theorem bare_and :
    s.bare bytes (byte '&') =
      if bytes[s.i + 1]? = some (byte '&') then s.splitHere 2
      else if bytes[s.i + 1]? = some (byte '>') then
        { s with hasWrite := true, i := s.i + 2, prevWordTail := none }
      else s.splitHere 1 := rfl

theorem bare_pipe :
    s.bare bytes (byte '|') =
      if bytes[s.i + 1]? = some (byte '|') then s.splitHere 2 else s.splitHere 1 := rfl

theorem continues_redirect : s.Continues (s.redirect bytes) := by
  unfold redirect
  dsimp only
  split_ifs
  all_goals exact ⟨rfl, rfl, fun h ↦ by rw [h, Bool.true_or]⟩

theorem bare_greater : s.bare bytes (byte '>') = s.redirect bytes := rfl

theorem bare_semicolon : s.bare bytes (byte ';') = s.splitHere 1 := rfl

theorem bare_newline : s.bare bytes (byte '\n') = s.splitHere 1 := rfl

end LexState

/-- The lexer's loop over the bytes of a command. -/
def lexer (bytes : List UInt8) : Scanner LexState where
  stop := bytes.length
  pos := LexState.i
  next := LexState.next bytes
  pos_lt_next s hlt := s.lt_next bytes hlt

/-- The segments of a command line. -/
def lexSegments (command : String) : List Segment :=
  let bytes := utf8 command
  let s := (lexer bytes).run LexState.init
  if s.start < bytes.length then s.segments ++ [⟨s.start, bytes.length, s.hasWrite⟩]
  else s.segments

end KaduoxSsh.Desktop
