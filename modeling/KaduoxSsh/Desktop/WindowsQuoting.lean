import KaduoxSsh.Desktop.Classify
import KaduoxSsh.Desktop.LexerSegments

/-!
# The quoting of `cmd.exe`

A command line for Windows is cut by the same lexer as one for a POSIX shell. For
`cmd.exe` only double quotes quote, a caret escapes, and backslashes and single
quotes are ordinary characters. So the lexer misses a separator that stands behind
a backslash or, as the POSIX rules have it, in quotes, and it takes the `&` of
`>&` and `&>` for a part of a redirect. All other separators end a segment.

Both ways to read a command line are automata here that go through it byte by
byte.
-/

namespace KaduoxSsh.Desktop

open Text

/-! ## The separators of `cmd.exe` -/

/-- How `cmd.exe` reads the next byte. -/
inductive CmdReading where
  | bare
  | escaped
  | quoted
deriving DecidableEq, Repr

/-- A caret outside quotes escapes the next byte, and quotes end with the line. -/
def CmdReading.step (reading : CmdReading) (b : UInt8) : CmdReading :=
  match reading with
  | .bare => if b = byte '^' then .escaped else if b = byte '"' then .quoted else .bare
  | .escaped => .bare
  | .quoted => if b = byte '"' ∨ b = byte '\n' then .bare else .quoted

/-- Whether there is a `&` or `|` at a place that is neither in double quotes nor escaped. -/
def isCmdSeparator (bytes : List UInt8) (p : Nat) : Bool :=
  stateAt CmdReading.step .bare bytes p == .bare &&
    (bytes[p]? == some (byte '&') || bytes[p]? == some (byte '|'))

/-- The byte at a place ends a segment, alone or as the second one of an operator, and no segment
reaches across it. -/
def EndsSegment (bytes : List UInt8) (p : Nat) : Prop :=
  (∃ segment ∈ segmentsIn bytes, segment.stop = p ∨ segment.stop + 1 = p) ∧
    ∀ segment ∈ segmentsIn bytes, ¬segment.Covers p

/-- What follows a separator is a segment of its own, and is classified as one. -/
def CutAt [Alphabetic] (command : String) (p : Nat) : Prop :=
  EndsSegment (utf8 command) p ∧
    ∀ segment ∈ lexSegments command, segment.Covers (p + 1) →
      segment.start = p + 1 ∧
        classifyWindowsSegment (segment.text command) segment.hasWriteRedirect ≤
          classifyCommandFor command .windows

/-- A command line is cut at every separator of `cmd.exe`. -/
def CutAtSeparators [Alphabetic] (command : String) : Prop :=
  ∀ p, isCmdSeparator (utf8 command) p = true → CutAt command p

/-! ## The same line for a POSIX shell -/

/-- How a POSIX shell reads the next byte: outside quotes, perhaps behind the first byte of an
operator that may have two, escaped, or in quotes. -/
inductive PosixReading where
  | bare
  | behindAnd
  | behindPipe
  | behindGreater
  | escaped
  | single
  | double
  | doubleEscaped
deriving DecidableEq, Repr

namespace PosixReading

/-- Outside quotes, at the first byte of an operator or elsewhere. -/
def stepBare (b : UInt8) : PosixReading :=
  if b = byte '\\' then .escaped
  else if b = byte '\'' then .single
  else if b = byte '"' then .double
  else if b = byte '&' then .behindAnd
  else if b = byte '|' then .behindPipe
  else if b = byte '>' then .behindGreater
  else .bare

def step (reading : PosixReading) (b : UInt8) : PosixReading :=
  match reading with
  | .bare => stepBare b
  | .behindAnd => if b = byte '&' ∨ b = byte '>' then .bare else stepBare b
  | .behindPipe => if b = byte '|' then .bare else stepBare b
  | .behindGreater => if b = byte '&' ∨ b = byte '>' then .bare else stepBare b
  | .escaped => .bare
  | .single => if b = byte '\'' then .bare else .single
  | .double => if b = byte '"' then .bare else if b = byte '\\' then .doubleEscaped else .double
  | .doubleEscaped => .double

/-- Whether a `&` or `|` that is read in some way separates nothing: it is quoted or escaped, or it
is the `&` of `>&` or of `&>`. -/
def hides (reading : PosixReading) (b : UInt8) (next : Option UInt8) : Bool :=
  match reading with
  | .bare | .behindPipe => b == byte '&' && next == some (byte '>')
  | .behindAnd => false
  | .behindGreater => b == byte '&'
  | .escaped | .single | .double | .doubleEscaped => true

end PosixReading

/-- How a POSIX shell reads the byte at a place. -/
def posixReading (bytes : List UInt8) (p : Nat) : PosixReading :=
  stateAt PosixReading.step .bare bytes p

theorem posixReading_succ {bytes : List UInt8} {p : Nat} {b : UInt8} (hb : bytes[p]? = some b) :
    posixReading bytes (p + 1) = (posixReading bytes p).step b := stateAt_succ hb

/-- Whether a POSIX shell takes the `&` or `|` at a place for something else than a separator. -/
def hiddenFromPosix (bytes : List UInt8) (p : Nat) : Bool :=
  (posixReading bytes p).hides (bytes[p]?.getD 0) bytes[p + 1]?

/-! ## The lexer reads as a POSIX shell -/

/-- The reading that the lexer is in. Outside quotes it has looked ahead, so that the current byte
does not belong to the operator before it. -/
def LexState.ReadsAs (bytes : List UInt8) (s : LexState) (reading : PosixReading) : Prop :=
  if s.inSingle = true then reading = .single ∧ s.inDouble = false
  else if s.inDouble = true then reading = .double
  else reading ∈ [.bare, .behindAnd, .behindPipe, .behindGreater] ∧
    ∀ b, bytes[s.i]? = some b → reading.step b = .stepBare b

namespace LexState

variable {bytes : List UInt8} {s t : LexState} {reading : PosixReading} {b : UInt8}

theorem readsAs_single (hsingle : s.inSingle = true) :
    s.ReadsAs bytes reading ↔ reading = .single ∧ s.inDouble = false := by
  rw [ReadsAs, if_pos hsingle]

theorem readsAs_double (hsingle : s.inSingle = false) (hdouble : s.inDouble = true) :
    s.ReadsAs bytes reading ↔ reading = .double := by
  rw [ReadsAs, if_neg (Bool.not_eq_true _ ▸ hsingle), if_pos hdouble]

theorem readsAs_bare (hsingle : s.inSingle = false) (hdouble : s.inDouble = false) :
    s.ReadsAs bytes reading ↔ reading ∈ [.bare, .behindAnd, .behindPipe, .behindGreater] ∧
      ∀ b, bytes[s.i]? = some b → reading.step b = .stepBare b := by
  rw [ReadsAs, if_neg (Bool.not_eq_true _ ▸ hsingle), if_neg (Bool.not_eq_true _ ▸ hdouble)]

theorem readsAs_of_bare (hsingle : s.inSingle = false) (hdouble : s.inDouble = false) :
    s.ReadsAs bytes .bare :=
  (readsAs_bare hsingle hdouble).mpr ⟨List.mem_cons_self, fun _ _ ↦ rfl⟩

/-- One byte, after which the lexer is outside quotes. -/
theorem readsAs_succ (hb : bytes[s.i]? = some b) (hpos : t.i = s.i + 1)
    (hsingle : t.inSingle = false) (hdouble : t.inDouble = false)
    (hmem : (posixReading bytes s.i).step b ∈ [.bare, .behindAnd, .behindPipe, .behindGreater])
    (hnext : ∀ c, bytes[s.i + 1]? = some c →
      ((posixReading bytes s.i).step b).step c = .stepBare c) :
    t.ReadsAs bytes (posixReading bytes t.i) := by
  rw [readsAs_bare hsingle hdouble, hpos, posixReading_succ hb]
  exact ⟨hmem, hnext⟩

/-- One byte, after which the lexer is in single quotes. -/
theorem readsAs_succ_single (hb : bytes[s.i]? = some b) (hpos : t.i = s.i + 1)
    (hsingle : t.inSingle = true) (hdouble : t.inDouble = false)
    (hstep : (posixReading bytes s.i).step b = .single) :
    t.ReadsAs bytes (posixReading bytes t.i) := by
  rw [readsAs_single hsingle, hpos, posixReading_succ hb]
  exact ⟨hstep, hdouble⟩

/-- One byte, after which the lexer is in double quotes. -/
theorem readsAs_succ_double (hb : bytes[s.i]? = some b) (hpos : t.i = s.i + 1)
    (hsingle : t.inSingle = false) (hdouble : t.inDouble = true)
    (hstep : (posixReading bytes s.i).step b = .double) :
    t.ReadsAs bytes (posixReading bytes t.i) := by
  rw [readsAs_double hsingle hdouble, hpos, posixReading_succ hb]
  exact hstep

/-- One byte, after which a shell is outside quotes and in no operator. -/
theorem readsAs_succ_bare (hb : bytes[s.i]? = some b) (hpos : t.i = s.i + 1)
    (hsingle : t.inSingle = false) (hdouble : t.inDouble = false)
    (hbare : (posixReading bytes s.i).step b = .bare) :
    t.ReadsAs bytes (posixReading bytes t.i) := by
  rw [hpos, posixReading_succ hb, hbare]
  exact readsAs_of_bare hsingle hdouble

/-- Two bytes outside quotes that belong together. -/
theorem readsAs_succ_succ {c : UInt8} (hb : bytes[s.i]? = some b) (hc : bytes[s.i + 1]? = some c)
    (hpos : t.i = s.i + 2) (hsingle : t.inSingle = false) (hdouble : t.inDouble = false)
    (hbare : ((posixReading bytes s.i).step b).step c = .bare) :
    t.ReadsAs bytes (posixReading bytes t.i) := by
  rw [hpos, posixReading_succ hc, posixReading_succ hb, hbare]
  exact readsAs_of_bare hsingle hdouble

/-- A shell is in quotes or behind a backslash after the lexer has come to the last byte. -/
theorem exists_getElem? {p : Nat} (hlt : p < bytes.length) : ∃ c, bytes[p]? = some c :=
  ⟨bytes[p], List.getElem?_eq_getElem hlt⟩

theorem readsAs_redirect (hb : bytes[s.i]? = some (byte '>')) (hsingle : s.inSingle = false)
    (hdouble : s.inDouble = false)
    (hreads : (posixReading bytes s.i).step (byte '>') = .behindGreater) :
    (s.redirect bytes).ReadsAs bytes (posixReading bytes (s.redirect bytes).i) := by
  unfold redirect
  dsimp only
  split_ifs with hcopy happend
  · exact readsAs_succ_succ hb hcopy rfl hsingle hdouble (hreads ▸ rfl)
  · exact readsAs_succ_succ hb happend rfl hsingle hdouble (hreads ▸ rfl)
  · refine readsAs_succ hb rfl hsingle hdouble ?_ ?_
    · rw [hreads]
      decide
    · intro c hc
      rw [hreads]
      rw [hc, Option.some.injEq] at hcopy happend
      exact if_neg (not_or.mpr ⟨hcopy, happend⟩)

theorem stepBare_of_not_mem (hmem : b ∉ [byte '\\', byte '\'', byte '"', byte '&', byte '|',
    byte '>']) : PosixReading.stepBare b = .bare := by
  simp only [List.mem_cons, List.not_mem_nil, or_false, not_or] at hmem
  obtain ⟨hescape, hsingle, hdouble, hand, hpipe, hgreater⟩ := hmem
  rw [PosixReading.stepBare, if_neg hescape, if_neg hsingle, if_neg hdouble, if_neg hand,
    if_neg hpipe, if_neg hgreater]

theorem readsAs_next_bare (hb : bytes[s.i]? = some b) (hsingle : s.inSingle = false)
    (hdouble : s.inDouble = false) (hreads : (posixReading bytes s.i).step b = .stepBare b)
    (hlt : (s.bare bytes b).i < bytes.length) :
    (s.bare bytes b).ReadsAs bytes (posixReading bytes (s.bare bytes b).i) := by
  have hstep : BareStep bytes s b (s.bare bytes b) := bareStep
  generalize s.bare bytes b = t at hstep hlt
  cases hstep with
  | escape hescape =>
      subst hescape
      obtain ⟨c, hc⟩ := exists_getElem? (show s.i + 1 < bytes.length from Nat.lt_of_succ_lt hlt)
      exact readsAs_succ_succ hb hc rfl hsingle hdouble (hreads ▸ rfl)
  | single hquote =>
      subst hquote
      exact readsAs_succ_single hb rfl rfl hdouble hreads
  | double hquote =>
      subst hquote
      exact readsAs_succ_double hb rfl hsingle rfl hreads
  | separator hseparator =>
      refine readsAs_succ_bare hb rfl hsingle hdouble ?_
      rw [hreads]
      rcases hseparator with rfl | rfl | rfl <;> rfl
  | andAnd hand hnext =>
      subst hand
      exact readsAs_succ_succ hb hnext rfl hsingle hdouble (hreads ▸ rfl)
  | andGreater hand hnext =>
      subst hand
      exact readsAs_succ_succ hb hnext rfl hsingle hdouble (hreads ▸ rfl)
  | and hand hnext hnext' =>
      subst hand
      refine readsAs_succ hb rfl hsingle hdouble ?_ ?_
      · rw [hreads]
        decide
      · intro c hc
        rw [hreads]
        rw [hc, ne_eq, Option.some.injEq] at hnext hnext'
        exact if_neg (not_or.mpr ⟨hnext, hnext'⟩)
  | pipePipe hpipe hnext =>
      subst hpipe
      exact readsAs_succ_succ hb hnext rfl hsingle hdouble (hreads ▸ rfl)
  | pipe hpipe hnext =>
      subst hpipe
      refine readsAs_succ hb rfl hsingle hdouble ?_ ?_
      · rw [hreads]
        decide
      · intro c hc
        rw [hreads]
        rw [hc, ne_eq, Option.some.injEq] at hnext
        exact if_neg hnext
  | greater hgreater =>
      subst hgreater
      exact readsAs_redirect hb hsingle hdouble hreads
  | blank hblank =>
      refine readsAs_succ_bare hb rfl hsingle hdouble ?_
      rw [hreads]
      rcases hblank with rfl | rfl <;> rfl
  | other hmem =>
      refine readsAs_succ_bare hb rfl hsingle hdouble ?_
      rw [hreads]
      apply stepBare_of_not_mem
      exact fun h ↦ hmem (by revert h; simp; tauto)

theorem readsAs_next (h : s.ReadsAs bytes (posixReading bytes s.i)) (hlt : s.i < bytes.length)
    (hlt' : (s.next bytes).i < bytes.length) :
    (s.next bytes).ReadsAs bytes (posixReading bytes (s.next bytes).i) := by
  obtain ⟨b, hb⟩ := exists_getElem? hlt
  by_cases hsingle : s.inSingle = true
  · obtain ⟨hreading, hdouble⟩ := (readsAs_single hsingle).mp h
    rw [next_single hb hsingle]
    have hstep : (posixReading bytes s.i).step b = PosixReading.single.step b := by rw [hreading]
    by_cases hquote : b = byte '\''
    · rw [if_pos hquote]
      exact readsAs_succ_bare hb rfl rfl hdouble (hstep.trans (if_pos hquote))
    · rw [if_neg hquote]
      exact readsAs_succ_single hb rfl hsingle hdouble (hstep.trans (if_neg hquote))
  rw [Bool.not_eq_true] at hsingle
  by_cases hdouble : s.inDouble = true
  · have hreading := (readsAs_double hsingle hdouble).mp h
    have hstep : (posixReading bytes s.i).step b = PosixReading.double.step b := by rw [hreading]
    rw [next_double hb hsingle hdouble] at hlt' ⊢
    by_cases hquote : b = byte '"'
    · rw [if_pos hquote]
      exact readsAs_succ_bare hb rfl hsingle rfl (hstep.trans (if_pos hquote))
    rw [if_neg hquote] at hlt' ⊢
    by_cases hescape : b = byte '\\'
    · rw [if_pos hescape] at hlt' ⊢
      obtain ⟨c, hc⟩ := exists_getElem? (show s.i + 1 < bytes.length from Nat.lt_of_succ_lt hlt')
      have hreading' : posixReading bytes (s.i + 1 + 1) = .double := by
        rw [posixReading_succ hc, posixReading_succ hb, hstep, hescape]
        rfl
      exact (readsAs_double (s := { s with i := s.i + 2 }) hsingle hdouble).mpr hreading'
    · rw [if_neg hescape]
      refine readsAs_succ_double hb rfl hsingle hdouble ?_
      exact hstep.trans ((if_neg hquote).trans (if_neg hescape))
  rw [Bool.not_eq_true] at hdouble
  rw [next_bare hb hsingle hdouble] at hlt' ⊢
  exact readsAs_next_bare hb hsingle hdouble (((readsAs_bare hsingle hdouble).mp h).2 b hb) hlt'

/-! ## A separator and its round -/

theorem hiddenFromPosix_eq {p : Nat} (hb : bytes[p]? = some b) :
    hiddenFromPosix bytes p = (posixReading bytes p).hides b bytes[p + 1]? := by
  rw [hiddenFromPosix, hb, Option.getD_some]

/-- Outside quotes and operators only the `&` of `&>` separates nothing. -/
theorem hides_of_bare {next : Option UInt8} (hseparator : b = byte '&' ∨ b = byte '|')
    (hmem : reading ∈ [.bare, .behindAnd, .behindPipe, .behindGreater])
    (hreads : reading.step b = .stepBare b) :
    reading.hides b next = (b == byte '&' && next == some (byte '>')) := by
  simp only [List.mem_cons, List.not_mem_nil, or_false] at hmem
  rcases hmem with rfl | rfl | rfl | rfl
  · rfl
  · rcases hseparator with rfl | rfl
    · exact absurd hreads (by decide)
    · rfl
  · rfl
  · rcases hseparator with rfl | rfl
    · exact absurd hreads (by decide)
    · rfl

/-- At a `&` or `|` outside quotes the lexer ends a segment, unless it is the `&` of `&>`. -/
theorem ends_or_hidden_bare (hb : bytes[s.i]? = some b) (hseparator : b = byte '&' ∨ b = byte '|')
    (hmem : posixReading bytes s.i ∈ [.bare, .behindAnd, .behindPipe, .behindGreater])
    (hreads : (posixReading bytes s.i).step b = .stepBare b) :
    s.Ends (s.bare bytes b) ∧ hiddenFromPosix bytes s.i = false ∨
      s.Continues (s.bare bytes b) ∧ hiddenFromPosix bytes s.i = true := by
  rw [hiddenFromPosix_eq hb, hides_of_bare hseparator hmem hreads]
  rcases hseparator with rfl | rfl
  · rw [bare_and]
    by_cases hand : bytes[s.i + 1]? = some (byte '&')
    · left
      rw [if_pos hand, hand]
      exact ⟨s.ends_splitHere 2, rfl⟩
    rw [if_neg hand]
    by_cases hgreater : bytes[s.i + 1]? = some (byte '>')
    · right
      rw [if_pos hgreater, hgreater]
      exact ⟨⟨rfl, rfl, fun _ ↦ rfl⟩, rfl⟩
    · left
      rw [if_neg hgreater]
      exact ⟨s.ends_splitHere 1, by simp [hgreater]⟩
  · left
    rw [bare_pipe]
    split_ifs
    all_goals exact ⟨s.ends_splitHere _, rfl⟩

/-- At the second byte of a round outside quotes a `&` or `|` belongs to the operator that ends the
segment, or it is escaped, or the `&` of `>&`. -/
theorem ends_or_hidden_second {b₀ : UInt8} (hb₀ : bytes[s.i]? = some b₀)
    (hb : bytes[s.i + 1]? = some b) (hseparator : b = byte '&' ∨ b = byte '|')
    (hreads : (posixReading bytes s.i).step b₀ = .stepBare b₀)
    (hround : s.i + 1 < (s.bare bytes b₀).i) :
    s.Ends (s.bare bytes b₀) ∧ hiddenFromPosix bytes (s.i + 1) = false ∨
      s.Continues (s.bare bytes b₀) ∧ hiddenFromPosix bytes (s.i + 1) = true := by
  have hstep : BareStep bytes s b₀ (s.bare bytes b₀) := bareStep
  rw [hiddenFromPosix_eq hb, posixReading_succ hb₀, hreads]
  generalize s.bare bytes b₀ = t at hstep hround
  cases hstep with
  | escape hescape =>
      subst hescape
      exact .inr ⟨⟨rfl, rfl, id⟩, rfl⟩
  | andAnd hand hnext =>
      subst hand
      exact .inl ⟨s.ends_splitHere 2, rfl⟩
  | pipePipe hpipe hnext =>
      subst hpipe
      rw [hnext, Option.some.injEq] at hb
      subst hb
      exact .inl ⟨s.ends_splitHere 2, rfl⟩
  | andGreater hand hnext =>
      rw [hnext, Option.some.injEq] at hb
      subst hb
      exact absurd hseparator (by decide)
  | greater hgreater =>
      subst hgreater
      right
      refine ⟨continues_redirect, ?_⟩
      unfold redirect at hround
      dsimp only at hround
      split_ifs at hround with hcopy happend
      · rw [hcopy, Option.some.injEq] at hb
        subst hb
        rfl
      · rw [happend, Option.some.injEq] at hb
        subst hb
        exact absurd hseparator (by decide)
      · exact absurd hround (Nat.lt_irrefl _)
  | single hb | double hb | separator hb | and hb | pipe hb | blank hb | other hb =>
      exact absurd hround (Nat.lt_irrefl _)

theorem ends_or_hidden {p : Nat} (h : s.ReadsAs bytes (posixReading bytes s.i))
    (hlt : s.i < bytes.length) (hp : s.i ≤ p) (hp' : p < (s.next bytes).i)
    (hb : bytes[p]? = some b) (hseparator : b = byte '&' ∨ b = byte '|') :
    s.Ends (s.next bytes) ∧ hiddenFromPosix bytes p = false ∨
      s.Continues (s.next bytes) ∧ hiddenFromPosix bytes p = true := by
  have hwidth := s.next_le bytes
  obtain ⟨b₀, hb₀⟩ := exists_getElem? hlt
  by_cases hsingle : s.inSingle = true
  · right
    obtain ⟨hreading, -⟩ := (readsAs_single hsingle).mp h
    rw [next_single hb₀ hsingle] at hp' ⊢
    have hfirst : p = s.i := by
      split_ifs at hp'
      all_goals exact Nat.le_antisymm (Nat.le_of_lt_succ hp') hp
    rw [hfirst, hiddenFromPosix_eq hb₀, hreading]
    refine ⟨?_, rfl⟩
    split_ifs
    all_goals exact ⟨rfl, rfl, id⟩
  rw [Bool.not_eq_true] at hsingle
  by_cases hdouble : s.inDouble = true
  · right
    have hreading := (readsAs_double hsingle hdouble).mp h
    rw [next_double hb₀ hsingle hdouble] at hp' ⊢
    constructor
    · split_ifs
      all_goals exact ⟨rfl, rfl, id⟩
    rcases Nat.eq_or_lt_of_le hp with rfl | hsecond
    · rw [hiddenFromPosix_eq hb, hreading]
      rfl
    · -- Only a backslash is read together with the byte behind it.
      split_ifs at hp' with hquote hescape
      · exact absurd hp' (Nat.not_lt_of_le hsecond)
      · have hp'' : p = s.i + 1 := Nat.le_antisymm (Nat.le_of_lt_succ hp') hsecond
        subst hp''
        rw [hiddenFromPosix_eq hb, posixReading_succ hb₀, hreading, hescape]
        rfl
      · exact absurd hp' (Nat.not_lt_of_le hsecond)
  rw [Bool.not_eq_true] at hdouble
  obtain ⟨hmem, hreads⟩ := (readsAs_bare hsingle hdouble).mp h
  rw [next_bare hb₀ hsingle hdouble] at hp' hwidth ⊢
  rcases Nat.eq_or_lt_of_le hp with rfl | hsecond
  · rw [hb₀, Option.some.injEq] at hb
    subst hb
    exact ends_or_hidden_bare hb₀ hseparator hmem (hreads b₀ hb₀)
  · have hp'' : p = s.i + 1 := by omega
    subst hp''
    exact ends_or_hidden_second hb₀ hb hseparator (hreads b₀ hb₀) hp'

end LexState

/-! ## The separators of a command line -/

/-- A `&` or `|` ends a segment exactly if it is a separator for a POSIX shell too. -/
theorem endsSegment_iff {bytes : List UInt8} {p : Nat} {b : UInt8} (hb : bytes[p]? = some b)
    (hseparator : b = byte '&' ∨ b = byte '|') :
    EndsSegment bytes p ↔ hiddenFromPosix bytes p = false := by
  obtain ⟨hlt, -⟩ := List.getElem?_eq_some_iff.mp hb
  obtain ⟨s, hmem, hp, hp'⟩ := (lexer bytes).exists_round (s := LexState.init) (Nat.zero_le p) hlt
  have hreads : s.ReadsAs bytes (posixReading bytes s.i) := by
    have htrace := (lexer bytes).trace_invariant (s := LexState.init)
      (P := fun s ↦ s.i < bytes.length → s.ReadsAs bytes (posixReading bytes s.i))
      (fun _ ↦ LexState.readsAs_of_bare rfl rfl) fun s hmem h hlt' ↦
        let hlt := (lexer bytes).pos_lt_of_mem_trace hmem
        LexState.readsAs_next (h hlt) hlt hlt'
    exact htrace.1 s hmem ((lexer bytes).pos_lt_of_mem_trace hmem)
  have hwidth : p < s.i + 2 := hp'.trans_le (s.next_le bytes)
  rcases LexState.ends_or_hidden hreads ((lexer bytes).pos_lt_of_mem_trace hmem) hp hp' hb
    hseparator with ⟨hends, hhidden⟩ | ⟨hcontinues, hhidden⟩
  · obtain ⟨⟨segment, hsegment, hstop⟩, hcovers⟩ := not_covers hmem hends hp hp'
    refine iff_of_true ⟨⟨segment, hsegment, ?_⟩, hcovers⟩ hhidden
    change s.i ≤ p at hp
    omega
  · obtain ⟨segment, hsegment, hcovers, -⟩ := exists_covers hmem hcontinues hp hp' hlt
    refine iff_of_false (fun hends ↦ hends.2 segment hsegment hcovers) ?_
    rw [hhidden]
    exact Bool.noConfusion

/-- The risk of a command line is at least that of each segment. -/
theorem classifyWindowsSegment_le [Alphabetic] {command : String} {segment : Segment}
    (hmem : segment ∈ lexSegments command) :
    classifyWindowsSegment (segment.text command) segment.hasWriteRedirect ≤
      classifyCommandFor command .windows := by
  show _ ≤ classifyWith classifyWindowsSegment command
  unfold classifyWith
  split_ifs
  · exact RiskLevel.le_dangerous _
  · exact RiskLevel.le_dangerous _
  · exact RiskLevel.le_highest (List.mem_map_of_mem hmem)

/-- A command line is cut at a `&` or `|` exactly if that is a separator for a POSIX shell too. -/
theorem cutAt_iff [Alphabetic] {command : String} {p : Nat} {b : UInt8}
    (hb : (utf8 command)[p]? = some b) (hseparator : b = byte '&' ∨ b = byte '|') :
    CutAt command p ↔ hiddenFromPosix (utf8 command) p = false := by
  rw [CutAt, ← endsSegment_iff hb hseparator, and_iff_left_iff_imp]
  rintro ⟨-, hnot⟩ segment hmem ⟨hstart, hstop⟩
  refine ⟨?_, classifyWindowsSegment_le hmem⟩
  by_contra hne
  exact hnot segment hmem ⟨by omega, by omega⟩

/-- What `cmd.exe` separates is cut, and classified by itself, exactly if no separator is quoted or
escaped for a POSIX shell or belongs to a redirect. -/
theorem cutAtSeparators_iff [Alphabetic] (command : String) :
    CutAtSeparators command ↔
      ∀ p, isCmdSeparator (utf8 command) p = true → hiddenFromPosix (utf8 command) p = false := by
  apply forall₂_congr
  intro p hp
  rw [isCmdSeparator, Bool.and_eq_true, Bool.or_eq_true, beq_iff_eq, beq_iff_eq, beq_iff_eq] at hp
  rcases hp.2 with hand | hpipe
  · exact cutAt_iff hand (.inl rfl)
  · exact cutAt_iff hpipe (.inr rfl)

/-- The backslash at the end of a path hides the separator, and with it the deletion behind it. -/
theorem backslash_hides_del :
    ¬@CutAtSeparators asciiAlphabetic "dir C:\\& del /q x" ∧
      @classifyCommandFor asciiAlphabetic "dir C:\\& del /q x" .windows = .readOnly ∧
      @classifyCommandFor asciiAlphabetic "del /q x" .windows = .delete := by
  refine ⟨fun h ↦ ?_, by decide, by decide⟩
  have hends := (h 7 (by decide)).1.2
  revert hends
  decide

end KaduoxSsh.Desktop
