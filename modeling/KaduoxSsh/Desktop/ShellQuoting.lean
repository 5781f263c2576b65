import KaduoxSsh.Desktop.ShellSyntax
import KaduoxSsh.Desktop.WriteRedirect

/-!
# The quoting of the shell

What the lexer is meant to agree with: how a shell reads a command line. The
reader here knows the four forms of quoting and the operators, of which `;`, `&`,
`|`, `&&`, `||` and the line end separate commands and the others redirect. On a
command line with `KnownSyntax`, in which nothing is grouped and no command starts
with a reserved word, what stands between the separators are the simple commands.

The lexer has no form of its own for `$'…'`: it reads the single quotes and knows
no backslash inside them. It also ends a segment at a carriage return and inside
the operators `>|` and `<&`, where the shell does not end a command. On a command
line with none of these, lexer and shell read the same commands.
-/

namespace KaduoxSsh.Desktop

open Text

namespace Shell

/-- What a shell has read of a command line. -/
structure State where
  i : Nat
  start : Nat
  quoting : Quoting
  separators : List Nat
  commands : List (Nat × Nat)
deriving DecidableEq, Repr

namespace State

def init : State where
  i := 0
  start := 0
  quoting := .bare false
  separators := []
  commands := []

/-- Some bytes of a command are read. -/
def take (s : State) (width : Nat) (quoting : Quoting) : State :=
  { s with i := s.i + width, quoting }

/-- A separator is read, and the command before it is complete. -/
def separate (s : State) (width : Nat) : State where
  i := s.i + width
  start := s.i + width
  quoting := .bare false
  separators := s.separators ++ [s.i]
  commands := s.commands ++ [(s.start, s.i)]

/-- A byte outside quotes. -/
def bare (s : State) (bytes : List UInt8) (b : UInt8) (dollar : Bool) : State :=
  let next := bytes[s.i + 1]?
  if b = byte '\\' then
    -- A backslash at the end of a line is removed with the line end.
    if next = some (byte '\n') then s.take 2 (.bare dollar) else s.take 2 (.bare false)
  else if b = byte '\'' then if dollar then s.take 1 .ansiC else s.take 1 .single
  else if b = byte '"' then s.take 1 .double
  else if b = byte ';' ∨ b = byte '\n' then s.separate 1
  else if b = byte '&' then
    if next = some (byte '&') then s.separate 2
    else if next = some (byte '>') then s.take 2 (.bare false)
    else s.separate 1
  else if b = byte '|' then
    if next = some (byte '|') then s.separate 2 else s.separate 1
  else if b = byte '>' then
    if next ∈ [some (byte '&'), some (byte '>'), some (byte '|')] then s.take 2 (.bare false)
    else s.take 1 (.bare false)
  else if b = byte '<' then
    if next = some (byte '&') then s.take 2 (.bare false) else s.take 1 (.bare false)
  -- `$$` is an expansion by itself.
  else if b = byte '$' then s.take 1 (.bare !dollar)
  else s.take 1 (.bare false)

/-- What a backslash escapes inside double quotes. -/
def isEscapable (next : Option UInt8) : Bool :=
  [some (byte '$'), some (byte '`'), some (byte '"'), some (byte '\\'), some (byte '\n')].contains
    next

/-- The next bytes, in the quotes that they stand in. -/
def next (bytes : List UInt8) (s : State) : State :=
  match bytes[s.i]? with
  | none => s
  | some b =>
      match s.quoting with
      | .bare dollar => s.bare bytes b dollar
      | .single => if b = byte '\'' then s.take 1 (.bare false) else s.take 1 .single
      | .double =>
          if b = byte '"' then s.take 1 (.bare false)
          else if b = byte '\\' ∧ isEscapable bytes[s.i + 1]? then s.take 2 .double
          else s.take 1 .double
      | .ansiC =>
          if b = byte '\'' then s.take 1 (.bare false)
          else if b = byte '\\' then s.take 2 .ansiC
          else s.take 1 .ansiC

variable (s : State) (bytes : List UInt8) (b : UInt8)

theorem lt_take {width : Nat} (hwidth : 0 < width) (quoting : Quoting) :
    s.i < (s.take width quoting).i := Nat.lt_add_of_pos_right hwidth

theorem lt_separate {width : Nat} (hwidth : 0 < width) : s.i < (s.separate width).i :=
  Nat.lt_add_of_pos_right hwidth

theorem lt_bare (dollar : Bool) : s.i < (s.bare bytes b dollar).i := by
  unfold bare
  dsimp only
  repeat'
    first
    | exact s.lt_take (by decide) _
    | exact s.lt_separate (by decide)
    | apply Scanner.lt_ite

theorem lt_next (hlt : s.i < bytes.length) : s.i < (s.next bytes).i := by
  have hbare := s.lt_bare bytes bytes[s.i]
  unfold next
  rw [List.getElem?_eq_getElem hlt]
  cases s.quoting with
  | bare dollar => exact hbare dollar
  | single | double | ansiC =>
      dsimp only
      repeat' first | exact s.lt_take (by decide) _ | apply Scanner.lt_ite

variable {s bytes b}

theorem next_double (hb : bytes[s.i]? = some b) (hquoting : s.quoting = .double) :
    s.next bytes =
      if b = byte '"' then s.take 1 (.bare false)
      else if b = byte '\\' ∧ isEscapable bytes[s.i + 1]? then s.take 2 .double
      else s.take 1 .double := by
  rw [next, hb, hquoting]

theorem next_ansiC (hb : bytes[s.i]? = some b) (hquoting : s.quoting = .ansiC) :
    s.next bytes =
      if b = byte '\'' then s.take 1 (.bare false)
      else if b = byte '\\' then s.take 2 .ansiC
      else s.take 1 .ansiC := by
  rw [next, hb, hquoting]

end State

/-- The shell's reader of a command line. -/
def reader (bytes : List UInt8) : Scanner State where
  stop := bytes.length
  pos := State.i
  next := State.next bytes
  pos_lt_next s hlt := s.lt_next bytes hlt

/-- The places of the unquoted separators of a command line. -/
def separators (command : String) : List Nat :=
  ((reader (utf8 command)).run State.init).separators

/-- The ranges of the simple commands of a command line. -/
def simpleCommands (command : String) : List (Nat × Nat) :=
  let bytes := utf8 command
  let s := (reader bytes).run State.init
  if s.start < bytes.length then s.commands ++ [(s.start, bytes.length)] else s.commands

/-! ## What the lexer reads in another way -/

/-- A carriage return or an operator `>|` or `<&` outside quotes, or a single quote that is escaped
in an ANSI-C string. -/
def State.misread (bytes : List UInt8) (s : State) : Bool :=
  match s.quoting with
  | .bare _ =>
      bytes[s.i]? == some (byte '\r') || startsPair bytes s.i '>' '|' || startsPair bytes s.i '<' '&'
  | .ansiC => startsPair bytes s.i '\\' '\''
  | _ => false
/-- A list of simple commands, nowhere in which the shell meets something that the lexer misreads. -/
structure ReadAlike (command : String) : Prop where
  known : KnownSyntax command
  ungrouped : ∀ s ∈ (wordReader (utf8 command)).trace WordState.init,
    s.opensGroup (utf8 command) = false
  unreserved : ∀ c ∈ simpleCommands command, startsReserved ((utf8 command).drop c.1) = false
  read : ∀ s ∈ (reader (utf8 command)).trace State.init, s.misread (utf8 command) = false

instance (command : String) : Decidable (ReadAlike command) :=
  decidable_of_iff (_ ∧ _ ∧ _ ∧ _)
    ⟨fun ⟨known, ungrouped, unreserved, read⟩ ↦ ⟨known, ungrouped, unreserved, read⟩,
      fun ⟨known, ungrouped, unreserved, read⟩ ↦ ⟨known, ungrouped, unreserved, read⟩⟩

/-! ## Lexer and shell side by side -/

def Quoting.inSingle : Quoting → Bool
  | .single | .ansiC => true
  | .bare _ | .double => false

def Quoting.inDouble : Quoting → Bool
  | .double => true
  | .bare _ | .single | .ansiC => false

/-- The range of a command that a segment covers. -/
def span (segment : Segment) : Nat × Nat := (segment.start, segment.stop)

/-- Lexer and shell have read the same commands and are in the same quotes. Behind the end of the
command line they may be at different places. -/
structure Alike (bytes : List UInt8) (s : LexState) (t : State) : Prop where
  pos : s.i = t.i ∨ bytes.length ≤ s.i ∧ bytes.length ≤ t.i
  start : s.start = t.start
  single : s.inSingle = t.quoting.inSingle
  double : s.inDouble = t.quoting.inDouble
  commands : s.segments.map span = t.commands
  separators : t.commands.map Prod.snd = t.separators

variable {bytes : List UInt8} {s : LexState} {t : State}

/-- Bytes that change no more than the quotes. -/
theorem Alike.take {s' : LexState} {width : Nat} {quoting : Quoting} (h : Alike bytes s t)
    (hpos : s'.i = t.i + width ∨ bytes.length ≤ s'.i ∧ bytes.length ≤ t.i + width)
    (hstart : s'.start = s.start) (hsegments : s'.segments = s.segments)
    (hsingle : s'.inSingle = quoting.inSingle) (hdouble : s'.inDouble = quoting.inDouble) :
    Alike bytes s' (t.take width quoting) where
  pos := hpos
  start := hstart.trans h.start
  single := hsingle
  double := hdouble
  commands := by
    rw [hsegments]
    exact h.commands
  separators := h.separators

/-- A separator. -/
theorem Alike.separate (h : Alike bytes s t) (width : Nat) (hpos : s.i = t.i)
    (hsingle : s.inSingle = false) (hdouble : s.inDouble = false) :
    Alike bytes (s.splitHere width) (t.separate width) where
  pos := .inl (by rw [LexState.splitHere, State.separate, hpos])
  start := by rw [LexState.splitHere, State.separate, hpos]
  single := hsingle
  double := hdouble
  commands := by
    rw [LexState.splitHere, State.separate, List.map_append, h.commands, List.map_singleton, span,
      h.start, hpos]
  separators := by rw [State.separate, List.map_append, h.separators, List.map_singleton]

theorem Alike.redirect (h : Alike bytes s t) (hpos : s.i = t.i) (hsingle : s.inSingle = false)
    (hdouble : s.inDouble = false) (hclobber : bytes[t.i + 1]? ≠ some (byte '|')) :
    Alike bytes (s.redirect bytes)
      (if bytes[t.i + 1]? ∈ [some (byte '&'), some (byte '>'), some (byte '|')] then
        t.take 2 (.bare false)
      else t.take 1 (.bare false)) := by
  unfold LexState.redirect
  rw [hpos]
  dsimp only
  by_cases hand : bytes[t.i + 1]? = some (byte '&')
  · rw [if_pos hand, if_pos (by simp [hand])]
    exact h.take (.inl rfl) rfl rfl hsingle hdouble
  · rw [if_neg hand]
    by_cases happend : bytes[t.i + 1]? = some (byte '>')
    · rw [if_pos happend, if_pos (by simp [happend])]
      exact h.take (.inl rfl) rfl rfl hsingle hdouble
    · rw [if_neg happend, if_neg (by simp [hand, happend, hclobber])]
      exact h.take (.inl rfl) rfl rfl hsingle hdouble

theorem Alike.bare {b : UInt8} {dollar : Bool} (h : Alike bytes s t) (hpos : s.i = t.i)
    (hb : bytes[t.i]? = some b) (hquoting : t.quoting = .bare dollar)
    (hread : t.misread bytes = false) :
    Alike bytes (s.bare bytes b) (t.bare bytes b dollar) := by
  have hsingle : s.inSingle = false := by rw [h.single, hquoting, Quoting.inSingle]
  have hdouble : s.inDouble = false := by rw [h.double, hquoting, Quoting.inDouble]
  simp only [State.misread, hquoting, startsPair, hb, Bool.or_eq_false_iff, beq_eq_false_iff_ne,
    Bool.and_eq_false_iff, ne_eq, Option.some.injEq] at hread
  obtain ⟨⟨hreturn, hclobber⟩, hcopy⟩ := hread
  unfold LexState.bare State.bare
  rw [hpos]
  dsimp only
  -- Both look for the same bytes, in the same order.
  by_cases hescape : b = byte '\\'
  · rw [if_pos hescape, if_pos hescape]
    split <;> exact h.take (.inl rfl) rfl rfl hsingle hdouble
  rw [if_neg hescape, if_neg hescape]
  by_cases hquote : b = byte '\''
  · rw [if_pos hquote, if_pos hquote]
    split <;> exact h.take (.inl rfl) rfl rfl rfl hdouble
  rw [if_neg hquote, if_neg hquote]
  by_cases hdquote : b = byte '"'
  · rw [if_pos hdquote, if_pos hdquote]
    exact h.take (.inl rfl) rfl rfl hsingle rfl
  rw [if_neg hdquote, if_neg hdquote]
  by_cases hline : b = byte ';' ∨ b = byte '\n'
  · rw [if_pos hline, if_pos (hline.imp_right .inl)]
    exact h.separate 1 hpos hsingle hdouble
  rw [if_neg hline, if_neg (by tauto)]
  by_cases hand : b = byte '&'
  · rw [if_pos hand, if_pos hand]
    by_cases hboth : bytes[t.i + 1]? = some (byte '&')
    · rw [if_pos hboth, if_pos hboth]
      exact h.separate 2 hpos hsingle hdouble
    · rw [if_neg hboth, if_neg hboth]
      split
      · exact h.take (.inl rfl) rfl rfl hsingle hdouble
      · exact h.separate 1 hpos hsingle hdouble
  rw [if_neg hand, if_neg hand]
  by_cases hpipe : b = byte '|'
  · rw [if_pos hpipe, if_pos hpipe]
    split <;> exact h.separate _ hpos hsingle hdouble
  rw [if_neg hpipe, if_neg hpipe]
  by_cases hgreater : b = byte '>'
  · rw [if_pos hgreater, if_pos hgreater]
    exact h.redirect hpos hsingle hdouble (hclobber.resolve_left (not_not_intro hgreater))
  rw [if_neg hgreater, if_neg hgreater]
  -- The lexer has no more operators, and the shell only one that is not there.
  have hone (dollar : Bool) :
      Alike bytes
        (if b = byte ' ' ∨ b = byte '\t' then { s with prevWordTail := none, i := t.i + 1 }
        else { s with prevWordTail := some b, i := t.i + 1 }) (t.take 1 (.bare dollar)) := by
    split <;> exact h.take (.inl rfl) rfl rfl hsingle hdouble
  by_cases hless : b = byte '<'
  · rw [if_pos hless, if_neg (hcopy.resolve_left (not_not_intro hless))]
    exact hone false
  rw [if_neg hless]
  by_cases hdollar : b = byte '$'
  · rw [if_pos hdollar]
    exact hone !dollar
  · rw [if_neg hdollar]
    exact hone false

/-- Lexer and shell come to states that are alike, further on. -/
def Meets (bytes : List UInt8) (s : LexState) (t : State) : Prop :=
  ∃ s' t', s.i < s'.i ∧ (lexer bytes).run s' = (lexer bytes).run s ∧
    (reader bytes).run t' = (reader bytes).run t ∧
    (reader bytes).trace t' ⊆ (reader bytes).trace t ∧ Alike bytes s' t'

theorem trace_next_subset (hlt : t.i < bytes.length) :
    (reader bytes).trace (t.next bytes) ⊆ (reader bytes).trace t := by
  rw [(reader bytes).trace_of_lt (s := t) hlt]
  exact List.subset_cons_self _ _

/-- One step of each. -/
theorem Meets.of_next (hlt : s.i < bytes.length) (hlt' : t.i < bytes.length)
    (h : Alike bytes (s.next bytes) (t.next bytes)) : Meets bytes s t :=
  ⟨s.next bytes, t.next bytes, s.lt_next bytes hlt, (lexer bytes).run_next hlt,
    (reader bytes).run_next hlt', trace_next_subset hlt', h⟩

/-- One step of the lexer, and then what follows. -/
theorem Meets.of_lexer_next (hlt : s.i < bytes.length) (h : Meets bytes (s.next bytes) t) :
    Meets bytes s t := by
  obtain ⟨s', t', hprogress, hs, ht, htrace, halike⟩ := h
  exact ⟨s', t', (s.lt_next bytes hlt).trans hprogress, hs.trans ((lexer bytes).run_next hlt), ht,
    htrace, halike⟩

/-- One step of the shell, and then what follows. -/
theorem Meets.of_reader_next (hlt : t.i < bytes.length) (h : Meets bytes s (t.next bytes)) :
    Meets bytes s t := by
  obtain ⟨s', t', hprogress, hs, ht, htrace, halike⟩ := h
  exact ⟨s', t', hprogress, hs, ht.trans ((reader bytes).run_next hlt),
    List.Subset.trans htrace (trace_next_subset hlt), halike⟩

section Quotes

variable {b : UInt8} (h : Alike bytes s t) (hpos : s.i = t.i) (hlt : t.i < bytes.length)
  (hb : bytes[t.i]? = some b)

include h hpos hlt hb

theorem Alike.meets_bare {dollar : Bool} (hquoting : t.quoting = .bare dollar)
    (hread : t.misread bytes = false) : Meets bytes s t := by
  have hsingle : s.inSingle = false := by rw [h.single, hquoting, Quoting.inSingle]
  have hdouble : s.inDouble = false := by rw [h.double, hquoting, Quoting.inDouble]
  apply Meets.of_next (hpos ▸ hlt) hlt
  rw [LexState.next_bare (hpos ▸ hb) hsingle hdouble, State.next, hb, hquoting]
  exact h.bare hpos hb hquoting hread

theorem Alike.meets_single (hquoting : t.quoting = .single) : Meets bytes s t := by
  have hsingle : s.inSingle = true := by rw [h.single, hquoting, Quoting.inSingle]
  have hdouble : s.inDouble = false := by rw [h.double, hquoting, Quoting.inDouble]
  apply Meets.of_next (hpos ▸ hlt) hlt
  rw [LexState.next_single (hpos ▸ hb) hsingle, State.next, hb, hquoting, hpos]
  dsimp only
  split
  · exact h.take (.inl rfl) rfl rfl rfl hdouble
  · exact h.take (.inl rfl) rfl rfl hsingle hdouble

/-- A backslash that escapes nothing is two bytes for the lexer and one for the shell, which reads
the byte behind it as an ordinary one. -/
theorem Alike.meets_double (hquoting : t.quoting = .double) : Meets bytes s t := by
  have hsingle : s.inSingle = false := by rw [h.single, hquoting, Quoting.inSingle]
  have hdouble : s.inDouble = true := by rw [h.double, hquoting, Quoting.inDouble]
  have hnext := LexState.next_double (hpos ▸ hb) hsingle hdouble
  have hnext' := State.next_double hb hquoting
  rw [hpos] at hnext
  by_cases hquote : b = byte '"'
  · rw [if_pos hquote] at hnext hnext'
    apply Meets.of_next (hpos ▸ hlt) hlt
    rw [hnext, hnext']
    exact h.take (.inl rfl) rfl rfl hsingle rfl
  rw [if_neg hquote] at hnext hnext'
  by_cases hescape : b = byte '\\'
  · rw [if_pos hescape] at hnext
    by_cases hescapable : State.isEscapable bytes[t.i + 1]? = true
    · rw [if_pos ⟨hescape, hescapable⟩] at hnext'
      apply Meets.of_next (hpos ▸ hlt) hlt
      rw [hnext, hnext']
      exact h.take (.inl rfl) rfl rfl hsingle hdouble
    · rw [if_neg (not_and_of_not_right _ hescapable)] at hnext'
      by_cases hend : t.i + 1 < bytes.length
      · have hc := List.getElem?_eq_getElem hend
        generalize bytes[t.i + 1] = c at hc
        rw [hc] at hescapable
        have hordinary : c ≠ byte '"' ∧ c ≠ byte '\\' := by
          constructor
          · rintro rfl
            exact hescapable (by decide)
          · rintro rfl
            exact hescapable (by decide)
        have hstep : (t.next bytes).next bytes = t.take 2 .double := by
          rw [hnext', State.next_double (s := t.take 1 .double) hc rfl, if_neg hordinary.1,
            if_neg (not_and_of_not_left _ hordinary.2)]
          rfl
        apply Meets.of_reader_next hlt
        apply Meets.of_next (hpos ▸ hlt) (by rw [hnext']; exact hend)
        rw [hnext, hstep]
        exact h.take (.inl rfl) rfl rfl hsingle hdouble
      · apply Meets.of_next (hpos ▸ hlt) hlt
        rw [hnext, hnext']
        exact h.take (.inr ⟨by simp; omega, by omega⟩) rfl rfl hsingle hdouble
  · rw [if_neg hescape] at hnext
    rw [if_neg (not_and_of_not_left _ hescape)] at hnext'
    apply Meets.of_next (hpos ▸ hlt) hlt
    rw [hnext, hnext']
    exact h.take (.inl rfl) rfl rfl hsingle hdouble

/-- A backslash and the byte behind it are one step for the shell and two for the lexer, for which
both are ordinary unless the second one is the quote. -/
theorem Alike.meets_ansiC (hquoting : t.quoting = .ansiC) (hread : t.misread bytes = false) :
    Meets bytes s t := by
  have hsingle : s.inSingle = true := by rw [h.single, hquoting, Quoting.inSingle]
  have hdouble : s.inDouble = false := by rw [h.double, hquoting, Quoting.inDouble]
  have hnext := LexState.next_single (hpos ▸ hb) hsingle
  have hnext' := State.next_ansiC hb hquoting
  rw [hpos] at hnext
  by_cases hquote : b = byte '\''
  · rw [if_pos hquote] at hnext hnext'
    apply Meets.of_next (hpos ▸ hlt) hlt
    rw [hnext, hnext']
    exact h.take (.inl rfl) rfl rfl rfl hdouble
  rw [if_neg hquote] at hnext hnext'
  by_cases hescape : b = byte '\\'
  · rw [if_pos hescape] at hnext'
    by_cases hend : t.i + 1 < bytes.length
    · have hc := List.getElem?_eq_getElem hend
      generalize bytes[t.i + 1] = c at hc
      have hordinary : c ≠ byte '\'' := by
        rintro rfl
        simp [State.misread, hquoting, startsPair, hb, hc, hescape] at hread
      have hstep : (s.next bytes).next bytes = { s with i := t.i + 2 } := by
        rw [hnext, LexState.next_single (s := { s with i := t.i + 1 }) hc hsingle, if_neg hordinary]
      apply Meets.of_lexer_next (hpos ▸ hlt)
      apply Meets.of_next (by rw [hnext]; exact hend) hlt
      rw [hstep, hnext']
      exact h.take (.inl rfl) rfl rfl hsingle hdouble
    · apply Meets.of_next (hpos ▸ hlt) hlt
      rw [hnext, hnext']
      exact h.take (.inr ⟨by simp; omega, by omega⟩) rfl rfl hsingle hdouble
  · rw [if_neg hescape] at hnext'
    apply Meets.of_next (hpos ▸ hlt) hlt
    rw [hnext, hnext']
    exact h.take (.inl rfl) rfl rfl hsingle hdouble

end Quotes

theorem Alike.meets (h : Alike bytes s t) (hlt : s.i < bytes.length)
    (hread : t.misread bytes = false) : Meets bytes s t := by
  have hpos : s.i = t.i := h.pos.resolve_right fun hend ↦ absurd hend.1 (Nat.not_le_of_lt hlt)
  have hlt' : t.i < bytes.length := hpos ▸ hlt
  have hb := List.getElem?_eq_getElem hlt'
  cases hquoting : t.quoting with
  | bare dollar => exact h.meets_bare hpos hlt' hb hquoting hread
  | single => exact h.meets_single hpos hlt' hb hquoting
  | double => exact h.meets_double hpos hlt' hb hquoting
  | ansiC => exact h.meets_ansiC hpos hlt' hb hquoting hread

/-- Lexer and shell end alike. -/
theorem run_alike {command : String} (hread : ReadAlike command) :
    Alike (utf8 command) ((lexer (utf8 command)).run LexState.init)
      ((reader (utf8 command)).run State.init) := by
  have hread := hread.read
  generalize utf8 command = bytes at hread ⊢
  refine (Scanner.run_related (lexer bytes) (reader bytes)
    (R := fun s t ↦ Alike bytes s t ∧ ∀ u ∈ (reader bytes).trace t, u.misread bytes = false)
    ?_ ?_ ?_).1
  · exact ⟨⟨.inl rfl, rfl, rfl, rfl, rfl, rfl⟩, hread⟩
  · intro s t h
    show s.i < bytes.length ↔ t.i < bytes.length
    rcases h.1.pos with hpos | hend
    · rw [hpos]
    · omega
  · intro s t h hlt hlt'
    have hhead : t ∈ (reader bytes).trace t := by
      rw [(reader bytes).trace_of_lt hlt']
      exact List.mem_cons_self
    obtain ⟨s', t', hprogress, hs, ht, htrace, halike⟩ := h.1.meets hlt (h.2 t hhead)
    exact ⟨s', t', hprogress, hs, ht, halike, fun u hu ↦ h.2 u (htrace hu)⟩

/-- The segments are the shell's simple commands. -/
theorem map_span_lexSegments {command : String} (hread : ReadAlike command) :
    (lexSegments command).map span = simpleCommands command := by
  have halike := run_alike hread
  unfold lexSegments simpleCommands
  dsimp only
  rw [halike.start]
  split
  · rw [List.map_append, halike.commands]
    rfl
  · exact halike.commands

/-- Each separator of the shell is where one of its commands ends. -/
theorem exists_command_of_separator {command : String} (hread : ReadAlike command) {p : Nat}
    (hp : p ∈ separators command) : ∃ c ∈ simpleCommands command, c.2 = p := by
  rw [separators, ← (run_alike hread).separators, List.mem_map] at hp
  obtain ⟨c, hc, hcp⟩ := hp
  refine ⟨c, ?_, hcp⟩
  unfold simpleCommands
  dsimp only
  split
  · exact List.mem_append_left _ hc
  · exact hc

/-- The text of a range of a command line. -/
def textOf (command : String) (range : Nat × Nat) : String :=
  (slice command range.1 range.2).getD ""

section Risk

variable [Alphabetic] {command : String}

theorem classifySegment_le {segment : Segment} (hsegment : segment ∈ lexSegments command) :
    classifySegment (segment.text command) segment.hasWriteRedirect ≤ classifyCommand command := by
  unfold classifyCommand classifyWith
  split
  · exact RiskLevel.le_dangerous _
  split
  · exact RiskLevel.le_dangerous _
  · apply RiskLevel.le_highest
    exact List.mem_map_of_mem hsegment

/-- A command that deletes does not only read, whether its output is redirected or not. -/
theorem classifySegment_ne_readOnly_of_delete {text : String} (hbase : commandBase text ∈ DELETE_CMDS)
    (hasWriteRedirect : Bool) : classifySegment text hasWriteRedirect ≠ .readOnly := by
  rw [ne_eq, classifySegment_eq_readOnly]
  rintro ⟨-, hquery | ⟨-, hreads⟩⟩
  · have htools : ∀ base ∈ DELETE_CMDS,
        base ∉ ["systemctl", "service"] ∧ base ∉ ["docker", "podman", "nerdctl"] ∧
          base ≠ "kubectl" := by
      decide
    obtain ⟨hservice, hcontainer, hkubectl⟩ := htools _ hbase
    simp only [queriesTool, Bool.or_eq_true, Bool.and_eq_true, List.contains_iff_mem,
      beq_iff_eq] at hquery
    rcases hquery with (⟨h, -⟩ | ⟨h, -⟩) | ⟨h, -⟩
    · exact hservice h
    · exact hcontainer h
    · exact hkubectl h
  · simp only [plainlyReads, Bool.and_eq_true, Bool.not_eq_true'] at hreads
    exact Bool.false_ne_true (hreads.1.2.symm.trans (List.contains_iff_mem.mpr hbase))

end Risk

-- The other way to disagree: `>|` is one redirect for the shell, and for the lexer the end of a
-- segment, in which the options of `rm` are no longer together.
example :
    ¬ReadAlike "rm -r >| x -f /" ∧ simpleCommands "rm -r >| x -f /" = [(0, 15)] ∧
      @classifySegment asciiAlphabetic "rm -r >| x -f /" true = .dangerous ∧
      @classifyCommand asciiAlphabetic "rm -r >| x -f /" = .modify := by
  decide

end Shell

end KaduoxSsh.Desktop
