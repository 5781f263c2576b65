import KaduoxSsh.Desktop.ShellQuoting
import KaduoxSsh.Desktop.LexerSegments

/-!
# Which redirects the lexer finds

Of the redirects to files the lexer leaves out those of the descriptor 2, and a `2`
in front of a `>` is a descriptor only if it is a word of its own. The lexer looks no
further than the last byte in front of the `>` that stands outside quotes, and at
the first byte behind a `>&`. So it leaves out too much where a longer word ends
in a `2`, and where the word behind `>&` only starts with a digit.

Lexer and reader agree about the quotes on a command line with `KnownSyntax` in which
no single quote is escaped in an ANSI-C string.
-/

namespace KaduoxSsh.Desktop

open Text

namespace Shell

def isDigit (b : UInt8) : Bool := byte '0' ≤ b && b ≤ byte '9'

/-! ## Redirects -/

/-- Whether the rest of a word is digits only. -/
def onlyDigits : List UInt8 → Bool
  | [] => true
  | b :: rest =>
      if isDigit b then onlyDigits rest
      else if b = byte '\\' then
        match rest with
        | c :: rest => c == byte '\n' && onlyDigits rest
        | [] => false
      else isMetacharacter b

/-- Whether a `>&` in front of some bytes copies or closes a descriptor. -/
def copiesDescriptor : List UInt8 → Bool
  | [] => false
  | b :: rest => b == byte '-' || isDigit b && onlyDigits rest

namespace WordState

/-- Whether there is an output redirect at the current byte: a `>` outside quotes, or a `&>`. -/
def isRedirect (bytes : List UInt8) (s : WordState) : Bool :=
  match s.quoting with
  | .bare _ => bytes[s.i]? == some (byte '>') || startsPair bytes s.i '&' '>'
  | _ => false

/-- Whether a redirect copies or closes a descriptor or is one of the descriptor 2. -/
def isExempt (bytes : List UInt8) (s : WordState) : Bool :=
  bytes[s.i]? == some (byte '>') &&
    (bytes[s.i + 1]? == some (byte '&') && copiesDescriptor (bytes.drop (s.i + 2)) ||
      s.word == .two)

/-- Whether a redirect looks like one of these: the last byte in front of it outside quotes is a
`2`, or behind a `>&` there is a digit or a `-`. -/
def looksExempt (bytes : List UInt8) (s : WordState) : Bool :=
  bytes[s.i]? == some (byte '>') &&
    if bytes[s.i + 1]? = some (byte '&') then
      bytes[s.i + 2]?.any fun c ↦ isDigit c || c == byte '-'
    else s.endsInTwo

end WordState

/-- The redirects in a segment. -/
def redirectsIn (bytes : List UInt8) (segment : Segment) : List WordState :=
  ((wordReader bytes).trace WordState.init).filter fun s ↦
    s.isRedirect bytes && segment.Covers s.i

/-- A segment that has no mark of a write redirect has no redirect that writes a file. -/
def RedirectsDetected (command : String) : Prop :=
  ∀ segment ∈ lexSegments command, segment.hasWriteRedirect = false →
    ∀ s ∈ redirectsIn (utf8 command) segment, s.isExempt (utf8 command) = true

/-- A redirect that only looks exempt stands in one segment with another one that does not. -/
def MistakesCovered (command : String) : Prop :=
  ∀ segment ∈ lexSegments command,
    (∃ s ∈ redirectsIn (utf8 command) segment,
      s.looksExempt (utf8 command) = true ∧ s.isExempt (utf8 command) = false) →
    ∃ s ∈ redirectsIn (utf8 command) segment, s.looksExempt (utf8 command) = false

instance (command : String) : Decidable (RedirectsDetected command) :=
  inferInstanceAs (Decidable (∀ segment ∈ lexSegments command, _))

instance (command : String) : Decidable (MistakesCovered command) :=
  inferInstanceAs (Decidable (∀ segment ∈ lexSegments command, _))

/-- Known syntax, nowhere in which a single quote is escaped in an ANSI-C string. -/
structure QuotesReadAlike (command : String) : Prop where
  known : KnownSyntax command
  unescaped : ∀ s ∈ (wordReader (utf8 command)).trace WordState.init,
    s.quoting = .ansiC → startsPair (utf8 command) s.i '\\' '\'' = false

instance (command : String) : Decidable (QuotesReadAlike command) :=
  decidable_of_iff (_ ∧ _) ⟨fun ⟨known, unescaped⟩ ↦ ⟨known, unescaped⟩,
    fun ⟨known, unescaped⟩ ↦ ⟨known, unescaped⟩⟩

/-! ## Lexer and reader side by side -/

/-- Lexer and reader are at the same place, in the same quotes and behind the same byte. Behind the
end of the command line they may be at different places. -/
structure SameWord (bytes : List UInt8) (s : LexState) (t : WordState) : Prop where
  pos : s.i = t.i ∨ bytes.length ≤ s.i ∧ bytes.length ≤ t.i
  single : s.inSingle = t.quoting.inSingle
  double : s.inDouble = t.quoting.inDouble
  tail : (s.prevWordTail == some (byte '2')) = t.endsInTwo

namespace WordState

variable {bytes : List UInt8} {s : LexState} {t : WordState} {b : UInt8} {dollar : Bool}
  {next : Option UInt8}

theorem operatorWidth_single (hpipe : b ≠ byte '|') (hand : next ≠ some (byte '&'))
    (hgreater : next ≠ some (byte '>')) : operatorWidth b next = 1 := by
  have hdouble : ¬(next = some (byte '&') ∨ next = some (byte '>')) := not_or.mpr ⟨hand, hgreater⟩
  unfold operatorWidth
  rw [if_neg fun h ↦ hdouble h.2, if_neg fun h ↦ hpipe h.1, if_neg fun h ↦ hdouble h.2]

theorem operatorWidth_pipe (hpipe : next ≠ some (byte '|')) :
    operatorWidth (byte '|') next = 1 := by
  unfold operatorWidth
  rw [if_neg (fun h ↦ absurd h.1 (by decide)), if_neg (fun h ↦ hpipe h.2),
    if_neg (fun h ↦ absurd h.1 (by decide))]

theorem operatorWidth_other (hmem : b ∉ [byte '&', byte '|', byte '>']) :
    operatorWidth b next = 1 := by
  simp only [List.mem_cons, List.not_mem_nil, or_false, not_or] at hmem
  unfold operatorWidth
  rw [if_neg (fun h ↦ hmem.1 h.1), if_neg (fun h ↦ hmem.2.1 h.1), if_neg (fun h ↦ hmem.2.2 h.1)]

theorem bare_of_metacharacter (hb : isMetacharacter b = true) :
    t.bare bytes b dollar = t.endWord (operatorWidth b bytes[t.i + 1]?) := by
  have hne (c : UInt8) (hc : isMetacharacter c = false) : b ≠ c := by
    rintro rfl
    rw [hb] at hc
    cases hc
  unfold bare
  rw [if_neg (hne _ (by decide)), if_neg (hne _ (by decide)), if_neg (hne _ (by decide)), if_pos hb]

theorem bare_of_ordinary (hmem : b ∉ [byte '\\', byte '\'', byte '"'])
    (hb : isMetacharacter b = false) :
    t.bare bytes b dollar =
      { t with
        i := t.i + 1
        quoting := .bare (b == byte '$' && !dollar)
        word := if b = byte '2' ∧ t.word = .empty then .two else .other
        endsInTwo := b == byte '2' } := by
  simp only [List.mem_cons, List.not_mem_nil, or_false, not_or] at hmem
  unfold bare
  rw [if_neg hmem.1, if_neg hmem.2.1, if_neg hmem.2.2, if_neg (Bool.not_eq_true _ ▸ hb)]

end WordState

section SideBySide

variable {bytes : List UInt8} {s s' : LexState} {t : WordState} {b : UInt8} {dollar : Bool}

/-- An operator, which ends the word for both. -/
theorem SameWord.endWord (hpos : s.i = t.i) (hsingle : s.inSingle = false)
    (hdouble : s.inDouble = false) {width : Nat} (hpos' : s'.i = s.i + width)
    (hsingle' : s'.inSingle = s.inSingle) (hdouble' : s'.inDouble = s.inDouble)
    (htail : s'.prevWordTail = none) : SameWord bytes s' (t.endWord width) where
  pos := .inl (hpos'.trans (congrArg (· + width) hpos))
  single := hsingle'.trans hsingle
  double := hdouble'.trans hdouble
  tail := by rw [htail]; rfl

theorem sameWord_bare (h : SameWord bytes s t) (hquoting : t.quoting = .bare dollar)
    (hpos : s.i = t.i) : SameWord bytes (s.bare bytes b) (t.bare bytes b dollar) := by
  have hsingle : s.inSingle = false := h.single.trans (congrArg Quoting.inSingle hquoting)
  have hdouble : s.inDouble = false := h.double.trans (congrArg Quoting.inDouble hquoting)
  have hstep : s.BareStep bytes b (s.bare bytes b) := s.bareStep
  generalize s.bare bytes b = s' at hstep
  cases hstep with
  | escape hescape =>
      subst hescape
      unfold WordState.bare
      rw [if_pos rfl, ← hpos]
      by_cases hline : bytes[s.i + 1]? = some (byte '\n')
      · rw [if_pos hline]
        refine ⟨.inl rfl, hsingle, hdouble, ?_⟩
        show (bytes[s.i + 1]? == some (byte '2')) = false
        rw [hline]
        decide
      · rw [if_neg hline]
        exact ⟨.inl rfl, hsingle, hdouble, rfl⟩
  | single hquote =>
      subst hquote
      refine ⟨.inl (congrArg (· + 1) hpos), ?_, ?_, h.tail⟩
      · cases dollar <;> rfl
      · cases dollar <;> exact hdouble
  | double hquote =>
      subst hquote
      exact ⟨.inl (congrArg (· + 1) hpos), hsingle, rfl, h.tail⟩
  | separator hseparator =>
      rcases hseparator with rfl | rfl | rfl
      · exact .endWord hpos hsingle hdouble rfl rfl rfl rfl
      · exact .endWord hpos hsingle hdouble rfl rfl rfl rfl
      · exact ⟨.inl (congrArg (· + 1) hpos), hsingle, hdouble, rfl⟩
  | andAnd hand hnext =>
      subst hand
      rw [WordState.bare_of_metacharacter (by decide), ← hpos, hnext]
      exact .endWord hpos hsingle hdouble rfl rfl rfl rfl
  | andGreater hand hnext =>
      subst hand
      rw [WordState.bare_of_metacharacter (by decide), ← hpos, hnext]
      exact .endWord hpos hsingle hdouble rfl rfl rfl rfl
  | and hand hnext hnext' =>
      subst hand
      rw [WordState.bare_of_metacharacter (by decide), ← hpos,
        WordState.operatorWidth_single (by decide) hnext hnext']
      exact .endWord hpos hsingle hdouble rfl rfl rfl rfl
  | pipePipe hpipe hnext =>
      subst hpipe
      rw [WordState.bare_of_metacharacter (by decide), ← hpos, hnext]
      exact .endWord hpos hsingle hdouble rfl rfl rfl rfl
  | pipe hpipe hnext =>
      subst hpipe
      rw [WordState.bare_of_metacharacter (by decide), ← hpos, WordState.operatorWidth_pipe hnext]
      exact .endWord hpos hsingle hdouble rfl rfl rfl rfl
  | greater hgreater =>
      subst hgreater
      rw [WordState.bare_of_metacharacter (by decide), ← hpos]
      unfold LexState.redirect
      dsimp only
      split_ifs with hcopy happend
      · rw [hcopy]
        exact .endWord hpos hsingle hdouble rfl rfl rfl rfl
      · rw [happend]
        exact .endWord hpos hsingle hdouble rfl rfl rfl rfl
      · rw [WordState.operatorWidth_single (by decide) hcopy happend]
        exact .endWord hpos hsingle hdouble rfl rfl rfl rfl
  | blank hblank =>
      rcases hblank with rfl | rfl
      · exact .endWord hpos hsingle hdouble rfl rfl rfl rfl
      · exact .endWord hpos hsingle hdouble rfl rfl rfl rfl
  | other hmem =>
      simp only [List.mem_cons, List.not_mem_nil, or_false, not_or] at hmem
      obtain ⟨hescape, hquote, hquote', -, -, -, hand, hpipe, hgreater, -, -⟩ := hmem
      by_cases hb : isMetacharacter b = true
      · -- `<` and the parentheses: the last byte is none that the lexer takes for a descriptor.
        rw [WordState.bare_of_metacharacter hb, WordState.operatorWidth_other
          (by simp only [List.mem_cons, List.not_mem_nil, or_false, not_or]
              exact ⟨hand, hpipe, hgreater⟩)]
        refine ⟨.inl (congrArg (· + 1) hpos), hsingle, hdouble, ?_⟩
        show (some b == some (byte '2')) = false
        rw [beq_eq_false_iff_ne, ne_eq, Option.some.injEq]
        rintro rfl
        exact absurd hb (by decide)
      · rw [Bool.not_eq_true] at hb
        rw [WordState.bare_of_ordinary
          (by simp only [List.mem_cons, List.not_mem_nil, or_false, not_or]
              exact ⟨hescape, hquote, hquote'⟩) hb]
        exact ⟨.inl (congrArg (· + 1) hpos), hsingle, hdouble, rfl⟩

/-- Some bytes in quotes, which leave the last byte outside quotes as it is. -/
theorem SameWord.quote (h : SameWord bytes s t) {width : Nat} {quoting : Quoting}
    (hpos : s'.i = t.i + width ∨ bytes.length ≤ s'.i ∧ bytes.length ≤ t.i + width)
    (hsingle : s'.inSingle = quoting.inSingle) (hdouble : s'.inDouble = quoting.inDouble)
    (htail : s'.prevWordTail = s.prevWordTail) : SameWord bytes s' (t.quote width quoting) where
  pos := hpos
  single := hsingle
  double := hdouble
  tail := by
    rw [htail]
    exact h.tail

/-- Where the words that lexer and reader read are the same after one step of each, their rounds
outside quotes match so far. -/
def Partners (bytes : List UInt8) (s : LexState) (t : WordState) : Prop :=
  ∃ s' t', s.i < s'.i ∧ SameWord bytes s' t' ∧
    (lexer bytes).trace s' ⊆ (lexer bytes).trace s ∧
    (wordReader bytes).trace t' ⊆ (wordReader bytes).trace t ∧
    (∀ u ∈ (lexer bytes).trace s, u.Bare → u = s ∨ u ∈ (lexer bytes).trace s') ∧
    ∀ v ∈ (wordReader bytes).trace t, (∃ dollar, v.quoting = .bare dollar) →
      v = t ∨ v ∈ (wordReader bytes).trace t'

theorem partners_of_next (hlt : s.i < bytes.length) (hlt' : t.i < bytes.length)
    (h : SameWord bytes (s.next bytes) (t.next bytes)) : Partners bytes s t :=
  ⟨s.next bytes, t.next bytes, s.lt_next bytes hlt, h,
    fun _ ↦ (lexer bytes).mem_trace_of_next hlt,
    fun _ ↦ (wordReader bytes).mem_trace_of_next hlt',
    fun _ hu _ ↦ ((lexer bytes).mem_trace_iff.mp hu).2,
    fun _ hv _ ↦ ((wordReader bytes).mem_trace_iff.mp hv).2⟩

/-- An escape in an ANSI-C string, of which the lexer reads the two bytes one by one. -/
theorem partners_ansiC_escape (h : SameWord bytes s t) (hquoting : t.quoting = .ansiC)
    (hpos : s.i = t.i) (hlt' : t.i < bytes.length) (hb : bytes[s.i]? = some (byte '\\'))
    (hread : bytes[s.i + 1]? ≠ some (byte '\'')) : Partners bytes s t := by
  have hlt : s.i < bytes.length := (List.getElem?_eq_some_iff.mp hb).1
  have hsingle : s.inSingle = true := h.single.trans (congrArg Quoting.inSingle hquoting)
  have hdouble : s.inDouble = false := h.double.trans (congrArg Quoting.inDouble hquoting)
  have hstep : s.next bytes = { s with i := s.i + 1 } :=
    (LexState.next_single hb hsingle).trans (if_neg (by decide))
  have hstep' : t.next bytes = t.quote 2 .ansiC := by
    rw [WordState.next, ← hpos, hb, hquoting]
    rfl
  by_cases hlast : s.i + 1 < bytes.length
  · obtain ⟨c, hc⟩ : ∃ c, bytes[s.i + 1]? = some c := ⟨_, List.getElem?_eq_getElem hlast⟩
    have hquote : c ≠ byte '\'' := fun hquote ↦ hread (hquote ▸ hc)
    have hlast' : (s.next bytes).i < bytes.length := by
      rw [hstep]
      exact hlast
    have hstep₂ : (s.next bytes).next bytes = { s with i := s.i + 2 } := by
      rw [hstep]
      exact (LexState.next_single (s := { s with i := s.i + 1 }) hc hsingle).trans (if_neg hquote)
    refine ⟨(s.next bytes).next bytes, t.next bytes, ?_, ?_, ?_, ?_, ?_, ?_⟩
    · rw [hstep₂]
      exact Nat.lt_add_of_pos_right (by decide)
    · rw [hstep₂, hstep']
      exact h.quote (.inl (congrArg (· + 2) hpos)) hsingle hdouble rfl
    · exact fun u hu ↦
        (lexer bytes).mem_trace_of_next hlt ((lexer bytes).mem_trace_of_next hlast' hu)
    · exact fun v ↦ (wordReader bytes).mem_trace_of_next hlt'
    · intro u hu hbare
      rcases ((lexer bytes).mem_trace_iff.mp hu).2 with rfl | hu
      · exact .inl rfl
      rcases ((lexer bytes).mem_trace_iff.mp hu).2 with rfl | hu
      · -- The byte that is escaped stands in quotes.
        have hquoted : (s.next bytes).inSingle = true := by
          rw [hstep]
          exact hsingle
        exact absurd (hbare.1.symm.trans hquoted) Bool.false_ne_true
      · exact .inr hu
    · exact fun v hv _ ↦ ((wordReader bytes).mem_trace_iff.mp hv).2
  · apply partners_of_next hlt hlt'
    rw [hstep, hstep']
    refine h.quote (.inr ⟨Nat.le_of_not_lt hlast, ?_⟩) hsingle hdouble rfl
    omega

theorem SameWord.partners (h : SameWord bytes s t) (hlt : s.i < bytes.length)
    (hlt' : t.i < bytes.length)
    (hread : t.quoting = .ansiC → startsPair bytes t.i '\\' '\'' = false) :
    Partners bytes s t := by
  have hpos : s.i = t.i := h.pos.resolve_right fun hend ↦ Nat.not_lt_of_le hend.1 hlt
  have hb : bytes[s.i]? = some bytes[s.i] := List.getElem?_eq_getElem hlt
  generalize bytes[s.i] = b at hb
  have hb' : bytes[t.i]? = some b := hpos ▸ hb
  cases hquoting : t.quoting with
  | bare dollar =>
      have hsingle : s.inSingle = false := h.single.trans (congrArg Quoting.inSingle hquoting)
      have hdouble : s.inDouble = false := h.double.trans (congrArg Quoting.inDouble hquoting)
      apply partners_of_next hlt hlt'
      rw [LexState.next_bare hb hsingle hdouble, WordState.next, hb', hquoting]
      exact sameWord_bare h hquoting hpos
  | single =>
      have hsingle : s.inSingle = true := h.single.trans (congrArg Quoting.inSingle hquoting)
      have hdouble : s.inDouble = false := h.double.trans (congrArg Quoting.inDouble hquoting)
      apply partners_of_next hlt hlt'
      rw [LexState.next_single hb hsingle, WordState.next, hb', hquoting]
      dsimp only
      split_ifs
      · exact h.quote (.inl (congrArg (· + 1) hpos)) rfl hdouble rfl
      · exact h.quote (.inl (congrArg (· + 1) hpos)) hsingle hdouble rfl
  | double =>
      have hsingle : s.inSingle = false := h.single.trans (congrArg Quoting.inSingle hquoting)
      have hdouble : s.inDouble = true := h.double.trans (congrArg Quoting.inDouble hquoting)
      apply partners_of_next hlt hlt'
      rw [LexState.next_double hb hsingle hdouble, WordState.next, hb', hquoting]
      dsimp only
      split_ifs
      · exact h.quote (.inl (congrArg (· + 1) hpos)) hsingle rfl rfl
      · exact h.quote (.inl (congrArg (· + 2) hpos)) hsingle hdouble rfl
      · exact h.quote (.inl (congrArg (· + 1) hpos)) hsingle hdouble rfl
  | ansiC =>
      have hsingle : s.inSingle = true := h.single.trans (congrArg Quoting.inSingle hquoting)
      have hdouble : s.inDouble = false := h.double.trans (congrArg Quoting.inDouble hquoting)
      by_cases hescape : b = byte '\\'
      · subst hescape
        apply partners_ansiC_escape h hquoting hpos hlt' hb
        intro hquote
        have hpair := hread hquoting
        rw [startsPair, hb', ← hpos, hquote] at hpair
        exact absurd hpair (by decide)
      · apply partners_of_next hlt hlt'
        rw [LexState.next_single hb hsingle, WordState.next, hb', hquoting]
        dsimp only
        rw [if_neg hescape]
        split_ifs
        · exact h.quote (.inl (congrArg (· + 1) hpos)) rfl hdouble rfl
        · exact h.quote (.inl (congrArg (· + 1) hpos)) hsingle hdouble rfl

/-- Outside quotes lexer and reader have the same rounds. -/
theorem exists_sameWord {command : String} (hread : QuotesReadAlike command) :
    (∀ u ∈ (lexer (utf8 command)).trace LexState.init, u.Bare →
        ∃ v ∈ (wordReader (utf8 command)).trace WordState.init, SameWord (utf8 command) u v) ∧
      ∀ v ∈ (wordReader (utf8 command)).trace WordState.init, (∃ dollar, v.quoting = .bare dollar) →
        ∃ u ∈ (lexer (utf8 command)).trace LexState.init, SameWord (utf8 command) u v := by
  have hpartners := (lexer (utf8 command)).exists_partner (wordReader (utf8 command))
    (s := LexState.init) (t := WordState.init)
    (R := fun s t ↦ SameWord (utf8 command) s t ∧ ∀ v ∈ (wordReader (utf8 command)).trace t,
      v.quoting = .ansiC → startsPair (utf8 command) v.i '\\' '\'' = false)
    (P := LexState.Bare) (Q := fun v ↦ ∃ dollar, v.quoting = .bare dollar)
    ⟨⟨.inl rfl, rfl, rfl, rfl⟩, hread.unescaped⟩
    (by
      rintro s t ⟨h, -⟩
      show s.i < (utf8 command).length ↔ t.i < (utf8 command).length
      have := h.pos
      omega)
    (by
      rintro s t ⟨h, hread⟩ hlt hlt'
      obtain ⟨s', t', hprogress, h', hsub, hsub', hmatters, hmatters'⟩ :=
        h.partners hlt hlt' (hread t ((wordReader (utf8 command)).self_mem_trace hlt'))
      exact ⟨s', t', hprogress, ⟨h', fun v hv ↦ hread v (hsub' hv)⟩, hsub, hsub', hmatters,
        hmatters'⟩)
  refine ⟨fun u hu hbare ↦ ?_, fun v hv hbare ↦ ?_⟩
  · obtain ⟨v, hv, h, -⟩ := hpartners.1 u hu hbare
    exact ⟨v, hv, h⟩
  · obtain ⟨u, hu, h, -⟩ := hpartners.2 v hv hbare
    exact ⟨u, hu, h⟩

/-! ## The mark of a segment -/

theorem isRedirect_iff :
    t.isRedirect bytes = true ↔ (∃ dollar, t.quoting = .bare dollar) ∧
      (bytes[t.i]? = some (byte '>') ∨
        bytes[t.i]? = some (byte '&') ∧ bytes[t.i + 1]? = some (byte '>')) := by
  unfold WordState.isRedirect
  cases t.quoting with
  | bare dollar => simp [startsPair]
  | single | double | ansiC => simp

theorem SameWord.exists_bare (h : SameWord bytes s t) (hbare : s.Bare) :
    ∃ dollar, t.quoting = .bare dollar := by
  have hsingle := h.single.symm.trans hbare.1
  have hdouble := h.double.symm.trans hbare.2
  cases hquoting : t.quoting with
  | bare dollar => exact ⟨dollar, rfl⟩
  | single | ansiC =>
      rw [hquoting] at hsingle
      cases hsingle
  | double =>
      rw [hquoting] at hdouble
      cases hdouble

/-- A round of the lexer that sets the mark is at a redirect outside quotes. -/
theorem redirect_of_hasWrite (hlt : s.i < bytes.length) (hunset : s.hasWrite = false)
    (hset : (s.next bytes).hasWrite = true) :
    s.Bare ∧ (bytes[s.i]? = some (byte '>') ∨
      bytes[s.i]? = some (byte '&') ∧ bytes[s.i + 1]? = some (byte '>')) := by
  have hb : bytes[s.i]? = some bytes[s.i] := List.getElem?_eq_getElem hlt
  generalize bytes[s.i] = b at hb
  have hkept {t : LexState} (h : t.hasWrite = s.hasWrite) (hset : t.hasWrite = true) : False := by
    rw [h, hunset] at hset
    cases hset
  by_cases hsingle : s.inSingle = true
  · rw [LexState.next_single hb hsingle] at hset
    split_ifs at hset
    all_goals exact (hkept rfl hset).elim
  rw [Bool.not_eq_true] at hsingle
  by_cases hdouble : s.inDouble = true
  · rw [LexState.next_double hb hsingle hdouble] at hset
    split_ifs at hset
    all_goals exact (hkept rfl hset).elim
  rw [Bool.not_eq_true] at hdouble
  rw [LexState.next_bare hb hsingle hdouble] at hset
  refine ⟨⟨hsingle, hdouble⟩, ?_⟩
  have hstep : s.BareStep bytes b (s.bare bytes b) := s.bareStep
  generalize s.bare bytes b = s' at hstep hset
  cases hstep with
  | greater hgreater => exact .inl (hb.trans (congrArg some hgreater))
  | andGreater hand hnext => exact .inr ⟨hb.trans (congrArg some hand), hnext⟩
  | escape | single | double | blank | other => exact (hkept rfl hset).elim
  | separator | andAnd | and | pipePipe | pipe => cases hset

/-- At a redirect the lexer reads on, and sets the mark unless the redirect looks exempt. -/
theorem SameWord.next_redirect (h : SameWord bytes s t) (hpos : s.i = t.i)
    (hredirect : t.isRedirect bytes = true) :
    s.Continues (s.next bytes) ∧
      (s.next bytes).hasWrite = (s.hasWrite || !t.looksExempt bytes) := by
  obtain ⟨⟨dollar, hquoting⟩, hbytes⟩ := isRedirect_iff.mp hredirect
  have hsingle : s.inSingle = false := h.single.trans (congrArg Quoting.inSingle hquoting)
  have hdouble : s.inDouble = false := h.double.trans (congrArg Quoting.inDouble hquoting)
  rw [← hpos] at hbytes
  unfold WordState.looksExempt
  rw [← hpos]
  rcases hbytes with hgreater | ⟨hand, hgreater⟩
  · rw [LexState.next_bare hgreater hsingle hdouble, LexState.bare_greater]
    refine ⟨LexState.continues_redirect, ?_⟩
    rw [hgreater, LexState.redirect, beq_self_eq_true, Bool.true_and, ← h.tail]
    dsimp only
    by_cases hcopy : bytes[s.i + 1]? = some (byte '&')
    · rw [if_pos hcopy, if_pos hcopy]
      cases bytes[s.i + 2]? with
      | none => rfl
      | some c => rfl
    · rw [if_neg hcopy, if_neg hcopy]
      split_ifs
      all_goals rfl
  · rw [LexState.next_bare hand hsingle hdouble, LexState.bare_and, hand, hgreater,
      if_neg (by decide), if_pos rfl]
    refine ⟨⟨rfl, rfl, fun _ ↦ rfl⟩, ?_⟩
    exact (Bool.or_true _).symm

end SideBySide

theorem mem_redirectsIn {bytes : List UInt8} {segment : Segment} {t : WordState} :
    t ∈ redirectsIn bytes segment ↔ t ∈ (wordReader bytes).trace WordState.init ∧
      t.isRedirect bytes = true ∧ segment.Covers t.i := by
  rw [redirectsIn, List.mem_filter, Bool.and_eq_true, decide_eq_true_eq]

/-- A segment has the mark exactly if one of its redirects does not look exempt. -/
theorem hasWriteRedirect_iff {command : String} (hread : QuotesReadAlike command)
    {segment : Segment} (hmem : segment ∈ lexSegments command) :
    segment.hasWriteRedirect = true ↔
      ∃ s ∈ redirectsIn (utf8 command) segment, s.looksExempt (utf8 command) = false := by
  constructor
  · intro hwrite
    obtain ⟨u, hu, hcovers, hunset, hset⟩ := exists_round_of_hasWriteRedirect hmem hwrite
    have hlt := (lexer (utf8 command)).pos_lt_of_mem_trace hu
    obtain ⟨hbare, hbytes⟩ := redirect_of_hasWrite hlt hunset hset
    obtain ⟨v, hv, h⟩ := (exists_sameWord hread).1 u hu hbare
    have hpos : u.i = v.i := h.pos.resolve_right fun hend ↦ Nat.not_lt_of_le hend.1 hlt
    have hredirect : v.isRedirect (utf8 command) = true :=
      isRedirect_iff.mpr ⟨h.exists_bare hbare, hpos ▸ hbytes⟩
    refine ⟨v, mem_redirectsIn.mpr ⟨hv, hredirect, hpos ▸ hcovers⟩, ?_⟩
    rw [(h.next_redirect hpos hredirect).2, hunset, Bool.false_or, Bool.not_eq_true'] at hset
    exact hset
  · rintro ⟨v, hv, hlooks⟩
    obtain ⟨hv, hredirect, hcovers⟩ := mem_redirectsIn.mp hv
    have hlt := (wordReader (utf8 command)).pos_lt_of_mem_trace hv
    obtain ⟨u, hu, h⟩ := (exists_sameWord hread).2 v hv (isRedirect_iff.mp hredirect).1
    have hpos : u.i = v.i := h.pos.resolve_right fun hend ↦ Nat.not_lt_of_le hend.2 hlt
    obtain ⟨hcontinues, hset⟩ := h.next_redirect hpos hredirect
    rw [hlooks, Bool.not_false, Bool.or_true] at hset
    have hprogress := u.lt_next (utf8 command) (hpos ▸ hlt)
    obtain ⟨segment', hmem', hcovers', -, hwrite⟩ :=
      exists_covers hu hcontinues (Nat.le_refl _) hprogress (hpos ▸ hlt)
    rw [covers_unique hmem hmem' (hpos ▸ hcovers) hcovers']
    exact hwrite hset

/-- The mark is missing where it must not be exactly if, in some segment, all redirects look exempt
and one of them is not. -/
theorem redirectsDetected_iff {command : String} (hread : QuotesReadAlike command) :
    RedirectsDetected command ↔ MistakesCovered command := by
  constructor
  · rintro h segment hmem ⟨s, hs, -, hexempt⟩
    rw [← hasWriteRedirect_iff hread hmem]
    by_contra hwrite
    have := h segment hmem (Bool.not_eq_true _ ▸ hwrite) s hs
    rw [hexempt] at this
    cases this
  · intro h segment hmem hwrite s hs
    by_contra hexempt
    have hnot : ¬∃ s ∈ redirectsIn (utf8 command) segment, s.looksExempt (utf8 command) = false := by
      rw [← hasWriteRedirect_iff hread hmem, hwrite]
      exact Bool.false_ne_true
    apply hnot
    by_cases hlooks : s.looksExempt (utf8 command) = true
    · exact h segment hmem ⟨s, hs, hlooks, Bool.not_eq_true _ ▸ hexempt⟩
    · exact ⟨s, hs, Bool.not_eq_true _ ▸ hlooks⟩

/-- A command line with redirects of all kinds, one of which only looks exempt. -/
theorem redirectsDetected_of_kinds :
    RedirectsDetected "ls $'a\\n' 2>>err 2>&- | cat x2>y '2'>out; pwd >&2" :=
  (redirectsDetected_iff (by decide)).mpr (by decide)

/-- The `2` at the end of a word is taken for a descriptor, and the line that overwrites a file is
one that only reads. -/
theorem word_overwrites :
    ¬RedirectsDetected "echo x2>/etc/passwd" ∧
      @classifyCommand asciiAlphabetic "echo x2>/etc/passwd" = .readOnly := by
  decide

end Shell

end KaduoxSsh.Desktop
