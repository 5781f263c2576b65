import KaduoxSsh.Desktop.Classify
import KaduoxSsh.Desktop.LexerSegments

/-!
# Chains of commands

How the lexer reads two command lines that a separator joins. Where the first one
ends outside quotes, the lexer is behind the separator in its first state again, up
to the place, and reads the second one as it does by itself. Then all segments of
both are segments of the chain, so that the chain has at least the risk of each.

The separator must stay what it is: an operator of two bytes may take in a byte on
either side of it. `|` in front of a `|` is `||`, and `&&` behind a `>` starts with
the redirect `>&`. A `&` or `|` at the end of the first line that is taken in is
harmless, since the segment in front of it has ended all the same.
-/

namespace KaduoxSsh.Desktop

open Text List

/-! ## Behind a piece of text -/

/-- A segment of a text that stands behind some bytes. -/
def Segment.shift (offset : Nat) (segment : Segment) : Segment where
  start := segment.start + offset
  stop := segment.stop + offset
  hasWriteRedirect := segment.hasWriteRedirect

namespace LexState

/-- A state of the lexer on a text that stands behind some bytes, which had the segments `front`. -/
def shift (offset : Nat) (front : List Segment) (s : LexState) : LexState :=
  { s with
    i := s.i + offset
    start := s.start + offset
    segments := front ++ s.segments.map (Segment.shift offset) }

variable {offset : Nat} {front : List Segment} {s t : LexState} {a b bytes : List UInt8}

theorem shift_ite {p : Prop} [Decidable p] :
    (if p then s else t).shift offset front =
      if p then s.shift offset front else t.shift offset front :=
  apply_ite (shift offset front) p s t

theorem shift_splitHere {advance : Nat} :
    (s.splitHere advance).shift offset front = (s.shift offset front).splitHere advance := by
  simp only [shift, splitHere, map_append, map_singleton, append_assoc, Segment.shift,
    Nat.add_right_comm]

theorem getElem?_shift (k : Nat) : (a ++ b)[s.i + a.length + k]? = b[s.i + k]? := by
  rw [List.getElem?_append_right (by omega)]
  congr 1
  omega

theorem redirect_shift :
    (s.shift a.length front).redirect (a ++ b) = (s.redirect b).shift a.length front := by
  unfold redirect
  simp only [shift_ite]
  rw [show (s.shift a.length front).i = s.i + a.length from rfl, getElem?_shift 1,
    getElem?_shift 2]
  simp only [shift, Nat.add_right_comm]

theorem bare_shift (byte : UInt8) :
    (s.shift a.length front).bare (a ++ b) byte = (s.bare b byte).shift a.length front := by
  unfold bare
  simp only [shift_ite, shift_splitHere, redirect_shift]
  rw [show (s.shift a.length front).i = s.i + a.length from rfl, getElem?_shift 1]
  simp only [shift, Nat.add_right_comm]

theorem next_shift :
    (s.shift a.length front).next (a ++ b) = (s.next b).shift a.length front := by
  unfold next
  rw [show (s.shift a.length front).i = s.i + a.length from rfl, show
    (a ++ b)[s.i + a.length]? = b[s.i]? from getElem?_shift 0]
  cases b[s.i]? with
  | none => rfl
  | some byte =>
      simp only [shift_ite, bare_shift]
      simp only [shift, Nat.add_right_comm]
      rfl

end LexState

/-- Behind other bytes the lexer reads a text as it does by itself. -/
theorem run_shift {front : List Segment} {s : LexState} {a b : List UInt8} :
    (lexer (a ++ b)).run (s.shift a.length front) = ((lexer b).run s).shift a.length front := by
  apply Scanner.run_related (lexer (a ++ b)) (lexer b)
    (R := fun t u ↦ t = u.shift a.length front) rfl
  · rintro t u rfl
    show u.i + a.length < (a ++ b).length ↔ u.i < b.length
    rw [length_append]
    omega
  · rintro t u rfl hlt hlt'
    refine ⟨(u.next b).shift a.length front, u.next b, ?_, ?_, (lexer b).run_next hlt', rfl⟩
    · exact Nat.add_lt_add_right (u.lt_next b hlt') a.length
    · rw [← LexState.next_shift]
      exact (lexer (a ++ b)).run_next hlt

/-! ## Up to the end of a piece of text -/

/-- The first bytes of the separators. -/
def isSeparatorByte (b : UInt8) : Bool := [byte ';', byte '\n', byte '|', byte '&'].contains b

namespace LexState

variable {s : LexState} {a d bytes bytes' : List UInt8} {first : UInt8}

/-- A step depends on the current byte and the two behind it. -/
theorem next_congr (h₀ : bytes[s.i]? = bytes'[s.i]?) (h₁ : bytes[s.i + 1]? = bytes'[s.i + 1]?)
    (h₂ : bytes[s.i + 2]? = bytes'[s.i + 2]?) : s.next bytes = s.next bytes' := by
  unfold next bare redirect
  rw [h₀, h₁, h₂]

theorem isDescriptor_eq_false (hfirst : isSeparatorByte first = true) :
    ((byte '0' ≤ first && first ≤ byte '9') || first == byte '-') = false := by
  simp only [isSeparatorByte, contains_iff_mem, mem_cons, not_mem_nil, or_false]
    at hfirst
  rcases hfirst with rfl | rfl | rfl | rfl <;> decide

/-- One byte further than the next one, a separator is like the end. -/
theorem next_append_two (hlt : s.i + 2 = a.length) (hfirst : isSeparatorByte first = true) :
    s.next (a ++ first :: d) = s.next a := by
  have h₀ : (a ++ first :: d)[s.i]? = a[s.i]? := List.getElem?_append_left (by omega)
  have h₁ : (a ++ first :: d)[s.i + 1]? = a[s.i + 1]? := List.getElem?_append_left (by omega)
  have h₂ : (a ++ first :: d)[s.i + 2]? = some first := by
    rw [hlt, List.getElem?_append_right (Nat.le_refl _), Nat.sub_self, List.getElem?_cons_zero]
  have hnone : a[s.i + 2]? = none := List.getElem?_eq_none (by omega)
  unfold next bare redirect
  rw [h₀, h₁, h₂, hnone]
  dsimp only
  rw [isDescriptor_eq_false hfirst]

/-- At the last byte of a text, a separator behind it changes the step in three cases: the byte is
a backslash and escapes the separator, it is a `>` and takes in a `&`, or it is an operator of one
byte and takes in its like. -/
theorem next_append_one (hlt : s.i + 1 = a.length) (hfirst : isSeparatorByte first = true) :
    s.next (a ++ first :: d) = s.next a ∨
      s.Bare ∧ (a[s.i]? = some (byte '\\') ∨ a[s.i]? = some (byte '>') ∧ first = byte '&' ∨
        (first = byte '&' ∨ first = byte '|') ∧ s.next a = s.splitHere 1 ∧
          s.next (a ++ first :: d) = s.splitHere 2) := by
  have h₀ : (a ++ first :: d)[s.i]? = a[s.i]? := List.getElem?_append_left (by omega)
  have h₁ : (a ++ first :: d)[s.i + 1]? = some first := by
    rw [hlt, List.getElem?_append_right (Nat.le_refl _), Nat.sub_self, List.getElem?_cons_zero]
  have hnone : a[s.i + 1]? = none := List.getElem?_eq_none (by omega)
  have hredirect : first ≠ byte '>' := by
    rintro rfl
    revert hfirst
    decide
  obtain ⟨b, hb⟩ : ∃ b, a[s.i]? = some b := ⟨a[s.i], List.getElem?_eq_getElem (by omega)⟩
  by_cases hsingle : s.inSingle = true
  · left
    rw [next_single (h₀.trans hb) hsingle, next_single hb hsingle]
  rw [Bool.not_eq_true] at hsingle
  by_cases hdouble : s.inDouble = true
  · left
    rw [next_double (h₀.trans hb) hsingle hdouble, next_double hb hsingle hdouble]
  rw [Bool.not_eq_true] at hdouble
  rw [next_bare (h₀.trans hb) hsingle hdouble, next_bare hb hsingle hdouble, hb]
  by_cases hescape : b = byte '\\'
  · exact .inr ⟨⟨hsingle, hdouble⟩, .inl (congrArg some hescape)⟩
  by_cases hand : b = byte '&'
  · subst hand
    rw [bare_and, bare_and, h₁, hnone]
    by_cases hboth : first = byte '&'
    · exact .inr ⟨⟨hsingle, hdouble⟩,
        .inr (.inr ⟨.inl hboth, rfl, if_pos (congrArg some hboth)⟩)⟩
    · left
      simp [hboth, hredirect]
  by_cases hpipe : b = byte '|'
  · subst hpipe
    rw [bare_pipe, bare_pipe, h₁, hnone]
    by_cases hboth : first = byte '|'
    · exact .inr ⟨⟨hsingle, hdouble⟩,
        .inr (.inr ⟨.inr hboth, rfl, if_pos (congrArg some hboth)⟩)⟩
    · left
      simp [hboth]
  by_cases hgreater : b = byte '>'
  · subst hgreater
    by_cases hcopy : first = byte '&'
    · exact .inr ⟨⟨hsingle, hdouble⟩, .inr (.inl ⟨rfl, hcopy⟩)⟩
    · left
      rw [bare_greater, bare_greater, redirect, redirect, h₁, hnone]
      simp [hcopy, hredirect]
  · left
    unfold bare
    rw [if_neg hescape, if_neg hescape, if_neg hand, if_neg hand, if_neg hpipe, if_neg hpipe,
      if_neg hgreater, if_neg hgreater]

/-- A state of the lexer at a `>` outside quotes that is the last byte of a text. -/
def AtLastRedirect (bytes : List UInt8) (s : LexState) : Prop :=
  s.Bare ∧ s.i + 1 = bytes.length ∧ bytes[s.i]? = some (byte '>')

instance : Decidable (s.AtLastRedirect bytes) := inferInstanceAs (Decidable (_ ∧ _))

end LexState

/-- What the lexer of a chain has read when it comes to the end of the first text, whose own lexer
ends in `s`: as much, or the first byte of the separator too, which then belongs to an operator at
the end of the text. -/
inductive Follows (first : UInt8) (s : LexState) : LexState → Prop
  | same : Follows first s s
  | further (hfirst : first = byte '&' ∨ first = byte '|') (hstart : s.start = s.i) :
      Follows first s (LexState.init.shift (s.i + 1) s.segments)

/-- The lexer of a chain comes to the end of the first text, and all rounds behind that are still
to come. -/
theorem exists_follows {a d : List UInt8} {first : UInt8} {s : LexState}
    (hle : s.i ≤ a.length) (hfirst : isSeparatorByte first = true)
    (hend : ((lexer a).run s).i = a.length) (hbare : ((lexer a).run s).Bare)
    (hredirect : first = byte '&' → ∀ u ∈ (lexer a).trace s, ¬u.AtLastRedirect a) :
    ∃ t, Follows first ((lexer a).run s) t ∧
      (lexer (a ++ first :: d)).run t = (lexer (a ++ first :: d)).run s ∧
      ∀ u ∈ (lexer (a ++ first :: d)).trace s, a.length < u.i →
        u ∈ (lexer (a ++ first :: d)).trace t := by
  generalize hn : a.length - s.i = n
  induction n using Nat.strongRecOn generalizing s with
  | _ n ih =>
      by_cases hlt : s.i < a.length
      · have hprogress := s.lt_next a hlt
        have hrun := (lexer a).run_next (s := s) hlt
        have hnext : (s.next a).i ≤ a.length := by
          rw [← hend, ← hrun]
          exact (lexer a).pos_le_run
        have hlt' : s.i < (a ++ first :: d).length := by
          rw [length_append]
          omega
        have hrun' := (lexer (a ++ first :: d)).run_next (s := s) hlt'
        have hmem : s ∈ (lexer a).trace s := by
          rw [(lexer a).trace_of_lt (s := s) hlt]
          exact mem_cons_self
        have hsub : (lexer a).trace (s.next a) ⊆ (lexer a).trace s := by
          rw [(lexer a).trace_of_lt (s := s) hlt]
          exact subset_cons_self _ _
        have hlater : ∀ u ∈ (lexer (a ++ first :: d)).trace s, a.length < u.i →
            u ∈ (lexer (a ++ first :: d)).trace (s.next (a ++ first :: d)) :=
          fun u hu hfar ↦
            ((lexer (a ++ first :: d)).mem_trace_next hu (Nat.lt_trans hlt hfar)).2
        -- Where the step is the one of the first text, the induction goes on.
        have hsame (heq : s.next (a ++ first :: d) = s.next a) :
            ∃ t, Follows first ((lexer a).run s) t ∧
              (lexer (a ++ first :: d)).run t = (lexer (a ++ first :: d)).run s ∧
              ∀ u ∈ (lexer (a ++ first :: d)).trace s, a.length < u.i →
                u ∈ (lexer (a ++ first :: d)).trace t := by
          obtain ⟨t, hfollows, htrun, htrace⟩ :=
            ih (a.length - (s.next a).i) (by omega) hnext (hrun ▸ hend) (hrun ▸ hbare)
              (fun hcopy u hu ↦ hredirect hcopy u (hsub hu)) rfl
          refine ⟨t, hrun ▸ hfollows, htrun.trans ?_, fun u hu hfar ↦ ?_⟩
          · rw [← heq]
            exact hrun'
          · apply htrace u _ hfar
            rw [← heq]
            exact hlater u hu hfar
        by_cases htwo : s.i + 2 < a.length
        · apply hsame
          apply LexState.next_congr
          · exact List.getElem?_append_left hlt
          · exact List.getElem?_append_left (by omega)
          · exact List.getElem?_append_left htwo
        by_cases hone : s.i + 2 = a.length
        · exact hsame (LexState.next_append_two hone hfirst)
        have hlast : s.i + 1 = a.length := by omega
        rcases LexState.next_append_one (d := d) hlast hfirst with heq | ⟨hbare', hcases⟩
        · exact hsame heq
        rcases hcases with hescape | ⟨hgreater, hcopy⟩ | ⟨hboth, hone', htwo'⟩
        · -- A backslash would be an escape that is still pending at the end.
          have hstep : s.next a = s.bare a (byte '\\') :=
            LexState.next_bare hescape hbare'.1 hbare'.2
          have hfar : (s.next a).i = s.i + 2 := by
            rw [hstep]
            rfl
          omega
        · exact absurd ⟨hbare', hlast, hgreater⟩ (hredirect hcopy s hmem)
        · have hstop : (lexer a).run s = s.splitHere 1 := by
            rw [← hrun]
            show (lexer a).run (s.next a) = _
            rw [hone']
            apply (lexer a).run_of_not_lt
            show ¬s.i + 1 < a.length
            omega
          have hshift : s.next (a ++ first :: d) =
              LexState.init.shift (((lexer a).run s).i + 1) ((lexer a).run s).segments := by
            rw [htwo', hstop]
            simp [LexState.splitHere, LexState.shift, LexState.init, hbare'.1, hbare'.2]
          refine ⟨s.next (a ++ first :: d), ?_, hrun', hlater⟩
          rw [hshift]
          apply Follows.further hboth
          rw [hstop]
          rfl
      · have hstop := (lexer a).run_of_not_lt (s := s) hlt
        refine ⟨s, ?_, rfl, fun u hu _ ↦ hu⟩
        rw [hstop]
        exact .same

/-! ## Behind the separator -/

namespace LexState

variable {s t : LexState} {bytes : List UInt8} {b : UInt8}

theorem splitHere_eq_shift (hbare : s.Bare) (advance : Nat) :
    s.splitHere advance =
      init.shift (s.i + advance) (s.segments ++ [⟨s.start, s.i, s.hasWrite⟩]) := by
  simp [splitHere, shift, init, hbare.1, hbare.2]

/-- An operator of one byte ends the segment, when the lexer has a round at the byte behind it. -/
theorem next_separator (hbare : s.Bare) (hb : bytes[s.i]? = some b)
    (hseparator : isSeparatorByte b = true) (hmem : t ∈ (lexer bytes).trace s)
    (hbehind : t.i = s.i + 1) : s.next bytes = s.splitHere 1 := by
  have hle : (s.next bytes).i ≤ s.i + 1 := by
    have hprogress : s.i < t.i := by omega
    obtain ⟨-, hlater⟩ := (lexer bytes).mem_trace_next hmem hprogress
    rw [← hbehind]
    exact (lexer bytes).pos_le_of_mem_trace hlater
  simp only [isSeparatorByte, contains_iff_mem, mem_cons, not_mem_nil, or_false]
    at hseparator
  rw [next_bare hb hbare.1 hbare.2] at hle ⊢
  rcases hseparator with rfl | rfl | rfl | rfl
  · exact bare_semicolon
  · exact bare_newline
  · rw [bare_pipe] at hle ⊢
    split_ifs at hle ⊢
    · exact absurd hle (by show ¬s.i + 2 ≤ s.i + 1; omega)
    · rfl
  · rw [bare_and] at hle ⊢
    split_ifs at hle ⊢
    · exact absurd hle (by show ¬s.i + 2 ≤ s.i + 1; omega)
    · exact absurd hle (by show ¬s.i + 2 ≤ s.i + 1; omega)
    · rfl

/-- An operator of two bytes ends the segment. -/
theorem next_operator (hbare : s.Bare) (hb : bytes[s.i]? = some b)
    (hb' : bytes[s.i + 1]? = some b) (hoperator : b = byte '&' ∨ b = byte '|') :
    s.next bytes = s.splitHere 2 := by
  rw [next_bare hb hbare.1 hbare.2]
  rcases hoperator with rfl | rfl
  · rw [bare_and, if_pos hb']
  · rw [bare_pipe, if_pos hb']

end LexState

/-! ## A chain -/

/-- What may stand between two commands. -/
def separatorTexts : List String := [";", "\n", "|", "||", "&&"]

/-- The lexing of a command ends outside quotes and not behind an escape that is still pending. -/
def EndsBare (command : String) : Prop :=
  ((lexer (utf8 command)).run LexState.init).Bare ∧
    ((lexer (utf8 command)).run LexState.init).i = (utf8 command).length

/-- A command ends in a `>` outside quotes. -/
def EndsInRedirect (command : String) : Prop :=
  ∃ s ∈ (lexer (utf8 command)).trace LexState.init, s.AtLastRedirect (utf8 command)

/-- The lexer of a command has a round at a byte: no operator and no escape reaches across it. -/
def ReadsFrom (command : String) (position : Nat) : Prop :=
  ∃ s ∈ (lexer (utf8 command)).trace LexState.init, s.i = position

instance (command : String) : Decidable (EndsBare command) := inferInstanceAs (Decidable (_ ∧ _))

instance (command : String) : Decidable (EndsInRedirect command) :=
  inferInstanceAs (Decidable (∃ s ∈ (lexer (utf8 command)).trace LexState.init, _))

instance (command : String) (position : Nat) : Decidable (ReadsFrom command position) :=
  inferInstanceAs (Decidable (∃ s ∈ (lexer (utf8 command)).trace LexState.init, _))

variable {c₁ c₂ sep : String}

theorem LexState.close_shift {offset : Nat} {front : List Segment} {s : LexState} (length : Nat) :
    (s.shift offset front).close (length + offset) =
      front ++ (s.close length).map (Segment.shift offset) := by
  have hlt : (s.shift offset front).start < length + offset ↔ s.start < length :=
    Nat.add_lt_add_iff_right
  unfold close
  by_cases hpending : s.start < length
  · rw [if_pos (hlt.mpr hpending), if_pos hpending, map_append, ← append_assoc]
    rfl
  · rw [if_neg (mt hlt.mp hpending), if_neg hpending]
    rfl

/-- An operator of one byte, or of twice the same. -/
def IsOperator (first : UInt8) (op : List UInt8) : Prop :=
  op = [first] ∧ isSeparatorByte first = true ∨
    op = [first, first] ∧ (first = byte '&' ∨ first = byte '|')

theorem separator_cases {sep : String} (hsep : sep ∈ separatorTexts) :
    ∃ b, IsOperator b (utf8 sep) ∧ (b = byte '&' → sep = "&&") := by
  simp only [separatorTexts, mem_cons, not_mem_nil, or_false] at hsep
  rcases hsep with rfl | rfl | rfl | rfl | rfl
  · exact ⟨byte ';', .inl (by decide), by decide⟩
  · exact ⟨byte '\n', .inl (by decide), by decide⟩
  · exact ⟨byte '|', .inl (by decide), by decide⟩
  · exact ⟨byte '|', .inr (by decide), by decide⟩
  · exact ⟨byte '&', .inr (by decide), by decide⟩

/-- At an operator the lexer of a chain ends a segment and reads what is behind, when it has a
round there. -/
theorem run_of_operator {a b op : List UInt8} {first : UInt8} {t u : LexState}
    (hop : IsOperator first op) (hbare : t.Bare) (hpos : t.i = a.length)
    (hmem : u ∈ (lexer (a ++ op ++ b)).trace t) (hu : u.i = (a ++ op).length) :
    (lexer (a ++ op ++ b)).run t =
      ((lexer b).run LexState.init).shift (a ++ op).length
        (t.segments ++ [⟨t.start, t.i, t.hasWrite⟩]) := by
  have hsplit : t.next (a ++ op ++ b) = t.splitHere op.length := by
    have hbyte (k : Nat) : (a ++ op ++ b)[t.i + k]? = (op ++ b)[k]? := by
      rw [hpos, append_assoc, List.getElem?_append_right (Nat.le_add_right _ _),
        Nat.add_sub_cancel_left]
    rcases hop with ⟨rfl, hfirst⟩ | ⟨rfl, hboth⟩
    · apply LexState.next_separator hbare (hbyte 0) hfirst hmem
      rw [hu, hpos, length_append]
      rfl
    · exact LexState.next_operator hbare (hbyte 0) (hbyte 1) hboth
  have hprogress : t.i < u.i := by
    have hne : 0 < op.length := by
      rcases hop with ⟨rfl, -⟩ | ⟨rfl, -⟩ <;> exact Nat.succ_pos _
    rw [hu, hpos, length_append]
    omega
  obtain ⟨hlt, -⟩ := (lexer (a ++ op ++ b)).mem_trace_next hmem hprogress
  rw [← (lexer (a ++ op ++ b)).run_next hlt]
  show (lexer (a ++ op ++ b)).run (t.next (a ++ op ++ b)) = _
  rw [hsplit, LexState.splitHere_eq_shift hbare, hpos, ← length_append, run_shift]

/-- The segments of the first text are among those that the lexer of a chain has found when it
comes to the second one. -/
theorem exists_front {a b op : List UInt8} {first : UInt8} (hop : IsOperator first op)
    (hend : ((lexer a).run LexState.init).i = a.length)
    (hbare : ((lexer a).run LexState.init).Bare)
    (hredirect : first = byte '&' → ∀ u ∈ (lexer a).trace LexState.init, ¬u.AtLastRedirect a)
    (hreads : ∃ u ∈ (lexer (a ++ op ++ b)).trace LexState.init, u.i = (a ++ op).length) :
    ∃ front, segmentsIn a ⊆ front ∧
      (lexer (a ++ op ++ b)).run LexState.init =
        ((lexer b).run LexState.init).shift (a ++ op).length front := by
  obtain ⟨u, hmem, hu⟩ := hreads
  obtain ⟨rest, hrest⟩ : ∃ rest, op = first :: rest := by
    rcases hop with ⟨rfl, -⟩ | ⟨rfl, -⟩ <;> exact ⟨_, rfl⟩
  have hfirst : isSeparatorByte first = true := by
    rcases hop with ⟨-, hfirst⟩ | ⟨-, rfl | rfl⟩
    · exact hfirst
    · rfl
    · rfl
  have hchain : a ++ op ++ b = a ++ first :: (rest ++ b) := by
    rw [append_assoc, hrest, cons_append]
  obtain ⟨t, hfollows, hrun, hlater⟩ :=
    exists_follows (d := rest ++ b) (Nat.zero_le _) hfirst hend hbare hredirect
  rw [← hchain] at hrun hlater
  have hmem' : u ∈ (lexer (a ++ op ++ b)).trace t := by
    apply hlater u hmem
    rw [hu, length_append, hrest, length_cons]
    omega
  rw [← hrun]
  cases hfollows with
  | same =>
      refine ⟨_, ?_, run_of_operator hop hbare hend hmem' hu⟩
      rw [segmentsIn, LexState.close, hend]
      split
      · exact List.Subset.refl _
      · exact subset_append_left _ _
  | further hboth hstart =>
      have hsegments : segmentsIn a = ((lexer a).run LexState.init).segments :=
        if_neg (by omega)
      rw [hsegments]
      rcases hop with ⟨rfl, -⟩ | ⟨rfl, -⟩
      · refine ⟨_, List.Subset.refl _, ?_⟩
        rw [hend, ← run_shift, length_append, length_singleton]
      · -- The second byte of the operator is one of its own.
        have hsplit : a ++ [first, first] = a ++ [first] ++ [first] := by
          rw [append_assoc]
          rfl
        rw [hsplit] at hmem' hu ⊢
        refine ⟨_, ?_, run_of_operator (.inl ⟨rfl, hfirst⟩) ⟨rfl, rfl⟩ ?_ hmem' hu⟩
        · apply subset_append_of_subset_left
          exact subset_append_left _ _
        · rw [hend, length_append]
          exact Nat.zero_add _

/-! ## The segments of a chain -/

/-- The segments of a chain: those in front, and those of the second text at their place. -/
theorem segmentsIn_of_run {a b : List UInt8} {front : List Segment}
    (hrun : (lexer (a ++ b)).run LexState.init =
      ((lexer b).run LexState.init).shift a.length front) :
    segmentsIn (a ++ b) = front ++ (segmentsIn b).map (Segment.shift a.length) := by
  rw [segmentsIn, hrun, length_append, Nat.add_comm, LexState.close_shift, segmentsIn]

/-- A segment of a text behind another one has the text that it has by itself. -/
theorem text_shift (front command : String) (segment : Segment) :
    (segment.shift (utf8 front).length).text (front ++ command) = segment.text command := by
  have hcond : segment.start + (utf8 front).length ≤ segment.stop + (utf8 front).length ∧
      segment.stop + (utf8 front).length ≤ (utf8 (front ++ command)).length ↔
      segment.start ≤ segment.stop ∧ segment.stop ≤ (utf8 command).length := by
    rw [utf8_append, length_append]
    omega
  simp only [Segment.text, Segment.shift, slice, hcond]
  rw [utf8_append, extract_eq_take_drop, extract_eq_take_drop, Nat.add_sub_add_right,
    Nat.add_comm, drop_append, Nat.add_sub_cancel_left,
    drop_eq_nil_of_le (Nat.le_add_right _ _), nil_append]

/-- A segment of a text in front of another one has the text that it has by itself. -/
theorem text_append {command behind : String} {segment : Segment}
    (hstop : segment.stop ≤ (utf8 command).length) :
    segment.text (command ++ behind) = segment.text command := by
  have hcond : segment.start ≤ segment.stop ∧ segment.stop ≤ (utf8 (command ++ behind)).length ↔
      segment.start ≤ segment.stop ∧ segment.stop ≤ (utf8 command).length := by
    rw [utf8_append, length_append]
    omega
  simp only [Segment.text, slice, hcond]
  by_cases hstart : segment.start ≤ segment.stop
  · rw [utf8_append, extract_eq_take_drop, extract_eq_take_drop,
      drop_append_of_le_length (hstart.trans hstop), take_append_of_le_length]
    rw [length_drop]
    omega
  · rw [if_neg (fun h ↦ hstart h.1), if_neg (fun h ↦ hstart h.1)]

/-! ## The risk of a chain -/

/-- A text that a command is a part of has at least its risk, when each segment of the command has
its text in a segment of the whole. -/
theorem classifyWith_le {classify : String → Bool → RiskLevel} {part whole : String}
    (hpart : part.toList <:+: whole.toList)
    (hsegments : ∀ segment ∈ lexSegments part, ∃ segment' ∈ lexSegments whole,
      segment'.text whole = segment.text part ∧
        segment'.hasWriteRedirect = segment.hasWriteRedirect) :
    classifyWith classify part ≤ classifyWith classify whole := by
  have hsubshell (h : hasSubshellSyntax part = true) : hasSubshellSyntax whole = true := by
    simp only [hasSubshellSyntax, Bool.or_eq_true] at h ⊢
    rcases h with ((h | h) | h) | h
    · exact .inl (.inl (.inl (contains_of_isInfix hpart h)))
    · exact .inl (.inl (.inr (contains_of_isInfix hpart h)))
    · exact .inl (.inr (contains_of_isInfix hpart h))
    · exact .inr (contains_of_isInfix hpart h)
  unfold classifyWith
  by_cases hwhole : hasSubshellSyntax whole = true
  · rw [if_pos hwhole]
    exact RiskLevel.le_dangerous _
  rw [if_neg hwhole, if_neg (mt hsubshell hwhole)]
  by_cases hwhole' : matchesPattern DANGEROUS_PATTERNS whole = true
  · rw [if_pos hwhole']
    exact RiskLevel.le_dangerous _
  rw [if_neg hwhole', if_neg (mt (matchesPattern_of_isInfix hpart) hwhole')]
  apply RiskLevel.highest_le
  intro level hmem
  obtain ⟨segment, hsegment, rfl⟩ := mem_map.mp hmem
  obtain ⟨segment', hsegment', htext, hwrite⟩ := hsegments segment hsegment
  apply RiskLevel.le_highest
  rw [← htext, ← hwrite]
  exact mem_map_of_mem hsegment'

/-- A chain has at least the risk of each of its commands: of the first one when its lexing ends
outside quotes and escapes and a `&&` does not stand behind a `>` that the command ends in, and of
both when the lexer reads the second one from its first byte on. -/
theorem classifyCommand_chain [Alphabetic] (c₁ c₂ sep : String) (hends : EndsBare c₁)
    (hsep : sep ∈ separatorTexts) (hredirect : sep = "&&" → ¬EndsInRedirect c₁)
    (hreads : ReadsFrom (c₁ ++ sep ++ c₂) (utf8 (c₁ ++ sep)).length) :
    max (classifyCommand c₁) (classifyCommand c₂) ≤ classifyCommand (c₁ ++ sep ++ c₂) := by
  obtain ⟨b, hop, hand⟩ := separator_cases hsep
  obtain ⟨front, hfront, hrun⟩ :
      ∃ front, segmentsIn (utf8 c₁) ⊆ front ∧
        (lexer (utf8 c₁ ++ utf8 sep ++ utf8 c₂)).run LexState.init =
          ((lexer (utf8 c₂)).run LexState.init).shift (utf8 c₁ ++ utf8 sep).length front := by
    apply exists_front hop hends.2 hends.1
    · intro hb s hmem hlast
      exact hredirect (hand hb) ⟨s, hmem, hlast⟩
    · rw [← utf8_append, ← utf8_append]
      exact hreads
  have hsegments : lexSegments (c₁ ++ sep ++ c₂) =
      front ++ (lexSegments c₂).map (Segment.shift (utf8 (c₁ ++ sep)).length) := by
    rw [lexSegments_eq, utf8_append, utf8_append]
    exact segmentsIn_of_run hrun
  apply max_le
  · apply classifyWith_le
    · rw [String.append_assoc, String.toList_append]
      exact (prefix_append _ _).isInfix
    · intro segment hmem
      refine ⟨segment, ?_, ?_, rfl⟩
      · rw [hsegments]
        exact mem_append_left _ (hfront hmem)
      · rw [String.append_assoc]
        exact text_append (stop_le_of_mem hmem)
  · apply classifyWith_le
    · rw [String.toList_append]
      exact (suffix_append _ _).isInfix
    · intro segment hmem
      refine ⟨segment.shift (utf8 (c₁ ++ sep)).length, ?_, text_shift _ _ _, rfl⟩
      rw [hsegments]
      exact mem_append_right _ (mem_map_of_mem hmem)

/-- A listing, and behind it a deletion. -/
theorem classifyCommand_chain_rm :
    max (@classifyCommand asciiAlphabetic "ls") (@classifyCommand asciiAlphabetic " rm a") ≤
      @classifyCommand asciiAlphabetic "ls&& rm a" :=
  @classifyCommand_chain asciiAlphabetic "ls" " rm a" "&&" (by decide) (by decide) (by decide)
    (by decide)

/-- A `|` in front of a second command that starts with another one becomes a `||`: the empty
command between them, which would need approval, is gone. A `&&` behind a `>` becomes a `>&` and
makes a deletion one that writes a file. -/
theorem joined_operators_lowered :
    (EndsBare "ls" ∧ "|" ∈ separatorTexts ∧
      ¬max (@classifyCommand asciiAlphabetic "ls") (@classifyCommand asciiAlphabetic "|ls") ≤
        @classifyCommand asciiAlphabetic ("ls" ++ "|" ++ "|ls")) ∧
    EndsBare "rm a 2>" ∧ "&&" ∈ separatorTexts ∧
      ¬max (@classifyCommand asciiAlphabetic "rm a 2>") (@classifyCommand asciiAlphabetic "ls") ≤
        @classifyCommand asciiAlphabetic ("rm a 2>" ++ "&&" ++ "ls") := by
  decide

end KaduoxSsh.Desktop
