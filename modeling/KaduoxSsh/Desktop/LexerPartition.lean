import KaduoxSsh.Desktop.LexerSegments
import KaduoxSsh.Lib.Boundaries

/-!
# The segments as a partition of the command

The lexer reads bytes, and behind a backslash it passes one byte unseen, which may be
the first of a character of several. A segment starts and ends at an operator all the
same, and the operators are ASCII, so the command is never cut inside a character.
What the rounds that end a segment consume are the operators, and with these between
them the segments are the command again.
-/

namespace KaduoxSsh.Desktop

open Text List

/-- The operators that end a segment. -/
def segmentOperators : List String := [";", "\n", "\r", "&&", "&", "||", "|"]

/-- The lists' elements in turn, as long as both have some. -/
def interleave {α : Type} : List α → List α → List α
  | [], seps => seps
  | text :: texts, [] => text :: texts
  | text :: texts, sep :: seps => text :: sep :: interleave texts seps

/-- What a round that ends a segment consumes. -/
def LexState.cut (bytes : List UInt8) (s : LexState) : Option (Nat × Nat) :=
  if s.segments.length < (s.next bytes).segments.length then some (s.i, (s.next bytes).i) else none

/-- What the rounds of the loop consume between the segments. -/
def cuts (bytes : List UInt8) : List (Nat × Nat) :=
  ((lexer bytes).trace LexState.init).filterMap (LexState.cut bytes)

/-- The operators that the lexer consumes. -/
def consumedOperators (command : String) : List String :=
  (cuts (utf8 command)).map fun range ↦ (slice command range.1 range.2).getD ""

theorem map_interleave {α β : Type} (f : α → β) (texts seps : List α) :
    (interleave texts seps).map f = interleave (texts.map f) (seps.map f) := by
  induction texts generalizing seps with
  | nil => rfl
  | cons text texts ih =>
      cases seps with
      | nil => rfl
      | cons sep seps => rw [interleave, map_cons, map_cons, ih]; rfl

namespace LexState

variable {bytes : List UInt8} {s : LexState} {b : UInt8}

theorem cut_eq_none (hstep : s.Continues (s.next bytes)) : s.cut bytes = none := by
  rw [cut, hstep.segments, if_neg (Nat.lt_irrefl _)]

theorem cut_eq_some (hstep : s.Ends (s.next bytes)) :
    s.cut bytes = some (s.i, (s.next bytes).i) := by
  have hlt : s.segments.length < (s.next bytes).segments.length := by
    rw [hstep.segments, length_append]
    exact Nat.lt_succ_self _
  rw [cut, if_pos hlt]

/-- A round cannot both read on and end a segment. -/
theorem Continues.not_ends {t : LexState} (hstep : s.Continues t) : ¬s.Ends t := by
  intro hends
  have hlength := congrArg List.length (hstep.segments.symm.trans hends.segments)
  rw [length_append, length_singleton] at hlength
  omega

/-- A round that ends a segment reads an operator. -/
theorem exists_operator (hb : bytes[s.i]? = some b) (hends : s.Ends (s.next bytes)) :
    (∃ op ∈ segmentOperators, utf8 op = [b] ∧ (s.next bytes).i = s.i + 1) ∨
      ∃ c, bytes[s.i + 1]? = some c ∧
        ∃ op ∈ segmentOperators, utf8 op = [b, c] ∧ (s.next bytes).i = s.i + 2 := by
  cases hsingle : s.inSingle with
  | true =>
      refine absurd hends (Continues.not_ends ?_)
      rw [next_single hb hsingle]
      split_ifs
      all_goals exact ⟨rfl, rfl, id⟩
  | false =>
  cases hdouble : s.inDouble with
  | true =>
      refine absurd hends (Continues.not_ends ?_)
      rw [next_double hb hsingle hdouble]
      split_ifs
      all_goals exact ⟨rfl, rfl, id⟩
  | false =>
  rw [next_bare hb hsingle hdouble] at hends ⊢
  have hstep : BareStep bytes s b (s.bare bytes b) := bareStep
  generalize s.bare bytes b = t at hstep hends ⊢
  cases hstep with
  | escape | single | double | andGreater | blank | other =>
      exact absurd hends (Continues.not_ends ⟨rfl, rfl, fun h ↦ by simp [h]⟩)
  | greater => exact absurd hends continues_redirect.not_ends
  | separator hb =>
      left
      rcases hb with rfl | rfl | rfl
      · exact ⟨";", by decide, rfl, rfl⟩
      · exact ⟨"\n", by decide, rfl, rfl⟩
      · exact ⟨"\r", by decide, rfl, rfl⟩
  | andAnd hb hnext =>
      obtain rfl := hb
      exact .inr ⟨_, hnext, "&&", by decide, rfl, rfl⟩
  | and hb =>
      obtain rfl := hb
      exact .inl ⟨"&", by decide, rfl, rfl⟩
  | pipePipe hb hnext =>
      obtain rfl := hb
      exact .inr ⟨_, hnext, "||", by decide, rfl, rfl⟩
  | pipe hb =>
      obtain rfl := hb
      exact .inl ⟨"|", by decide, rfl, rfl⟩

theorem ascii_of_mem_segmentOperators :
    ∀ op ∈ segmentOperators, ∀ b ∈ utf8 op, b < 0x80 := by decide +kernel

/-- The command may be cut on both sides of what a round that ends a segment consumes. -/
theorem isBoundary_of_ends {command : String} (hb : (utf8 command)[s.i]? = some b)
    (hends : s.Ends (s.next (utf8 command))) :
    IsBoundary command s.i ∧ IsBoundary command (s.next (utf8 command)).i := by
  rcases exists_operator hb hends with ⟨op, hop, hbytes, hnext⟩ | ⟨c, hc, op, hop, hbytes, hnext⟩
  · have hascii := ascii_of_mem_segmentOperators op hop b (hbytes ▸ mem_cons_self)
    rw [hnext]
    exact isBoundary_of_ascii hb hascii
  · have hascii := ascii_of_mem_segmentOperators op hop
    rw [hbytes] at hascii
    rw [hnext]
    exact ⟨(isBoundary_of_ascii hb (hascii b (by simp))).1,
      (isBoundary_of_ascii hc (hascii c (by simp))).2⟩

/-- What a round that ends a segment consumes is an operator. -/
theorem extract_of_ends (hb : bytes[s.i]? = some b) (hends : s.Ends (s.next bytes)) :
    ∃ op ∈ segmentOperators, bytes.extract s.i (s.next bytes).i = utf8 op := by
  obtain ⟨hlt, hget⟩ := List.getElem?_eq_some_iff.mp hb
  rcases exists_operator hb hends with ⟨op, hop, hbytes, hnext⟩ | ⟨c, hc, op, hop, hbytes, hnext⟩
  · refine ⟨op, hop, ?_⟩
    rw [hbytes, hnext, extract_eq_take_drop, Nat.add_sub_cancel_left,
      drop_eq_getElem_cons hlt, hget]
    rfl
  · obtain ⟨hlt', hget'⟩ := List.getElem?_eq_some_iff.mp hc
    refine ⟨op, hop, ?_⟩
    rw [hbytes, hnext, extract_eq_take_drop, Nat.add_sub_cancel_left,
      drop_eq_getElem_cons hlt, drop_eq_getElem_cons hlt', hget, hget']
    rfl

/-- The starts and ends of the segments that are found lie between characters. -/
structure Uncut (command : String) (s : LexState) : Prop where
  start : IsBoundary command s.start
  segments : ∀ segment ∈ s.segments,
    IsBoundary command segment.start ∧ IsBoundary command segment.stop

theorem uncut_init (command : String) : init.Uncut command where
  start := isBoundary_zero
  segments _ hmem := nomatch hmem

theorem Uncut.next {command : String} (h : s.Uncut command) (hlt : s.i < (utf8 command).length) :
    (s.next (utf8 command)).Uncut command := by
  rcases s.continues_or_ends (utf8 command) with hstep | hstep
  · constructor
    · rw [hstep.start]
      exact h.start
    · rw [hstep.segments]
      exact h.segments
  · obtain ⟨hi, hnext⟩ := isBoundary_of_ends (List.getElem?_eq_getElem hlt) hstep
    constructor
    · rw [hstep.start]
      exact hnext
    · intro segment hmem
      rw [hstep.segments] at hmem
      rcases mem_append.mp hmem with hold | hnew
      · exact h.segments segment hold
      · rw [mem_singleton.mp hnew]
        exact ⟨h.start, hi⟩

end LexState

section

variable {bytes : List UInt8} {command : String} {segment : Segment}

/-- No segment starts or ends inside a character. -/
theorem isBoundary_of_mem (hmem : segment ∈ lexSegments command) :
    IsBoundary command segment.start ∧ IsBoundary command segment.stop := by
  have huncut : ((lexer (utf8 command)).run LexState.init).Uncut command :=
    (lexer (utf8 command)).run_invariant (P := LexState.Uncut command)
      (LexState.uncut_init command) fun _ h hlt ↦ h.next hlt
  rw [lexSegments_eq, segmentsIn, LexState.close] at hmem
  split at hmem
  · rcases mem_append.mp hmem with hold | hlast
    · exact huncut.segments segment hold
    · rw [mem_singleton.mp hlast]
      exact ⟨huncut.start, isBoundary_length⟩
  · exact huncut.segments segment hmem

theorem drop_eq_extract_append {start stop : Nat} (hle : start ≤ stop) :
    bytes.drop start = bytes.extract start stop ++ bytes.drop stop := by
  obtain ⟨n, rfl⟩ := Nat.exists_eq_add_of_le hle
  rw [extract_eq_take_drop, Nat.add_sub_cancel_left, ← drop_drop, take_append_drop]

theorem lexer_next (u : LexState) : (lexer bytes).next u = u.next bytes := rfl

/-- From a state on the loop finds the segments and the operators that the rest of the text
consists of. -/
theorem exists_more {u : LexState} (hle : u.start ≤ u.i) :
    ∃ more : List Segment, ((lexer bytes).run u).close bytes.length = u.segments ++ more ∧
      (∀ segment ∈ more, segment.start ≤ segment.stop) ∧
      (((lexer bytes).trace u).filterMap (LexState.cut bytes)).length ≤ more.length ∧
      more.length ≤ (((lexer bytes).trace u).filterMap (LexState.cut bytes)).length + 1 ∧
      (interleave (more.map fun segment ↦ bytes.extract segment.start segment.stop)
        ((((lexer bytes).trace u).filterMap (LexState.cut bytes)).map fun range ↦
          bytes.extract range.1 range.2)).flatten = bytes.drop u.start := by
  induction u using (lexer bytes).loop_induction with
  | hend u hend =>
      rw [Scanner.run_of_not_lt _ hend, Scanner.trace_of_not_lt _ hend, LexState.close]
      split
      · next hlt =>
        refine ⟨[⟨u.start, bytes.length, u.hasWrite⟩], rfl, ?_, Nat.zero_le _, Nat.le_refl _, ?_⟩
        · intro segment hmem
          rw [mem_singleton.mp hmem]
          exact Nat.le_of_lt hlt
        · rw [drop_eq_extract_append (Nat.le_of_lt hlt), drop_length]
          rfl
      · next hlt =>
        refine ⟨[], (append_nil _).symm, fun _ hmem ↦ absurd hmem not_mem_nil,
          Nat.le_refl _, Nat.zero_le _, ?_⟩
        rw [drop_of_length_le (Nat.le_of_not_lt hlt)]
        rfl
  | hround u hlt ih =>
      have hprogress : u.i < (u.next bytes).i := u.lt_next bytes hlt
      rw [← Scanner.run_next _ hlt, Scanner.trace_of_lt _ hlt]
      rw [lexer_next] at ih ⊢
      rcases u.continues_or_ends bytes with hstep | hstep
      · obtain ⟨more, hmore⟩ := ih (hstep.start ▸ hle.trans (Nat.le_of_lt hprogress))
        refine ⟨more, ?_⟩
        rw [filterMap_cons_none (LexState.cut_eq_none hstep), ← hstep.segments, ← hstep.start]
        exact hmore
      · obtain ⟨more, hrun, hordered, hlength, hlength', hflatten⟩ :=
          ih (Nat.le_of_eq hstep.start)
        rw [filterMap_cons_some (LexState.cut_eq_some hstep)]
        refine ⟨⟨u.start, u.i, u.hasWrite⟩ :: more, ?_, ?_, Nat.succ_le_succ hlength,
          Nat.succ_le_succ hlength', ?_⟩
        · rw [hrun, hstep.segments, append_assoc, singleton_append]
        · exact forall_mem_cons.mpr ⟨hle, hordered⟩
        · rw [map_cons, map_cons, interleave, flatten_cons, flatten_cons,
            hflatten, hstep.start, drop_eq_extract_append hle,
            drop_eq_extract_append (Nat.le_of_lt hprogress)]

theorem start_le_stop_of_mem (hmem : segment ∈ lexSegments command) :
    segment.start ≤ segment.stop := by
  obtain ⟨more, hrun, hordered, -, -, -⟩ :=
    @exists_more (utf8 command) LexState.init (Nat.le_refl _)
  rw [lexSegments_eq, segmentsIn, hrun] at hmem
  exact hordered segment hmem

/-- Each segment is a part of the command that the program can borrow. -/
theorem slice_of_mem (hmem : segment ∈ lexSegments command) :
    slice command segment.start segment.stop = some (segment.text command) ∧
      utf8 (segment.text command) = (utf8 command).extract segment.start segment.stop := by
  obtain ⟨hstart, hstop⟩ := isBoundary_of_mem hmem
  obtain ⟨t, ht, hbytes⟩ := exists_slice hstart hstop (start_le_stop_of_mem hmem)
  rw [Segment.text, ht, Option.getD_some]
  exact ⟨rfl, hbytes⟩

/-- What is consumed between the segments is read off from a round that ends one. -/
theorem exists_round_of_mem_cuts {range : Nat × Nat} (hmem : range ∈ cuts (utf8 command)) :
    ∃ s ∈ (lexer (utf8 command)).trace LexState.init,
      s.Ends (s.next (utf8 command)) ∧ range = (s.i, (s.next (utf8 command)).i) := by
  obtain ⟨s, hs, hcut⟩ := mem_filterMap.mp hmem
  rcases s.continues_or_ends (utf8 command) with hstep | hstep
  · rw [LexState.cut_eq_none hstep] at hcut
    cases hcut
  · rw [LexState.cut_eq_some hstep] at hcut
    exact ⟨s, hs, hstep, (Option.some.inj hcut).symm⟩

/-- What is consumed between the segments is an operator. -/
theorem exists_operator_of_mem_cuts {range : Nat × Nat} (hmem : range ∈ cuts (utf8 command)) :
    ∃ op ∈ segmentOperators, slice command range.1 range.2 = some op ∧
      utf8 op = (utf8 command).extract range.1 range.2 := by
  obtain ⟨s, hs, hstep, rfl⟩ := exists_round_of_mem_cuts hmem
  have hlt := (lexer (utf8 command)).pos_lt_of_mem_trace hs
  have hb := List.getElem?_eq_getElem hlt
  obtain ⟨hi, hnext⟩ := LexState.isBoundary_of_ends hb hstep
  obtain ⟨t, ht, hbytes⟩ := exists_slice hi hnext (Nat.le_of_lt (s.lt_next _ hlt))
  obtain ⟨op, hop, hextract⟩ := LexState.extract_of_ends hb hstep
  have heq : t = op := by
    rw [← Option.some_inj, ← fromUtf8_utf8 t, hbytes, hextract, fromUtf8_utf8]
  exact ⟨op, hop, heq ▸ ht, hextract.symm⟩

/-- The lexer ends on every command: its index moves on in each round and comes to stand at most one
byte behind the end. It cuts the command between characters only, and the segments and the
operators that it consumes, in turn, are the command. -/
theorem lexSegments_partition (command : String) :
    (∀ s ∈ (lexer (utf8 command)).trace LexState.init,
      s.i < (s.next (utf8 command)).i ∧ (s.next (utf8 command)).i ≤ (utf8 command).length + 1) ∧
    (∀ segment ∈ lexSegments command,
      IsBoundary command segment.start ∧ IsBoundary command segment.stop ∧
        slice command segment.start segment.stop = some (segment.text command)) ∧
    (∀ op ∈ consumedOperators command, op ∈ segmentOperators) ∧
    (consumedOperators command).length ≤ (lexSegments command).length ∧
    (lexSegments command).length ≤ (consumedOperators command).length + 1 ∧
    String.join (interleave ((lexSegments command).map (Segment.text command))
      (consumedOperators command)) = command := by
  obtain ⟨more, hrun, -, hlength, hlength', hflatten⟩ :=
    @exists_more (utf8 command) LexState.init (Nat.le_refl _)
  have hsegments : lexSegments command = more := hrun
  have hcount : (consumedOperators command).length = (cuts (utf8 command)).length :=
    length_map _
  refine ⟨fun s hmem ↦ ?_, fun segment hmem ↦ ?_, fun op hmem ↦ ?_, ?_, ?_, ?_⟩
  · have hlt := (lexer (utf8 command)).pos_lt_of_mem_trace hmem
    have hle := s.next_le (utf8 command)
    exact ⟨s.lt_next _ hlt, hle.trans (Nat.succ_le_succ (Nat.succ_le_of_lt hlt))⟩
  · obtain ⟨hstart, hstop⟩ := isBoundary_of_mem hmem
    exact ⟨hstart, hstop, (slice_of_mem hmem).1⟩
  · obtain ⟨range, hrange, rfl⟩ := mem_map.mp hmem
    obtain ⟨op, hop, hslice, -⟩ := exists_operator_of_mem_cuts hrange
    rw [hslice]
    exact hop
  · rw [hcount, hsegments]
    exact hlength
  · rw [hcount, hsegments]
    exact hlength'
  · have hutf8 : utf8 (String.join (interleave ((lexSegments command).map (Segment.text command))
        (consumedOperators command))) = utf8 command := by
      rw [utf8_join, map_interleave, map_map, consumedOperators, map_map]
      have htexts : (lexSegments command).map (utf8 ∘ Segment.text command) =
          more.map fun segment ↦ (utf8 command).extract segment.start segment.stop := by
        rw [← hsegments]
        exact map_congr_left fun segment hmem ↦ (slice_of_mem hmem).2
      have hoperators : (cuts (utf8 command)).map
            (utf8 ∘ fun range ↦ (slice command range.1 range.2).getD "") =
          (cuts (utf8 command)).map fun range ↦ (utf8 command).extract range.1 range.2 := by
        apply map_congr_left
        intro range hmem
        obtain ⟨op, -, hslice, hbytes⟩ := exists_operator_of_mem_cuts hmem
        rw [Function.comp_apply, hslice, Option.getD_some, hbytes]
      rw [htexts, hoperators]
      exact hflatten
    rw [← Option.some_inj, ← fromUtf8_utf8, hutf8, fromUtf8_utf8]

end

end KaduoxSsh.Desktop
