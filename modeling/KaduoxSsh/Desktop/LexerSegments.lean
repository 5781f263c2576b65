import KaduoxSsh.Desktop.Lexer
import Mathlib.Data.List.Pairwise

/-!
# Where the segments lie

The segments of a command line stand in a row, and between two of them is an
operator. Each round of the lexer either ends a segment, and then its bytes lie in
none, or reads on, and then its bytes lie in the segment that is being read. A
segment has the mark of a write redirect when one of its rounds set it.
-/

namespace KaduoxSsh.Desktop

open Text List

/-- The segments of a text of so many bytes, when the loop has ended in a state. -/
def LexState.close (s : LexState) (length : Nat) : List Segment :=
  if s.start < length then s.segments ++ [⟨s.start, length, s.hasWrite⟩] else s.segments

/-- The segments of a text of bytes. -/
def segmentsIn (bytes : List UInt8) : List Segment :=
  ((lexer bytes).run LexState.init).close bytes.length

theorem lexSegments_eq (command : String) : lexSegments command = segmentsIn (utf8 command) := rfl

/-- The place of a byte is in the range of a segment. -/
def Segment.Covers (segment : Segment) (p : Nat) : Prop := segment.start ≤ p ∧ p < segment.stop

instance (segment : Segment) (p : Nat) : Decidable (segment.Covers p) :=
  inferInstanceAs (Decidable (_ ∧ _))

/-! ## What the loop keeps -/

namespace LexState

variable {bytes : List UInt8} {s : LexState}

/-- The segments that are found stand in a row, in front of the current one. -/
structure Ordered (bytes : List UInt8) (s : LexState) : Prop where
  le : s.start ≤ s.i
  stop_lt : ∀ segment ∈ s.segments, segment.stop < s.start
  stop_lt_length : ∀ segment ∈ s.segments, segment.stop < bytes.length
  pairwise : s.segments.Pairwise fun a b ↦ a.stop < b.start

theorem ordered_init : init.Ordered bytes where
  le := Nat.le_refl _
  stop_lt _ hmem := nomatch hmem
  stop_lt_length _ hmem := nomatch hmem
  pairwise := .nil

theorem Ordered.next (h : s.Ordered bytes) (hlt : s.i < bytes.length) :
    (s.next bytes).Ordered bytes := by
  have hprogress := s.lt_next bytes hlt
  rcases s.continues_or_ends bytes with hstep | hstep
  · constructor
    · rw [hstep.start]
      exact Nat.le_of_lt (Nat.lt_of_le_of_lt h.le hprogress)
    · rw [hstep.segments, hstep.start]
      exact h.stop_lt
    · rw [hstep.segments]
      exact h.stop_lt_length
    · rw [hstep.segments]
      exact h.pairwise
  · have hle := h.le
    constructor
    · rw [hstep.start]
    · intro segment hmem
      rw [hstep.segments] at hmem
      rw [hstep.start]
      rcases mem_append.mp hmem with hold | hnew
      · have := h.stop_lt segment hold
        omega
      · rw [mem_singleton.mp hnew]
        exact hprogress
    · intro segment hmem
      rw [hstep.segments] at hmem
      rcases mem_append.mp hmem with hold | hnew
      · exact h.stop_lt_length segment hold
      · rw [mem_singleton.mp hnew]
        exact hlt
    · rw [hstep.segments, pairwise_append]
      refine ⟨h.pairwise, pairwise_singleton _ _, fun a ha b hb ↦ ?_⟩
      rw [mem_singleton.mp hb]
      exact h.stop_lt a ha

end LexState

section Rounds

variable {bytes : List UInt8} {s u : LexState} {segment : Segment} {p : Nat}

theorem ordered_trace :
    (∀ s ∈ (lexer bytes).trace LexState.init, s.Ordered bytes) ∧
      ((lexer bytes).run LexState.init).Ordered bytes :=
  (lexer bytes).trace_invariant LexState.ordered_init fun _ hmem h ↦
    h.next ((lexer bytes).pos_lt_of_mem_trace hmem)

/-- Segments that are found stay. -/
theorem mem_run (hmem : segment ∈ u.segments) :
    segment ∈ ((lexer bytes).run u).close bytes.length := by
  have hrun : segment ∈ ((lexer bytes).run u).segments := by
    apply (lexer bytes).run_invariant (P := fun v ↦ segment ∈ v.segments) hmem
    intro v hv hlt
    show segment ∈ (v.next bytes).segments
    rcases v.continues_or_ends bytes with hstep | hstep
    · rw [hstep.segments]
      exact hv
    · rw [hstep.segments]
      exact mem_append_left _ hv
  unfold LexState.close
  split
  · exact mem_append_left _ hrun
  · exact hrun

/-- Segments that are found later start in the current one or behind it. -/
theorem start_le_of_mem_run (hordered : u.Ordered bytes)
    (hmem : segment ∈ ((lexer bytes).run u).close bytes.length) :
    segment ∈ u.segments ∨ u.start ≤ segment.start := by
  obtain ⟨-, hstart, hsegments⟩ : ((lexer bytes).run u).Ordered bytes ∧
      u.start ≤ ((lexer bytes).run u).start ∧
      ∀ segment ∈ ((lexer bytes).run u).segments, segment ∈ u.segments ∨ u.start ≤ segment.start := by
    apply (lexer bytes).run_invariant (P := fun v ↦ v.Ordered bytes ∧ u.start ≤ v.start ∧
      ∀ segment ∈ v.segments, segment ∈ u.segments ∨ u.start ≤ segment.start)
    · exact ⟨hordered, Nat.le_refl _, fun segment hmem ↦ .inl hmem⟩
    · rintro v ⟨hv, hstart, hsegments⟩ hlt
      refine ⟨hv.next hlt, ?_⟩
      show u.start ≤ (v.next bytes).start ∧ ∀ segment ∈ (v.next bytes).segments, _
      have hprogress := v.lt_next bytes hlt
      have hle := hv.le
      rcases v.continues_or_ends bytes with hstep | hstep
      · rw [hstep.segments, hstep.start]
        exact ⟨hstart, hsegments⟩
      · rw [hstep.segments, hstep.start]
        refine ⟨by omega, fun segment hmem ↦ ?_⟩
        rcases mem_append.mp hmem with hold | hnew
        · exact hsegments segment hold
        · rw [mem_singleton.mp hnew]
          exact .inr hstart
  unfold LexState.close at hmem
  split at hmem
  · rcases mem_append.mp hmem with hold | hnew
    · exact hsegments segment hold
    · rw [mem_singleton.mp hnew]
      exact .inr hstart
  · exact hsegments segment hmem

/-- The current segment is one of the segments, at least up to the current byte. -/
theorem exists_current (hstart : u.start < bytes.length) :
    ∃ segment ∈ ((lexer bytes).run u).close bytes.length, segment.start = u.start ∧
      min u.i bytes.length ≤ segment.stop ∧
      (u.hasWrite = true → segment.hasWriteRedirect = true) := by
  have hrun : (∃ segment ∈ ((lexer bytes).run u).segments, segment.start = u.start ∧
        u.i ≤ segment.stop ∧ (u.hasWrite = true → segment.hasWriteRedirect = true)) ∨
      ((lexer bytes).run u).start = u.start ∧ u.i ≤ ((lexer bytes).run u).i ∧
        (u.hasWrite = true → ((lexer bytes).run u).hasWrite = true) := by
    apply (lexer bytes).run_invariant (P := fun v ↦
      (∃ segment ∈ v.segments, segment.start = u.start ∧
        u.i ≤ segment.stop ∧ (u.hasWrite = true → segment.hasWriteRedirect = true)) ∨
      v.start = u.start ∧ u.i ≤ v.i ∧ (u.hasWrite = true → v.hasWrite = true))
    · exact .inr ⟨rfl, Nat.le_refl _, id⟩
    · intro v hv hlt
      have hprogress := v.lt_next bytes hlt
      show (∃ segment ∈ (v.next bytes).segments, _) ∨ (v.next bytes).start = _ ∧
        u.i ≤ (v.next bytes).i ∧ (_ → (v.next bytes).hasWrite = true)
      rcases v.continues_or_ends bytes with hstep | hstep
      · rw [hstep.segments, hstep.start]
        exact hv.imp_right fun h ↦
          ⟨h.1, h.2.1.trans (Nat.le_of_lt hprogress), hstep.hasWrite ∘ h.2.2⟩
      · rw [hstep.segments]
        left
        rcases hv with ⟨segment, hmem, hsegment⟩ | hv
        · exact ⟨segment, mem_append_left _ hmem, hsegment⟩
        · exact ⟨_, mem_append_right _ (mem_singleton_self _), hv⟩
  rcases hrun with ⟨segment, hmem, hsegment, hstop, hwrite⟩ | ⟨hstart', -, hwrite⟩
  · refine ⟨segment, ?_, hsegment, (Nat.min_le_left _ _).trans hstop, hwrite⟩
    unfold LexState.close
    split
    · exact mem_append_left _ hmem
    · exact hmem
  · rw [LexState.close, if_pos (hstart' ▸ hstart)]
    exact ⟨_, mem_append_right _ (mem_singleton_self _), hstart', Nat.min_le_right _ _,
      hwrite⟩

/-! ## The segments and the rounds -/

theorem ordered_of_mem_trace (hmem : s ∈ (lexer bytes).trace LexState.init) : s.Ordered bytes :=
  ordered_trace.1 s hmem

/-- The bytes of a round that reads on lie in one segment, which has the mark that it sets. -/
theorem exists_covers (hmem : s ∈ (lexer bytes).trace LexState.init)
    (hstep : s.Continues (s.next bytes)) (hp : s.i ≤ p) (hp' : p < (s.next bytes).i)
    (hlt : p < bytes.length) :
    ∃ segment ∈ segmentsIn bytes, segment.Covers p ∧ segment.start = s.start ∧
      ((s.next bytes).hasWrite = true → segment.hasWriteRedirect = true) := by
  have hle := (ordered_of_mem_trace hmem).le
  have hpos := (lexer bytes).pos_lt_of_mem_trace hmem
  have hinside : (s.next bytes).start < bytes.length := by
    rw [hstep.start]
    omega
  obtain ⟨segment, hsegment, hstart, hstop, hwrite⟩ := exists_current hinside
  have hrun : (lexer bytes).run (s.next bytes) = (lexer bytes).run LexState.init :=
    ((lexer bytes).run_next hpos).trans ((lexer bytes).run_of_mem_trace hmem)
  rw [hrun] at hsegment
  rw [hstep.start] at hstart
  exact ⟨segment, hsegment, ⟨by omega, by omega⟩, hstart, hwrite⟩

/-- The bytes of a round that ends a segment lie in none. -/
theorem not_covers (hmem : s ∈ (lexer bytes).trace LexState.init)
    (hstep : s.Ends (s.next bytes)) (hp : s.i ≤ p) (hp' : p < (s.next bytes).i) :
    (∃ segment ∈ segmentsIn bytes, segment.stop = s.i) ∧
      ∀ segment ∈ segmentsIn bytes, ¬segment.Covers p := by
  have hpos := (lexer bytes).pos_lt_of_mem_trace hmem
  have hordered := ordered_of_mem_trace hmem
  have hle := hordered.le
  have hrun : (lexer bytes).run (s.next bytes) = (lexer bytes).run LexState.init :=
    ((lexer bytes).run_next hpos).trans ((lexer bytes).run_of_mem_trace hmem)
  constructor
  · refine ⟨⟨s.start, s.i, s.hasWrite⟩, ?_, rfl⟩
    rw [segmentsIn, ← hrun]
    apply mem_run
    rw [hstep.segments]
    exact mem_append_right _ (mem_singleton_self _)
  · rintro segment hsegment ⟨hstart, hstop⟩
    rw [segmentsIn, ← hrun] at hsegment
    rcases start_le_of_mem_run (hordered.next hpos) hsegment with hold | hnew
    · rw [hstep.segments] at hold
      rcases mem_append.mp hold with hold | hcurrent
      · have := hordered.stop_lt segment hold
        omega
      · rw [mem_singleton.mp hcurrent] at hstop
        exact absurd hstop (Nat.not_lt_of_le hp)
    · rw [hstep.start] at hnew
      omega

/-- No byte lies in two segments. -/
theorem covers_unique {segment' : Segment} (hmem : segment ∈ segmentsIn bytes)
    (hmem' : segment' ∈ segmentsIn bytes) (hcovers : segment.Covers p)
    (hcovers' : segment'.Covers p) : segment = segment' := by
  have hordered : ((lexer bytes).run LexState.init).Ordered bytes := ordered_trace.2
  have hpairwise : (segmentsIn bytes).Pairwise fun a b ↦ a.stop < b.start := by
    unfold segmentsIn LexState.close
    split
    · rw [pairwise_append]
      refine ⟨hordered.pairwise, pairwise_singleton _ _, fun a ha b hb ↦ ?_⟩
      rw [mem_singleton.mp hb]
      exact hordered.stop_lt a ha
    · exact hordered.pairwise
  by_contra hne
  have : Std.Symm fun a b : Segment ↦ a.stop < b.start ∨ b.stop < a.start := ⟨fun _ _ ↦ Or.symm⟩
  have happart : segment.stop < segment'.start ∨ segment'.stop < segment.start :=
    (hpairwise.imp Or.inl).forall (R := fun a b ↦ a.stop < b.start ∨ b.stop < a.start) hmem hmem' hne
  obtain ⟨⟨_, _⟩, ⟨_, _⟩⟩ := hcovers, hcovers'
  omega

/-- The segments lie in the text. -/
theorem stop_le_of_mem {command : String} (hmem : segment ∈ lexSegments command) :
    segment.stop ≤ (utf8 command).length := by
  have hordered : ((lexer (utf8 command)).run LexState.init).Ordered (utf8 command) :=
    ordered_trace.2
  rw [lexSegments_eq, segmentsIn, LexState.close] at hmem
  split at hmem
  · rcases mem_append.mp hmem with hold | hlast
    · exact Nat.le_of_lt (hordered.stop_lt_length segment hold)
    · rw [mem_singleton.mp hlast]
  · exact Nat.le_of_lt (hordered.stop_lt_length segment hmem)

/-- The mark of a segment was set by a round at one of its bytes. -/
theorem exists_round_of_hasWriteRedirect (hmem : segment ∈ segmentsIn bytes)
    (hwrite : segment.hasWriteRedirect = true) :
    ∃ s ∈ (lexer bytes).trace LexState.init, segment.Covers s.i ∧
      s.hasWrite = false ∧ (s.next bytes).hasWrite = true := by
  have hrun := (lexer bytes).trace_invariant (s := LexState.init) (P := fun v ↦
    (∀ segment ∈ v.segments, segment.hasWriteRedirect = true →
      ∃ s ∈ (lexer bytes).trace LexState.init, segment.Covers s.i ∧
        s.hasWrite = false ∧ (s.next bytes).hasWrite = true) ∧
    (v.hasWrite = true → ∃ s ∈ (lexer bytes).trace LexState.init, v.start ≤ s.i ∧ s.i < v.i ∧
      s.hasWrite = false ∧ (s.next bytes).hasWrite = true)) ⟨nofun, nofun⟩ ?_
  · obtain ⟨hsegments, hcurrent⟩ := hrun.2
    unfold segmentsIn LexState.close at hmem
    split at hmem
    · rcases mem_append.mp hmem with hold | hlast
      · exact hsegments segment hold hwrite
      · rw [mem_singleton.mp hlast] at hwrite ⊢
        obtain ⟨s, hs, hstart, -, hset⟩ := hcurrent hwrite
        exact ⟨s, hs, ⟨hstart, (lexer bytes).pos_lt_of_mem_trace hs⟩, hset⟩
    · exact hsegments segment hmem hwrite
  · rintro v hv ⟨hsegments, hcurrent⟩
    have hprogress := v.lt_next bytes ((lexer bytes).pos_lt_of_mem_trace hv)
    show (∀ segment ∈ (v.next bytes).segments, _ → _) ∧ ((v.next bytes).hasWrite = true →
      ∃ s ∈ (lexer bytes).trace LexState.init, (v.next bytes).start ≤ s.i ∧ s.i < (v.next bytes).i ∧
        s.hasWrite = false ∧ (s.next bytes).hasWrite = true)
    rcases v.continues_or_ends bytes with hstep | hstep
    · rw [hstep.segments, hstep.start]
      refine ⟨hsegments, fun hset ↦ ?_⟩
      cases hold : v.hasWrite with
      | false => exact ⟨v, hv, (ordered_of_mem_trace hv).le, hprogress, hold, hset⟩
      | true =>
          obtain ⟨s, hs, hstart, hlt, hset⟩ := hcurrent hold
          exact ⟨s, hs, hstart, hlt.trans hprogress, hset⟩
    · rw [hstep.segments, hstep.hasWrite]
      refine ⟨fun segment hmem hwrite ↦ ?_, nofun⟩
      rcases mem_append.mp hmem with hold | hnew
      · exact hsegments segment hold hwrite
      · rw [mem_singleton.mp hnew] at hwrite ⊢
        obtain ⟨s, hs, hstart, hlt, hset⟩ := hcurrent hwrite
        exact ⟨s, hs, ⟨hstart, hlt⟩, hset⟩

end Rounds

end KaduoxSsh.Desktop
