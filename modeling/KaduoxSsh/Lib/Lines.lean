import Mathlib.Data.List.Basic

/-!
# Lines of a text

A text is a row of lines, each up to and with its terminator; only the last line
may lack one. `takeLine` is what a reader takes that reads up to the terminator,
and `lines` is the whole row (`lines_cons`). A reader that sees only so many
symbols takes the same, or all that it sees (`takeLine_take`).
-/

namespace KaduoxSsh.Lines

open List

universe u

variable {α : Type u} [DecidableEq α] (terminator : α) {l : List α}

/-- The symbols up to the first terminator, with it. -/
def takeLine : List α → List α
  | [] => []
  | a :: rest => if a = terminator then [a] else a :: takeLine rest

/-- The lines of a text, with their terminators. -/
def lines : List α → List (List α)
  | [] => []
  | a :: rest =>
      if a = terminator then [a] :: lines rest
      else
        match lines rest with
        | [] => [[a]]
        | line :: more => (a :: line) :: more

theorem lines_cons (a : α) (rest : List α) :
    lines terminator (a :: rest) =
      takeLine terminator (a :: rest) ::
        lines terminator ((a :: rest).drop (takeLine terminator (a :: rest)).length) := by
  induction rest generalizing a with
  | nil =>
      by_cases ha : a = terminator
      · simp [lines, takeLine, ha]
      · simp [lines, takeLine, ha]
  | cons b rest ih =>
      by_cases ha : a = terminator
      · rw [lines, takeLine, if_pos ha, if_pos ha]
        rfl
      · rw [lines, takeLine, if_neg ha, if_neg ha, ih b]
        rfl

/-- A text without terminators is the first line when a terminator is put behind it. -/
theorem lines_append_cons {line : List α} (h : terminator ∉ line) (rest : List α) :
    lines terminator (line ++ terminator :: rest) =
      (line ++ [terminator]) :: lines terminator rest := by
  induction line with
  | nil => rw [nil_append, nil_append, lines, if_pos rfl]
  | cons a line ih =>
      have ha : a ≠ terminator := fun heq ↦ h (heq ▸ mem_cons_self)
      rw [cons_append, lines, if_neg ha, ih fun hmem ↦ h (mem_cons_of_mem a hmem)]
      rfl

/-- No line is empty. -/
theorem length_lines_le (l : List α) : (lines terminator l).length ≤ l.length := by
  induction l with
  | nil => exact Nat.le_refl 0
  | cons a rest ih =>
      rw [lines, length_cons]
      split
      · exact Nat.succ_le_succ ih
      · split
        · exact Nat.succ_le_succ (Nat.zero_le _)
        · next hlines =>
          rw [hlines] at ih
          exact Nat.le_succ_of_le ih

theorem takeLine_ne_nil (hne : l ≠ []) : takeLine terminator l ≠ [] := by
  cases l with
  | nil => exact absurd rfl hne
  | cons a rest =>
      rw [takeLine]
      split
      · exact cons_ne_nil _ _
      · exact cons_ne_nil _ _

theorem length_takeLine_le (l : List α) : (takeLine terminator l).length ≤ l.length := by
  induction l with
  | nil => exact Nat.le_refl _
  | cons a rest ih =>
      rw [takeLine]
      split
      · simp
      · exact Nat.succ_le_succ ih

/-- A reader that sees the whole line takes it. -/
theorem takeLine_take {n : Nat} (hle : (takeLine terminator l).length ≤ n) :
    takeLine terminator (l.take n) = takeLine terminator l := by
  induction l generalizing n with
  | nil => rw [take_nil]
  | cons a rest ih =>
      rw [takeLine] at hle ⊢
      by_cases ha : a = terminator
      · rw [if_pos ha] at hle ⊢
        obtain ⟨k, rfl⟩ : ∃ k, n = k + 1 := Nat.exists_eq_succ_of_ne_zero (Nat.ne_of_gt hle)
        rw [take_succ_cons, takeLine, if_pos ha]
      · rw [if_neg ha] at hle ⊢
        obtain ⟨k, rfl⟩ : ∃ k, n = k + 1 :=
          Nat.exists_eq_succ_of_ne_zero (Nat.ne_of_gt (Nat.lt_of_lt_of_le (Nat.succ_pos _) hle))
        rw [take_succ_cons, takeLine, if_neg ha, ih (Nat.le_of_succ_le_succ hle)]

/-- A reader that sees less than the line takes all it sees, and no terminator. -/
theorem takeLine_take_of_lt {n : Nat} (hlt : n < (takeLine terminator l).length) :
    takeLine terminator (l.take n) = l.take n ∧ terminator ∉ l.take n := by
  induction l generalizing n with
  | nil => exact absurd hlt (Nat.not_lt_zero _)
  | cons a rest ih =>
      cases n with
      | zero => exact ⟨rfl, not_mem_nil⟩
      | succ k =>
          rw [takeLine] at hlt
          by_cases ha : a = terminator
          · rw [if_pos ha] at hlt
            exact absurd (Nat.lt_of_succ_lt_succ hlt) (Nat.not_lt_zero _)
          · rw [if_neg ha] at hlt
            obtain ⟨hline, hmem⟩ := ih (Nat.lt_of_succ_lt_succ hlt)
            rw [take_succ_cons, takeLine, if_neg ha, hline]
            exact ⟨rfl, not_mem_cons_of_ne_of_not_mem (Ne.symm ha) hmem⟩

end KaduoxSsh.Lines
