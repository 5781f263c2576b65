import Mathlib.Data.List.Basic
import Mathlib.Data.List.Infix

/-!
# Copies that are resumed

A copy that was broken off is resumed behind the elements that it has left, which are
not compared with those of the source. What has been copied up to a position is then
what was kept, followed by the elements of the source from there on.
-/

namespace KaduoxSsh.Resume

open List

universe u

variable {α : Type u}

/-- What is there when a copy that keeps some elements has come to a position. -/
def continued (kept source : List α) (pos : Nat) : List α :=
  kept ++ (source.drop kept.length).take (pos - kept.length)

/-- What is there in the end. -/
def completed (kept source : List α) : List α := kept ++ source.drop kept.length

/-- Elements are written at a position. A gap before it is filled. -/
def overwrite (fill : α) (content : List α) (pos : Nat) (chunk : List α) : List α :=
  content.takeD pos fill ++ chunk ++ content.drop (pos + chunk.length)

variable {kept source : List α} {pos count : Nat} {fill : α}

theorem continued_kept : continued kept source kept.length = kept := by
  rw [continued, Nat.sub_self, take_zero, append_nil]

theorem continued_length : continued kept source source.length = completed kept source := by
  rw [continued, completed, take_of_length_le]
  exact (length_drop ..).le

theorem length_continued (hkept : kept.length ≤ pos) (hpos : pos ≤ source.length) :
    (continued kept source pos).length = pos := by
  rw [continued, length_append, length_take, length_drop]
  omega

theorem length_completed (h : kept.length ≤ source.length) :
    (completed kept source).length = source.length := by
  rw [completed, length_append, length_drop]
  omega

/-- The next elements of the source follow what is there. -/
theorem overwrite_continued (hkept : kept.length ≤ pos) (hpos : pos + count ≤ source.length) :
    overwrite fill (continued kept source pos) pos ((source.drop pos).take count) =
      continued kept source (pos + count) := by
  have hlength := length_continued hkept (Nat.le_of_add_right_le hpos)
  have htail : (continued kept source pos).drop (pos + ((source.drop pos).take count).length) = [] :=
    drop_of_length_le (hlength.trans_le (Nat.le_add_right _ _))
  rw [overwrite, htail, takeD_eq_take _ hlength.ge, take_of_length_le hlength.le,
    append_nil, continued, continued, append_assoc]
  obtain ⟨k, rfl⟩ := Nat.exists_eq_add_of_le hkept
  rw [Nat.add_sub_cancel_left, Nat.add_assoc, Nat.add_sub_cancel_left, take_add, drop_drop]

/-- A copy is exact exactly when what was kept is the beginning of the source. -/
theorem completed_eq_iff : completed kept source = source ↔ kept <+: source :=
  prefix_iff_eq_append.symm

theorem continued_prefix_iff : continued kept source pos <+: source ↔ kept <+: source := by
  constructor
  · exact (prefix_append _ _).trans
  · intro h
    obtain ⟨rest, rfl⟩ := h
    rw [continued, drop_left]
    exact (prefix_append_right_inj _).mpr (List.take_prefix _ _)

end KaduoxSsh.Resume
