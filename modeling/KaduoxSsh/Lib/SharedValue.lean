import Mathlib.Data.List.Basic

/-!
# Writers of one shared value

A value with parts, seen through `view`, that several writers replace as a whole:
each reads it, changes some parts of what it has read, and writes the result back.
`Kept` says that no acknowledged change is lost, and `Kept.push` under which
condition one more write keeps it so: the parts that the writer did not change are
at that moment what it had read.
-/

namespace KaduoxSsh

universe u v w

/-- One write of the shared value. -/
structure Write (α : Type u) where
  /-- What the writer had read. -/
  base : α
  written : α
  /-- Whether the writer was told that the write succeeded. -/
  acknowledged : Bool

variable {α : Type u} {κ : Type v} {ν : Type w} {view : α → κ → ν}

/-- The write changes a part of what was read. -/
def Write.Edits (view : α → κ → ν) (write : Write α) (k : κ) : Prop :=
  view write.base k ≠ view write.written k

/-- Each acknowledged change is in the value, or was followed by a change of the same part. -/
def Kept (view : α → κ → ν) (log : List (Write α)) (value : α) : Prop :=
  ∀ earlier write later, log = earlier ++ write :: later → write.acknowledged = true →
    ∀ k, write.Edits view k →
      (∃ next ∈ later, next.Edits view k) ∨ view value k = view write.written k

theorem Kept.nil (value : α) : Kept view [] value := by
  intro earlier write later h
  simp at h

/-- A write on top of a value whose other parts are those that the writer has read. -/
theorem Kept.push {log : List (Write α)} {value : α} (h : Kept view log value) {write : Write α}
    (hfresh : ∀ k, ¬write.Edits view k → view value k = view write.base k) :
    Kept view (log ++ [write]) write.written := by
  intro earlier w later hlog hack k hedits
  rcases List.eq_nil_or_concat later with rfl | ⟨later, last, rfl⟩
  · obtain ⟨-, rfl⟩ := List.append_inj' hlog rfl |>.imp id List.singleton_inj.mp
    exact .inr rfl
  · rw [List.concat_eq_append, ← List.cons_append, ← List.append_assoc] at hlog
    obtain ⟨hinit, hlast⟩ := List.append_inj' hlog rfl
    obtain rfl := List.singleton_inj.mp hlast
    by_cases hagain : write.Edits view k
    · exact .inl ⟨write, by simp, hagain⟩
    rcases h earlier w later hinit hack k hedits with ⟨next, hnext, hn⟩ | hvalue
    · exact .inl ⟨next, by simp [hnext], hn⟩
    · have hsame : view write.base k = view write.written k := not_not.mp hagain
      exact .inr (by rw [← hsame, ← hfresh k hagain, hvalue])

end KaduoxSsh
