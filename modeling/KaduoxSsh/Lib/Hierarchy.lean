import KaduoxSsh.Lib.SortedMap
import Mathlib.Data.List.Infix
import Mathlib.Data.List.Lex

/-!
# Objects that lie in each other

A map from paths to objects, some of which are directories. It is well formed when
everything lies in a directory, the root being one that is always there. So nothing
lies below an object of another kind, and a path is `Blocked` when there is one.
-/

namespace KaduoxSsh

universe u v

namespace Hierarchy

variable {N : Type u} {O : Type v} [LinearOrder N] (isDir : O → Prop) (t : SortedMap (List N) O)

/-- A path is that of a directory. -/
def DirectoryAt (path : List N) : Prop := path = [] ∨ ∃ o, t.get? path = some o ∧ isDir o

/-- There is something else than a directory. -/
def Blocked (path : List N) : Prop := ∃ o, t.get? path = some o ∧ ¬isDir o

structure WellFormed : Prop where
  root : t.get? [] = none
  parents : ∀ dir name, t.get? (dir ++ [name]) ≠ none → DirectoryAt isDir t dir

variable {isDir t} {t' : SortedMap (List N) O} {path dir : List N} {name : N} {o : O}

theorem DirectoryAt.root : DirectoryAt isDir t [] := .inl rfl

theorem DirectoryAt.congr (h : DirectoryAt isDir t path) (hpath : t'.get? path = t.get? path) :
    DirectoryAt isDir t' path := by
  rw [DirectoryAt, hpath]
  exact h

theorem Blocked.congr (h : Blocked isDir t' path) (hpath : t'.get? path = t.get? path) :
    Blocked isDir t path := by
  rw [Blocked, ← hpath]
  exact h

theorem Blocked.ne_none (h : Blocked isDir t path) : t.get? path ≠ none := by
  obtain ⟨o, hget, -⟩ := h
  rw [hget]
  exact Option.some_ne_none o
theorem not_directoryAt_of_none (hne : path ≠ []) (h : t.get? path = none) : ¬DirectoryAt isDir t path := by
  rintro (hnil | ⟨o, hget, -⟩)
  · exact hne hnil
  · rw [h] at hget
    cases hget

theorem Blocked.not_directoryAt (h : Blocked isDir t path) (hwf : WellFormed isDir t) :
    ¬DirectoryAt isDir t path := by
  obtain ⟨o, hget, hnot⟩ := h
  rintro (rfl | ⟨o', hget', hdir⟩)
  · rw [hwf.root] at hget
    cases hget
  · rw [hget] at hget'
    cases hget'
    exact hnot hdir

namespace WellFormed

theorem empty : WellFormed isDir (.empty : SortedMap (List N) O) where
  root := rfl
  parents _ _ h := absurd rfl h

/-- What is above something is a directory. -/
theorem ancestor (h : WellFormed isDir t) (hpath : t.get? path ≠ none) (hdir : dir <+: path)
    (hne : dir ≠ path) : DirectoryAt isDir t dir := by
  obtain ⟨rest, rfl⟩ := hdir
  induction rest using List.reverseRecOn with
  | nil => exact absurd (List.append_nil dir).symm hne
  | append_singleton front last ih =>
      rw [← List.append_assoc] at hpath
      have hfront := h.parents _ _ hpath
      by_cases hnil : front = []
      · rw [hnil, List.append_nil] at hfront
        exact hfront
      · refine ih ?_ fun heq ↦ hnil (List.append_right_eq_self.mp heq.symm)
        rcases hfront with hroot | ⟨o, hget, -⟩
        · exact absurd (List.append_eq_nil_iff.mp hroot).2 hnil
        · rw [hget]
          exact Option.some_ne_none o

/-- Above a directory there are directories. -/
theorem directoryAt_of_prefix (h : WellFormed isDir t) (hpath : DirectoryAt isDir t path)
    (hdir : dir <+: path) : DirectoryAt isDir t dir := by
  by_cases hne : dir = path
  · rw [hne]
    exact hpath
  · rcases hpath with rfl | ⟨o, hget, -⟩
    · exact .inl (List.prefix_nil.mp hdir)
    · refine h.ancestor ?_ hdir hne
      rw [hget]
      exact Option.some_ne_none o

/-- Nothing is below what is no directory. -/
theorem eq_none (h : WellFormed isDir t) (hnot : ¬DirectoryAt isDir t dir) (hdir : dir <+: path)
    (hne : dir ≠ path) : t.get? path = none := by
  by_contra hpath
  exact hnot (h.ancestor hpath hdir hne)

theorem insert (h : WellFormed isDir t) (hparent : DirectoryAt isDir t dir)
    (hkeeps : DirectoryAt isDir t (dir ++ [name]) → isDir o) :
    WellFormed isDir (t.insert (dir ++ [name]) o) where
  root := by
    rw [SortedMap.get?_insert_of_ne _ _ (by simp)]
    exact h.root
  parents above last hpresent := by
    have hdirectory : DirectoryAt isDir t above := by
      by_cases heq : above ++ [last] = dir ++ [name]
      · rw [(List.append_inj' heq rfl).1]
        exact hparent
      · rw [SortedMap.get?_insert_of_ne _ _ heq] at hpresent
        exact h.parents above last hpresent
    by_cases hsame : above = dir ++ [name]
    · subst hsame
      exact .inr ⟨o, SortedMap.get?_insert_self _ _ _, hkeeps hdirectory⟩
    · exact hdirectory.congr (SortedMap.get?_insert_of_ne _ _ hsame)

theorem erase (h : WellFormed isDir t) (hempty : ∀ name, t.get? (path ++ [name]) = none) :
    WellFormed isDir (t.erase path) where
  root := by
    rw [SortedMap.get?_erase]
    split
    · rfl
    · exact h.root
  parents above last hpresent := by
    rw [SortedMap.get?_erase] at hpresent
    split at hpresent
    · exact absurd rfl hpresent
    · have hne : above ≠ path := by
        rintro rfl
        exact hpresent (hempty last)
      exact (h.parents above last hpresent).congr (by rw [SortedMap.get?_erase, if_neg hne])

theorem erase_of_blocked (h : WellFormed isDir t) (hblocked : Blocked isDir t path) :
    WellFormed isDir (t.erase path) := by
  refine h.erase fun name ↦ ?_
  by_contra hpresent
  exact hblocked.not_directoryAt h (h.parents path name hpresent)

end WellFormed

end Hierarchy

end KaduoxSsh
