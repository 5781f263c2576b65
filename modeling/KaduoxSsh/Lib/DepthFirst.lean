import Mathlib.Data.List.Basic
import Mathlib.Data.List.Nodup
import Mathlib.Logic.Relation

/-!
# Depth-first walks

Nodes with lists of members, each member a leaf or another node. A walk lists the
leaves in the order in which a depth-first traversal comes to them, as often as it
comes to them (`Walk`). A node has a walk only where the traversal ends.

Of a walk, `addNew` keeps what is not there yet, and starting from nothing that
leaves the first visit to every leaf (`addNew_nil`).
-/

namespace KaduoxSsh.DepthFirst

open List

variable {ν η : Type}

section

variable (members : ν → Option (List (η ⊕ ν)))

/-- A node is a member of another. -/
def Includes (a b : ν) : Prop := ∃ inner, members a = some inner ∧ .inr b ∈ inner

/-- A leaf of a node, through any nesting. -/
def Reaches (a : ν) (leaf : η) : Prop :=
  ∃ b inner, Relation.ReflTransGen (Includes members) a b ∧ members b = some inner ∧
    .inl leaf ∈ inner

/-- The leaves a depth-first traversal of some members comes to. -/
inductive Walk : List (η ⊕ ν) → List η → Prop
  | nil : Walk [] []
  | leaf {leaf : η} {rest : List (η ⊕ ν)} {leaves : List η} (h : Walk rest leaves) :
      Walk (.inl leaf :: rest) (leaf :: leaves)
  | node {a : ν} {inner rest : List (η ⊕ ν)} {first leaves : List η} (ha : members a = some inner)
      (hinner : Walk inner first) (h : Walk rest leaves) :
      Walk (.inr a :: rest) (first ++ leaves)

end

section

variable {members : ν → Option (List (η ⊕ ν))} {a : ν}

theorem reaches_iff {leaf : η} {inner : List (η ⊕ ν)} (ha : members a = some inner) :
    Reaches members a leaf ↔
      .inl leaf ∈ inner ∨ ∃ b, .inr b ∈ inner ∧ Reaches members b leaf := by
  constructor
  · rintro ⟨b, deep, hpath, hb, hleaf⟩
    rcases hpath.cases_head with rfl | ⟨c, ⟨inner', hinner', hc⟩, hpath⟩
    · cases ha.symm.trans hb
      exact .inl hleaf
    · cases ha.symm.trans hinner'
      exact .inr ⟨c, hc, b, deep, hpath, hb, hleaf⟩
  · rintro (hleaf | ⟨b, hb, c, deep, hpath, hc, hleaf⟩)
    · exact ⟨a, inner, .refl, ha, hleaf⟩
    · exact ⟨c, deep, .head ⟨inner, ha, hb⟩ hpath, hc, hleaf⟩

/-- A walk comes to the leaves that can be reached, and to no others. -/
theorem Walk.mem_iff {rest : List (η ⊕ ν)} {leaves : List η} (h : Walk members rest leaves)
    (leaf : η) :
    leaf ∈ leaves ↔ .inl leaf ∈ rest ∨ ∃ b, .inr b ∈ rest ∧ Reaches members b leaf := by
  induction h with
  | nil => simp
  | leaf _ ih =>
      rw [mem_cons, ih]
      simp [or_assoc]
  | node ha _ _ ihinner ih =>
      rw [mem_append, ihinner, ih, ← reaches_iff ha]
      simp [or_left_comm]

end

/-! ## First visits -/

section

variable [DecidableEq η]

/-- Add what is not there yet, in order. -/
def addNew (acc l : List η) : List η :=
  l.foldl (fun acc leaf ↦ if leaf ∈ acc then acc else acc ++ [leaf]) acc

theorem addNew_cons (acc : List η) (leaf : η) (l : List η) :
    addNew acc (leaf :: l) = addNew (if leaf ∈ acc then acc else acc ++ [leaf]) l := rfl

theorem addNew_append (acc l l' : List η) : addNew acc (l ++ l') = addNew (addNew acc l) l' :=
  foldl_append

theorem addNew_eq (acc l : List η) :
    addNew acc l = acc ++ (l.filter (· ∉ acc)).eraseDups := by
  induction l generalizing acc with
  | nil => simp [addNew]
  | cons leaf l ih =>
      rw [addNew_cons, ih]
      by_cases hmem : leaf ∈ acc
      · rw [if_pos hmem, filter_cons_of_neg (by simpa using hmem)]
      · rw [if_neg hmem, filter_cons_of_pos (by simpa using hmem), eraseDups_cons,
          filter_filter, append_assoc, singleton_append]
        congr 3
        apply filter_congr
        intro other _
        simp only [mem_append, mem_singleton, not_or, Bool.decide_and, decide_not]
        exact Bool.and_comm _ _

/-- From nothing, the first visit to each leaf. -/
theorem addNew_nil (l : List η) : addNew [] l = l.eraseDups := by
  rw [addNew_eq]
  simp

theorem nodup_addNew {acc : List η} (h : acc.Nodup) (l : List η) : (addNew acc l).Nodup := by
  induction l generalizing acc with
  | nil => exact h
  | cons leaf l ih =>
      rw [addNew_cons]
      apply ih
      split
      · exact h
      · rename_i hmem
        exact nodup_append.mpr ⟨h, nodup_singleton leaf, by
          rintro a ha b hb rfl
          exact hmem (mem_singleton.mp hb ▸ ha)⟩

end

end KaduoxSsh.DepthFirst
