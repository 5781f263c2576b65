import Mathlib.Data.List.Basic
import Mathlib.Data.List.Infix

/-!
# The last copy of a pattern

Programs that read a text back which they have put together look for the last copy
of a marker in it. What they find depends on whether the parts hold copies of the
marker too. A change of the text that touches no letter of the marker, or adds a
letter that ends no copy, leaves the copies where they are.
-/

namespace KaduoxSsh.Markers

open List

variable {α : Type} [DecidableEq α]

/-- What stands before and behind the last copy of a pattern. -/
def splitAtLast (pattern : List α) : List α → Option (List α × List α)
  | [] => none
  | c :: rest =>
      match splitAtLast pattern rest with
      | some (before, after) => some (c :: before, after)
      | none =>
          if pattern <+: c :: rest then some ([], (c :: rest).drop pattern.length) else none

/-- What stands before a pattern at the end. -/
def stripSuffix (pattern l : List α) : Option (List α) :=
  if pattern <:+ l then some (l.take (l.length - pattern.length)) else none

theorem stripSuffix_append (pattern l : List α) : stripSuffix pattern (l ++ pattern) = some l := by
  rw [stripSuffix, if_pos (suffix_append l pattern), length_append, Nat.add_sub_cancel,
    take_left]

variable {pattern l before after : List α} {c : α}

theorem splitAtLast_eq_some (h : splitAtLast pattern l = some (before, after)) :
    l = before ++ pattern ++ after := by
  induction l generalizing before with
  | nil => cases h
  | cons c rest ih =>
      rw [splitAtLast] at h
      cases hrest : splitAtLast pattern rest with
      | some split =>
          rw [hrest] at h
          cases h
          rw [ih hrest]
          rfl
      | none =>
          rw [hrest] at h
          dsimp only at h
          split_ifs at h with hpattern
          cases h
          exact (prefix_iff_eq_append.mp hpattern).symm

/-- What stands in front does not matter where there is a copy. -/
theorem splitAtLast_append_left (front : List α)
    (h : splitAtLast pattern l = some (before, after)) :
    splitAtLast pattern (front ++ l) = some (front ++ before, after) := by
  induction front with
  | nil => exact h
  | cons c front ih => rw [cons_append, splitAtLast, ih]; rfl

/-- A letter in front that starts no copy. -/
theorem splitAtLast_cons (hne : pattern ≠ []) (hc : pattern.head? ≠ some c) :
    splitAtLast pattern (c :: l) =
      (splitAtLast pattern l).map fun split ↦ (c :: split.1, split.2) := by
  have hstart : ¬pattern <+: c :: l := by
    obtain ⟨d, tail, rfl⟩ := exists_cons_of_ne_nil hne
    intro hprefix
    exact hc (congrArg some (cons_prefix_cons.mp hprefix).1)
  rw [splitAtLast]
  cases splitAtLast pattern l with
  | some split => rfl
  | none => exact if_neg hstart

/-- A letter at the end that ends no copy. -/
theorem splitAtLast_concat (hne : pattern ≠ []) (hc : pattern.getLast? ≠ some c) :
    splitAtLast pattern (l ++ [c]) =
      (splitAtLast pattern l).map fun split ↦ (split.1, split.2 ++ [c]) := by
  have hiff (l : List α) : pattern <+: l ++ [c] ↔ pattern <+: l := by
    rw [prefix_concat_iff]
    refine or_iff_right fun heq ↦ hc ?_
    rw [heq, List.getLast?_concat]
  induction l with
  | nil =>
      have hnone : ¬pattern <+: [c] := fun h ↦ hne (prefix_nil.mp ((hiff []).mp h))
      rw [nil_append, splitAtLast, splitAtLast]
      exact if_neg hnone
  | cons d rest ih =>
      rw [cons_append, splitAtLast, ih, splitAtLast]
      cases splitAtLast pattern rest with
      | some split => rfl
      | none =>
          dsimp only [Option.map_none]
          rw [← cons_append]
          by_cases hpattern : pattern <+: d :: rest
          · rw [if_pos ((hiff _).mpr hpattern), if_pos hpattern, Option.map_some,
              drop_append_of_le_length hpattern.length_le]
          · rw [if_neg (mt (hiff _).mp hpattern), if_neg hpattern, Option.map_none]

/-- Letters at the end that end no copy. -/
theorem splitAtLast_append_right {back : List α} (hne : pattern ≠ [])
    (hback : ∀ c ∈ back, pattern.getLast? ≠ some c) :
    splitAtLast pattern (l ++ back) =
      (splitAtLast pattern l).map fun split ↦ (split.1, split.2 ++ back) := by
  induction back generalizing l with
  | nil => simp
  | cons c rest ih =>
      obtain ⟨hc, hrest⟩ := forall_mem_cons.mp hback
      rw [append_cons, ih hrest, splitAtLast_concat hne hc, Option.map_map]
      simp [Function.comp_def]

/-- The copies of a pattern that has no border do not overlap. -/
theorem splitAtLast_pattern_append (hne : pattern ≠ [])
    (hborder : ∀ n < pattern.length, 0 < n → ¬pattern.drop n <+: pattern)
    (hnone : splitAtLast pattern l = none) : splitAtLast pattern (pattern ++ l) = some ([], l) := by
  -- No copy starts inside the one in front.
  have hinside (m n : Nat) (hlength : n + m = pattern.length) (hpos : 0 < n) :
      splitAtLast pattern (pattern.drop n ++ l) = none := by
    induction m generalizing n with
    | zero =>
        have hle : pattern.length ≤ n := Nat.le_of_eq hlength.symm
        rw [drop_of_length_le hle]
        exact hnone
    | succ m ih =>
        have hlt : n < pattern.length := by omega
        have hstart : ¬pattern <+: pattern.drop n ++ l := by
          intro hprefix
          apply hborder n hlt hpos
          apply prefix_of_prefix_length_le (prefix_append _ l) hprefix
          rw [length_drop]
          exact Nat.sub_le _ _
        rw [drop_eq_getElem_cons hlt, cons_append] at hstart ⊢
        rw [splitAtLast, ih (n + 1) (by omega) (Nat.succ_pos n)]
        exact if_neg hstart
  obtain ⟨c, rest, rfl⟩ := exists_cons_of_ne_nil hne
  have hrest := hinside rest.length 1 (Nat.add_comm _ _) Nat.one_pos
  rw [drop_one, tail_cons] at hrest
  rw [cons_append, splitAtLast, hrest, ← cons_append]
  dsimp only
  rw [if_pos (prefix_append _ l), drop_left]

section

variable {f : α → α}

omit [DecidableEq α] in
theorem prefix_map_iff (hfix : ∀ c ∈ pattern, f c = c) (hback : ∀ c, f c ∈ pattern → f c = c) :
    pattern <+: l.map f ↔ pattern <+: l := by
  induction pattern generalizing l with
  | nil => exact iff_of_true nil_prefix nil_prefix
  | cons d tail ih =>
      cases l with
      | nil => exact iff_of_false (by simp) (by simp)
      | cons c rest =>
          have hhead : d = f c ↔ d = c := by
            constructor
            · intro hd
              exact hd.trans (hback c (hd ▸ mem_cons_self))
            · rintro rfl
              exact (hfix d mem_cons_self).symm
          rw [map_cons, cons_prefix_cons, cons_prefix_cons, hhead,
            ih (fun c hc ↦ hfix c (mem_cons_of_mem d hc)) fun c hc ↦
              hback c (mem_cons_of_mem d hc)]

/-- A change of letters that leaves those of the pattern alone and makes none of them. -/
theorem splitAtLast_map (hfix : ∀ c ∈ pattern, f c = c) (hback : ∀ c, f c ∈ pattern → f c = c) :
    splitAtLast pattern (l.map f) =
      (splitAtLast pattern l).map fun split ↦ (split.1.map f, split.2.map f) := by
  induction l with
  | nil => rfl
  | cons c rest ih =>
      rw [map_cons, splitAtLast, ih, splitAtLast]
      cases splitAtLast pattern rest with
      | some split => rfl
      | none =>
          dsimp only [Option.map_none]
          rw [← map_cons]
          by_cases hpattern : pattern <+: c :: rest
          · rw [if_pos ((prefix_map_iff hfix hback).mpr hpattern), if_pos hpattern, Option.map_some,
              map_drop, map_nil]
          · rw [if_neg (mt (prefix_map_iff hfix hback).mp hpattern), if_neg hpattern,
              Option.map_none]

end

end KaduoxSsh.Markers
