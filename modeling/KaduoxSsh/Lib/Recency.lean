import Mathlib.Data.Finset.Card
import Mathlib.Data.List.Dedup
import Mathlib.Data.List.DropRight

/-!
# Lists of what was used last

A list remembers what has been used, each element once and the one that was used last at its end.
It is kept short: of each key at most `m` elements are remembered, and of all keys together at
most `n`. `Remembers` says what such a list has to do with all that was used: an element may be
missing only if enough others have been used since.

Using an element moves it to the end (`Remembers.touch`), and the two caps take away from the
front (`Remembers.dropOldest`, `Remembers.capped`). Each of them keeps what the list remembers.
-/

namespace KaduoxSsh.Recency

open List

universe u v

variable {α : Type u} {κ : Type v} [DecidableEq α] [DecidableEq κ]

/-! ## Uses -/

/-- What has been used since the last use of an element. -/
def since (uses : List α) (a : α) : List α := uses.rtakeWhile (· ≠ a)

theorem since_concat_self (uses : List α) (a : α) : since (uses ++ [a]) a = [] :=
  rtakeWhile_concat_neg _ _ _ (by simp)

theorem since_concat_of_ne {a b : α} (uses : List α) (h : b ≠ a) :
    since (uses ++ [b]) a = since uses a ++ [b] :=
  rtakeWhile_concat_pos _ _ _ (decide_eq_true h)

theorem since_append_of_notMem {a : α} (uses : List α) {later : List α} (h : a ∉ later) :
    since (uses ++ later) a = since uses a ++ later := by
  induction later using List.reverseRecOn with
  | nil => rw [append_nil, append_nil]
  | append_singleton later b ih =>
      rw [mem_append, mem_singleton, not_or] at h
      rw [← append_assoc, since_concat_of_ne _ (Ne.symm h.2), ih h.1, append_assoc]

theorem ne_of_mem_since {uses : List α} {a b : α} (h : b ∈ since uses a) : b ≠ a := by
  have hb := mem_rtakeWhile_imp h
  exact of_decide_eq_true hb

/-- Each element stands at its last occurrence, so that one put at the end leaves its place. -/
theorem dedup_concat (uses : List α) (a : α) :
    (uses ++ [a]).dedup = uses.dedup.filter (· ≠ a) ++ [a] := by
  induction uses with
  | nil => rfl
  | cons b uses ih =>
      rw [cons_append]
      by_cases hb : b ∈ uses
      · rw [dedup_cons_of_mem hb, dedup_cons_of_mem (mem_append_left _ hb), ih]
      · rw [dedup_cons_of_notMem hb]
        by_cases heq : b = a
        · rw [dedup_cons_of_mem (mem_append_right _ (mem_singleton.mpr heq)), ih,
            filter_cons, if_neg (by simpa using heq)]
        · have hne : b ∉ uses ++ [a] := by
            rw [mem_append, mem_singleton, not_or]
            exact ⟨hb, heq⟩
          rw [dedup_cons_of_notMem hne, ih, filter_cons, if_pos (decide_eq_true heq),
            cons_append]

/-- Enough has been used later: `m` elements of the key, or `n` elements of any key. -/
def Superseded (key : α → κ) (m n : Nat) (later : List α) (a : α) : Prop :=
  m ≤ (later.toFinset.filter fun b ↦ key b = key a).card ∨ n ≤ later.toFinset.card

variable {key : α → κ} {m n : Nat} {uses kept kept' later later' : List α} {a : α}

theorem Superseded.mono (h : Superseded key m n later a) (hsub : later ⊆ later') :
    Superseded key m n later' a := by
  have hfinset : later.toFinset ⊆ later'.toFinset := by
    intro b hb
    exact mem_toFinset.mpr (hsub (mem_toFinset.mp hb))
  refine h.imp (fun hkey ↦ ?_) (fun hall ↦ ?_)
  · exact hkey.trans (Finset.card_le_card (Finset.filter_subset_filter _ hfinset))
  · exact hall.trans (Finset.card_le_card hfinset)

/-! ## Remembering -/

/-- A list remembers what was used, except for what has been superseded. -/
structure Remembers (key : α → κ) (m n : Nat) (uses kept : List α) : Prop where
  used : ∀ a ∈ kept, a ∈ uses
  ordered : kept.Pairwise fun a b ↦ b ∈ since uses a
  missing : ∀ a ∈ uses, a ∉ kept → Superseded key m n (since uses a) a

theorem Remembers.nodup (h : Remembers key m n uses kept) : kept.Nodup :=
  h.ordered.imp fun hab ↦ (ne_of_mem_since hab).symm

/-- An element that is used is moved to the end. -/
theorem Remembers.touch (h : Remembers key m n uses kept) (a : α) :
    Remembers key m n (uses ++ [a]) (kept.filter (· ≠ a) ++ [a]) := by
  have hsince : ∀ b, b ≠ a → since (uses ++ [a]) b = since uses b ++ [a] :=
    fun b hb ↦ since_concat_of_ne uses hb.symm
  refine ⟨fun b hb ↦ ?_, ?_, fun b hused hmissing ↦ ?_⟩
  · rw [mem_append] at hb ⊢
    exact hb.imp_left fun hb ↦ h.used b (mem_of_mem_filter hb)
  · have hne : ∀ b ∈ kept.filter (· ≠ a), b ≠ a := by
      intro b hb
      have hb := of_mem_filter hb
      exact of_decide_eq_true hb
    refine pairwise_append.mpr ⟨?_, pairwise_singleton _ _, fun b hb c hc ↦ ?_⟩
    · refine (h.ordered.filter _).imp_of_mem fun {b c} hb _ hbc ↦ ?_
      rw [hsince b (hne b hb)]
      exact mem_append_left _ hbc
    · rw [hsince b (hne b hb)]
      exact mem_append_right _ hc
  · rw [mem_append, not_or, mem_singleton] at hmissing
    obtain ⟨hkept, hne⟩ := hmissing
    rw [hsince b hne]
    have hbefore : b ∈ uses := (mem_append.mp hused).resolve_right fun hb ↦
      hne (mem_singleton.mp hb)
    refine (h.missing b hbefore fun hmem ↦ hkept ?_).mono (subset_append_left _ _)
    exact mem_filter.mpr ⟨hmem, decide_eq_true hne⟩

/-- A list without repetitions remembers its own elements. -/
theorem Remembers.refl (h : kept.Nodup) : Remembers key m n kept kept := by
  induction kept using List.reverseRecOn with
  | nil => exact ⟨fun _ h ↦ h, .nil, fun _ h ↦ absurd h not_mem_nil⟩
  | append_singleton kept a ih =>
      obtain ⟨hkept, -, hdisjoint⟩ := nodup_append.mp h
      have hfilter : kept.filter (· ≠ a) = kept :=
        filter_eq_self.mpr fun b hb ↦
          decide_eq_true (hdisjoint b hb a (mem_singleton_self a))
      have htouch := (ih hkept).touch a
      rwa [hfilter] at htouch

/-- What stands behind an element was used later. -/
theorem Remembers.superseded {front back : List α} (h : Remembers key m n uses kept)
    (hkept : kept = front ++ a :: back)
    (hback : m ≤ back.countP (fun b ↦ key b = key a) ∨ n ≤ back.length) :
    Superseded key m n (since uses a) a := by
  subst hkept
  have hbehind := pairwise_cons.mp (pairwise_append.mp h.ordered).2.1
  have hnodup : back.Nodup := (nodup_cons.mp (nodup_append.mp h.nodup).2.1).2
  have hkey : (back.toFinset.filter fun b ↦ key b = key a).card =
      back.countP fun b ↦ key b = key a := by
    have hfilter : (back.toFinset.filter fun b ↦ key b = key a) =
        (back.filter fun b ↦ key b = key a).toFinset := by
      ext b
      simp
    rw [hfilter, toFinset_card_of_nodup (hnodup.filter _), countP_eq_length_filter]
  have hself : Superseded key m n back a := by
    rw [Superseded, hkey, toFinset_card_of_nodup hnodup]
    exact hback
  exact hself.mono hbehind.1

/-- Elements may be forgotten that have been superseded. -/
theorem Remembers.forget (h : Remembers key m n uses kept) (hsub : kept'.Sublist kept)
    (hgone : ∀ a ∈ kept, a ∉ kept' → Superseded key m n (since uses a) a) :
    Remembers key m n uses kept' := by
  refine ⟨fun a ha ↦ h.used a (hsub.subset ha), h.ordered.sublist hsub, fun a hused hmissing ↦ ?_⟩
  by_cases hkept : a ∈ kept
  · exact hgone a hkept hmissing
  · exact h.missing a hused hkept

/-! ## Caps -/

/-- At most `n` elements are left. -/
theorem Remembers.dropOldest (h : Remembers key m n uses kept) :
    Remembers key m n uses (kept.drop (kept.length - n)) := by
  refine h.forget (drop_sublist _ _) fun a hmem hgone ↦ ?_
  have hfront : a ∈ kept.take (kept.length - n) := by
    rw [← take_append_drop (kept.length - n) kept, mem_append] at hmem
    exact hmem.resolve_right hgone
  obtain ⟨front, middle, hsplit⟩ := append_of_mem hfront
  have hkept : kept = front ++ a :: (middle ++ kept.drop (kept.length - n)) := by
    rw [← cons_append, ← append_assoc, ← hsplit, take_append_drop]
  refine h.superseded hkept (.inr ?_)
  have hlong : kept.length - n ≠ 0 := by
    intro hzero
    rw [hzero, take_zero] at hfront
    exact not_mem_nil hfront
  rw [length_append, length_drop]
  omega

/-- The elements behind each of which there are fewer than `m` of its key. -/
def capped (key : α → κ) (m : Nat) : List α → List α
  | [] => []
  | a :: l => if l.countP (fun b ↦ key b = key a) < m then a :: capped key m l else capped key m l

omit [DecidableEq α] in
theorem capped_sublist (key : α → κ) (m : Nat) (l : List α) : (capped key m l).Sublist l := by
  induction l with
  | nil => exact .slnil
  | cons a l ih =>
      rw [capped]
      split
      · exact ih.cons_cons a
      · exact ih.cons a

omit [DecidableEq α] in
/-- Of each key at most `m` elements are left. -/
theorem countP_capped_le (key : α → κ) (m : Nat) (l : List α) (k : κ) :
    (capped key m l).countP (fun b ↦ key b = k) ≤ m := by
  induction l with
  | nil => exact Nat.zero_le m
  | cons a l ih =>
      rw [capped]
      split
      · next hfew =>
        rw [countP_cons]
        split
        · next hk =>
          obtain rfl := of_decide_eq_true hk
          exact ((capped_sublist key m l).countP_le).trans_lt hfew
        · exact ih
      · exact ih

omit [DecidableEq α] in
/-- Behind an element that is gone there are `m` of its key. -/
theorem split_of_notMem_capped {l : List α} (hmem : a ∈ l) (hgone : a ∉ capped key m l) :
    ∃ front back, l = front ++ a :: back ∧ m ≤ back.countP fun b ↦ key b = key a := by
  induction l with
  | nil => exact absurd hmem not_mem_nil
  | cons b l ih =>
      rw [capped] at hgone
      by_cases hl : a ∈ l
      · have hrest : a ∉ capped key m l := by
          split at hgone
          · exact fun h ↦ hgone (mem_cons_of_mem b h)
          · exact hgone
        obtain ⟨front, back, hsplit, hback⟩ := ih hl hrest
        exact ⟨b :: front, back, congrArg (b :: ·) hsplit, hback⟩
      · obtain rfl := (mem_cons.mp hmem).resolve_right hl
        refine ⟨[], l, rfl, Nat.not_lt.mp fun hfew ↦ hgone ?_⟩
        rw [if_pos hfew]
        exact mem_cons_self

theorem Remembers.capped (h : Remembers key m n uses kept) :
    Remembers key m n uses (capped key m kept) := by
  refine h.forget (capped_sublist key m kept) fun a hmem hgone ↦ ?_
  obtain ⟨front, back, hkept, hback⟩ := split_of_notMem_capped hmem hgone
  exact h.superseded hkept (.inl hback)

omit [DecidableEq α] in
theorem capped_of_length_le {l : List α} (h : l.length ≤ m) : capped key m l = l := by
  induction l with
  | nil => rfl
  | cons a l ih =>
      have hlt : l.length < m := h
      rw [capped, if_pos (countP_le_length.trans_lt hlt), ih hlt.le]

omit [DecidableEq α] in
/-- As many elements as may be left of one key are left at the end, whatever keys they have. -/
theorem suffix_capped (l : List α) {back : List α} (h : back.length ≤ m) :
    back <:+ capped key m (l ++ back) := by
  induction l with
  | nil =>
      rw [nil_append, capped_of_length_le h]
  | cons a l ih =>
      rw [cons_append, capped]
      split
      · exact ih.trans (suffix_cons a _)
      · exact ih

omit [DecidableEq α] in
/-- The cap depends on the keys only. -/
theorem capped_map {β : Type*} (f : β → α) (l : List β) :
    (Recency.capped (fun b ↦ key (f b)) m l).map f = Recency.capped key m (l.map f) := by
  induction l with
  | nil => rfl
  | cons b l ih =>
      rw [Recency.capped, map_cons, Recency.capped, countP_map, ← ih]
      split
      · next hfew => exact (if_pos hfew).symm
      · next hmany => exact (if_neg hmany).symm

end KaduoxSsh.Recency
