import Mathlib.Data.List.Basic

/-!
# Patterns with wildcards

A pattern is a list of tokens: one that takes any text, one that takes any single
letter, and the letters that stand for themselves. `Matches` is the language of a
pattern.

A matcher that reads a text from left to right goes back only to the last token
that takes any text. `many_block_iff` is why it need not go further: once the
tokens behind such a token, up to the next one, have taken some letters, the text
is matched if and only if what follows these letters is.
-/

namespace KaduoxSsh.Glob

open List

universe u

/-- A token of a pattern. -/
inductive Token (α : Type u) where
  | many
  | any
  | exactly (a : α)
deriving DecidableEq, Repr

variable {α : Type u} {p q B : List (Token α)} {s t b : List α} {a : α} {x : Token α}

/-- The language of a pattern. -/
def Matches : List (Token α) → List α → Prop
  | [], s => s = []
  | .many :: p, s => ∃ u v, s = u ++ v ∧ Matches p v
  | .any :: p, s => ∃ a v, s = a :: v ∧ Matches p v
  | .exactly a :: p, s => ∃ v, s = a :: v ∧ Matches p v

/-- The letters that a token takes one at a time. -/
def Token.Accepts : Token α → α → Prop
  | .many, _ => False
  | .any, _ => True
  | .exactly a, b => a = b

@[simp] theorem matches_nil : Matches ([] : List (Token α)) s ↔ s = [] := Iff.rfl

/-- A token other than `many` takes the first letter, or the text is not matched. -/
theorem matches_cons_cons (hx : x ≠ .many) :
    Matches (x :: p) (a :: s) ↔ x.Accepts a ∧ Matches p s := by
  cases x with
  | many => exact absurd rfl hx
  | any => simp [Matches, Token.Accepts]
  | exactly b => simp [Matches, Token.Accepts, eq_comm]

theorem not_matches_cons_nil (hx : x ≠ .many) : ¬Matches (x :: p) [] := by
  cases x with
  | many => exact absurd rfl hx
  | any => simp [Matches]
  | exactly b => simp [Matches]

/-- A text is matched behind `many` with a further letter in front too. -/
theorem matches_many_cons (h : Matches (.many :: p) s) : Matches (.many :: p) (a :: s) := by
  obtain ⟨u, v, rfl, hv⟩ := h
  exact ⟨a :: u, v, rfl, hv⟩

theorem matches_many_of_matches (h : Matches p s) : Matches (.many :: p) s :=
  ⟨[], s, rfl, h⟩

/-- What `many` takes is nothing, or begins with the first letter. -/
theorem matches_many_cons_iff :
    Matches (.many :: p) (a :: s) ↔ Matches p (a :: s) ∨ Matches (.many :: p) s := by
  constructor
  · rintro ⟨u, v, heq, hv⟩
    cases u with
    | nil => exact .inl (heq ▸ hv)
    | cons c u =>
        obtain ⟨-, rfl⟩ := List.cons.inj heq
        exact .inr ⟨u, v, rfl, hv⟩
  · rintro (h | h)
    · exact matches_many_of_matches h
    · exact matches_many_cons h

theorem matches_many_many_iff : Matches (.many :: .many :: p) s ↔ Matches (.many :: p) s := by
  constructor
  · rintro ⟨u, _, rfl, v, w, rfl, hw⟩
    exact ⟨u ++ v, w, (append_assoc ..).symm, hw⟩
  · exact matches_many_of_matches

theorem matches_many_nil_iff : Matches (.many :: p) [] ↔ Matches p [] := by
  constructor
  · rintro ⟨u, v, heq, hv⟩
    rwa [← (append_eq_nil_iff.mp heq.symm).2]
  · exact matches_many_of_matches

/-- The empty text is matched by patterns of `many` alone. -/
theorem matches_nil_right_iff : Matches p [] ↔ ∀ x ∈ p, x = .many := by
  induction p with
  | nil => simp
  | cons x p ih =>
      by_cases hx : x = .many
      · rw [hx, matches_many_nil_iff, ih, forall_mem_cons, eq_self, true_and]
      · simp [not_matches_cons_nil hx, hx]

/-- Patterns one behind the other match texts one behind the other. -/
theorem matches_append :
    Matches (p ++ q) s ↔ ∃ u v, s = u ++ v ∧ Matches p u ∧ Matches q v := by
  induction p generalizing s with
  | nil =>
      constructor
      · exact fun h ↦ ⟨[], s, rfl, rfl, h⟩
      · rintro ⟨u, v, rfl, rfl, hv⟩
        exact hv
  | cons x p ih =>
      cases x with
      | many =>
          simp only [cons_append, Matches, ih]
          constructor
          · rintro ⟨u, v, rfl, w, z, rfl, hw, hz⟩
            exact ⟨u ++ w, z, by simp, ⟨u, w, rfl, hw⟩, hz⟩
          · rintro ⟨u, v, rfl, ⟨w, z, rfl, hz⟩, hv⟩
            exact ⟨w, z ++ v, by simp, z, v, rfl, hz, hv⟩
      | any =>
          simp only [cons_append, Matches, ih]
          constructor
          · rintro ⟨c, v, rfl, w, z, rfl, hw, hz⟩
            exact ⟨c :: w, z, rfl, ⟨c, w, rfl, hw⟩, hz⟩
          · rintro ⟨u, v, rfl, ⟨c, w, rfl, hw⟩, hv⟩
            exact ⟨c, w ++ v, rfl, w, v, rfl, hw, hv⟩
      | exactly d =>
          simp only [cons_append, Matches, ih]
          constructor
          · rintro ⟨v, rfl, w, z, rfl, hw, hz⟩
            exact ⟨d :: w, z, rfl, ⟨w, rfl, hw⟩, hz⟩
          · rintro ⟨u, v, rfl, ⟨w, rfl, hw⟩, hv⟩
            exact ⟨w ++ v, rfl, w, v, rfl, hw, hv⟩

/-- Letters that stand for themselves match one text. -/
theorem matches_map_exactly : Matches (s.map .exactly) t ↔ t = s := by
  induction s generalizing t with
  | nil => exact Iff.rfl
  | cons c s ih =>
      simp only [map_cons, Matches, ih, exists_eq_right]

/-! ## Blocks

The tokens between two `many` take one letter each. -/

theorem Matches.length_eq (hB : .many ∉ B) (h : Matches B b) : b.length = B.length := by
  induction B generalizing b with
  | nil => rw [matches_nil.mp h]; rfl
  | cons x B ih =>
      rw [mem_cons, not_or] at hB
      cases b with
      | nil => exact absurd h (not_matches_cons_nil (Ne.symm hB.1))
      | cons c b =>
          rw [matches_cons_cons (Ne.symm hB.1)] at h
          rw [length_cons, length_cons, ih hB.2 h.2]

/-- A block takes the letters in front that it matches. -/
theorem block_append_iff (hB : .many ∉ B) (h : Matches B b) :
    Matches (B ++ p) (b ++ s) ↔ Matches p s := by
  constructor
  · intro hmatches
    obtain ⟨u, v, heq, hu, hv⟩ := matches_append.mp hmatches
    have hlength : b.length = u.length := (h.length_eq hB).trans (hu.length_eq hB).symm
    obtain ⟨-, rfl⟩ := append_inj heq hlength
    exact hv
  · exact fun hmatches ↦ matches_append.mpr ⟨b, s, rfl, h, hmatches⟩

theorem many_block_of (h : Matches B b) (hrest : Matches (.many :: p) s) :
    Matches (.many :: (B ++ .many :: p)) (b ++ s) :=
  matches_many_of_matches (matches_append.mpr ⟨b, s, rfl, h, hrest⟩)

/-- Behind a block that has found letters to take, `many` need not be tried again. -/
theorem many_block_iff (hB : .many ∉ B) (h : Matches B b) :
    Matches (.many :: (B ++ .many :: p)) (b ++ s) ↔ Matches (.many :: p) s := by
  constructor
  · rintro ⟨u, v, heq, hv⟩
    obtain ⟨c, w, rfl, hc, y, z, rfl, hz⟩ := matches_append.mp hv
    -- The block takes as many letters elsewhere, so that no more is left for the rest.
    have hlength : b.length = c.length := (h.length_eq hB).trans (hc.length_eq hB).symm
    have hle : z.length ≤ s.length := by
      have := congrArg List.length heq
      simp only [length_append] at this
      omega
    have hsuffix : z <:+ b ++ s := ⟨u ++ (c ++ y), by rw [heq]; simp⟩
    obtain ⟨y', rfl⟩ := suffix_of_suffix_length_le hsuffix (suffix_append b s) hle
    exact ⟨y', z, rfl, hz⟩
  · exact many_block_of h

/-- A block that takes the rest of a text leaves nothing to what is behind it. -/
theorem matches_nil_of_block (hB : .many ∉ B) (h : Matches B b)
    (hmatches : Matches (.many :: (B ++ p)) b) : Matches p [] := by
  obtain ⟨u, v, rfl, hv⟩ := hmatches
  obtain ⟨c, z, rfl, hc, hz⟩ := matches_append.mp hv
  have hlength : (u ++ (c ++ z)).length = c.length := (h.length_eq hB).trans (hc.length_eq hB).symm
  simp only [length_append] at hlength
  have hnil : z = [] := eq_nil_of_length_eq_zero (by omega)
  rwa [hnil] at hz

/-! ## Patterns of bytes -/

/-- What a byte of a pattern stands for: `*` takes any text, and `?` any byte. -/
def token (b : UInt8) : Token UInt8 :=
  if b = 42 then .many else if b = 63 then .any else .exactly b

def tokens (pattern : List UInt8) : List (Token UInt8) := pattern.map token

theorem token_eq_many_iff {b : UInt8} : token b = .many ↔ b = 42 := by
  unfold token
  split_ifs with hstar hany <;> simp [hstar]

theorem accepts_token_iff {b c : UInt8} : (token b).Accepts c ↔ b = 63 ∨ b ≠ 42 ∧ b = c := by
  unfold token
  split_ifs with hstar hany
  · simp [Token.Accepts, hstar]
  · simp [Token.Accepts, hany]
  · simp [Token.Accepts, hstar, hany]

/-- A token takes a text of one letter if it is the star, or accepts the letter. -/
theorem matches_token {b c : UInt8} (h : b = 63 ∨ b = c) : Matches [token b] [c] := by
  by_cases hstar : token b = .many
  · rw [hstar]
    exact ⟨[c], [], rfl, rfl⟩
  · rw [matches_cons_cons hstar, accepts_token_iff]
    rw [token_eq_many_iff] at hstar
    exact ⟨h.imp_right fun heq ↦ ⟨hstar, heq⟩, rfl⟩

/-! ## Patterns with an escape -/

section

variable [DecidableEq α] {many any escape : α}

/-- What a letter of a pattern stands for when it is not escaped. -/
def letterToken (many any a : α) : Token α :=
  if a = many then .many else if a = any then .any else .exactly a

/-- The tokens of a pattern, in which a letter behind an escape stands for itself, if there is a
letter behind every escape. -/
def globTokens (many any escape : α) : List α → Option (List (Token α))
  | [] => some []
  | [a] => if a = escape then none else some [letterToken many any a]
  | a :: b :: rest =>
      if a = escape then (globTokens many any escape rest).map (.exactly b :: ·)
      else (globTokens many any escape (b :: rest)).map (letterToken many any a :: ·)

theorem globTokens_escape : globTokens many any escape [escape] = none := if_pos rfl

theorem globTokens_escape_cons {rest : List α} : globTokens many any escape (escape :: a :: rest) =
    (globTokens many any escape rest).map (.exactly a :: ·) := by
  rw [globTokens, if_pos rfl]

theorem globTokens_cons {rest : List α} (ha : a ≠ escape) :
    globTokens many any escape (a :: rest) =
      (globTokens many any escape rest).map (letterToken many any a :: ·) := by
  cases rest with
  | nil => exact if_neg ha
  | cons b rest => rw [globTokens, if_neg ha]

/-- A pattern has no tokens when it ends in an escape, behind a pattern that has some. -/
theorem globTokens_eq_none_iff {pattern : List α} : globTokens many any escape pattern = none ↔
    ∃ front, pattern = front ++ [escape] ∧ globTokens many any escape front ≠ none := by
  fun_induction globTokens many any escape pattern with
  | case1 => simp
  | case2 => exact iff_of_true rfl ⟨[], rfl, nofun⟩
  | case3 a ha =>
      refine iff_of_false nofun ?_
      rintro ⟨front, heq, -⟩
      cases front with
      | nil => exact ha (List.cons.inj heq).1
      | cons c front => simp at heq
  | case4 b rest ih =>
      rw [Option.map_eq_none_iff, ih]
      constructor
      · rintro ⟨front, rfl, hfront⟩
        refine ⟨escape :: b :: front, rfl, ?_⟩
        rwa [globTokens_escape_cons, Ne, Option.map_eq_none_iff]
      · rintro ⟨front, heq, hfront⟩
        match front, heq with
        | [c], heq =>
            obtain ⟨rfl, -⟩ := List.cons.inj heq
            exact absurd globTokens_escape hfront
        | c :: d :: front, heq =>
            obtain ⟨hc, htail⟩ := List.cons.inj heq
            obtain ⟨rfl, rfl⟩ := List.cons.inj htail
            rw [← hc, globTokens_escape_cons, Ne, Option.map_eq_none_iff] at hfront
            exact ⟨front, rfl, hfront⟩
  | case5 a b rest ha ih =>
      rw [Option.map_eq_none_iff, ih]
      constructor
      · rintro ⟨front, heq, hfront⟩
        refine ⟨a :: front, congrArg (a :: ·) heq, ?_⟩
        rwa [globTokens_cons ha, Ne, Option.map_eq_none_iff]
      · rintro ⟨front, heq, hfront⟩
        cases front with
        | nil => exact absurd (List.cons.inj heq).1 ha
        | cons c front =>
            obtain ⟨rfl, htail⟩ := List.cons.inj heq
            rw [globTokens_cons ha, Ne, Option.map_eq_none_iff] at hfront
            exact ⟨front, htail, hfront⟩

end

end KaduoxSsh.Glob
