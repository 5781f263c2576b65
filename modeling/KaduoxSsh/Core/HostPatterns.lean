import KaduoxSsh.Core.HostTrust
import KaduoxSsh.OpenSsh.Match

/-!
# Patterns of hosts

The search of `host_trust.rs` for a match of a pattern keeps the last star that it has met and
the place of the candidate where the text of that star ends. Its invariant says what is left to
match from there, and that the tokens since the star have taken the letters since that place.

The search reads bytes and takes no account of the case of ASCII letters. It compares a byte of
the candidate with the pattern before it looks for a star: a star of the candidate may use up the
star of the pattern, so that a candidate with a star may be turned down although the pattern
matches it.
-/

namespace KaduoxSsh.Core

open Text Glob List

/-! ## The case of letters -/

/-- A text without regard to the case of ASCII letters. -/
def caseless (text : List UInt8) : List UInt8 := text.map lowerByte

/-- Only letters are changed, and no letter is a wildcard. -/
theorem lowerByte_eq_iff {b c : UInt8} (hc : c < 65) : lowerByte b = c ↔ b = c := by
  unfold lowerByte
  split_ifs with hletter
  · obtain ⟨hlow, hhigh⟩ := hletter
    rw [UInt8.le_iff_toNat_le] at hlow hhigh
    rw [UInt8.lt_iff_toNat_lt] at hc
    rw [← UInt8.toNat_inj, ← UInt8.toNat_inj, UInt8.toNat_add]
    simp only [UInt8.reduceToNat] at hlow hhigh hc ⊢
    omega
  · rfl

/-! ## What is left to match -/

section

variable {pattern candidate : List UInt8} {s : WildcardSearch} {index : Nat}

/-- The tokens of a pattern from an index on. -/
def tokensFrom (pattern : List UInt8) (index : Nat) : List (Token UInt8) :=
  tokens (caseless (pattern.drop index))

/-- The letters of a candidate from an index on. -/
def lettersFrom (candidate : List UInt8) (index : Nat) : List UInt8 :=
  caseless (candidate.drop index)

theorem tokensFrom_cons (h : index < pattern.length) :
    tokensFrom pattern index = token (lowerByte pattern[index]) :: tokensFrom pattern (index + 1) := by
  rw [tokensFrom, drop_eq_getElem_cons h]
  rfl

theorem lettersFrom_cons (h : index < candidate.length) :
    lettersFrom candidate index =
      lowerByte candidate[index] :: lettersFrom candidate (index + 1) := by
  rw [lettersFrom, drop_eq_getElem_cons h]
  rfl

theorem tokensFrom_nil (h : ¬index < pattern.length) : tokensFrom pattern index = [] := by
  rw [tokensFrom, drop_eq_nil_of_le (Nat.le_of_not_lt h)]
  rfl

theorem lettersFrom_nil (h : ¬index < candidate.length) : lettersFrom candidate index = [] := by
  rw [lettersFrom, drop_eq_nil_of_le (Nat.le_of_not_lt h)]
  rfl

/-- What is left to match: the rest, from the last star on if one was met. -/
def Remaining (pattern candidate : List UInt8) (s : WildcardSearch) : Prop :=
  match s.starIndex with
  | none => Matches (tokensFrom pattern s.patternIndex) (lettersFrom candidate s.candidateIndex)
  | some star =>
      Matches (.many :: tokensFrom pattern (star + 1)) (lettersFrom candidate s.starCandidate)

/-- The tokens since the last star have taken the letters since the end of its text. -/
structure Block (pattern candidate : List UInt8) (s : WildcardSearch) (star : Nat)
    (block : List (Token UInt8)) (taken : List UInt8) : Prop where
  tokens_eq : tokensFrom pattern (star + 1) = block ++ tokensFrom pattern s.patternIndex
  letters_eq :
    lettersFrom candidate s.starCandidate = taken ++ lettersFrom candidate s.candidateIndex
  taken : Matches block taken
  plain : 42 ∉ candidate → .many ∉ block

/-- The invariant of the search: the pattern matches if what is left does, and for a candidate
without stars only then. -/
structure Searching (pattern candidate : List UInt8) (s : WildcardSearch) : Prop where
  block : ∀ star, s.starIndex = some star → ∃ block taken,
    Block pattern candidate s star block taken
  sound : Remaining pattern candidate s → Matches (tokens (caseless pattern)) (caseless candidate)
  complete : 42 ∉ candidate → Matches (tokens (caseless pattern)) (caseless candidate) →
    Remaining pattern candidate s

theorem searching_start : Searching pattern candidate ⟨0, 0, none, 0, Nat.le_refl _⟩ where
  block := fun star h ↦ by cases h
  sound := id
  complete := fun _ ↦ id

/-! ## The steps of the search -/

/-- The next token and the next letter belong together. -/
theorem Searching.advance (hs : Searching pattern candidate s)
    (hcandidate : s.candidateIndex < candidate.length) (hpattern : s.patternIndex < pattern.length)
    (hmatch : pattern[s.patternIndex] = 63 ∨
      lowerByte pattern[s.patternIndex] = lowerByte candidate[s.candidateIndex]) :
    Searching pattern candidate { s with
      patternIndex := s.patternIndex + 1
      candidateIndex := s.candidateIndex + 1
      le := Nat.le_succ_of_le s.le } := by
  have hpair : Matches [token (lowerByte pattern[s.patternIndex])]
      [lowerByte candidate[s.candidateIndex]] :=
    matches_token (hmatch.imp_left (lowerByte_eq_iff (by decide)).mpr)
  have hplain : 42 ∉ candidate → token (lowerByte pattern[s.patternIndex]) ≠ .many := by
    intro hfree hmany
    rw [token_eq_many_iff, lowerByte_eq_iff (by decide)] at hmany
    rw [hmany] at hmatch
    have hstar : candidate[s.candidateIndex] = 42 := by
      rcases hmatch with h | h
      · cases h
      · exact (lowerByte_eq_iff (by decide)).mp h.symm
    exact hfree (hstar ▸ getElem_mem hcandidate)
  refine ⟨?_, ?_, ?_⟩
  · intro star hstar
    obtain ⟨block, taken, hblock⟩ := hs.block star hstar
    refine ⟨block ++ [token (lowerByte pattern[s.patternIndex])],
      taken ++ [lowerByte candidate[s.candidateIndex]], ?_, ?_, ?_, ?_⟩
    · rw [hblock.tokens_eq, tokensFrom_cons hpattern, append_assoc, singleton_append]
    · rw [hblock.letters_eq, lettersFrom_cons hcandidate, append_assoc,
        singleton_append]
    · exact matches_append.mpr ⟨taken, _, rfl, hblock.taken, hpair⟩
    · intro hfree hmem
      rcases mem_append.mp hmem with hmem | hmem
      · exact hblock.plain hfree hmem
      · exact hplain hfree (mem_singleton.mp hmem).symm
  · intro hrest
    apply hs.sound
    unfold Remaining at hrest ⊢
    cases hstar : s.starIndex with
    | none =>
        simp only [hstar] at hrest ⊢
        rw [tokensFrom_cons hpattern, lettersFrom_cons hcandidate]
        exact matches_append.mpr ⟨_, _, rfl, hpair, hrest⟩
    | some star =>
        simp only [hstar] at hrest ⊢
        exact hrest
  · intro hfree hmatches
    have hrest := hs.complete hfree hmatches
    unfold Remaining at hrest ⊢
    cases hstar : s.starIndex with
    | none =>
        simp only [hstar] at hrest ⊢
        rw [tokensFrom_cons hpattern, lettersFrom_cons hcandidate,
          matches_cons_cons (hplain hfree)] at hrest
        exact hrest.2
    | some star =>
        simp only [hstar] at hrest ⊢
        exact hrest

/-- A star is met: what is behind it may match from here on. -/
theorem Searching.meet (hs : Searching pattern candidate s)
    (hpattern : s.patternIndex < pattern.length) (hstar : pattern[s.patternIndex] = 42) :
    Searching pattern candidate { s with
      starIndex := some s.patternIndex
      patternIndex := s.patternIndex + 1
      starCandidate := s.candidateIndex
      le := Nat.le_refl _ } := by
  have hmany : tokensFrom pattern s.patternIndex =
      .many :: tokensFrom pattern (s.patternIndex + 1) := by
    rw [tokensFrom_cons hpattern, hstar]
    rfl
  refine ⟨?_, ?_, ?_⟩
  · rintro star ⟨⟩
    exact ⟨[], [], rfl, rfl, rfl, fun _ ↦ not_mem_nil⟩
  · intro hrest
    apply hs.sound
    unfold Remaining at hrest ⊢
    cases hlast : s.starIndex with
    | none =>
        simp only at hrest ⊢
        rwa [hmany]
    | some last =>
        obtain ⟨block, taken, hblock⟩ := hs.block last hlast
        simp only at hrest ⊢
        rw [hblock.tokens_eq, hblock.letters_eq, hmany]
        exact many_block_of hblock.taken hrest
  · intro hfree hmatches
    have hrest := hs.complete hfree hmatches
    unfold Remaining at hrest ⊢
    cases hlast : s.starIndex with
    | none =>
        simp only [hlast] at hrest ⊢
        rwa [hmany] at hrest
    | some last =>
        obtain ⟨block, taken, hblock⟩ := hs.block last hlast
        simp only [hlast] at hrest ⊢
        rw [hblock.tokens_eq, hblock.letters_eq, hmany] at hrest
        exact (many_block_iff (hblock.plain hfree) hblock.taken).mp hrest

/-- Nothing matches from here: the text of the last star is one letter longer. -/
theorem Searching.retreat {star : Nat} (hs : Searching pattern candidate s)
    (hcandidate : s.candidateIndex < candidate.length) (hstar : s.starIndex = some star)
    (hstuck : ¬Matches (tokensFrom pattern s.patternIndex)
      (lettersFrom candidate s.candidateIndex)) :
    Searching pattern candidate { s with
      patternIndex := star + 1
      starCandidate := s.starCandidate + 1
      candidateIndex := s.starCandidate + 1
      le := Nat.le_refl _ } := by
  have hletters := lettersFrom_cons (Nat.lt_of_le_of_lt s.le hcandidate)
  refine ⟨?_, ?_, ?_⟩
  · intro last hlast
    rw [hstar] at hlast
    cases hlast
    exact ⟨[], [], rfl, rfl, rfl, fun _ ↦ not_mem_nil⟩
  · intro hrest
    apply hs.sound
    unfold Remaining at hrest ⊢
    simp only [hstar] at hrest ⊢
    rw [hletters]
    exact matches_many_cons hrest
  · intro hfree hmatches
    have hrest := hs.complete hfree hmatches
    obtain ⟨block, taken, hblock⟩ := hs.block star hstar
    unfold Remaining at hrest ⊢
    simp only [hstar] at hrest ⊢
    rw [hletters, matches_many_cons_iff, ← hletters] at hrest
    rcases hrest with hhere | hlater
    · rw [hblock.tokens_eq, hblock.letters_eq,
        block_append_iff (hblock.plain hfree) hblock.taken] at hhere
      exact absurd hhere hstuck
    · exact hlater

/-- Without a star nothing is left to try. -/
theorem Searching.fail (hs : Searching pattern candidate s) (hstar : s.starIndex = none)
    (hstuck : ¬Matches (tokensFrom pattern s.patternIndex)
      (lettersFrom candidate s.candidateIndex)) (hfree : 42 ∉ candidate) :
    ¬Matches (tokens (caseless pattern)) (caseless candidate) := by
  intro hmatches
  have hrest := hs.complete hfree hmatches
  unfold Remaining at hrest
  simp only [hstar] at hrest
  exact hstuck hrest

theorem stuck_of_mismatch (hcandidate : s.candidateIndex < candidate.length)
    (hpattern : s.patternIndex < pattern.length) (hstar : pattern[s.patternIndex] ≠ 42)
    (hmismatch : ¬(pattern[s.patternIndex] = 63 ∨
      lowerByte pattern[s.patternIndex] = lowerByte candidate[s.candidateIndex])) :
    ¬Matches (tokensFrom pattern s.patternIndex) (lettersFrom candidate s.candidateIndex) := by
  have hplain : token (lowerByte pattern[s.patternIndex]) ≠ .many := by
    rwa [Ne, token_eq_many_iff, lowerByte_eq_iff (by decide)]
  rw [tokensFrom_cons hpattern, lettersFrom_cons hcandidate, matches_cons_cons hplain,
    accepts_token_iff, lowerByte_eq_iff (by decide)]
  rintro ⟨haccepts, -⟩
  exact hmismatch (haccepts.imp_right And.right)

theorem stuck_of_end (hcandidate : s.candidateIndex < candidate.length)
    (hpattern : ¬s.patternIndex < pattern.length) :
    ¬Matches (tokensFrom pattern s.patternIndex) (lettersFrom candidate s.candidateIndex) := by
  rw [tokensFrom_nil hpattern, lettersFrom_cons hcandidate, matches_nil]
  exact cons_ne_nil _ _

/-- Whether the pattern is used up, but for stars, where the search has ended. -/
def usedUp (pattern : List UInt8) : Option Nat → Bool
  | some patternIndex => (pattern.drop patternIndex).all (· == 42)
  | none => false

theorem wildcardMatch_eq :
    wildcardMatch pattern candidate =
      usedUp pattern (wildcardSearch pattern candidate ⟨0, 0, none, 0, Nat.le_refl _⟩) := by
  unfold wildcardMatch usedUp
  rfl

theorem usedUp_iff :
    usedUp pattern (some index) = true ↔ Matches (tokensFrom pattern index) [] := by
  rw [usedUp, all_eq_true, matches_nil_right_iff, tokensFrom, tokens, caseless, map_map,
    forall_mem_map]
  apply forall₂_congr
  intro b _
  rw [beq_iff_eq, Function.comp_apply, token_eq_many_iff, lowerByte_eq_iff (by decide)]

/-- The candidate is used up: the rest of the pattern must match nothing. -/
theorem Searching.finish (hs : Searching pattern candidate s)
    (hcandidate : ¬s.candidateIndex < candidate.length) :
    (usedUp pattern (some s.patternIndex) = true →
        Matches (tokens (caseless pattern)) (caseless candidate)) ∧
      (42 ∉ candidate → Matches (tokens (caseless pattern)) (caseless candidate) →
        usedUp pattern (some s.patternIndex) = true) := by
  rw [usedUp_iff]
  constructor
  · intro hend
    apply hs.sound
    unfold Remaining
    cases hstar : s.starIndex with
    | none =>
        simp only
        rwa [lettersFrom_nil hcandidate]
    | some star =>
        obtain ⟨block, taken, hblock⟩ := hs.block star hstar
        simp only
        rw [hblock.tokens_eq, hblock.letters_eq, lettersFrom_nil hcandidate]
        exact matches_many_of_matches (matches_append.mpr ⟨taken, [], rfl, hblock.taken, hend⟩)
  · intro hfree hmatches
    have hrest := hs.complete hfree hmatches
    unfold Remaining at hrest
    cases hstar : s.starIndex with
    | none =>
        simp only [hstar] at hrest
        rwa [lettersFrom_nil hcandidate] at hrest
    | some star =>
        obtain ⟨block, taken, hblock⟩ := hs.block star hstar
        simp only [hstar] at hrest
        rw [hblock.tokens_eq, hblock.letters_eq, lettersFrom_nil hcandidate,
          append_nil] at hrest
        exact matches_nil_of_block (hblock.plain hfree) hblock.taken hrest

/-- The search ends with the pattern used up only if the pattern matches, and for a candidate
without stars whenever it does. -/
theorem Searching.run (hs : Searching pattern candidate s) :
    (usedUp pattern (wildcardSearch pattern candidate s) = true →
        Matches (tokens (caseless pattern)) (caseless candidate)) ∧
      (42 ∉ candidate → Matches (tokens (caseless pattern)) (caseless candidate) →
        usedUp pattern (wildcardSearch pattern candidate s) = true) := by
  fun_induction wildcardSearch pattern candidate s with
  | case1 s hcandidate hpattern hmatch ih => exact ih (hs.advance hcandidate hpattern hmatch)
  | case2 s hcandidate hpattern hmatch hstar ih => exact ih (hs.meet hpattern hstar)
  | case3 s hcandidate hpattern hmatch hplain star hstar ih =>
      exact ih (hs.retreat hcandidate hstar (stuck_of_mismatch hcandidate hpattern hplain hmatch))
  | case4 s hcandidate hpattern hmatch hplain hstar =>
      have hstuck := stuck_of_mismatch hcandidate hpattern hplain hmatch
      exact ⟨(absurd · Bool.false_ne_true), fun hfree h ↦ absurd h (hs.fail hstar hstuck hfree)⟩
  | case5 s hcandidate hpattern star hstar ih =>
      exact ih (hs.retreat hcandidate hstar (stuck_of_end hcandidate hpattern))
  | case6 s hcandidate hpattern hstar =>
      have hstuck := stuck_of_end hcandidate hpattern
      exact ⟨(absurd · Bool.false_ne_true), fun hfree h ↦ absurd h (hs.fail hstar hstuck hfree)⟩
  | case7 s hcandidate => exact hs.finish hcandidate

/-- A candidate that is taken is in the language of the pattern up to the case of ASCII letters. A
candidate without stars is taken if and only if it is, as by the matcher of `openssh_match.rs` that
is given both in lower case. -/
theorem wildcardMatch_language (pattern candidate : List UInt8) :
    (wildcardMatch pattern candidate = true →
        Matches (tokens (caseless pattern)) (caseless candidate)) ∧
      (42 ∉ candidate →
        (wildcardMatch pattern candidate = true ↔
          Matches (tokens (caseless pattern)) (caseless candidate)) ∧
        wildcardMatch pattern candidate =
          OpenSsh.wildcardMatch (caseless pattern) (caseless candidate)) := by
  have hstart : Searching pattern candidate ⟨0, 0, none, 0, Nat.le_refl _⟩ := searching_start
  obtain ⟨hsound, hcomplete⟩ := hstart.run
  rw [← wildcardMatch_eq] at hsound hcomplete
  refine ⟨hsound, fun hfree ↦ ?_⟩
  have hiff : wildcardMatch pattern candidate = true ↔
      Matches (tokens (caseless pattern)) (caseless candidate) := ⟨hsound, hcomplete hfree⟩
  exact ⟨hiff, Bool.eq_iff_iff.mpr (hiff.trans OpenSsh.wildcardMatch_iff.symm)⟩

end

theorem wildcardMatch_language_prefix :
    wildcardMatch [42, 46, 97] [98, 46, 97] =
      OpenSsh.wildcardMatch (caseless [42, 46, 97]) (caseless [98, 46, 97]) :=
  ((wildcardMatch_language [42, 46, 97] [98, 46, 97]).2 (by decide)).2

/-- The pattern `A` takes `a`, which the language of the pattern does not have. -/
theorem case_ignored : ¬(wildcardMatch [65] [97] = true ↔ Matches (tokens [65]) [97]) := by
  have htaken : wildcardMatch [65] [97] = true := by
    simp [wildcardMatch, wildcardSearch, lowerByte]
  have hnot : ¬Matches (tokens [65]) [97] := by
    simp [tokens, token, Matches]
  rw [htaken, eq_self, true_iff]
  exact hnot

/-- The pattern `*a` turns down `*ba`: its star is used up by the star of the candidate. -/
example : wildcardMatch [42, 97] [42, 98, 97] = false := by
  simp [wildcardMatch, wildcardSearch, lowerByte]

end KaduoxSsh.Core
