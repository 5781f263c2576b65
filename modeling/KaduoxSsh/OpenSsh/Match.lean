import KaduoxSsh.Lib.Glob
import KaduoxSsh.Lib.Memoised

/-!
# Matching a pattern of hosts

`wildcard_match` of `openssh_match.rs`: whether a pattern takes a host is asked of their rests
from a place of each on, and the answers that were found are kept. All of them are right, so that
an answer that is looked up is as good as one that is found anew.
-/

namespace KaduoxSsh.OpenSsh

open Glob List

/-- The answers for the rests of a pattern and of a candidate. -/
abbrev Memo : Type := Memoised.Table (Nat × Nat) Bool

/-- The first of some places that a search finds a match from. -/
def anyPlace (search : Nat → Memo → Bool × Memo) : List Nat → Memo → Bool × Memo
  | [], memo => (false, memo)
  | place :: places, memo =>
      let (result, memo) := search place memo
      if result then (true, memo) else anyPlace search places memo

/-- The index of the first byte from an index on that is no star. -/
def skipStars (pattern : List UInt8) (index : Nat) : Nat :=
  index + ((pattern.drop index).takeWhile (· == 42)).length

/-- `inner`: whether a pattern from an index on matches a candidate from an index on. -/
def innerMatch (pattern candidate : List UInt8) (patternIndex candidateIndex : Nat)
    (memo : Memo) : Bool × Memo :=
  match memo (patternIndex, candidateIndex) with
  | some result => (result, memo)
  | none =>
      if hpattern : patternIndex < pattern.length then
        let (result, memo) :=
          if pattern[patternIndex] = 42 then
            if skipStars pattern (patternIndex + 1) ≥ pattern.length then (true, memo)
            else
              anyPlace
                (fun nextCandidate memo ↦
                  innerMatch pattern candidate (skipStars pattern (patternIndex + 1))
                    nextCandidate memo)
                (List.range' candidateIndex (candidate.length + 1 - candidateIndex)) memo
          else if hcandidate : candidateIndex < candidate.length then
            if pattern[patternIndex] = 63 ∨ candidate[candidateIndex] = pattern[patternIndex] then
              innerMatch pattern candidate (patternIndex + 1) (candidateIndex + 1) memo
            else (false, memo)
          else (false, memo)
        (result, memo.insert (patternIndex, candidateIndex) result)
      else (decide (candidate.length ≤ candidateIndex), memo)
termination_by pattern.length - patternIndex
decreasing_by
  · unfold skipStars
    omega
  · omega

def wildcardMatch (pattern candidate : List UInt8) : Bool :=
  (innerMatch pattern candidate 0 0 fun _ ↦ none).1

/-! ## The answers are right -/

section

variable {pattern candidate : List UInt8} {patternIndex candidateIndex : Nat} {memo : Memo}

/-- Whether a pattern matches a candidate, of both the rests from an index on. -/
def RestMatches (pattern candidate : List UInt8) (patternIndex candidateIndex : Nat) : Prop :=
  Matches (tokens (pattern.drop patternIndex)) (candidate.drop candidateIndex)

/-- Every answer that is kept says whether the rests match. -/
abbrev Memo.Right (pattern candidate : List UInt8) : Memo → Prop :=
  Memoised.Table.Right fun place result ↦ (result = true ↔
    RestMatches pattern candidate place.1 place.2)

/-- A search that answers a question and keeps right answers only. -/
structure Answers (pattern candidate : List UInt8) (question : Prop) (found : Bool × Memo) :
    Prop where
  result : found.1 = true ↔ question
  memo : found.2.Right pattern candidate

/-- A search over places answers whether one of them has what is searched for. -/
theorem answers_anyPlace {search : Nat → Memo → Bool × Memo} {question : Nat → Prop}
    {places : List Nat} (hmemo : memo.Right pattern candidate)
    (hsearch : ∀ place ∈ places, ∀ memo : Memo, memo.Right pattern candidate →
      Answers pattern candidate (question place) (search place memo)) :
    Answers pattern candidate (∃ place ∈ places, question place) (anyPlace search places memo) := by
  induction places generalizing memo with
  | nil => exact ⟨by simp [anyPlace], hmemo⟩
  | cons place places ih =>
      have hfirst := hsearch place mem_cons_self memo hmemo
      rw [anyPlace]
      dsimp only
      by_cases hfound : (search place memo).1 = true
      · rw [if_pos hfound]
        exact ⟨by simp [hfirst.result.mp hfound], hfirst.memo⟩
      · have hrest := ih hfirst.memo fun p hp ↦ hsearch p (mem_cons_of_mem _ hp)
        rw [if_neg hfound]
        refine ⟨?_, hrest.memo⟩
        rw [hrest.result, exists_mem_cons_iff, or_iff_right]
        exact fun hquestion ↦ hfound (hfirst.result.mpr hquestion)

/-! ## Stars -/

/-- Stars in a row match what one of them does. -/
theorem matches_skipStars {text : List UInt8} :
    Matches (.many :: tokens (pattern.drop patternIndex)) text ↔
      Matches (.many :: tokens (pattern.drop (skipStars pattern patternIndex))) text := by
  rw [skipStars, ← drop_drop]
  generalize pattern.drop patternIndex = rest
  induction rest with
  | nil => rfl
  | cons b rest ih =>
      by_cases hb : b = 42
      · rw [hb, takeWhile_cons_of_pos (by rfl), length_cons, drop_succ_cons, ← ih]
        exact matches_many_many_iff
      · rw [takeWhile_cons_of_neg (by simpa using hb), length_nil, drop_zero]

theorem restMatches_cons (hpattern : patternIndex < pattern.length) :
    RestMatches pattern candidate patternIndex candidateIndex ↔
      Matches (token pattern[patternIndex] :: tokens (pattern.drop (patternIndex + 1)))
        (candidate.drop candidateIndex) := by
  rw [RestMatches, drop_eq_getElem_cons hpattern, tokens, map_cons]
  rfl

/-- A star matches if the rest behind it does from some place on. -/
theorem restMatches_star_iff (hpattern : patternIndex < pattern.length)
    (hstar : pattern[patternIndex] = 42) (hle : candidateIndex ≤ candidate.length) :
    RestMatches pattern candidate patternIndex candidateIndex ↔
      ∃ place ∈ List.range' candidateIndex (candidate.length + 1 - candidateIndex),
        RestMatches pattern candidate (skipStars pattern (patternIndex + 1)) place := by
  rw [restMatches_cons hpattern, hstar, token, if_pos rfl, matches_skipStars]
  constructor
  · rintro ⟨u, v, heq, hv⟩
    refine ⟨candidateIndex + u.length, ?_, ?_⟩
    · have hlength := congrArg List.length heq
      rw [length_drop, length_append] at hlength
      rw [mem_range'_1]
      omega
    · rwa [RestMatches, ← drop_drop, heq, drop_left]
  · rintro ⟨place, hplace, hmatches⟩
    obtain ⟨k, rfl⟩ := Nat.exists_eq_add_of_le (mem_range'_1.mp hplace).1
    refine ⟨(candidate.drop candidateIndex).take k, (candidate.drop candidateIndex).drop k,
      (take_append_drop ..).symm, ?_⟩
    rwa [drop_drop]

/-- Behind stars that end the pattern, everything is matched. -/
theorem restMatches_of_end (hpattern : patternIndex < pattern.length)
    (hstar : pattern[patternIndex] = 42)
    (hend : skipStars pattern (patternIndex + 1) ≥ pattern.length) :
    RestMatches pattern candidate patternIndex candidateIndex := by
  rw [restMatches_cons hpattern, hstar, token, if_pos rfl, matches_skipStars,
    drop_eq_nil_of_le hend]
  exact ⟨_, [], (append_nil _).symm, rfl⟩

/-- Any other byte takes one byte of the candidate. -/
theorem restMatches_byte_iff (hpattern : patternIndex < pattern.length)
    (hplain : pattern[patternIndex] ≠ 42) (hcandidate : candidateIndex < candidate.length) :
    RestMatches pattern candidate patternIndex candidateIndex ↔
      (pattern[patternIndex] = 63 ∨ candidate[candidateIndex] = pattern[patternIndex]) ∧
        RestMatches pattern candidate (patternIndex + 1) (candidateIndex + 1) := by
  have hne : token pattern[patternIndex] ≠ .many := by rwa [Ne, token_eq_many_iff]
  rw [restMatches_cons hpattern, drop_eq_getElem_cons hcandidate, matches_cons_cons hne,
    accepts_token_iff, RestMatches, and_iff_right hplain, eq_comm (a := pattern[patternIndex])
    (b := candidate[candidateIndex])]

theorem not_restMatches_of_end (hpattern : patternIndex < pattern.length)
    (hplain : pattern[patternIndex] ≠ 42) (hcandidate : ¬candidateIndex < candidate.length) :
    ¬RestMatches pattern candidate patternIndex candidateIndex := by
  rw [restMatches_cons hpattern, drop_eq_nil_of_le (Nat.le_of_not_lt hcandidate)]
  apply not_matches_cons_nil
  rwa [Ne, token_eq_many_iff]

/-- The search answers whether the rests match, and keeps right answers only. -/
theorem answers_innerMatch (hle : candidateIndex ≤ candidate.length)
    (hmemo : memo.Right pattern candidate) :
    Answers pattern candidate (RestMatches pattern candidate patternIndex candidateIndex)
      (innerMatch pattern candidate patternIndex candidateIndex memo) := by
  fun_induction innerMatch pattern candidate patternIndex candidateIndex memo with
  | case1 patternIndex candidateIndex memo result hknown =>
      exact ⟨hmemo _ _ hknown, hmemo⟩
  | case2 patternIndex candidateIndex memo hnew hpattern result memo' hfound ihstar ihbyte =>
      have hanswers : Answers pattern candidate
          (RestMatches pattern candidate patternIndex candidateIndex) (result, memo') := by
        rw [← hfound]
        by_cases hstar : pattern[patternIndex] = 42
        · rw [dif_pos hstar]
          by_cases hend : skipStars pattern (patternIndex + 1) ≥ pattern.length
          · rw [dif_pos hend]
            exact ⟨iff_of_true rfl (restMatches_of_end hpattern hstar hend), hmemo⟩
          · rw [dif_neg hend, restMatches_star_iff hpattern hstar hle]
            apply answers_anyPlace hmemo
            intro place hplace memo hmemo
            have hbound := mem_range'_1.mp hplace
            exact ihstar place memo (by omega) hmemo
        · rw [dif_neg hstar]
          by_cases hcandidate : candidateIndex < candidate.length
          · rw [dif_pos hcandidate, restMatches_byte_iff hpattern hstar hcandidate]
            by_cases htake : pattern[patternIndex] = 63 ∨
                candidate[candidateIndex] = pattern[patternIndex]
            · rw [dif_pos htake, and_iff_right htake]
              exact ihbyte hcandidate hmemo
            · rw [dif_neg htake]
              exact ⟨by simp [htake], hmemo⟩
          · rw [dif_neg hcandidate]
            have hnot := not_restMatches_of_end hpattern hstar hcandidate
            exact ⟨by simp [hnot], hmemo⟩
      exact ⟨hanswers.result, hanswers.memo.insert hanswers.result⟩
  | case3 patternIndex candidateIndex memo hnew hpattern =>
      refine ⟨?_, hmemo⟩
      rw [decide_eq_true_iff, RestMatches, drop_eq_nil_of_le (Nat.le_of_not_lt hpattern)]
      exact drop_eq_nil_iff.symm

/-- The matcher decides the language of the pattern. -/
theorem wildcardMatch_iff :
    wildcardMatch pattern candidate = true ↔ Matches (tokens pattern) candidate :=
  (answers_innerMatch (Nat.zero_le _) Memoised.Table.right_empty).result

end

end KaduoxSsh.OpenSsh
