import KaduoxSsh.Lib.Memoised
import KaduoxSsh.Lib.Result
import KaduoxSsh.Lib.Text
import KaduoxSsh.OpenSsh.Match

/-!
# The patterns of Include

`glob_match` of `openssh_include.rs`: whether a pattern takes the name of a file, both as
bytes. The answers for the rests of pattern and name are kept in a table, and the search
fails when it comes to a backslash that nothing follows.

The search with the table is the plain recursion over the rests, and this one decides the
language of the pattern. Since it reads bytes, what `?` takes is one byte, which is less
than a character where a name is not ASCII.
-/

namespace KaduoxSsh.OpenSsh

open Glob List
open Memoised (Table Computes)

/-! ## The search with a table -/

/-- The first of some places that a search finds a match from, if no search fails before. -/
def anyPlaceOk (search : Nat → Table (Nat × Nat) Bool → Result (Bool × Table (Nat × Nat) Bool)) :
    List Nat → Table (Nat × Nat) Bool → Result (Bool × Table (Nat × Nat) Bool)
  | [], memo => .ok (false, memo)
  | place :: places, memo => do
      let (result, memo) ← search place memo
      if result then .ok (true, memo) else anyPlaceOk search places memo

/-- `inner`: whether a pattern from an index on matches a candidate from an index on. -/
def innerGlob (pattern candidate : List UInt8) (patternIndex candidateIndex : Nat)
    (memo : Table (Nat × Nat) Bool) : Result (Bool × Table (Nat × Nat) Bool) :=
  match memo (patternIndex, candidateIndex) with
  | some result => .ok (result, memo)
  | none =>
      if hpattern : patternIndex < pattern.length then do
        let (result, memo) ←
          if pattern[patternIndex] = 42 then
            if skipStars pattern (patternIndex + 1) ≥ pattern.length then .ok (true, memo)
            else
              anyPlaceOk
                (fun nextCandidate memo ↦
                  innerGlob pattern candidate (skipStars pattern (patternIndex + 1))
                    nextCandidate memo)
                (List.range' candidateIndex (candidate.length + 1 - candidateIndex)) memo
          else if pattern[patternIndex] = 63 then
            if candidateIndex < candidate.length then
              innerGlob pattern candidate (patternIndex + 1) (candidateIndex + 1) memo
            else .ok (false, memo)
          else if pattern[patternIndex] = 92 then
            if hliteral : patternIndex + 1 < pattern.length then
              if candidate[candidateIndex]? = some pattern[patternIndex + 1] then
                innerGlob pattern candidate (patternIndex + 1 + 1) (candidateIndex + 1) memo
              else .ok (false, memo)
            else Result.bail "OpenSSH Include glob ends with an incomplete escape"
          else if candidate[candidateIndex]? = some pattern[patternIndex] then
            innerGlob pattern candidate (patternIndex + 1) (candidateIndex + 1) memo
          else .ok (false, memo)
        .ok (result, memo.insert (patternIndex, candidateIndex) result)
      else .ok (decide (candidate.length ≤ candidateIndex), memo)
termination_by pattern.length - patternIndex
decreasing_by
  · unfold skipStars
    omega
  · omega
  · omega
  · omega

def globMatch (pattern candidate : List UInt8) : Result Bool :=
  (innerGlob pattern candidate 0 0 fun _ ↦ none).map Prod.fst

/-! ## The plain recursion -/

/-- Whether a text passes a test, or what is behind some of its letters does. -/
def anyRest (test : List UInt8 → Result Bool) : List UInt8 → Result Bool
  | [] => test []
  | a :: rest => do
      let result ← test (a :: rest)
      if result then .ok true else anyRest test rest

/-- The search without a table, which reads both texts from the front. -/
def plainGlob (pattern candidate : List UInt8) : Result Bool :=
  match pattern with
  | [] => .ok candidate.isEmpty
  | head :: pattern =>
      if head = 42 then
        if pattern.dropWhile (· == 42) = [] then .ok true
        else anyRest (plainGlob (pattern.dropWhile (· == 42))) candidate
      else if head = 63 then
        if candidate = [] then .ok false else plainGlob pattern candidate.tail
      else if head = 92 then
        match pattern with
        | [] => Result.bail "OpenSSH Include glob ends with an incomplete escape"
        | literal :: pattern =>
            if candidate.head? = some literal then plainGlob pattern candidate.tail
            else .ok false
      else if candidate.head? = some head then plainGlob pattern candidate.tail
      else .ok false
termination_by pattern.length
decreasing_by
  · have := (dropWhile_suffix (fun b : UInt8 ↦ b == 42) (l := pattern)).length_le
    simp only [length_cons]
    omega
  · simp
  · simp only [length_cons]
    omega
  · simp

section

variable {head literal : UInt8} {pattern candidate : List UInt8}

theorem plainGlob_star : plainGlob (42 :: pattern) candidate =
    if pattern.dropWhile (· == 42) = [] then .ok true
    else anyRest (plainGlob (pattern.dropWhile (· == 42))) candidate := by
  rw [plainGlob.eq_def]
  rfl

theorem plainGlob_mark : plainGlob (63 :: pattern) candidate =
    if candidate = [] then .ok false else plainGlob pattern candidate.tail := by
  rw [plainGlob.eq_def]
  rfl

theorem plainGlob_escape : plainGlob (92 :: literal :: pattern) candidate =
    if candidate.head? = some literal then plainGlob pattern candidate.tail else .ok false := by
  rw [plainGlob.eq_def]
  rfl

theorem plainGlob_incomplete : plainGlob [92] candidate =
    Result.bail "OpenSSH Include glob ends with an incomplete escape" := by
  rw [plainGlob.eq_def]
  rfl

theorem plainGlob_byte (hstar : head ≠ 42) (hmark : head ≠ 63) (hescape : head ≠ 92) :
    plainGlob (head :: pattern) candidate =
      if candidate.head? = some head then plainGlob pattern candidate.tail else .ok false := by
  rw [plainGlob.eq_def]
  dsimp only
  rw [if_neg hstar, if_neg hmark, if_neg hescape]

end

/-! ## The table changes nothing -/

section

variable {pattern candidate : List UInt8} {patternIndex candidateIndex : Nat}
  {memo : Table (Nat × Nat) Bool}

/-- The plain search in the rests from two indices on. -/
def restGlob (pattern candidate : List UInt8) (place : Nat × Nat) : Result Bool :=
  plainGlob (pattern.drop place.1) (candidate.drop place.2)

theorem restGlob_head (hpattern : patternIndex < pattern.length) :
    restGlob pattern candidate (patternIndex, candidateIndex) =
      plainGlob (pattern[patternIndex] :: pattern.drop (patternIndex + 1))
        (candidate.drop candidateIndex) := by
  rw [restGlob, drop_eq_getElem_cons hpattern]

theorem drop_skipStars : pattern.drop (skipStars pattern patternIndex) =
    (pattern.drop patternIndex).dropWhile (· == 42) := by
  rw [skipStars, ← drop_drop]
  generalize pattern.drop patternIndex = rest
  conv =>
    lhs
    arg 2
    rw [← takeWhile_append_dropWhile (p := (· == (42 : UInt8))) (l := rest)]
  rw [drop_left]

/-- A search from one place after the other passes the test on one rest after the other. -/
theorem computes_anyPlaceOk {answer : Nat × Nat → Result Bool} {test : List UInt8 → Result Bool}
    {search : Nat → Table (Nat × Nat) Bool → Result (Bool × Table (Nat × Nat) Bool)}
    (hsearch : ∀ place ≤ candidate.length, ∀ memo : Table (Nat × Nat) Bool, memo.Sound answer →
      Computes answer (test (candidate.drop place)) (search place memo))
    (hle : candidateIndex ≤ candidate.length) (hsound : memo.Sound answer) :
    Computes answer (anyRest test (candidate.drop candidateIndex))
      (anyPlaceOk search (List.range' candidateIndex (candidate.length + 1 - candidateIndex))
        memo) := by
  obtain ⟨k, hk⟩ := Nat.exists_eq_add_of_le hle
  rw [hk, Nat.add_assoc, Nat.add_sub_cancel_left]
  induction k generalizing candidateIndex memo with
  | zero =>
      have hnil : candidate.drop candidateIndex = [] := drop_eq_nil_of_le (Nat.le_of_eq hk)
      have hfirst := hsearch candidateIndex hle memo hsound
      rw [hnil] at hfirst ⊢
      have hlast := hfirst.bind (f := .ok) (g := fun found ↦
          if found.1 then .ok (true, found.2) else anyPlaceOk search [] found.2) ?_
      · rwa [show (test [] >>= Except.ok) = test [] from bind_pure _] at hlast
      · intro result memo _ hsound
        cases result <;> exact .pure hsound
  | succ k ih =>
      have hlt : candidateIndex < candidate.length := by omega
      have hfirst := hsearch candidateIndex hle memo hsound
      rw [drop_eq_getElem_cons hlt] at hfirst ⊢
      refine hfirst.bind fun result memo _ hsound ↦ ?_
      cases result
      · exact ih hlt hsound (by omega)
      · exact .pure hsound

/-- The search keeps right answers only, and gives what the plain one does. -/
theorem computes_innerGlob (hle : candidateIndex ≤ candidate.length)
    (hsound : memo.Sound (restGlob pattern candidate)) :
    Computes (restGlob pattern candidate)
      (restGlob pattern candidate (patternIndex, candidateIndex))
      (innerGlob pattern candidate patternIndex candidateIndex memo) := by
  have hhead : ∀ {i}, (candidate.drop i).head? = candidate[i]? := List.head?_drop
  fun_induction innerGlob pattern candidate patternIndex candidateIndex memo with
  | case1 patternIndex candidateIndex memo result hknown => exact .lookup hsound hknown
  | case2 patternIndex candidateIndex memo hnew hpattern keep hstar hend =>
      apply Computes.keep
      rw [restGlob_head hpattern, hstar, plainGlob_star, ← drop_skipStars,
        if_pos (drop_eq_nil_of_le hend)]
      exact .pure hsound
  | case3 patternIndex candidateIndex memo hnew hpattern keep hstar hend ih =>
      apply Computes.keep
      rw [restGlob_head hpattern, hstar, plainGlob_star, ← drop_skipStars,
        if_neg (mt drop_eq_nil_iff.mp hend)]
      exact computes_anyPlaceOk (fun place hplace memo ↦ ih place memo hplace) hle hsound
  | case4 patternIndex candidateIndex memo hnew hpattern keep hstar hmark hcandidate ih =>
      apply Computes.keep
      rw [restGlob_head hpattern, hmark, plainGlob_mark,
        if_neg (mt drop_eq_nil_iff.mp (Nat.not_le.mpr hcandidate)), tail_drop]
      exact ih hcandidate hsound
  | case5 patternIndex candidateIndex memo hnew hpattern keep hstar hmark hcandidate =>
      apply Computes.keep
      rw [restGlob_head hpattern, hmark, plainGlob_mark,
        if_pos (drop_eq_nil_of_le (Nat.le_of_not_lt hcandidate))]
      exact .pure hsound
  | case6 patternIndex candidateIndex memo hnew hpattern keep hstar hmark hescape hliteral hbyte
      ih =>
      apply Computes.keep
      rw [restGlob_head hpattern, hescape, drop_eq_getElem_cons hliteral, plainGlob_escape,
        hhead, if_pos hbyte, tail_drop]
      exact ih (List.getElem?_eq_some_iff.mp hbyte).1 hsound
  | case7 patternIndex candidateIndex memo hnew hpattern keep hstar hmark hescape hliteral hbyte =>
      apply Computes.keep
      rw [restGlob_head hpattern, hescape, drop_eq_getElem_cons hliteral, plainGlob_escape,
        hhead, if_neg hbyte]
      exact .pure hsound
  | case8 patternIndex candidateIndex memo hnew hpattern keep hstar hmark hescape hliteral =>
      apply Computes.keep
      rw [restGlob_head hpattern, hescape, drop_eq_nil_of_le (Nat.le_of_not_lt hliteral),
        plainGlob_incomplete]
      exact .error
  | case9 patternIndex candidateIndex memo hnew hpattern keep hstar hmark hescape hbyte ih =>
      apply Computes.keep
      rw [restGlob_head hpattern, plainGlob_byte hstar hmark hescape, hhead, if_pos hbyte,
        tail_drop]
      exact ih (List.getElem?_eq_some_iff.mp hbyte).1 hsound
  | case10 patternIndex candidateIndex memo hnew hpattern keep hstar hmark hescape hbyte =>
      apply Computes.keep
      rw [restGlob_head hpattern, plainGlob_byte hstar hmark hescape, hhead, if_neg hbyte]
      exact .pure hsound
  | case11 patternIndex candidateIndex memo hnew hpattern =>
      rw [restGlob, drop_eq_nil_of_le (Nat.le_of_not_lt hpattern), plainGlob]
      have hend : (candidate.drop candidateIndex).isEmpty =
          decide (candidate.length ≤ candidateIndex) := by
        rw [Bool.eq_iff_iff, List.isEmpty_iff, List.drop_eq_nil_iff, decide_eq_true_iff]
      rw [hend]
      exact .pure hsound

theorem globMatch_eq_plainGlob : globMatch pattern candidate = plainGlob pattern candidate :=
  (computes_innerGlob (Nat.zero_le _) Memoised.Table.right_empty).result

end

/-! ## The language of a pattern -/

section

variable {pattern candidate : List UInt8} {test : List UInt8 → Result Bool}
  {tokens : List (Token UInt8)}

/-- The tokens of a pattern of bytes. -/
def includeTokens (pattern : List UInt8) : Option (List (Token UInt8)) :=
  globTokens 42 63 92 pattern

/-- The names that a pattern takes, of which there are none if it is not well formed. -/
def InLanguage (pattern candidate : List UInt8) : Prop :=
  ∃ tokens, includeTokens pattern = some tokens ∧ Matches tokens candidate

theorem anyRest_eq_ok {question : List UInt8 → Prop}
    (htest : ∀ text, ∃ result, test text = .ok result ∧ (result = true ↔ question text)) :
    ∃ result, anyRest test candidate = .ok result ∧
      (result = true ↔ ∃ u v, candidate = u ++ v ∧ question v) := by
  induction candidate with
  | nil =>
      obtain ⟨result, hresult, hiff⟩ := htest []
      refine ⟨result, hresult, hiff.trans ?_⟩
      constructor
      · exact fun h ↦ ⟨[], [], rfl, h⟩
      · rintro ⟨u, v, heq, hv⟩
        rwa [← (append_eq_nil_iff.mp heq.symm).2]
  | cons a rest ih =>
      obtain ⟨result, hresult, hiff⟩ := htest (a :: rest)
      obtain ⟨found, hfound, hrest⟩ := ih
      rw [anyRest, hresult]
      cases result with
      | true => exact ⟨true, rfl, iff_of_true rfl ⟨[], _, rfl, hiff.mp rfl⟩⟩
      | false =>
          refine ⟨found, hfound, hrest.trans ?_⟩
          constructor
          · rintro ⟨u, v, rfl, hv⟩
            exact ⟨a :: u, v, rfl, hv⟩
          · rintro ⟨u, v, heq, hv⟩
            cases u with
            | nil => exact absurd (hiff.mpr (heq ▸ hv)) Bool.false_ne_true
            | cons c u => exact ⟨u, v, (List.cons.inj heq).2, hv⟩

theorem anyRest_ne_true (htest : ∀ text, test text ≠ .ok true) :
    anyRest test candidate ≠ .ok true := by
  induction candidate with
  | nil => exact htest []
  | cons a rest ih =>
      intro h
      rw [anyRest] at h
      obtain ⟨result, hresult, h⟩ := Result.bind_eq_ok.mp h
      cases result with
      | true => exact htest _ hresult
      | false => exact ih h

theorem includeTokens_cons {head : UInt8} (hescape : head ≠ 92) :
    includeTokens (head :: pattern) =
      (includeTokens pattern).map (letterToken 42 63 head :: ·) := globTokens_cons hescape

theorem includeTokens_escape {literal : UInt8} : includeTokens (92 :: literal :: pattern) =
    (includeTokens pattern).map (.exactly literal :: ·) := globTokens_escape_cons

theorem includeTokens_stars : includeTokens pattern = none ↔
    includeTokens (pattern.dropWhile (· == 42)) = none := by
  induction pattern with
  | nil => rfl
  | cons b rest ih =>
      by_cases hb : b = 42
      · rw [hb, dropWhile_cons_of_pos (by rfl), ← ih, includeTokens_cons (by decide),
          Option.map_eq_none_iff]
      · rw [dropWhile_cons_of_neg (by simpa using hb)]

/-- Stars in a row take what one of them does. -/
theorem matches_stars (hpattern : includeTokens pattern = some tokens) :
    ∃ rest, includeTokens (pattern.dropWhile (· == 42)) = some rest ∧
      ∀ text, Matches (.many :: tokens) text ↔ Matches (.many :: rest) text := by
  induction pattern generalizing tokens with
  | nil => exact ⟨tokens, hpattern, fun _ ↦ Iff.rfl⟩
  | cons b rest ih =>
      by_cases hb : b = 42
      · subst hb
        rw [includeTokens_cons (by decide)] at hpattern
        obtain ⟨more, hmore, rfl⟩ := Option.map_eq_some_iff.mp hpattern
        obtain ⟨last, hlast, hmatches⟩ := ih hmore
        rw [dropWhile_cons_of_pos (by rfl)]
        exact ⟨last, hlast, fun text ↦ matches_many_many_iff.trans (hmatches text)⟩
      · rw [dropWhile_cons_of_neg (by simpa using hb)]
        exact ⟨tokens, hpattern, fun _ ↦ Iff.rfl⟩

/-- A pattern that is not well formed takes no name. -/
theorem plainGlob_ne_true (hpattern : includeTokens pattern = none) :
    plainGlob pattern candidate ≠ .ok true := by
  fun_induction plainGlob pattern candidate with
  | case1 => cases hpattern
  | case2 candidate pattern hend =>
      rw [includeTokens_cons (by decide), Option.map_eq_none_iff, includeTokens_stars, hend]
        at hpattern
      cases hpattern
  | case3 candidate pattern hend ih =>
      rw [includeTokens_cons (by decide), Option.map_eq_none_iff, includeTokens_stars] at hpattern
      exact anyRest_ne_true fun text ↦ ih text hpattern
  | case4 => nofun
  | case5 candidate pattern hne hstar ih =>
      rw [includeTokens_cons (by decide), Option.map_eq_none_iff] at hpattern
      exact ih hpattern
  | case6 => exact Result.bail_ne_ok _ _
  | case7 candidate literal pattern hliteral hstar hmark ih =>
      rw [includeTokens_escape, Option.map_eq_none_iff] at hpattern
      exact ih hpattern
  | case8 => nofun
  | case9 candidate head pattern hstar hmark hescape hhead ih =>
      rw [includeTokens_cons hescape, Option.map_eq_none_iff] at hpattern
      exact ih hpattern
  | case10 => nofun

theorem matches_exactly_iff {a : UInt8} : Matches (.exactly a :: tokens) candidate ↔
    candidate.head? = some a ∧ Matches tokens candidate.tail := by
  constructor
  · rintro ⟨rest, rfl, hrest⟩
    exact ⟨rfl, hrest⟩
  · rintro ⟨hhead, hrest⟩
    obtain ⟨rest, rfl⟩ := List.head?_eq_some_iff.mp hhead
    exact ⟨rest, rfl, hrest⟩

/-- A well-formed pattern takes the names of its language, and the search does not fail. -/
theorem plainGlob_eq_ok (hpattern : includeTokens pattern = some tokens) :
    ∃ result, plainGlob pattern candidate = .ok result ∧
      (result = true ↔ Matches tokens candidate) := by
  fun_induction plainGlob pattern candidate generalizing tokens with
  | case1 candidate =>
      cases hpattern
      exact ⟨_, rfl, isEmpty_iff⟩
  | case2 candidate pattern hend =>
      rw [includeTokens_cons (by decide)] at hpattern
      obtain ⟨more, hmore, rfl⟩ := Option.map_eq_some_iff.mp hpattern
      obtain ⟨last, hlast, hmatches⟩ := matches_stars hmore
      rw [hend] at hlast
      cases hlast
      exact ⟨true, rfl, iff_of_true rfl ((hmatches _).mpr ⟨_, [], (append_nil _).symm, rfl⟩)⟩
  | case3 candidate pattern hend ih =>
      rw [includeTokens_cons (by decide)] at hpattern
      obtain ⟨more, hmore, rfl⟩ := Option.map_eq_some_iff.mp hpattern
      obtain ⟨last, hlast, hmatches⟩ := matches_stars hmore
      obtain ⟨result, hresult, hiff⟩ := anyRest_eq_ok fun text ↦ ih text hlast
      exact ⟨result, hresult, hiff.trans (hmatches _).symm⟩
  | case4 pattern hstar =>
      rw [includeTokens_cons (by decide)] at hpattern
      obtain ⟨more, hmore, rfl⟩ := Option.map_eq_some_iff.mp hpattern
      exact ⟨false, rfl, iff_of_false nofun (not_matches_cons_nil nofun)⟩
  | case5 candidate pattern hne hstar ih =>
      rw [includeTokens_cons (by decide)] at hpattern
      obtain ⟨more, hmore, rfl⟩ := Option.map_eq_some_iff.mp hpattern
      obtain ⟨result, hresult, hiff⟩ := ih hmore
      refine ⟨result, hresult, hiff.trans ?_⟩
      cases candidate with
      | nil => exact absurd rfl hne
      | cons a rest =>
          have hany : Matches (.any :: more) (a :: rest) ↔ Matches more rest :=
            (matches_cons_cons (x := .any) nofun).trans (and_iff_right trivial)
          exact hany.symm
  | case6 => cases hpattern
  | case7 candidate literal pattern hliteral hstar hmark ih =>
      rw [includeTokens_escape] at hpattern
      obtain ⟨more, hmore, rfl⟩ := Option.map_eq_some_iff.mp hpattern
      obtain ⟨result, hresult, hiff⟩ := ih hmore
      refine ⟨result, hresult, hiff.trans ?_⟩
      rw [matches_exactly_iff, and_iff_right hliteral]
  | case8 candidate literal pattern hliteral hstar hmark =>
      rw [includeTokens_escape] at hpattern
      obtain ⟨more, hmore, rfl⟩ := Option.map_eq_some_iff.mp hpattern
      exact ⟨false, rfl, iff_of_false nofun fun h ↦ hliteral (matches_exactly_iff.mp h).1⟩
  | case9 candidate head pattern hstar hmark hescape hhead ih =>
      rw [includeTokens_cons hescape] at hpattern
      obtain ⟨more, hmore, rfl⟩ := Option.map_eq_some_iff.mp hpattern
      obtain ⟨result, hresult, hiff⟩ := ih hmore
      refine ⟨result, hresult, hiff.trans ?_⟩
      rw [letterToken, if_neg hstar, if_neg hmark, matches_exactly_iff, and_iff_right hhead]
  | case10 candidate head pattern hstar hmark hescape hhead =>
      rw [includeTokens_cons hescape] at hpattern
      obtain ⟨more, hmore, rfl⟩ := Option.map_eq_some_iff.mp hpattern
      refine ⟨false, rfl, iff_of_false nofun fun h ↦ hhead ?_⟩
      rw [letterToken, if_neg hstar, if_neg hmark, matches_exactly_iff] at h
      exact h.1

end

/-- A name is taken exactly if it is in the language of the pattern, the search fails only for a
pattern that ends in an escape, and it is the plain recursion. -/
theorem globMatch_language (pattern candidate : List UInt8) :
    (globMatch pattern candidate = .ok true ↔ InLanguage pattern candidate) ∧
      (∀ error, globMatch pattern candidate = .error error →
        ∃ front, pattern = front ++ [92] ∧ includeTokens front ≠ none) ∧
      globMatch pattern candidate = plainGlob pattern candidate := by
  refine ⟨?_, ?_, globMatch_eq_plainGlob⟩
  · rw [globMatch_eq_plainGlob]
    cases hpattern : includeTokens pattern with
    | none =>
        refine iff_of_false (plainGlob_ne_true hpattern) ?_
        rintro ⟨tokens, htokens, -⟩
        rw [hpattern] at htokens
        cases htokens
    | some tokens =>
        obtain ⟨result, hresult, hiff⟩ := @plainGlob_eq_ok _ candidate _ hpattern
        rw [hresult, Except.ok.injEq, hiff, InLanguage, hpattern]
        simp
  · intro error herror
    apply globTokens_eq_none_iff.mp
    cases hpattern : includeTokens pattern with
    | none => exact hpattern
    | some tokens =>
        obtain ⟨result, hresult, -⟩ := @plainGlob_eq_ok _ candidate _ hpattern
        rw [globMatch_eq_plainGlob, hresult] at herror
        cases herror

/-- A character that is not ASCII is more than one byte, and `?` does not take it. -/
theorem mark_takes_one_byte :
    ¬(globMatch (Text.utf8 "?") (Text.utf8 "é") = .ok true ↔
      ∃ tokens, globTokens '*' '?' '\\' "?".toList = some tokens ∧ Matches tokens "é".toList) := by
  intro h
  have hfound := h.mpr ⟨[.any], rfl, 'é', [], rfl, rfl⟩
  have hpattern : Text.utf8 "?" = [63] := by decide
  have hname : Text.utf8 "é" = [195, 169] := by decide
  rw [hpattern, hname, globMatch_eq_plainGlob, plainGlob_mark, if_neg (cons_ne_nil _ _)]
    at hfound
  rw [plainGlob] at hfound
  cases hfound

end KaduoxSsh.OpenSsh
