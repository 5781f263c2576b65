import KaduoxSsh.Lib.Result
import KaduoxSsh.Lib.Words
import KaduoxSsh.OpenSsh.Match

/-!
# Lists of patterns in a Match line

`match_hostname_pattern_list` of `openssh_match.rs`: the subpatterns of a list are tried from
the first one on, a negated one that matches ends the search, and one that matches otherwise is
remembered.

A list whose subpatterns are all well formed takes a host if one of them does and no negated
one. This does not depend on the order of the subpatterns, nor on how often one stands in the
list.
-/

namespace KaduoxSsh.OpenSsh

open Glob Text Result

def MAX_PATTERN_LIST_BYTES : Nat := 16 * 1024

def MAX_PATTERN_BYTES : Nat := 1023

/-! ## The search -/

/-- Whether a subpattern is negated, and its pattern. -/
def readNegation : List Char → Bool × List Char
  | '!' :: pattern => (true, pattern)
  | pattern => (false, pattern)

/-- Whether the pattern of a subpattern matches a host that is in lower case. -/
def patternTakes (pattern : List Char) (host : List UInt8) : Bool :=
  wildcardMatch (utf8 (toAsciiLowercase (String.ofList pattern))) host

/-- The subpatterns from the first one on, of which one has matched before. -/
def scanPatterns (host : List UInt8) : List (List Char) → Bool → Result Bool
  | [], gotPositive => .ok gotPositive
  | rawPattern :: rest, gotPositive => do
      bailIf (rawPattern = [])
        "Match originalhost pattern-list contains an empty subpattern"
      let (negated, pattern) := readNegation rawPattern
      bailIf (pattern = []) "Match originalhost contains an empty negated subpattern"
      bailIf ((utf8 (String.ofList pattern)).length > MAX_PATTERN_BYTES)
        ("Match originalhost subpattern exceeds the OpenSSH-compatible " ++
          s!"{MAX_PATTERN_BYTES}-byte bound")
      if patternTakes pattern host then
        if negated then .ok false else scanPatterns host rest true
      else scanPatterns host rest gotPositive

def matchHostnamePatternList (host patternList : String) : Result Bool := do
  bailIf (patternList = "") "Match originalhost pattern-list cannot be empty"
  bailIf ((utf8 patternList).length > MAX_PATTERN_LIST_BYTES)
    s!"Match originalhost pattern-list exceeds the {MAX_PATTERN_LIST_BYTES}-byte safety limit"
  scanPatterns (utf8 (toAsciiLowercase host)) (patternList.toList.splitOn ',') false

/-! ## Lists that are well formed -/

/-- A subpattern that is not rejected. -/
def WellFormedPattern (rawPattern : List Char) : Prop :=
  (readNegation rawPattern).2 ≠ [] ∧
    (utf8 (String.ofList (readNegation rawPattern).2)).length ≤ MAX_PATTERN_BYTES

/-- A list of subpatterns that are not rejected. -/
structure PatternList where
  text : String
  bounded : (utf8 text).length ≤ MAX_PATTERN_LIST_BYTES
  wellFormed : ∀ rawPattern ∈ text.toList.splitOn ',', WellFormedPattern rawPattern

def Negated (rawPattern : List Char) : Prop := (readNegation rawPattern).1 = true

/-- Whether a host is in the language of a subpattern, both without regard to case. -/
@[irreducible] def Takes (rawPattern : List Char) (host : String) : Prop :=
  Matches (tokens (utf8 (toAsciiLowercase (String.ofList (readNegation rawPattern).2))))
    (utf8 (toAsciiLowercase host))

namespace PatternList

def subpatterns (list : PatternList) : List (List Char) := list.text.toList.splitOn ','

/-- Whether a list takes a host. -/
def Takes (list : PatternList) (host : String) : Prop :=
  (∃ rawPattern ∈ list.subpatterns, ¬Negated rawPattern ∧ OpenSsh.Takes rawPattern host) ∧
    ∀ rawPattern ∈ list.subpatterns, Negated rawPattern → ¬OpenSsh.Takes rawPattern host

end PatternList

/-! ## The search is exact -/

section

variable {host : String} {rawPatterns rest : List (List Char)} {raw : List Char}
  {target : List UInt8} {gotPositive : Bool}

/-- What is done with a subpattern that is not rejected. -/
theorem scanPatterns_cons (hwell : WellFormedPattern raw) :
    scanPatterns target (raw :: rest) gotPositive =
      if patternTakes (readNegation raw).2 target then
        if (readNegation raw).1 then .ok false else scanPatterns target rest true
      else scanPatterns target rest gotPositive := by
  obtain ⟨hne, hbounded⟩ := hwell
  have hraw : raw ≠ [] := by
    rintro rfl
    exact hne rfl
  rw [scanPatterns, bailIf_of_not hraw, bind_ok]
  dsimp only
  rw [bailIf_of_not hne, bind_ok,
    bailIf_of_not (Nat.not_lt.mpr hbounded), bind_ok]

theorem patternTakes_iff :
    patternTakes (readNegation raw).2 (utf8 (toAsciiLowercase host)) = true ↔ Takes raw host := by
  rw [Takes]
  exact wildcardMatch_iff

/-- The search finds whether a subpattern takes the host and no negated one does. -/
theorem scanPatterns_eq_ok
    (hwell : ∀ rawPattern ∈ rawPatterns, WellFormedPattern rawPattern) :
    ∃ result, scanPatterns (utf8 (toAsciiLowercase host)) rawPatterns gotPositive = .ok result ∧
      (result = true ↔
        (gotPositive = true ∨ ∃ raw ∈ rawPatterns, ¬Negated raw ∧ Takes raw host) ∧
          ∀ raw ∈ rawPatterns, Negated raw → ¬Takes raw host) := by
  induction rawPatterns generalizing gotPositive with
  | nil => exact ⟨gotPositive, rfl, by simp⟩
  | cons raw rest ih =>
      obtain ⟨hraw, hrest⟩ := List.forall_mem_cons.mp hwell
      rw [scanPatterns_cons hraw]
      simp only [List.exists_mem_cons_iff, List.forall_mem_cons]
      by_cases htakes : Takes raw host
      · have hfound := patternTakes_iff.mpr htakes
        by_cases hnegated : Negated raw
        · have hmark : (readNegation raw).1 = true := hnegated
          simp only [hfound, hmark, if_true]
          exact ⟨false, rfl, iff_of_false Bool.false_ne_true fun h ↦ h.2.1 hnegated htakes⟩
        · have hmark : ¬(readNegation raw).1 = true := hnegated
          simp only [hfound, hmark, if_true]
          obtain ⟨result, hresult, hiff⟩ := @ih true hrest
          refine ⟨result, hresult, hiff.trans ?_⟩
          simp [hnegated, htakes]
      · have hmissed := mt patternTakes_iff.mp htakes
        simp only [hmissed]
        obtain ⟨result, hresult, hiff⟩ := @ih gotPositive hrest
        refine ⟨result, hresult, hiff.trans ?_⟩
        simp [htakes]

/-- A list takes a host if the search says so, and the search does not fail. -/
theorem matchHostnamePatternList_eq_ok (list : PatternList) (host : String) :
    ∃ result, matchHostnamePatternList host list.text = .ok result ∧
      (result = true ↔ list.Takes host) := by
  obtain ⟨result, hresult, hiff⟩ :=
    @scanPatterns_eq_ok host _ false list.wellFormed
  have hne : list.text ≠ "" := by
    intro hempty
    have hwell := list.wellFormed []
    rw [hempty] at hwell
    exact (hwell List.mem_cons_self).1 rfl
  refine ⟨result, ?_, hiff.trans ?_⟩
  · rw [matchHostnamePatternList, bailIf_of_not hne, bind_ok,
      bailIf_of_not (Nat.not_lt.mpr list.bounded), bind_ok, hresult]
  · rw [Bool.false_eq_true, false_or]
    rfl

/-- Lists that have the same subpatterns take the same hosts. -/
theorem PatternList.takes_congr {list other : PatternList}
    (hsame : ∀ raw, raw ∈ other.subpatterns ↔ raw ∈ list.subpatterns) :
    other.Takes host ↔ list.Takes host := by
  unfold PatternList.Takes
  simp only [hsame]

/-- Negated subpatterns that are added take no further host. -/
theorem PatternList.takes_of_add {list other : PatternList}
    (hkept : list.subpatterns ⊆ other.subpatterns)
    (hadded : ∀ raw ∈ other.subpatterns, raw ∈ list.subpatterns ∨ Negated raw)
    (htakes : other.Takes host) : list.Takes host := by
  obtain ⟨⟨raw, hmem, hplain, hraw⟩, hnone⟩ := htakes
  refine ⟨⟨raw, ?_, hplain, hraw⟩, fun raw hmem ↦ hnone raw (hkept hmem)⟩
  exact (hadded raw hmem).resolve_right hplain

end

/-- All subpatterns of a list that is matched have been read, and none was rejected. -/
theorem wellFormed_of_scanPatterns {target : List UInt8} {rawPatterns : List (List Char)}
    {gotPositive : Bool} (h : scanPatterns target rawPatterns gotPositive = .ok true) :
    ∀ rawPattern ∈ rawPatterns, WellFormedPattern rawPattern := by
  induction rawPatterns generalizing gotPositive with
  | nil => exact List.forall_mem_nil _
  | cons raw rest ih =>
      have hread := h
      rw [scanPatterns] at hread
      obtain ⟨-, hread⟩ := check_bind_eq_ok.mp hread
      obtain ⟨hne, hread⟩ := check_bind_eq_ok.mp hread
      obtain ⟨hbounded, -⟩ := check_bind_eq_ok.mp hread
      have hraw : WellFormedPattern raw :=
        ⟨bailIf_eq_ok.mp hne, Nat.not_lt.mp (bailIf_eq_ok.mp hbounded)⟩
      rw [scanPatterns_cons hraw] at h
      refine List.forall_mem_cons.mpr ⟨hraw, ?_⟩
      split_ifs at h
      · cases h
      · exact ih h
      · exact ih h

theorem PatternList.of_match {host text : String}
    (h : matchHostnamePatternList host text = .ok true) :
    ∃ list : PatternList, list.text = text := by
  rw [matchHostnamePatternList] at h
  obtain ⟨-, h⟩ := check_bind_eq_ok.mp h
  obtain ⟨hbounded, h⟩ := check_bind_eq_ok.mp h
  have hbounded := Nat.not_lt.mp (bailIf_eq_ok.mp hbounded)
  exact ⟨⟨text, hbounded, wellFormed_of_scanPatterns h⟩, rfl⟩

/-- A well-formed list of subpatterns is matched if one of them takes the host and no negated one
does, so that only the set of them counts, and a negated one that is added takes no further
host. -/
theorem matchHostnamePatternList_exact (list : PatternList) (host : String) :
    (∃ result, matchHostnamePatternList host list.text = .ok result ∧
      (result = true ↔ list.Takes host)) ∧
    (∀ other : PatternList, (∀ raw, raw ∈ other.subpatterns ↔ raw ∈ list.subpatterns) →
      matchHostnamePatternList host other.text = matchHostnamePatternList host list.text) ∧
    ∀ other : PatternList, list.subpatterns ⊆ other.subpatterns →
      (∀ raw ∈ other.subpatterns, raw ∈ list.subpatterns ∨ Negated raw) →
      matchHostnamePatternList host list.text = .ok false →
      matchHostnamePatternList host other.text = .ok false := by
  obtain ⟨result, hresult, hiff⟩ := matchHostnamePatternList_eq_ok list host
  refine ⟨⟨result, hresult, hiff⟩, fun other hsame ↦ ?_, fun other hkept hadded hfalse ↦ ?_⟩
  · obtain ⟨result', hresult', hiff'⟩ := matchHostnamePatternList_eq_ok other host
    rw [hresult, hresult', Except.ok.injEq, Bool.eq_iff_iff, hiff, hiff']
    exact PatternList.takes_congr hsame
  · obtain ⟨result', hresult', hiff'⟩ := matchHostnamePatternList_eq_ok other host
    rw [hresult, Except.ok.injEq] at hfalse
    rw [hresult', Except.ok.injEq, ← Bool.not_eq_true, hiff']
    rw [← Bool.not_eq_true, hiff] at hfalse
    exact mt (PatternList.takes_of_add hkept hadded) hfalse

/-- A list with a negated subpattern, which takes one host and not another. -/
theorem matchHostnamePatternList_exact_web : ∃ list : PatternList,
    list.text = "!db.*,*.example" ∧ list.Takes "web.example" ∧ ¬list.Takes "db.example" := by
  have hweb : matchHostnamePatternList "web.example" "!db.*,*.example" = .ok true := by
    decide +kernel
  have hdb : matchHostnamePatternList "db.example" "!db.*,*.example" = .ok false := by
    decide +kernel
  obtain ⟨list, htext⟩ := PatternList.of_match hweb
  obtain ⟨result, hresult, htakes⟩ := (matchHostnamePatternList_exact list "web.example").1
  obtain ⟨result', hresult', htakes'⟩ := (matchHostnamePatternList_exact list "db.example").1
  rw [htext] at hresult hresult'
  cases hweb.symm.trans hresult
  cases hdb.symm.trans hresult'
  exact ⟨list, htext, htakes.mp rfl, fun h ↦ Bool.noConfusion (htakes'.mpr h)⟩

end KaduoxSsh.OpenSsh
