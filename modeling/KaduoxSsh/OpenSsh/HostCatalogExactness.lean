import KaduoxSsh.OpenSsh.HostCatalog

/-!
# Which names the catalog has

What a directive is and what its arguments are, said without the reader. An argument
is what stands between blanks, or all that stands between two double quotes. The
reader cuts at blanks before it looks at quotes, so it agrees with this where quoted
arguments have no blanks in them, and the quotes at the ends of an argument are no part
of it.
-/

namespace KaduoxSsh.OpenSsh

open Text List
open Hosts.Toml (lines)

/-! ## Directives -/

/-- What may stand between a key and its arguments. -/
inductive Gap : List Char → List Char → Prop
  | blanks {gap arguments} (hgap : ∀ c ∈ gap, isWhitespace c = true)
      (harguments : ∀ c ∈ arguments.head?, isWhitespace c = false ∧ c ≠ '=') : Gap gap arguments
  | equals {front back arguments} (hfront : ∀ c ∈ front, isWhitespace c = true)
      (hback : ∀ c ∈ back, isWhitespace c = true)
      (harguments : ∀ c ∈ arguments.head?, isWhitespace c = false) :
      Gap (front ++ '=' :: back) arguments

/-- A line is a directive with a key, in any case, and with arguments. -/
def Directive (name : String) (line arguments : List Char) : Prop :=
  ∃ blank key gap, line = blank ++ (key ++ (gap ++ arguments)) ∧
    (∀ c ∈ blank, isWhitespace c = true) ∧ eqIgnoreAsciiCase (String.ofList key) name = true ∧
    (∀ c ∈ (gap ++ arguments).head?, isKeyEnd c = true) ∧ Gap gap arguments

section

variable {line key arguments : List Char} {name : String} {c : Char} {p : Char → Bool}

theorem isWhitespace_of_isAsciiWhitespace (h : isAsciiWhitespace c = true) :
    isWhitespace c = true := by
  have hall : ∀ c ∈ [' ', '\t', '\n', '\x0c', '\r'], isWhitespace c = true := by decide
  exact hall c (of_decide_eq_true h)

theorem dropWhile_append_of {front back : List Char} (hfront : ∀ c ∈ front, p c = true)
    (hback : ∀ c ∈ back.head?, p c = false) : (front ++ back).dropWhile p = back := by
  rw [dropWhile_append_of_pos hfront]
  cases back with
  | nil => rfl
  | cons c rest => exact dropWhile_cons_of_neg (by rw [hback c rfl]; decide)

theorem takeWhile_append_of {front back : List Char} (hfront : ∀ c ∈ front, p c = true)
    (hback : ∀ c ∈ back.head?, p c = false) : (front ++ back).takeWhile p = front := by
  rw [takeWhile_append_of_pos hfront]
  cases back with
  | nil => exact append_nil front
  | cons c rest => rw [takeWhile_cons_of_neg (by rw [hback c rfl]; decide), append_nil]

theorem head_dropWhile {l : List Char} : ∀ c ∈ (l.dropWhile p).head?, p c = false := by
  intro c hc
  have := List.head?_dropWhile_not p l
  rw [hc] at this
  simpa using this

/-- A key that is a name in small letters, in any case, has nothing but letters. -/
theorem letter_of_eqIgnoreAsciiCase (hname : ∀ c ∈ name.toList, 97 ≤ c.toNat ∧ c.toNat ≤ 122)
    (hkey : eqIgnoreAsciiCase (String.ofList key) name = true) (hc : c ∈ key) :
    isWhitespace c = false ∧ isKeyEnd c = false ∧ c ≠ '#' := by
  have hlower : key.map Char.toLower = name.toList.map Char.toLower := by
    have heq := congrArg String.toList (eq_of_beq hkey)
    rwa [toAsciiLowercase, toAsciiLowercase, String.toList_ofList, String.toList_ofList,
      String.toList_ofList] at heq
  obtain ⟨d, hd, hdc⟩ := mem_map.mp (hlower ▸ mem_map_of_mem hc)
  have hletter := hname d hd
  have hbounds : 65 ≤ c.toNat ∧ c.toNat ≤ 122 := by
    have hsmall : d.toLower = d := by
      rcases toLower_eq_or d with h | h
      · exact h
      · omega
    rw [hsmall] at hdc
    rcases toLower_eq_or c with h | h
    · rw [← h, ← hdc]
      omega
    · rw [← hdc] at h
      omega
  have hwhite : isWhitespace c = false := isWhitespace_of_visible (by omega) (by omega)
  have hne (e : Char) (he : e.toNat < 65) : c ≠ e := by
    rintro rfl
    omega
  refine ⟨hwhite, ?_, hne '#' (by decide)⟩
  rw [isKeyEnd, Bool.or_eq_false_iff]
  refine ⟨?_, beq_eq_false_iff_ne.mpr (hne '=' (by decide))⟩
  by_contra hascii
  rw [Bool.not_eq_false] at hascii
  rw [isWhitespace_of_isAsciiWhitespace hascii] at hwhite
  cases hwhite

/-- The reader finds what may stand between a key and its arguments. -/
theorem argumentsOf_iff {separated : List Char} :
    argumentsOf separated = arguments ↔
      ∃ gap, separated = gap ++ arguments ∧ Gap gap arguments := by
  constructor
  · rintro rfl
    have hsplit := takeWhile_append_dropWhile (p := isWhitespace) (l := separated)
    have hblank (l : List Char) : ∀ c ∈ l.takeWhile isWhitespace, isWhitespace c = true :=
      fun c hc ↦ mem_takeWhile_imp hc
    rw [argumentsOf]
    split
    · next rest hrest =>
      refine ⟨separated.takeWhile isWhitespace ++ '=' :: rest.takeWhile isWhitespace, ?_,
        .equals (hblank _) (hblank _) head_dropWhile⟩
      rw [append_assoc, cons_append, takeWhile_append_dropWhile, ← hrest, hsplit]
    · next hnone =>
      refine ⟨_, hsplit.symm, .blanks (hblank _) fun c hc ↦ ⟨head_dropWhile c hc, ?_⟩⟩
      rintro rfl
      obtain ⟨rest, hrest⟩ := List.head?_eq_some_iff.mp hc
      exact hnone rest hrest
  · rintro ⟨gap, rfl, hgap⟩
    rw [argumentsOf]
    cases hgap with
    | blanks hgap harguments =>
        rw [dropWhile_append_of hgap fun c hc ↦ (harguments c hc).1]
        split
        · exact absurd rfl (harguments '=' rfl).2
        · rfl
    | equals hfront hback harguments =>
        rw [append_assoc, cons_append,
          dropWhile_append_of hfront fun c hc ↦ by rw [← Option.some.inj hc]; decide]
        exact dropWhile_append_of hback harguments

/-- A line that is empty or a comment has no parts, and any other has these. -/
theorem directiveParts_eq_some_iff :
    directiveParts line = some (key, arguments) ↔
      line.dropWhile isWhitespace ≠ [] ∧ (line.dropWhile isWhitespace).head? ≠ some '#' ∧
        (line.dropWhile isWhitespace).takeWhile (fun c ↦ !isKeyEnd c) = key ∧
        argumentsOf ((line.dropWhile isWhitespace).dropWhile fun c ↦ !isKeyEnd c) = arguments := by
  rw [directiveParts]
  generalize line.dropWhile isWhitespace = l
  by_cases hskip : l = [] ∨ l.head? = some '#'
  · rw [if_pos hskip]
    exact iff_of_false nofun fun h ↦ hskip.elim h.1 h.2.1
  · rw [if_neg hskip]
    obtain ⟨hempty, hcomment⟩ := not_or.mp hskip
    have hsplit := takeWhile_append_dropWhile (p := fun c ↦ !isKeyEnd c) (l := l)
    cases hrest : l.dropWhile fun c ↦ !isKeyEnd c with
    | nil =>
        rw [hrest, append_nil] at hsplit
        dsimp only
        rw [hsplit, Option.some_inj, Prod.mk_inj]
        exact ⟨fun h ↦ ⟨hempty, hcomment, h⟩, fun h ↦ h.2.2⟩
    | cons c rest =>
        dsimp only
        rw [Option.some_inj, Prod.mk_inj]
        exact ⟨fun h ↦ ⟨hempty, hcomment, h⟩, fun h ↦ h.2.2⟩

/-- The reader finds the directives. -/
theorem directiveParts_iff (hne : name ≠ "")
    (hname : ∀ c ∈ name.toList, 97 ≤ c.toNat ∧ c.toNat ≤ 122) :
    (∃ key, directiveParts line = some (key, arguments) ∧
      eqIgnoreAsciiCase (String.ofList key) name = true) ↔ Directive name line arguments := by
  constructor
  · rintro ⟨key, hparts, hkey⟩
    obtain ⟨-, -, hword, hrest⟩ := directiveParts_eq_some_iff.mp hparts
    obtain ⟨gap, hgap, hbetween⟩ := argumentsOf_iff.mp hrest
    refine ⟨line.takeWhile isWhitespace, key, gap, ?_, fun c hc ↦ mem_takeWhile_imp hc, hkey,
      ?_, hbetween⟩
    · rw [← hgap, ← hword, takeWhile_append_dropWhile, takeWhile_append_dropWhile]
    · intro c hc
      rw [← hgap] at hc
      simpa using head_dropWhile c hc
  · rintro ⟨blank, key, gap, rfl, hblank, hkey, hend, hgap⟩
    have hletter (c : Char) (hc : c ∈ key) := letter_of_eqIgnoreAsciiCase hname hkey hc
    have hkeyne : key ≠ [] := by
      rintro rfl
      have hempty := congrArg String.toList (eq_of_beq hkey)
      rw [toAsciiLowercase, toAsciiLowercase, String.toList_ofList, String.toList_ofList,
        String.toList_ofList] at hempty
      exact hne (String.toList_eq_nil_iff.mp (map_eq_nil_iff.mp hempty.symm))
    obtain ⟨first, rest, hfirst⟩ := exists_cons_of_ne_nil hkeyne
    have hline : (blank ++ (key ++ (gap ++ arguments))).dropWhile isWhitespace =
        key ++ (gap ++ arguments) := by
      apply dropWhile_append_of hblank
      intro c hc
      rw [hfirst] at hc
      cases hc
      exact (hletter first (hfirst ▸ mem_cons_self)).1
    refine ⟨key, directiveParts_eq_some_iff.mpr ?_, hkey⟩
    rw [hline]
    refine ⟨?_, ?_, ?_, ?_⟩
    · rw [hfirst]
      exact cons_ne_nil _ _
    · rw [hfirst]
      intro h
      cases h
      exact (hletter '#' (hfirst ▸ mem_cons_self)).2.2 rfl
    · exact takeWhile_append_of (fun c hc ↦ by rw [(hletter c hc).2.1]; rfl) fun c hc ↦ by
        rw [hend c hc]; rfl
    · rw [dropWhile_append_of (fun c hc ↦ by rw [(hletter c hc).2.1]; rfl) fun c hc ↦ by
        rw [hend c hc]; rfl]
      exact argumentsOf_iff.mpr ⟨gap, rfl, hgap⟩

end

/-! ## Arguments -/

/-- Where the reader of arguments is: between two arguments, in one, or in a quoted one. -/
inductive Reading where
  | between
  | word (text : List Char)
  | quoted (text : List Char)

/-- The arguments of a line: what stands between blanks or between two double quotes, up to a `#`
outside of quotes. -/
def argumentsFrom : Reading → List Char → List (List Char)
  | .between, [] => []
  | .word text, [] => [text]
  | .quoted text, [] => [text]
  | .between, c :: rest =>
      if isAsciiWhitespace c then argumentsFrom .between rest
      else if c = '#' then []
      else if c = '"' then argumentsFrom (.quoted []) rest
      else argumentsFrom (.word [c]) rest
  | .word text, c :: rest =>
      if isAsciiWhitespace c then text :: argumentsFrom .between rest
      else if c = '#' then [text]
      else argumentsFrom (.word (text ++ [c])) rest
  | .quoted text, c :: rest =>
      if c = '"' then text :: argumentsFrom .between rest
      else argumentsFrom (.quoted (text ++ [c])) rest

/-- In front of the first `#` each word that starts with a double quote ends with the next one. -/
def WholeQuotes (arguments : List Char) : Prop :=
  ∀ word ∈ splitAsciiWhitespace (arguments.takeWhile fun c ↦ c ≠ '#'),
    word.head? ≠ some '"' ∨ ∃ text, word = '"' :: text ++ ['"'] ∧ '"' ∉ text

section

variable {l word rest : List Char} {c : Char}

/-- A text of arguments is made of blanks, words, and a comment at the end. -/
theorem arguments_induction {P : List Char → Prop} (nil : P [])
    (blank : ∀ c l, isAsciiWhitespace c = true → P l → P (c :: l)) (comment : ∀ l, P ('#' :: l))
    (word : ∀ w l, w ≠ [] → (∀ c ∈ w, isAsciiWhitespace c = false ∧ c ≠ '#') →
      (∀ c ∈ l.head?, isAsciiWhitespace c = true ∨ c = '#') → P l → P (w ++ l)) (l : List Char) :
    P l := by
  generalize hn : l.length = n
  induction n using Nat.strongRecOn generalizing l with
  | _ n ih =>
      cases l with
      | nil => exact nil
      | cons c rest =>
          by_cases hblank : isAsciiWhitespace c = true
          · exact blank c rest hblank (ih rest.length (hn ▸ Nat.lt_succ_self _) rest rfl)
          by_cases hcomment : c = '#'
          · exact hcomment ▸ comment rest
          let inWord (c : Char) : Bool := !isAsciiWhitespace c && c ≠ '#'
          have hc : inWord c = true := by simp [inWord, hblank, hcomment]
          have hsplit := takeWhile_append_dropWhile (p := inWord) (l := c :: rest)
          rw [takeWhile_cons_of_pos hc, dropWhile_cons_of_pos hc] at hsplit
          rw [← hsplit]
          apply word
          · exact cons_ne_nil _ _
          · intro d hd
            have hin : inWord d = true := by
              rcases mem_cons.mp hd with rfl | hd
              · exact hc
              · exact mem_takeWhile_imp hd
            simpa [inWord] using hin
          · intro d hd
            have hout := head_dropWhile d hd
            simp only [inWord, Bool.and_eq_false_iff, Bool.not_eq_false', decide_eq_false_iff_not,
              not_not] at hout
            exact hout
          · refine ih _ ?_ _ rfl
            rw [← hn]
            exact Nat.lt_succ_of_le (dropWhile_sublist _).length_le

theorem splitAsciiWhitespace_cons (hc : isAsciiWhitespace c = true) :
    splitAsciiWhitespace (c :: l) = splitAsciiWhitespace l := by
  have hsplit := splitOnP_append_cons [] l hc
  rw [nil_append] at hsplit
  rw [splitAsciiWhitespace, hsplit]
  rfl

theorem splitAsciiWhitespace_append (hne : word ≠ [])
    (hword : ∀ c ∈ word, isAsciiWhitespace c = false)
    (hrest : ∀ c ∈ rest.head?, isAsciiWhitespace c = true) :
    splitAsciiWhitespace (word ++ rest) = word :: splitAsciiWhitespace rest := by
  have hkeep (words : List (List Char)) :
      (word :: words).filter (fun w ↦ w ≠ []) = word :: words.filter fun w ↦ w ≠ [] :=
    filter_cons_of_pos (by simpa using hne)
  cases rest with
  | nil =>
      rw [splitAsciiWhitespace, append_nil, splitOnP_eq_singleton hword, hkeep]
      rfl
  | cons c rest =>
      rw [splitAsciiWhitespace_cons (hrest c rfl), splitAsciiWhitespace,
        splitOnP_append_cons_of_forall_mem hword c (hrest c rfl), hkeep]
      rfl

/-- A word goes on up to the next blank. -/
theorem exists_splitAsciiWhitespace_append (hne : word ≠ [])
    (hword : ∀ c ∈ word, isAsciiWhitespace c = false) (l : List Char) :
    ∃ more words, splitAsciiWhitespace (word ++ l) = (word ++ more) :: words ∧ more <+: l := by
  have hsplit := takeWhile_append_dropWhile (p := fun c ↦ !isAsciiWhitespace c) (l := l)
  refine ⟨l.takeWhile fun c ↦ !isAsciiWhitespace c,
    splitAsciiWhitespace (l.dropWhile fun c ↦ !isAsciiWhitespace c), ?_, takeWhile_prefix _⟩
  rw [← splitAsciiWhitespace_append (append_ne_nil_of_left_ne_nil hne _), append_assoc,
    hsplit]
  · intro c hc
    rcases mem_append.mp hc with hc | hc
    · exact hword c hc
    · simpa using mem_takeWhile_imp hc
  · intro c hc
    simpa using head_dropWhile c hc

theorem ne_hash_of_blank (hc : isAsciiWhitespace c = true) : c ≠ '#' := by
  rintro rfl
  exact absurd hc (by decide)

theorem takeWhile_hash_cons (hc : c ≠ '#') :
    (c :: l).takeWhile (fun c ↦ c ≠ '#') = c :: l.takeWhile fun c ↦ c ≠ '#' :=
  takeWhile_cons_of_pos (by simpa using hc)

theorem takeWhile_hash : ('#' :: l).takeWhile (fun c ↦ c ≠ '#') = [] :=
  takeWhile_cons_of_neg (by decide)

theorem takeWhile_hash_append (hword : ∀ c ∈ word, isAsciiWhitespace c = false ∧ c ≠ '#') :
    (word ++ l).takeWhile (fun c ↦ c ≠ '#') = word ++ l.takeWhile fun c ↦ c ≠ '#' :=
  takeWhile_append_of_pos fun c hc ↦ decide_eq_true (hword c hc).2

/-- The words in front of the first `#`, when a word is in front. -/
theorem splitAsciiWhitespace_takeWhile_append (hne : word ≠ [])
    (hword : ∀ c ∈ word, isAsciiWhitespace c = false ∧ c ≠ '#')
    (hrest : ∀ c ∈ rest.head?, isAsciiWhitespace c = true ∨ c = '#') :
    splitAsciiWhitespace ((word ++ rest).takeWhile fun c ↦ c ≠ '#') =
      word :: splitAsciiWhitespace (rest.takeWhile fun c ↦ c ≠ '#') := by
  rw [takeWhile_hash_append hword]
  apply splitAsciiWhitespace_append hne fun c hc ↦ (hword c hc).1
  intro c hc
  cases rest with
  | nil => cases hc
  | cons d rest =>
      rcases hrest d rfl with hd | rfl
      · rw [takeWhile_hash_cons (ne_hash_of_blank hd)] at hc
        rwa [← Option.some.inj hc]
      · rw [takeWhile_hash] at hc
        cases hc

theorem filter_cons_token (token : List Char) (tokens : List (List Char)) :
    (token :: tokens).filter (fun token ↦ token ≠ []) =
      (if token = [] then [] else [token]) ++ tokens.filter fun token ↦ token ≠ [] := by
  by_cases h : token = []
  · rw [if_pos h, filter_cons_of_neg (by simpa using h)]
    rfl
  · rw [if_neg h, filter_cons_of_pos (by simpa using h)]
    rfl

theorem hostTokensFrom_cons (raw : List Char) (words : List (List Char)) :
    hostTokensFrom (raw :: words) =
      (if trimQuotes (raw.takeWhile fun c ↦ c ≠ '#') = [] then []
        else [trimQuotes (raw.takeWhile fun c ↦ c ≠ '#')]) ++
        if '#' ∈ raw then [] else hostTokensFrom words := rfl

/-- The tokens are the words in front of the first `#`, without the quotes at their ends. -/
theorem hostTokens_eq (l : List Char) :
    hostTokens l = ((splitAsciiWhitespace (l.takeWhile fun c ↦ c ≠ '#')).map trimQuotes).filter
      fun token ↦ token ≠ [] := by
  induction l using arguments_induction with
  | nil => rfl
  | blank c l hc ih =>
      rw [takeWhile_hash_cons (ne_hash_of_blank hc), splitAsciiWhitespace_cons hc, ← ih, hostTokens,
        splitAsciiWhitespace_cons hc, hostTokens]
  | comment l =>
      obtain ⟨more, words, hwords, -⟩ :=
        @exists_splitAsciiWhitespace_append ['#'] (by decide) (by decide) l
      rw [singleton_append, singleton_append] at hwords
      rw [hostTokens, hwords, hostTokensFrom_cons, if_pos mem_cons_self, takeWhile_hash,
        takeWhile_hash]
      rfl
  | word w l hne hw hl ih =>
      have hplain : w.takeWhile (fun c ↦ c ≠ '#') = w :=
        takeWhile_eq_self_iff.mpr fun c hc ↦ decide_eq_true (hw c hc).2
      have hnone : '#' ∉ w := fun h ↦ (hw '#' h).2 rfl
      rw [splitAsciiWhitespace_takeWhile_append hne hw hl, map_cons, filter_cons_token, ← ih]
      by_cases hcomment : l.head? = some '#'
      · obtain ⟨l, rfl⟩ := List.head?_eq_some_iff.mp hcomment
        have hword : ∀ c ∈ w ++ ['#'], isAsciiWhitespace c = false := by
          intro c hc
          rcases mem_append.mp hc with hc | hc
          · exact (hw c hc).1
          · rw [mem_singleton.mp hc]
            rfl
        obtain ⟨more, words, hwords, -⟩ :=
          exists_splitAsciiWhitespace_append (append_ne_nil_of_left_ne_nil hne _) hword l
        rw [← append_cons, append_assoc, singleton_append] at hwords
        rw [ih, takeWhile_hash, hostTokens, hwords, hostTokensFrom_cons,
          if_pos (mem_append_right w mem_cons_self), takeWhile_hash_append hw,
          takeWhile_hash, append_nil, append_nil]
        exact (append_nil _).symm
      · have hblank : ∀ c ∈ l.head?, isAsciiWhitespace c = true := by
          intro c hc
          rcases hl c hc with h | rfl
          · exact h
          · exact absurd hc hcomment
        rw [hostTokens, splitAsciiWhitespace_append hne (fun c hc ↦ (hw c hc).1) hblank,
          hostTokensFrom_cons, if_neg hnone, hplain, hostTokens]

/-- A word is read up to the blank or comment behind it. -/
theorem argumentsFrom_word (text : List Char)
    (hword : ∀ c ∈ word, isAsciiWhitespace c = false ∧ c ≠ '#')
    (hrest : ∀ c ∈ rest.head?, isAsciiWhitespace c = true ∨ c = '#') :
    argumentsFrom (.word text) (word ++ rest) = (text ++ word) :: argumentsFrom .between rest := by
  induction word generalizing text with
  | nil =>
      rw [nil_append, append_nil]
      cases rest with
      | nil => rfl
      | cons c rest =>
          by_cases hblank : isAsciiWhitespace c = true
          · rw [argumentsFrom, argumentsFrom, if_pos hblank, if_pos hblank]
          · have hcomment := (hrest c rfl).resolve_left hblank
            rw [argumentsFrom, argumentsFrom, if_neg hblank, if_neg hblank, if_pos hcomment,
              if_pos hcomment]
  | cons c word ih =>
      obtain ⟨⟨hblank, hcomment⟩, hword⟩ := forall_mem_cons.mp hword
      rw [cons_append, argumentsFrom, hblank, if_neg Bool.false_ne_true, if_neg hcomment,
        ih _ hword, append_assoc, singleton_append]

/-- What is quoted is read up to the next double quote. -/
theorem argumentsFrom_quoted (text : List Char) (hword : '"' ∉ word) :
    argumentsFrom (.quoted text) (word ++ '"' :: rest) =
      (text ++ word) :: argumentsFrom .between rest := by
  induction word generalizing text with
  | nil => rw [nil_append, append_nil, argumentsFrom, if_pos rfl]
  | cons c word ih =>
      obtain ⟨hc, hword⟩ := not_or.mp (mt mem_cons.mpr hword)
      rw [cons_append, argumentsFrom, if_neg (Ne.symm hc), ih _ hword, append_assoc,
        singleton_append]

theorem trimQuotes_quoted (text : List Char) :
    trimQuotes ('"' :: text ++ ['"']) = trimQuotes text := by
  have hquote : isQuote '"' = true := rfl
  rw [trimQuotes, trimQuotes, List.cons_append, List.dropWhile_cons_of_pos hquote,
    List.dropWhile_append]
  split
  · next hempty =>
    rw [List.isEmpty_iff.mp hempty, List.dropWhile_cons_of_pos hquote]
    rfl
  · rw [List.reverse_append, List.reverse_singleton, List.singleton_append,
      List.dropWhile_cons_of_pos hquote]

theorem WholeQuotes.of_cons (h : WholeQuotes (c :: l)) (hc : isAsciiWhitespace c = true) :
    WholeQuotes l := by
  intro word hword
  apply h
  rwa [takeWhile_hash_cons (ne_hash_of_blank hc), splitAsciiWhitespace_cons hc]

/-- Where double quotes stand around whole words, the arguments are the words, but for the quotes at
their ends. -/
theorem map_argumentsFrom (h : WholeQuotes l) :
    (argumentsFrom .between l).map trimQuotes =
      (splitAsciiWhitespace (l.takeWhile fun c ↦ c ≠ '#')).map trimQuotes := by
  induction l using arguments_induction with
  | nil => rfl
  | blank c l hc ih =>
      rw [argumentsFrom, if_pos hc, ih (h.of_cons hc), takeWhile_hash_cons (ne_hash_of_blank hc),
        splitAsciiWhitespace_cons hc]
  | comment l =>
      rw [takeWhile_hash, argumentsFrom, if_neg (by decide), if_pos rfl]
      rfl
  | word w l hne hw hl ih =>
      have hwords := splitAsciiWhitespace_takeWhile_append hne hw hl
      have hrest : WholeQuotes l := fun word hword ↦
        h word (hwords ▸ List.mem_cons_of_mem w hword)
      rw [hwords, List.map_cons, ← ih hrest]
      rcases h w (hwords ▸ List.mem_cons_self) with hplain | ⟨text, rfl, htext⟩
      · obtain ⟨c, tail, rfl⟩ := List.exists_cons_of_ne_nil hne
        obtain ⟨⟨hblank, hcomment⟩, htail⟩ := List.forall_mem_cons.mp hw
        have hquote : c ≠ '"' := fun hc ↦ hplain (congrArg some hc)
        rw [cons_append, argumentsFrom, hblank, if_neg Bool.false_ne_true, if_neg hcomment,
          if_neg hquote, argumentsFrom_word _ htail hl, map_cons, singleton_append]
      · rw [append_assoc, cons_append, argumentsFrom, if_neg (by decide),
          if_neg (by decide), if_pos rfl, singleton_append, argumentsFrom_quoted _ htext,
          map_cons, nil_append, trimQuotes_quoted]

end

/-! ## The catalog -/

/-- A name that is no pattern. -/
structure ConcreteAlias (value : List Char) : Prop where
  ne_nil : value ≠ []
  head : value.head? ≠ some '!'
  chars : ∀ c ∈ value, c ∉ ['*', '?', '[', ']'] ∧ isWhitespace c = false ∧ isControl c = false

theorem concreteAlias_iff {value : List Char} :
    concreteAlias value = true ↔ ConcreteAlias value := by
  rw [concreteAlias]
  constructor
  · intro h
    split_ifs at h with hbad
    obtain ⟨hne, hhead⟩ := not_or.mp hbad
    refine ⟨hne, hhead, fun c hc ↦ ?_⟩
    rw [Bool.not_eq_true', any_eq_false] at h
    have hclean := h c hc
    simp only [Bool.or_eq_true, not_or, Bool.not_eq_true] at hclean
    exact ⟨fun hmem ↦ by simp [hmem] at hclean, hclean.1.1, hclean.1.2⟩
  · rintro ⟨hne, hhead, hchars⟩
    rw [if_neg (not_or.mpr ⟨hne, hhead⟩), Bool.not_eq_true', any_eq_false]
    intro c hc
    obtain ⟨hpattern, hwhite, hcontrol⟩ := hchars c hc
    rw [hwhite, hcontrol]
    simpa using hpattern

section

variable {line arguments : List Char} {name : String} {state : SortedMap String Unit × Bool}

/-- The names that are taken from some tokens. -/
theorem mem_keys_insertTokens (tokens : List (List Char)) (aliases : SortedMap String Unit) :
    name ∈ (tokens.foldl
        (fun aliases token ↦
          if concreteAlias token then aliases.insert (String.ofList token) () else aliases)
        aliases).keys ↔
      name ∈ aliases.keys ∨ name.toList ∈ tokens ∧ ConcreteAlias name.toList := by
  rw [← foldl_filter, SortedMap.mem_keys, SortedMap.contains_foldl_insert, SortedMap.mem_keys,
    or_comm, mem_map]
  refine or_congr_right ⟨?_, ?_⟩
  · rintro ⟨token, htoken, rfl⟩
    obtain ⟨hmem, hconcrete⟩ := mem_filter.mp htoken
    rw [String.toList_ofList]
    exact ⟨hmem, concreteAlias_iff.mp hconcrete⟩
  · rintro ⟨hmem, hconcrete⟩
    exact ⟨name.toList, mem_filter.mpr ⟨hmem, concreteAlias_iff.mpr hconcrete⟩,
      String.ofList_toList⟩

theorem directive_host_iff :
    (∃ key, directiveParts line = some (key, arguments) ∧
      eqIgnoreAsciiCase (String.ofList key) "host" = true) ↔ Directive "host" line arguments :=
  directiveParts_iff (by decide) (by decide)

theorem directive_structural_iff :
    (∃ key, directiveParts line = some (key, arguments) ∧
      (eqIgnoreAsciiCase (String.ofList key) "match" ||
        eqIgnoreAsciiCase (String.ofList key) "include") = true) ↔
      Directive "match" line arguments ∨ Directive "include" line arguments := by
  rw [← directiveParts_iff (by decide) (by decide), ← directiveParts_iff (by decide) (by decide),
    ← exists_or]
  simp only [Bool.or_eq_true, and_or_left]

theorem Directive.eq_of_directiveParts {parts : List Char × List Char}
    (h : Directive "host" line arguments) (hparts : directiveParts line = some parts) :
    arguments = parts.2 := by
  obtain ⟨key, heq, -⟩ := directive_host_iff.mpr h
  exact congrArg Prod.snd (Option.some.inj (heq.symm.trans hparts))

/-- What a line adds to the names. -/
theorem mem_keys_hostCatalogLine :
    name ∈ (hostCatalogLine state line).1.keys ↔
      name ∈ state.1.keys ∨ ∃ arguments, Directive "host" line arguments ∧
        name.toList ∈ hostTokens arguments ∧ ConcreteAlias name.toList := by
  simp only [← directive_host_iff]
  rw [hostCatalogLine]
  cases hparts : directiveParts line with
  | none => simp
  | some parts =>
      obtain ⟨key, arguments⟩ := parts
      dsimp only
      have hone : (∃ arguments', (∃ key', some (key, arguments) = some (key', arguments') ∧
            eqIgnoreAsciiCase (String.ofList key') "host" = true) ∧
          name.toList ∈ hostTokens arguments' ∧ ConcreteAlias name.toList) ↔
          eqIgnoreAsciiCase (String.ofList key) "host" = true ∧
            name.toList ∈ hostTokens arguments ∧ ConcreteAlias name.toList := by
        constructor
        · rintro ⟨arguments', ⟨key', heq, hhost⟩, hname⟩
          cases heq
          exact ⟨hhost, hname⟩
        · rintro ⟨hhost, hname⟩
          exact ⟨arguments, ⟨key, rfl, hhost⟩, hname⟩
      rw [hone]
      cases hkey : eqIgnoreAsciiCase (String.ofList key) "host" with
      | false => simp
      | true =>
          rw [Bool.not_true, if_neg Bool.false_ne_true, mem_keys_insertTokens]
          simp

/-- What a line adds to the mark. -/
theorem structural_hostCatalogLine :
    (hostCatalogLine state line).2 = true ↔
      state.2 = true ∨ ∃ arguments, Directive "match" line arguments ∨
        Directive "include" line arguments := by
  simp only [← directive_structural_iff]
  rw [hostCatalogLine]
  cases hparts : directiveParts line with
  | none => simp
  | some parts =>
      obtain ⟨key, arguments⟩ := parts
      have hone : (∃ arguments', ∃ key', some (key, arguments) = some (key', arguments') ∧
            (eqIgnoreAsciiCase (String.ofList key') "match" ||
              eqIgnoreAsciiCase (String.ofList key') "include") = true) ↔
          (eqIgnoreAsciiCase (String.ofList key) "match" ||
            eqIgnoreAsciiCase (String.ofList key) "include") = true := by
        constructor
        · rintro ⟨arguments', key', heq, hkey⟩
          cases heq
          exact hkey
        · exact fun hkey ↦ ⟨arguments, key, rfl, hkey⟩
      rw [hone, ← Bool.or_eq_true]
      dsimp only
      split
      · rfl
      · rfl

/-- What the lines add to the names. -/
theorem mem_keys_foldl (catalog : List (List Char)) :
    name ∈ (catalog.foldl hostCatalogLine state).1.keys ↔
      name ∈ state.1.keys ∨ ∃ line ∈ catalog, ∃ arguments, Directive "host" line arguments ∧
        name.toList ∈ hostTokens arguments ∧ ConcreteAlias name.toList := by
  induction catalog generalizing state with
  | nil => simp
  | cons line catalog ih =>
      rw [foldl_cons, ih, mem_keys_hostCatalogLine, or_assoc]
      simp only [mem_cons, exists_eq_or_imp]

/-- What the lines add to the mark. -/
theorem structural_foldl (catalog : List (List Char)) :
    (catalog.foldl hostCatalogLine state).2 = true ↔
      state.2 = true ∨ ∃ line ∈ catalog, ∃ arguments, Directive "match" line arguments ∨
        Directive "include" line arguments := by
  induction catalog generalizing state with
  | nil => simp
  | cons line catalog ih =>
      rw [foldl_cons, ih, structural_hostCatalogLine, or_assoc]
      simp only [mem_cons, exists_eq_or_imp]

theorem mem_aliases {contents : String} {configPath : Option PathBuf} :
    name ∈ (parseHostCatalog contents configPath).aliases ↔
      ∃ line ∈ lines contents.toList, ∃ arguments, Directive "host" line arguments ∧
        name.toList ∈ hostTokens arguments ∧ ConcreteAlias name.toList := by
  have hfold := @mem_keys_foldl name (.empty, false) (lines contents.toList)
  rw [or_iff_right (by simp [SortedMap.keys, SortedMap.empty])] at hfold
  exact hfold

theorem trimQuotes_isInfix (word : List Char) : trimQuotes word <:+: word := by
  have hfront : word.dropWhile isQuote <:+ word := dropWhile_suffix _
  have hback : trimQuotes word <+: word.dropWhile isQuote := by
    rw [trimQuotes, ← reverse_suffix, reverse_reverse]
    exact dropWhile_suffix _
  exact hback.isInfix.trans hfront.isInfix

/-- A word is a part of the line in front of the first `#`. -/
theorem isInfix_of_mem_words {word : List Char}
    (h : word ∈ splitAsciiWhitespace (arguments.takeWhile fun c ↦ c ≠ '#')) :
    word <:+: arguments.takeWhile fun c ↦ c ≠ '#' := by
  induction arguments using arguments_induction with
  | nil => cases h
  | blank c l hc ih =>
      rw [takeWhile_hash_cons (ne_hash_of_blank hc)] at h ⊢
      rw [splitAsciiWhitespace_cons hc] at h
      exact (ih h).trans (suffix_cons c _).isInfix
  | comment l =>
      rw [takeWhile_hash] at h
      cases h
  | word w l hne hw hl ih =>
      rw [splitAsciiWhitespace_takeWhile_append hne hw hl] at h
      rw [takeWhile_hash_append hw]
      rcases mem_cons.mp h with rfl | hrest
      · exact (prefix_append _ _).isInfix
      · exact (ih hrest).trans (suffix_append w _).isInfix

/-- A token is a part of the line in front of the first `#`. -/
theorem isInfix_of_mem_hostTokens {token : List Char} (h : token ∈ hostTokens arguments) :
    token <:+: arguments.takeWhile fun c ↦ c ≠ '#' := by
  rw [hostTokens_eq] at h
  obtain ⟨word, hword, rfl⟩ := mem_map.mp (mem_filter.mp h).1
  exact (trimQuotes_isInfix word).trans (isInfix_of_mem_words hword)

/-- Where double quotes stand around whole words, the tokens are the arguments. -/
theorem mem_hostTokens_iff {token : List Char} (h : WholeQuotes arguments) (hne : token ≠ []) :
    token ∈ hostTokens arguments ↔
      ∃ argument ∈ argumentsFrom .between arguments, token = trimQuotes argument := by
  rw [hostTokens_eq, ← map_argumentsFrom h, mem_filter, mem_map]
  constructor
  · rintro ⟨⟨argument, hargument, rfl⟩, -⟩
    exact ⟨argument, hargument, rfl⟩
  · rintro ⟨argument, hargument, rfl⟩
    exact ⟨⟨argument, hargument, rfl⟩, by simpa using hne⟩

/-- The names are in order and without duplicates, and the mark is set when there is a line for it.
No name comes from a comment or from another directive. When double quotes stand around whole
words only, the names are the arguments of the `Host` lines that are no patterns. -/
theorem parseHostCatalog_exact (contents : String) (configPath : Option PathBuf) :
    (parseHostCatalog contents configPath).aliases.Pairwise (· < ·) ∧
    ((parseHostCatalog contents configPath).hasUnsupportedStructuralDirectives = true ↔
      ∃ line ∈ lines contents.toList, ∃ arguments,
        Directive "match" line arguments ∨ Directive "include" line arguments) ∧
    (∀ name ∈ (parseHostCatalog contents configPath).aliases,
      ∃ line ∈ lines contents.toList, ∃ arguments, Directive "host" line arguments ∧
        name.toList <:+: arguments.takeWhile fun c ↦ c ≠ '#') ∧
    ((∀ line ∈ lines contents.toList, ∀ arguments, Directive "host" line arguments →
        WholeQuotes arguments) →
      ∀ name, name ∈ (parseHostCatalog contents configPath).aliases ↔
        ∃ line ∈ lines contents.toList, ∃ arguments, Directive "host" line arguments ∧
          ∃ argument ∈ argumentsFrom .between arguments,
            name.toList = trimQuotes argument ∧ ConcreteAlias name.toList) := by
  refine ⟨SortedMap.keys_sorted _, ?_, fun name hname ↦ ?_, fun hwhole name ↦ ?_⟩
  · have hfold := @structural_foldl (.empty, false) (lines contents.toList)
    rw [or_iff_right Bool.false_ne_true] at hfold
    exact hfold
  · obtain ⟨line, hline, arguments, hdirective, htoken, -⟩ := mem_aliases.mp hname
    exact ⟨line, hline, arguments, hdirective, isInfix_of_mem_hostTokens htoken⟩
  · rw [mem_aliases]
    constructor
    · rintro ⟨line, hline, arguments, hdirective, htoken, hconcrete⟩
      obtain ⟨argument, hargument, heq⟩ :=
        (mem_hostTokens_iff (hwhole line hline arguments hdirective) hconcrete.ne_nil).mp htoken
      exact ⟨line, hline, arguments, hdirective, argument, hargument, heq, hconcrete⟩
    · rintro ⟨line, hline, arguments, hdirective, argument, hargument, heq, hconcrete⟩
      exact ⟨line, hline, arguments, hdirective, (mem_hostTokens_iff
        (hwhole line hline arguments hdirective) hconcrete.ne_nil).mpr ⟨argument, hargument, heq⟩,
        hconcrete⟩

end

theorem parseHostCatalog_exact_quoted :
    "prod" ∈ (parseHostCatalog "Host \"prod\" web # old\n" none).aliases := by
  have hlines : lines "Host \"prod\" web # old\n".toList = ["Host \"prod\" web # old".toList] := by
    decide
  have hparts : directiveParts "Host \"prod\" web # old".toList =
      some ("Host".toList, "\"prod\" web # old".toList) := by decide
  have hdirective : Directive "host" "Host \"prod\" web # old".toList "\"prod\" web # old".toList :=
    directive_host_iff.mp ⟨_, hparts, by decide⟩
  refine ((parseHostCatalog_exact "Host \"prod\" web # old\n" none).2.2.2 ?_ "prod").mpr
    ⟨_, by rw [hlines]; exact mem_singleton_self _, _, hdirective, "prod".toList, by decide,
      by decide, concreteAlias_iff.mp (by decide)⟩
  rw [hlines]
  intro line hline arguments hhost
  obtain rfl := mem_singleton.mp hline
  obtain rfl := hhost.eq_of_directiveParts hparts
  intro word hword
  have hwords : splitAsciiWhitespace ("\"prod\" web # old".toList.takeWhile fun c ↦ c ≠ '#') =
      ["\"prod\"".toList, "web".toList] := by decide
  rw [hwords] at hword
  rcases mem_cons.mp hword with rfl | hword
  · exact .inr ⟨"prod".toList, by decide, by decide⟩
  · rw [mem_singleton.mp hword]
    exact .inl (by decide)

/-- The names are the arguments as they stand, as far as these hold no wildcards. -/
def NamesAsTheyStand (contents : String) : Prop :=
  ∀ name, name ∈ (parseHostCatalog contents none).aliases ↔
    ∃ line ∈ lines contents.toList, ∃ arguments, Directive "host" line arguments ∧
      name.toList ∈ argumentsFrom .between arguments ∧ name.toList ≠ [] ∧
        name.toList.head? ≠ some '!' ∧ ∀ c ∈ name.toList, c ∉ ['*', '?', '[', ']']

/-- Single quotes are cut off too, an argument with a control character is passed over, and a quoted
argument with a blank in it is cut in two. -/
theorem not_namesAsTheyStand :
    ¬NamesAsTheyStand "Host 'staging'" ∧ ¬NamesAsTheyStand "Host a\x01b" ∧
      ¬NamesAsTheyStand "Host \"my host\"" := by
  refine ⟨fun h ↦ ?_, fun h ↦ ?_, fun h ↦ ?_⟩
  · obtain ⟨line, hline, arguments, hdirective, hmem, -⟩ := (h "staging").mp (by decide)
    have hlines : lines "Host 'staging'".toList = ["Host 'staging'".toList] := by decide
    have hparts : directiveParts "Host 'staging'".toList =
        some ("Host".toList, "'staging'".toList) := by decide
    rw [hlines] at hline
    obtain rfl := mem_singleton.mp hline
    obtain rfl := hdirective.eq_of_directiveParts hparts
    exact absurd hmem (by decide)
  · have hparts : directiveParts "Host a\x01b".toList =
        some ("Host".toList, "a\x01b".toList) := by decide
    have hname : "a\x01b" ∈ (parseHostCatalog "Host a\x01b" none).aliases :=
      (h "a\x01b").mpr ⟨"Host a\x01b".toList, by decide, "a\x01b".toList,
        directive_host_iff.mp ⟨_, hparts, by decide⟩, by decide⟩
    exact absurd hname (by decide)
  · obtain ⟨line, hline, arguments, hdirective, hmem, -⟩ := (h "my").mp (by decide)
    have hlines : lines "Host \"my host\"".toList = ["Host \"my host\"".toList] := by decide
    have hparts : directiveParts "Host \"my host\"".toList =
        some ("Host".toList, "\"my host\"".toList) := by decide
    rw [hlines] at hline
    obtain rfl := mem_singleton.mp hline
    obtain rfl := hdirective.eq_of_directiveParts hparts
    exact absurd hmem (by decide)

end KaduoxSsh.OpenSsh
