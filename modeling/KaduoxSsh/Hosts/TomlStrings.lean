import KaduoxSsh.Hosts.Document
import Mathlib.Data.List.TakeWhile

/-!
# Where the strings of a line end

A line that assigns a string should have one basic string behind its `=`, or an array of basic
strings, and then at most a comment. The reader takes a string apart by its first and its last
character. What lies between them is read up to the end whatever quotes it has, so that two strings
side by side are read as one.

`wellFormedLine_iff` says that this is all that goes wrong: a line that is read has the right form
if and only if each string of it has no quotes but its own two.
-/

namespace KaduoxSsh.Hosts.Toml

open Text Result List

/-! ## The form of a line -/

/-- The characters of a string that stand for themselves. -/
def IsUnescaped (c : Char) : Prop :=
  c ≠ '"' ∧ c ≠ '\\' ∧ (c = '\t' ∨ 0x20 ≤ c.val ∧ c.val ≠ 0x7f)

/-- The hexadecimal digits of an escape. -/
def IsHex (c : Char) : Prop := c.isDigit ∨ c ∈ "abcdefABCDEF".toList

/-- What stands between the quotes of a basic string. -/
inductive StringBody : List Char → Prop
  | nil : StringBody []
  | unescaped {c : Char} {rest : List Char} (hc : IsUnescaped c) (hrest : StringBody rest) :
      StringBody (c :: rest)
  | escape {c : Char} {rest : List Char} (hc : c ∈ ['b', 't', 'n', 'f', 'r', '"', '\\'])
      (hrest : StringBody rest) : StringBody ('\\' :: c :: rest)
  | unicode {marker : Char} {digits rest : List Char}
      (hlength : (marker, digits.length) ∈ [('u', 4), ('U', 8)]) (hhex : ∀ c ∈ digits, IsHex c)
      (hrest : StringBody rest) : StringBody ('\\' :: marker :: (digits ++ rest))

def BasicString (text : List Char) : Prop := ∃ body, text = '"' :: body ++ ['"'] ∧ StringBody body

def Blank (text : List Char) : Prop := ∀ c ∈ text, isWhitespace c = true

/-- A text of some form with blanks around it. -/
def Padded (form : List Char → Prop) (text : List Char) : Prop :=
  ∃ front inner back, text = front ++ inner ++ back ∧ Blank front ∧ Blank back ∧ form inner

/-- An array of strings that commas stand between. -/
def StringArray (text : List Char) : Prop :=
  ∃ inner, text = '[' :: inner ++ [']'] ∧
    (Blank inner ∨
      ∃ items ≠ [], inner = [','].intercalate items ∧ ∀ item ∈ items, Padded BasicString item)

def BareKey (text : List Char) : Prop := text ≠ [] ∧ ∀ c ∈ text, isKeyChar c = true

def Comment (text : List Char) : Prop := ∀ c ∈ text.head?, c = '#'

def ValueForm (text : List Char) : Prop := BasicString text ∨ StringArray text

/-- The form of a line that assigns a string or an array of strings. -/
def WellFormedLine (rawLine : List Char) : Prop :=
  ∃ before after comment, rawLine = before ++ '=' :: (after ++ comment) ∧
    Padded BareKey before ∧ Padded ValueForm after ∧ Comment comment

/-! ## Quotes -/

/-- The state after a text. -/
def Quote.after (quote : Quote) (text : List Char) : Quote := text.foldl Quote.step quote

/-- How many characters of a text begin or end a string. -/
def Quote.count : Quote → List Char → Nat
  | _, [] => 0
  | quote, c :: rest =>
      (if quote.escaped = false ∧ c = '"' then 1 else 0) + (quote.step c).count rest

/-- The strings of an array as they are cut out of it, `segment` being the begin of the next one. -/
def segments : Quote → List Char → List Char → List (List Char)
  | _, segment, [] => [segment]
  | quote, segment, c :: rest =>
      if quote.inString = false ∧ c = ',' then segment :: segments quote [] rest
      else segments (quote.step c) (segment ++ [c]) rest

/-- The text that a line assigns. -/
def valueText (rawLine : List Char) : List Char :=
  match stripComment rawLine with
  | .error _ => []
  | .ok line => trim (breakAt '=' .outside (trim line)).2.2.tail

/-- The strings that a value is taken for. -/
def stringTexts (value : List Char) : List (List Char) :=
  if value.head? = some '[' then
    if trim value.tail.dropLast = [] then []
    else (segments .outside [] value.tail.dropLast).map trim
  else [value]

/-- Each string of the line has its own two quotes and no other ones. -/
def OwnQuotesOnly (rawLine : List Char) : Prop :=
  ∀ text ∈ stringTexts (valueText rawLine), Quote.outside.count text = 2

instance (rawLine : List Char) : Decidable (OwnQuotesOnly rawLine) := by
  unfold OwnQuotesOnly
  infer_instance

section

variable {sep c : Char} {quote last : Quote} {l rest segment text value : List Char}
  {form : List Char → Prop}

namespace Quote

theorem after_append : quote.after (l ++ rest) = (quote.after l).after rest :=
  List.foldl_append

theorem count_append : quote.count (l ++ rest) = quote.count l + (quote.after l).count rest := by
  induction l generalizing quote with
  | nil => exact (Nat.zero_add _).symm
  | cons c l ih =>
      rw [List.cons_append, count, count, ih, Nat.add_assoc]
      rfl

/-- A backslash is pending in strings only. -/
def Sane (quote : Quote) : Prop := quote.escaped = true → quote.inString = true

theorem Sane.step (h : quote.Sane) : (quote.step c).Sane := by
  obtain ⟨inString, escaped⟩ := quote
  unfold Sane Quote.step at *
  cases inString <;> cases escaped <;> grind

/-- A string begins or ends with each quote that is counted. -/
theorem Sane.inString_after (h : quote.Sane) :
    (quote.after l).Sane ∧
      (quote.after l).inString = (quote.inString != (quote.count l % 2 == 1)) := by
  induction l generalizing quote with
  | nil => exact ⟨h, by simp [after, count]⟩
  | cons c l ih =>
      obtain ⟨hsane, hin⟩ := ih (h.step (c := c))
      refine ⟨hsane, ?_⟩
      show ((quote.step c).after l).inString = _
      rw [hin, count]
      obtain ⟨inString, escaped⟩ := quote
      generalize count _ l = n
      unfold Sane at h
      unfold Quote.step
      cases inString <;> cases escaped <;> grind

end Quote

theorem eq_after_of_passes (h : passes sep quote l = some last) : last = quote.after l := by
  induction l generalizing quote with
  | nil =>
      cases h
      rfl
  | cons c l ih =>
      rw [passes] at h
      split at h
      · cases h
      · exact ih h

/-! ## Well-formed strings have two quotes -/

/-- In a string, a character other than a quote and a backslash changes nothing. -/
theorem step_inside (hquote : c ≠ '"') (hslash : c ≠ '\\') : Quote.inside.step c = .inside := by
  simp [Quote.step, Quote.inside, hquote, hslash]

theorem step_escaped : (Quote.inside.step '\\').step c = .inside := rfl

theorem passes_inside_cons (h : Quote.inside.step c = .inside) :
    passes sep .inside (c :: l) = passes sep .inside l := by
  rw [passes, if_neg (by simp [Quote.inside]), h]

theorem passes_inside_escape : passes sep .inside ('\\' :: c :: l) = passes sep .inside l := by
  rw [passes, if_neg (by simp [Quote.inside]), passes, if_neg (by simp [Quote.inside, Quote.step]),
    step_escaped]

theorem count_inside_cons (hquote : c ≠ '"') (hslash : c ≠ '\\') :
    Quote.inside.count (c :: l) = Quote.inside.count l := by
  rw [Quote.count, if_neg (by simp [hquote]), step_inside hquote hslash, Nat.zero_add]

theorem count_inside_escape : Quote.inside.count ('\\' :: c :: l) = Quote.inside.count l := by
  rw [Quote.count, if_neg (by simp), Quote.count, if_neg (by simp [Quote.inside, Quote.step]),
    step_escaped, Nat.zero_add, Nat.zero_add]

theorem IsHex.ne {d : Char} (h : IsHex c) (hd : d = '"' ∨ d = '\\') : c ≠ d := by
  rintro rfl
  rcases hd with rfl | rfl
  · exact absurd h (by unfold IsHex; decide)
  · exact absurd h (by unfold IsHex; decide)

/-- Hexadecimal digits are read like other characters. -/
theorem passes_hex (h : ∀ c ∈ l, IsHex c) :
    passes sep .inside (l ++ rest) = passes sep .inside rest := by
  induction l with
  | nil => rfl
  | cons c l ih =>
      have hc := h c mem_cons_self
      rw [cons_append, passes_inside_cons (step_inside (hc.ne (.inl rfl)) (hc.ne (.inr rfl)))]
      exact ih fun d hd ↦ h d (mem_cons_of_mem c hd)

theorem count_hex (h : ∀ c ∈ l, IsHex c) :
    Quote.inside.count (l ++ rest) = Quote.inside.count rest := by
  induction l with
  | nil => rfl
  | cons c l ih =>
      have hc := h c mem_cons_self
      rw [cons_append, count_inside_cons (hc.ne (.inl rfl)) (hc.ne (.inr rfl))]
      exact ih fun d hd ↦ h d (mem_cons_of_mem c hd)

/-- The body of a string leaves the scan in the string. -/
theorem StringBody.passes (sep : Char) (h : StringBody l) :
    Toml.passes sep .inside l = some .inside := by
  induction h with
  | nil => rfl
  | unescaped hc _ ih => rw [passes_inside_cons (step_inside hc.1 hc.2.1), ih]
  | escape _ _ ih => rw [passes_inside_escape, ih]
  | unicode _ hhex _ ih => rw [passes_inside_escape, passes_hex hhex, ih]

/-- The body of a string has no quote that is not escaped. -/
theorem StringBody.count (h : StringBody l) : Quote.inside.count l = 0 := by
  induction h with
  | nil => rfl
  | unescaped hc _ ih => rw [count_inside_cons hc.1 hc.2.1, ih]
  | escape _ _ ih => rw [count_inside_escape, ih]
  | unicode _ hhex _ ih => rw [count_inside_escape, count_hex hhex, ih]

theorem BasicString.passes (h : BasicString text) (hsep : sep ≠ '"') :
    Toml.passes sep .outside text = some .outside := by
  obtain ⟨body, rfl, hbody⟩ := h
  rw [List.cons_append, Toml.passes, if_neg fun hc ↦ hsep hc.2.symm, passes_append]
  show (Toml.passes sep .inside body).bind _ = _
  rw [hbody.passes]
  rfl

theorem BasicString.count (h : BasicString text) : Quote.outside.count text = 2 := by
  obtain ⟨body, rfl, hbody⟩ := h
  have hafter := eq_after_of_passes (hbody.passes '#')
  rw [List.cons_append, Quote.count, if_pos ⟨rfl, rfl⟩]
  show 1 + Quote.inside.count (body ++ ['"']) = 2
  rw [Quote.count_append, hbody.count, ← hafter]
  rfl

theorem BasicString.trimmed (h : BasicString text) : Trimmed text := by
  obtain ⟨body, rfl, -⟩ := h
  constructor
  · rintro c ⟨⟩
    rfl
  · rw [List.getLast?_concat]
    rintro c ⟨⟩
    rfl

theorem BasicString.ne_nil (h : BasicString text) : text ≠ [] := by
  obtain ⟨body, rfl, -⟩ := h
  exact cons_ne_nil _ _

/-! ## Blanks -/

theorem Blank.passes (h : Blank l) (hsep : isWhitespace sep = false) :
    Toml.passes sep .outside l = some .outside := by
  apply passes_plain
  intro c hc
  have hspace := h c hc
  constructor
  · rintro rfl
    exact absurd hspace (by decide)
  · rintro rfl
    rw [hsep] at hspace
    cases hspace

/-- Blanks at both ends are what `trim` takes away. -/
theorem trim_blanks {front back : List Char} (hfront : Blank front) (hback : Blank back) :
    trim (front ++ text ++ back) = trim text := by
  have hskip : front.dropWhile isWhitespace = [] := dropWhile_eq_nil_iff.mpr hfront
  have hskip' : back.reverse.dropWhile isWhitespace = [] :=
    dropWhile_eq_nil_iff.mpr fun c hc ↦ hback c (mem_reverse.mp hc)
  have hall : back.dropWhile isWhitespace = [] := dropWhile_eq_nil_iff.mpr hback
  unfold trim
  rw [append_assoc, dropWhile_append, hskip, isEmpty_nil, if_pos rfl,
    dropWhile_append]
  by_cases hempty : text.dropWhile isWhitespace = []
  · rw [hempty, isEmpty_nil, if_pos rfl, hall]
  · rw [if_neg (by simpa using hempty), reverse_append, dropWhile_append, hskip',
      isEmpty_nil, if_pos rfl]

theorem exists_trim (l : List Char) :
    ∃ front back, l = front ++ trim l ++ back ∧ Blank front ∧ Blank back := by
  refine ⟨l.takeWhile isWhitespace,
    ((l.dropWhile isWhitespace).reverse.takeWhile isWhitespace).reverse, ?_, ?_, ?_⟩
  · rw [trim, append_assoc, ← reverse_append, takeWhile_append_dropWhile,
      reverse_reverse, takeWhile_append_dropWhile]
  · exact fun c hc ↦ mem_takeWhile_imp hc
  · exact fun c hc ↦ mem_takeWhile_imp (mem_reverse.mp hc)

theorem blank_iff_trim_eq_nil : Blank l ↔ trim l = [] := by
  constructor
  · intro h
    have hnil : Blank [] := fun _ hc ↦ nomatch hc
    have htrim : trim (l ++ [] ++ []) = trim [] := trim_blanks h hnil
    rwa [append_nil, append_nil] at htrim
  · intro h
    obtain ⟨front, back, heq, hfront, hback⟩ := exists_trim l
    rw [h, append_nil] at heq
    intro c hc
    rw [heq] at hc
    rcases mem_append.mp hc with hc | hc
    · exact hfront c hc
    · exact hback c hc

/-! ## Arrays -/

theorem segments_append (h : passes ',' quote l = some last) :
    segments quote segment (l ++ rest) = segments last (segment ++ l) rest :=
  append_of_passes (fun hc ↦ by rw [segments, if_neg hc]) h

/-- Texts in which every string ends are cut apart at the commas between them. -/
theorem segments_intercalate {items : List (List Char)} (hne : items ≠ [])
    (h : ∀ item ∈ items, passes ',' .outside item = some .outside) :
    segments .outside [] ([','].intercalate items) = items := by
  induction items with
  | nil => exact absurd rfl hne
  | cons item items ih =>
      have hitem : segments .outside [] (item ++ []) = segments .outside ([] ++ item) [] :=
        segments_append (h item mem_cons_self)
      cases items with
      | nil =>
          rw [append_nil] at hitem
          rw [intercalate_singleton, hitem]
          rfl
      | cons next items =>
          rw [intercalate_cons_cons, append_assoc,
            segments_append (h item mem_cons_self), singleton_append, segments,
            if_pos ⟨rfl, rfl⟩, ih (cons_ne_nil next items) fun t ht ↦
              h t (mem_cons_of_mem item ht)]
          rfl

/-- What the cuts leave is put together again by commas. -/
theorem intercalate_segments :
    [','].intercalate (segments quote segment l) = segment ++ l ∧ segments quote segment l ≠ [] := by
  induction l generalizing quote segment with
  | nil => exact ⟨by rw [segments, intercalate_singleton, append_nil], by simp [segments]⟩
  | cons c l ih =>
      rw [segments]
      by_cases hc : quote.inString = false ∧ c = ','
      · obtain ⟨heq, hne⟩ := @ih quote []
        rw [if_pos hc, intercalate_cons_of_ne_nil hne, heq, hc.2]
        exact ⟨by simp, cons_ne_nil _ _⟩
      · obtain ⟨heq, hne⟩ := @ih (quote.step c) (segment ++ [c])
        rw [if_neg hc, heq]
        exact ⟨by simp, hne⟩

theorem passes_join {items : List (List Char)} (hsep : sep ≠ ',' ∧ sep ≠ '"')
    (h : ∀ item ∈ items, passes sep .outside item = some .outside) :
    passes sep .outside ([','].intercalate items) = some .outside := by
  induction items with
  | nil => rfl
  | cons item items ih =>
      have hrest := ih fun t ht ↦ h t (List.mem_cons_of_mem item ht)
      cases items with
      | nil =>
          rw [List.intercalate_singleton]
          exact h item List.mem_cons_self
      | cons next items =>
          have hcomma : passes sep .outside [','] = some .outside :=
            passes_plain fun c hc ↦ by
              rw [List.mem_singleton.mp hc]
              exact ⟨by decide, hsep.1.symm⟩
          rw [List.intercalate_cons_cons, List.append_assoc, passes_append,
            h item List.mem_cons_self, Option.bind_some, passes_append, hcomma, Option.bind_some,
            hrest]

theorem Padded.passes (h : Padded form text) (hsep : isWhitespace sep = false)
    (hform : ∀ inner, form inner → Toml.passes sep .outside inner = some .outside) :
    Toml.passes sep .outside text = some .outside := by
  obtain ⟨front, inner, back, rfl, hfront, hback, hinner⟩ := h
  rw [List.append_assoc, passes_append, hfront.passes hsep, Option.bind_some, passes_append,
    hform inner hinner, Option.bind_some, hback.passes hsep]

theorem Padded.trim_eq (h : Padded form text) (hform : ∀ inner, form inner → Trimmed inner) :
    form (trim text) := by
  obtain ⟨front, inner, back, rfl, hfront, hback, hinner⟩ := h
  rwa [trim_blanks hfront hback, (hform inner hinner).trim_eq]

theorem padded_of_trim (h : form (trim text)) : Padded form text := by
  obtain ⟨front, back, heq, hfront, hback⟩ := exists_trim text
  exact ⟨front, trim text, back, heq, hfront, hback, h⟩

theorem StringArray.passes (h : StringArray text) (hsep : sep ∈ ['#', '=']) :
    Toml.passes sep .outside text = some .outside := by
  have hplain : sep ≠ ',' ∧ sep ≠ '"' ∧ isWhitespace sep = false ∧
      Toml.passes sep .outside ['['] = some .outside ∧
      Toml.passes sep .outside [']'] = some .outside := by
    simp only [mem_cons, not_mem_nil, or_false] at hsep
    rcases hsep with rfl | rfl <;> decide
  obtain ⟨hcomma, hquote, hspace, hopen, hclose⟩ := hplain
  obtain ⟨inner, rfl, hinner⟩ := h
  have hpasses : Toml.passes sep .outside inner = some .outside := by
    rcases hinner with hblank | ⟨items, -, rfl, hitems⟩
    · exact hblank.passes hspace
    · apply passes_join ⟨hcomma, hquote⟩
      intro item hitem
      exact (hitems item hitem).passes hspace fun inner hinner ↦ hinner.passes hquote
  rw [cons_append, ← singleton_append, passes_append, hopen, Option.bind_some,
    passes_append, hpasses, Option.bind_some, hclose]

theorem StringArray.trimmed (h : StringArray text) : Trimmed text := by
  obtain ⟨inner, rfl, -⟩ := h
  constructor
  · rintro c ⟨⟩
    rfl
  · rw [List.getLast?_concat]
    rintro c ⟨⟩
    rfl

/-! ## Well-formed lines have own quotes only -/

theorem ValueForm.passes (h : ValueForm text) (hsep : sep ∈ ['#', '=']) :
    Toml.passes sep .outside text = some .outside := by
  rcases h with hstring | harray
  · apply hstring.passes
    rintro rfl
    exact absurd hsep (by decide)
  · exact harray.passes hsep

theorem ValueForm.trimmed (h : ValueForm text) : Trimmed text :=
  h.elim BasicString.trimmed StringArray.trimmed

theorem BareKey.trimmed (h : BareKey text) : Trimmed text :=
  trimmed_of_forall fun c hc ↦ isWhitespace_of_isKeyChar (h.2 c hc)

theorem BareKey.passes (h : BareKey text) (hsep : isKeyChar sep = false) :
    Toml.passes sep .outside text = some .outside :=
  passes_plain fun c hc ↦ ⟨ne_of_isKeyChar (h.2 c hc) (by decide), ne_of_isKeyChar (h.2 c hc) hsep⟩

theorem ValueForm.count (h : ValueForm text) :
    ∀ t ∈ stringTexts text, Quote.outside.count t = 2 := by
  rcases h with hstring | ⟨inner, rfl, hinner⟩
  · have hhead : text.head? ≠ some '[' := by
      obtain ⟨body, rfl, -⟩ := hstring
      simp
    rw [stringTexts, if_neg hhead]
    intro t ht
    rw [mem_singleton.mp ht]
    exact hstring.count
  · have htail : ('[' :: inner ++ [']']).tail.dropLast = inner := by
      rw [cons_append, tail_cons, dropLast_concat]
    have hhead : ('[' :: inner ++ [']']).head? = some '[' := rfl
    rw [stringTexts, if_pos hhead, htail]
    by_cases hblank : trim inner = []
    · rw [if_pos hblank]
      exact fun t ht ↦ nomatch ht
    · rw [if_neg hblank]
      rcases hinner with hinner | ⟨items, hne, rfl, hitems⟩
      · exact absurd (blank_iff_trim_eq_nil.mp hinner) hblank
      · rw [segments_intercalate hne fun item hitem ↦
          (hitems item hitem).passes (by decide) fun inner hinner ↦ hinner.passes (by decide)]
        intro t ht
        obtain ⟨item, hitem, rfl⟩ := mem_map.mp ht
        exact ((hitems item hitem).trim_eq fun _ ↦ BasicString.trimmed).count

theorem stripComment_append {comment : List Char} (h : passes '#' .outside l = some .outside)
    (hcomment : Comment comment) : stripComment (l ++ comment) = .ok l := by
  rw [stripComment, breakAt_append h]
  cases comment with
  | nil => simp [breakAt, Quote.isOpen, Quote.outside]
  | cons c comment =>
      rw [hcomment c rfl, breakAt, if_pos ⟨rfl, rfl⟩]
      simp

/-- A line of the right form assigns the string, or the array, that it shows. -/
theorem valueText_eq {before after comment : List Char} (hbefore : Padded BareKey before)
    (hafter : Padded ValueForm after) (hcomment : Comment comment) :
    ValueForm (valueText (before ++ '=' :: (after ++ comment))) := by
  have hpasses : passes '#' .outside (before ++ '=' :: after) = some .outside := by
    rw [passes_append, hbefore.passes (by decide) fun _ h ↦ h.passes (by decide), Option.bind_some]
    show passes '#' .outside after = some .outside
    exact hafter.passes (by decide) fun _ h ↦ h.passes (by decide)
  have hline : before ++ '=' :: (after ++ comment) = (before ++ '=' :: after) ++ comment := by simp
  obtain ⟨front, key, gap, rfl, hfront, hgap, hkey⟩ := hbefore
  obtain ⟨gap', value, back, rfl, hgap', hback, hvalue⟩ := hafter
  -- What is trimmed from the line are the blanks in front of the key and behind the value.
  have htrimmed : Trimmed (key ++ (gap ++ '=' :: (gap' ++ value))) := by
    constructor
    · rw [List.head?_append_of_ne_nil _ hkey.1]
      exact hkey.trimmed.1
    · have hne : value ≠ [] := by
        rcases hvalue with ⟨_, rfl, -⟩ | ⟨_, rfl, -⟩ <;> simp
      have hrw : key ++ (gap ++ '=' :: (gap' ++ value)) = (key ++ gap ++ '=' :: gap') ++ value := by
        simp
      rw [hrw, List.getLast?_append_of_ne_nil _ hne]
      exact hvalue.trimmed.2
  have hsplit : front ++ key ++ gap ++ '=' :: (gap' ++ value ++ back) =
      front ++ (key ++ (gap ++ '=' :: (gap' ++ value))) ++ back := by simp
  have hbreak : breakAt '=' .outside (key ++ (gap ++ '=' :: (gap' ++ value))) =
      (key ++ gap, .outside, '=' :: (gap' ++ value)) := by
    have hbefore : passes '=' .outside (key ++ gap) = some .outside := by
      rw [passes_append, hkey.passes (by decide), Option.bind_some, hgap.passes (by decide)]
    rw [← append_assoc, breakAt_append hbefore, breakAt, if_pos ⟨rfl, rfl⟩, append_nil]
  have hvalueText : valueText (front ++ key ++ gap ++ '=' :: (gap' ++ value ++ back ++ comment)) =
      trim (gap' ++ value) := by
    rw [valueText, hline, stripComment_append hpasses hcomment]
    simp only [hsplit, trim_blanks hfront hback, htrimmed.trim_eq, hbreak, tail_cons]
  have hnil : Blank [] := fun _ hc ↦ absurd hc not_mem_nil
  have htrim : trim (gap' ++ value ++ []) = trim value := trim_blanks hgap' hnil
  rw [append_nil, hvalue.trimmed.trim_eq] at htrim
  rw [hvalueText, htrim]
  exact hvalue

theorem ownQuotesOnly_of_wellFormedLine {rawLine : List Char} (h : WellFormedLine rawLine) :
    OwnQuotesOnly rawLine := by
  obtain ⟨before, after, comment, rfl, hbefore, hafter, hcomment⟩ := h
  exact (valueText_eq hbefore hafter hcomment).count

/-! ## Lines with own quotes only are well formed -/

theorem isUnescaped_of_not_control (hquote : c ≠ '"') (hslash : c ≠ '\\')
    (hcontrol : ¬isControl c = true) : IsUnescaped c := by
  refine ⟨hquote, hslash, .inr ?_⟩
  simp only [isControl, Bool.or_eq_true, Bool.and_eq_true, decide_eq_true_eq,
    UInt32.lt_iff_toNat_lt, UInt32.le_iff_toNat_le, UInt32.reduceToNat] at hcontrol
  rw [UInt32.le_iff_toNat_le, Ne, ← UInt32.toNat_inj]
  simp only [UInt32.reduceToNat]
  omega

/-- What follows a backslash is one of the characters that may be escaped. -/
theorem unescape_escape {result : List Char} (h : unescape ('\\' :: c :: l) = .ok result) :
    c ∈ ['b', 't', 'n', 'f', 'r', '"', '\\'] ∧ ∃ tail, unescape l = .ok tail := by
  rw [unescape, if_neg (by decide)] at h
  split_ifs at h with hquote hslash hn hr ht
  all_goals first
    | (obtain ⟨tail, htail, -⟩ := bind_eq_ok.mp h
       exact ⟨by simp [*], tail, htail⟩)
    | cases h

theorem unescape_unescaped {result : List Char} (hslash : c ≠ '\\')
    (h : unescape (c :: l) = .ok result) :
    ¬isControl c = true ∧ ∃ tail, unescape l = .ok tail := by
  rw [unescape_cons_of_ne hslash, ite_bail_eq_ok, bind_eq_ok] at h
  obtain ⟨hcontrol, tail, htail, -⟩ := h
  exact ⟨hcontrol, tail, htail⟩

/-- What is read as the body of a string is one, or has a quote of its own. -/
theorem stringBody_or_count (hread : ∃ result, unescape l = .ok result) :
    StringBody l ∨ Quote.inside.count l ≠ 0 := by
  have hplain : ∀ c l, c ≠ '\\' → (∃ result, unescape (c :: l) = .ok result) →
      ((∃ result, unescape l = .ok result) → StringBody l ∨ Quote.inside.count l ≠ 0) →
      StringBody (c :: l) ∨ Quote.inside.count (c :: l) ≠ 0 := by
    rintro c l hslash ⟨result, h⟩ ih
    obtain ⟨hcontrol, htail⟩ := unescape_unescaped hslash h
    by_cases hquote : c = '"'
    · right
      rw [hquote, Quote.count, if_pos ⟨rfl, rfl⟩]
      omega
    · rw [count_inside_cons hquote hslash]
      exact (ih htail).imp_left
        (StringBody.unescaped (isUnescaped_of_not_control hquote hslash hcontrol))
  induction l using List.twoStepInduction with
  | nil => exact .inl .nil
  | singleton c =>
      by_cases hslash : c = '\\'
      · obtain ⟨result, h⟩ := hread
        rw [hslash, unescape, if_neg (by decide)] at h
        cases h
      · exact hplain c [] hslash hread fun _ ↦ .inl .nil
  | cons_cons c d l ih ih' =>
      by_cases hslash : c = '\\'
      · obtain ⟨result, h⟩ := hread
        rw [hslash] at h
        obtain ⟨hd, htail⟩ := unescape_escape h
        rw [hslash, count_inside_escape]
        exact (ih htail).imp_left (StringBody.escape hd)
      · exact hplain c (d :: l) hslash hread (ih' d)

/-- A text of two characters or more with its first and its last one apart. -/
theorem exists_middle {first final : Char} (hhead : text.head? = some first)
    (hlast : text.getLast? = some final) (hlength : 2 ≤ text.length) :
    ∃ middle, text = first :: middle ++ [final] ∧ text.tail.dropLast = middle := by
  cases text with
  | nil => cases hhead
  | cons c rest =>
      cases hhead
      have hne : rest ≠ [] := by
        rintro rfl
        rw [List.length_singleton] at hlength
        omega
      rw [List.getLast?_cons_of_ne_nil hne] at hlast
      exact ⟨rest.dropLast, by rw [List.cons_append, List.dropLast_append_getLast? final hlast], rfl⟩
/-- A quote in the middle closes the string, so that the quote at the end is a further one. -/
theorem count_middle (hcount : Quote.outside.count ('"' :: l ++ ['"']) = 2) :
    Quote.inside.count l = 0 := by
  have hsane : Quote.inside.Sane := fun _ ↦ rfl
  obtain ⟨hafter, hin⟩ := hsane.inString_after (l := l)
  rw [List.cons_append, Quote.count, if_pos ⟨rfl, rfl⟩] at hcount
  change 1 + Quote.inside.count (l ++ ['"']) = 2 at hcount
  rw [Quote.count_append] at hcount
  by_contra hne
  have hone : Quote.inside.count l = 1 := by omega
  have hclosed : (Quote.inside.after l).inString = false := by
    rw [hin, hone]
    rfl
  have hplain : (Quote.inside.after l).escaped = false := by
    by_contra hescaped
    rw [Bool.not_eq_false] at hescaped
    rw [hafter hescaped] at hclosed
    cases hclosed
  rw [hone, Quote.count, if_pos ⟨hplain, rfl⟩, Quote.count] at hcount
  omega

/-- A text that is read as a string and has no more quotes than the two at its ends is one. -/
theorem basicString_of_parseString {result : String} (h : parseString text = .ok result)
    (hcount : Quote.outside.count text = 2) : BasicString text := by
  rw [parseString, ite_bail_eq_ok, ite_bail_eq_ok, bind_eq_ok] at h
  obtain ⟨hlast, hhead, body, hbody, -⟩ := h
  rw [not_or, not_not, not_lt] at hlast
  rw [not_not] at hhead
  obtain ⟨middle, rfl, hmiddle⟩ := exists_middle hhead hlast.2 hlast.1
  rw [hmiddle] at hbody
  refine ⟨middle, rfl, ?_⟩
  rcases stringBody_or_count ⟨body, hbody⟩ with hstring | hquotes
  · exact hstring
  · exact absurd (count_middle hcount) hquotes

/-! ### Arrays -/

theorem parseString_of_parseSegments {values : List String}
    (h : parseSegments quote segment l = .ok values) :
    ∀ t ∈ segments quote segment l, ∃ value, parseString (trim t) = .ok value := by
  induction l generalizing quote segment values with
  | nil =>
      rw [parseSegments, ite_bail_eq_ok, bind_eq_ok] at h
      obtain ⟨-, value, hvalue, -⟩ := h
      intro t ht
      rw [mem_singleton.mp ht]
      exact ⟨value, hvalue⟩
  | cons c l ih =>
      rw [parseSegments] at h
      rw [segments]
      by_cases hc : quote.inString = false ∧ c = ','
      · rw [if_pos hc, bind_eq_ok] at h
        obtain ⟨value, hvalue, hrest⟩ := h
        obtain ⟨rest, hrest, -⟩ := bind_eq_ok.mp hrest
        rw [if_pos hc]
        intro t ht
        rcases mem_cons.mp ht with rfl | ht
        · exact ⟨value, hvalue⟩
        · exact ih hrest t ht
      · rw [if_neg hc] at h ⊢
        exact ih h

theorem segments_of_no_comma (h : ',' ∉ l) : segments quote segment l = [segment ++ l] := by
  induction l generalizing quote segment with
  | nil => rw [segments, append_nil]
  | cons c l ih =>
      rw [mem_cons, not_or] at h
      rw [segments, if_neg fun hc ↦ h.1 hc.2.symm, ih h.2, append_assoc, singleton_append]

/-- Blanks in front of an array belong to its first string. -/
theorem trim_segments_front {front : List Char} (hfront : Blank front) :
    (segments quote (front ++ segment) l).map trim = (segments quote segment l).map trim := by
  have hnil : Blank [] := fun _ hc ↦ nomatch hc
  have htrim (t : List Char) : trim (front ++ t) = trim t := by
    have htrim : trim (front ++ t ++ []) = trim t := trim_blanks hfront hnil
    rwa [append_nil] at htrim
  induction l generalizing quote segment with
  | nil => rw [segments, segments, map_singleton, map_singleton, htrim]
  | cons c l ih =>
      rw [segments, segments]
      split_ifs with hc
      · rw [map_cons, map_cons, htrim]
      · rw [append_assoc, ih]

/-- Blanks behind an array belong to its last string. -/
theorem trim_segments_back {back : List Char} (hback : Blank back) :
    (segments quote segment (l ++ back)).map trim = (segments quote segment l).map trim := by
  have hcomma : ',' ∉ back := fun hmem ↦ absurd (hback ',' hmem) (by decide)
  have hnil : Blank [] := fun _ hc ↦ nomatch hc
  induction l generalizing quote segment with
  | nil =>
      have htrim : trim ([] ++ segment ++ back) = trim segment := trim_blanks hnil hback
      rw [nil_append, segments_of_no_comma hcomma, segments, map_singleton,
        map_singleton, ← htrim, nil_append]
  | cons c l ih =>
      rw [cons_append, segments, segments]
      split_ifs with hc
      · rw [map_cons, map_cons, ih]
      · exact ih

theorem trim_segments_trim :
    (segments .outside [] (trim l)).map trim = (segments .outside [] l).map trim := by
  obtain ⟨front, back, heq, hfront, hback⟩ := exists_trim l
  have hpasses : passes ',' .outside front = some .outside := hfront.passes (by decide)
  have hmap : (segments .outside [] (front ++ (trim l ++ back))).map trim =
      (segments .outside [] (trim l)).map trim := by
    rw [segments_append hpasses, nil_append, ← append_nil front,
      trim_segments_front hfront, trim_segments_back hback]
  rw [← hmap, ← append_assoc, ← heq]

theorem stringArray_of_parseStringArray {values : List String}
    (h : parseStringArray text = .ok values) (hhead : text.head? = some '[')
    (hcount : ∀ t ∈ stringTexts text, Quote.outside.count t = 2) : StringArray text := by
  rw [parseStringArray, ite_bail_eq_ok, not_not] at h
  obtain ⟨hlast, h⟩ := h
  have hlength : 2 ≤ text.length := by
    rcases text with - | ⟨c, - | ⟨d, rest⟩⟩
    · cases hhead
    · rw [List.head?_singleton, Option.some.injEq] at hhead
      rw [hhead] at hlast
      cases hlast
    · simp
  obtain ⟨inner, rfl, hinner⟩ := exists_middle hhead hlast hlength
  rw [stringTexts, if_pos hhead, hinner] at hcount
  simp only [hinner] at h
  refine ⟨inner, rfl, ?_⟩
  by_cases hblank : trim inner = []
  · exact .inl (blank_iff_trim_eq_nil.mpr hblank)
  · rw [if_neg hblank] at h hcount
    obtain ⟨hjoin, hne⟩ := @intercalate_segments .outside inner []
    refine .inr ⟨segments .outside [] inner, hne, hjoin.symm, fun item hitem ↦ padded_of_trim ?_⟩
    have hmem : trim item ∈ (segments .outside [] inner).map trim := mem_map_of_mem hitem
    have hread : ∃ value, parseString (trim item) = .ok value := by
      rw [← trim_segments_trim] at hmem
      obtain ⟨t, ht, heq⟩ := mem_map.mp hmem
      rw [← heq]
      exact parseString_of_parseSegments h t ht
    obtain ⟨value, hvalue⟩ := hread
    exact basicString_of_parseString hvalue (hcount _ hmem)

/-- A value that is read as a string or an array has the form of one when its strings have their
own quotes only. -/
theorem valueForm_of_parseValue {result : Value} (h : parseValue text = .ok result)
    (hresult : ∀ n, result ≠ .integer n)
    (hcount : ∀ t ∈ stringTexts text, Quote.outside.count t = 2) : ValueForm text := by
  rw [parseValue] at h
  split_ifs at h with hstring harray hdigits
  · obtain ⟨value, hvalue, -⟩ := bind_eq_ok.mp h
    refine .inl (basicString_of_parseString hvalue (hcount text ?_))
    rw [stringTexts, if_neg (by rw [hstring]; decide)]
    exact mem_singleton_self text
  · obtain ⟨values, hvalues, -⟩ := bind_eq_ok.mp h
    exact .inr (stringArray_of_parseStringArray hvalues harray hcount)
  · obtain ⟨n, -, hn⟩ := bind_eq_ok.mp h
    cases hn
    exact absurd rfl (hresult n)
  · cases h

/-! ### Lines -/

theorem breakAt_eq :
    (breakAt sep quote l).1 ++ (breakAt sep quote l).2.2 = l ∧
      ∀ c ∈ (breakAt sep quote l).2.2.head?, c = sep := by
  induction l generalizing quote with
  | nil => exact ⟨rfl, fun c hc ↦ nomatch hc⟩
  | cons c l ih =>
      rw [breakAt]
      by_cases hc : quote.inString = false ∧ c = sep
      · rw [if_pos hc]
        exact ⟨rfl, fun d hd ↦ by cases hd; exact hc.2⟩
      · rw [if_neg hc]
        exact ⟨congrArg (c :: ·) ih.1, ih.2⟩

theorem exists_comment {rawLine line : List Char} (h : stripComment rawLine = .ok line) :
    ∃ comment, rawLine = line ++ comment ∧ Comment comment := by
  obtain ⟨heq, hhead⟩ := @breakAt_eq '#' .outside rawLine
  rw [stripComment] at h
  rcases hbreak : breakAt '#' .outside rawLine with ⟨before, last, after⟩
  rw [hbreak] at h heq hhead
  cases after with
  | nil =>
      simp only [ite_bail_eq_ok, Except.ok.injEq] at h
      exact ⟨[], by rw [h.2, append_nil], fun _ hc ↦ by cases hc⟩
  | cons c after =>
      simp only [Except.ok.injEq] at h
      exact ⟨c :: after, by rw [← h, heq], hhead⟩

/-- What a line has that is read as an assignment. -/
theorem parts_of_lineContent {rawLine : List Char} {key : String} {result : Value}
    (h : lineContent rawLine = .ok (.assignment key result)) :
    ∃ before after comment, rawLine = before ++ '=' :: (after ++ comment) ∧
      Padded BareKey before ∧ Comment comment ∧ valueText rawLine = trim after ∧
      parseValue (trim after) = .ok result := by
  rw [lineContent, bind_eq_ok] at h
  obtain ⟨line, hline, h⟩ := h
  obtain ⟨comment, hraw, hcomment⟩ := exists_comment hline
  obtain ⟨front, back, hspace, hfront, hback⟩ := exists_trim line
  dsimp only at h
  split_ifs at h with hempty
  · cases h
  obtain ⟨header, -, h⟩ := bind_eq_ok.mp h
  cases header with
  | some kind => cases h
  | none =>
      obtain ⟨⟨key', result'⟩, hassignment, h⟩ := bind_eq_ok.mp h
      cases h
      obtain ⟨heq, hhead⟩ := @breakAt_eq '=' .outside (trim line)
      have htext : valueText rawLine = trim (breakAt '=' .outside (trim line)).2.2.tail := by
        rw [valueText, hline]
      rw [parseAssignment] at hassignment
      rcases hbreak : breakAt '=' .outside (trim line) with ⟨before, last, after⟩
      rw [hbreak] at heq hhead htext hassignment
      cases after with
      | nil => cases hassignment
      | cons c after =>
          cases hhead c rfl
          simp only [ite_bail_eq_ok, bind_eq_ok] at hassignment
          obtain ⟨hkey, -, value, hvalue, hpair⟩ := hassignment
          cases hpair
          have hnil : Blank [] := fun _ hc ↦ absurd hc not_mem_nil
          have htrim : trim (front ++ before ++ []) = trim before := trim_blanks hfront hnil
          have htrim' : trim ([] ++ after ++ back) = trim after := trim_blanks hnil hback
          rw [append_nil] at htrim
          rw [nil_append] at htrim'
          refine ⟨front ++ before, after ++ back, comment, ?_, padded_of_trim ?_, hcomment, ?_, ?_⟩
          · rw [hraw, hspace, ← heq]
            simp
          · rw [htrim]
            rw [not_or, Bool.not_eq_true, Bool.not_eq_false] at hkey
            exact ⟨hkey.1, all_eq_true.mp hkey.2⟩
          · rw [htext, htrim', tail_cons]
          · rw [htrim']
            exact hvalue

/-- A line that is read as the assignment of a string or an array of strings is well formed if and
only if each string of it has no quotes but its own. -/
theorem wellFormedLine_iff (rawLine : List Char) (key : String) (value : Value)
    (hread : lineContent rawLine = .ok (.assignment key value))
    (hvalue : ∀ n, value ≠ .integer n) : WellFormedLine rawLine ↔ OwnQuotesOnly rawLine := by
  constructor
  · exact ownQuotesOnly_of_wellFormedLine
  · intro hquotes
    obtain ⟨before, after, comment, hraw, hkey, hcomment, htext, hparse⟩ :=
      parts_of_lineContent hread
    rw [OwnQuotesOnly, htext] at hquotes
    exact ⟨before, after, comment, hraw, hkey,
      padded_of_trim (valueForm_of_parseValue hparse hvalue hquotes), hcomment⟩

end

theorem wellFormedLine_iff_note :
    WellFormedLine "note = \"a, b\" # c".toList ↔ OwnQuotesOnly "note = \"a, b\" # c".toList :=
  wellFormedLine_iff "note = \"a, b\" # c".toList "note" (.string "a, b") (by decide +kernel)
    fun _ h ↦ nomatch h

/-- Two strings side by side are read as one, of which the quotes between them are a part. -/
theorem two_strings_read_as_one :
    ¬∀ key value, lineContent "note = \"a\" b \"c\"".toList = .ok (.assignment key value) →
      (∀ n, value ≠ .integer n) → WellFormedLine "note = \"a\" b \"c\"".toList := by
  intro h
  have hread : lineContent "note = \"a\" b \"c\"".toList =
      .ok (.assignment "note" (.string "a\" b \"c")) := by decide +kernel
  have hwell := h "note" (.string "a\" b \"c") hread fun _ h ↦ nomatch h
  exact absurd (ownQuotesOnly_of_wellFormedLine hwell) (by decide)

end KaduoxSsh.Hosts.Toml
