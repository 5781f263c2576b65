import Mathlib.Data.List.DropRight

/-!
# The command language of cmd.exe

A line goes through three hands. Names between percent signs are replaced first, wherever they
stand. The reader then cuts the line at each `&&`: quotes are switched on and off, and outside
them a caret makes the next character literal. A line in which another operator acts is not
read. What a command makes of its text is its own affair: programs cut it into words, `cd`
drops the quotes, and `set` takes it as it is.

Whether a parenthesis also acts behind the start of a command is left open.
-/

namespace KaduoxSsh.Cmd

open List

/-! ## Variables -/

/-- The text after a replacement of names between percent signs. A name that is read may have
been begun, and a percent sign that ends no name begins one. -/
def expandFrom (lookup : List Char → Option (List Char)) : Option (List Char) → List Char →
    List Char
  | none, [] => []
  | some name, [] => '%' :: name
  | none, c :: cs => if c = '%' then expandFrom lookup (some []) cs
      else c :: expandFrom lookup none cs
  | some name, c :: cs =>
      if c = '%' then
        match if name = [] then none else lookup name with
        | some value => value ++ expandFrom lookup none cs
        | none => '%' :: name ++ expandFrom lookup (some []) cs
      else expandFrom lookup (some (name ++ [c])) cs

def expand (lookup : List Char → Option (List Char)) (line : List Char) : List Char :=
  expandFrom lookup none line

/-- Somewhere in a text a name stands between percent signs. -/
def Expandable (cs : List Char) : Prop :=
  ∃ front name back, cs = front ++ '%' :: name ++ '%' :: back ∧ name ≠ [] ∧ '%' ∉ name

/-- How far the percent signs of a text have come. -/
inductive Percent where
  | untouched
  | adjacent
  | apart
  | expands
deriving DecidableEq, Repr

namespace Percent

/-- A character that is no percent sign. -/
def away : Percent → Percent
  | .adjacent => .apart
  | s => s

def sign : Percent → Percent
  | .untouched | .adjacent => .adjacent
  | .apart | .expands => .expands

def step (s : Percent) (c : Char) : Percent := if c = '%' then s.sign else s.away

def scan (s : Percent) (cs : List Char) : Percent := cs.foldl step s

variable {s : Percent} {c : Char} {cs cs' : List Char}

@[simp] theorem away_away : s.away.away = s.away := by cases s <;> rfl

@[simp] theorem away_untouched : away .untouched = .untouched := rfl

@[simp] theorem scan_nil : s.scan [] = s := rfl

theorem scan_cons : s.scan (c :: cs) = (s.step c).scan cs := rfl

theorem scan_append : s.scan (cs ++ cs') = (s.scan cs).scan cs' := foldl_append

theorem scan_of_ne (h : c ≠ '%') : s.scan (c :: cs) = s.away.scan cs := by
  rw [scan_cons, step, if_neg h]

theorem away_eq_expands : s.away = .expands ↔ s = .expands := by cases s <;> decide

theorem scan_expands : scan .expands cs = .expands := by
  induction cs with
  | nil => rfl
  | cons c cs ih =>
      have hstep : step .expands c = .expands := by
        rw [step]
        split <;> rfl
      rw [scan_cons, hstep, ih]

theorem scan_apart : scan .apart cs = .expands ↔ '%' ∈ cs := by
  induction cs with
  | nil => decide
  | cons c cs ih =>
      by_cases hc : c = '%'
      · rw [hc]
        exact iff_of_true scan_expands mem_cons_self
      · rw [scan_of_ne hc]
        refine ih.trans (Iff.trans ?_ mem_cons.symm)
        exact (or_iff_right fun h ↦ hc h.symm).symm

end Percent

theorem Expandable.cons {cs : List Char} (h : Expandable cs) (c : Char) : Expandable (c :: cs) := by
  obtain ⟨front, name, back, rfl, hname⟩ := h
  exact ⟨c :: front, name, back, rfl, hname⟩

theorem expandable_cons_iff {c : Char} {cs : List Char} :
    Expandable (c :: cs) ↔
      c = '%' ∧ (∃ name back, cs = name ++ '%' :: back ∧ name ≠ [] ∧ '%' ∉ name) ∨
        Expandable cs := by
  constructor
  · rintro ⟨front, name, back, heq, hname⟩
    cases front with
    | nil =>
        injection heq with hc hcs
        exact .inl ⟨hc, name, back, hcs, hname⟩
    | cons d front =>
        injection heq with hc hcs
        exact .inr ⟨front, name, back, hcs, hname⟩
  · rintro (⟨rfl, name, back, rfl, hname⟩ | h)
    · exact ⟨[], name, back, rfl, hname⟩
    · exact h.cons c

/-- A percent sign is followed by a name and another one. -/
theorem named_iff {c : Char} {cs : List Char} :
    (∃ name back, c :: cs = name ++ '%' :: back ∧ name ≠ [] ∧ '%' ∉ name) ↔
      c ≠ '%' ∧ '%' ∈ cs := by
  constructor
  · rintro ⟨name, back, heq, hne, hname⟩
    cases name with
    | nil => exact absurd rfl hne
    | cons d name =>
        injection heq with hc hcs
        refine ⟨fun h ↦ hname ?_, hcs ▸ mem_append_right _ mem_cons_self⟩
        rw [← hc, h]
        exact mem_cons_self
  · rintro ⟨hc, hmem⟩
    obtain ⟨name, back, rfl, hname⟩ := eq_append_cons_of_mem hmem
    refine ⟨c :: name, back, rfl, cons_ne_nil c name, ?_⟩
    exact fun h ↦ (mem_cons.mp h).elim (fun h ↦ hc h.symm) hname

/-- The scan finds out whether a name stands between percent signs. -/
theorem scan_eq_expands_iff {cs : List Char} :
    (Percent.scan .untouched cs = .expands ↔ Expandable cs) ∧
      (Percent.scan .adjacent cs = .expands ↔ Expandable ('%' :: cs)) := by
  induction cs with
  | nil =>
      refine ⟨iff_of_false (by decide) ?_, iff_of_false (by decide) ?_⟩
      · rintro ⟨front, name, back, heq, -⟩
        cases front <;> cases heq
      · rintro ⟨front, name, back, heq, hne, -⟩
        have hlength := congrArg List.length heq
        have hpos := length_pos_iff.mpr hne
        simp at hlength
        omega
  | cons c cs ih =>
      by_cases hc : c = '%'
      · subst hc
        refine ⟨ih.2, ih.2.trans ?_⟩
        refine Iff.trans ?_ expandable_cons_iff.symm
        rw [named_iff]
        exact (or_iff_right fun h ↦ h.2.1 rfl).symm
      · refine ⟨?_, ?_⟩
        · rw [Percent.scan_of_ne hc, expandable_cons_iff]
          exact ih.1.trans (or_iff_right fun h ↦ hc h.1).symm
        · have hbehind : Expandable (c :: cs) → '%' ∈ cs := by
            rw [expandable_cons_iff]
            rintro (⟨h, -⟩ | ⟨front, name, back, rfl, -⟩)
            · exact absurd h hc
            · simp
          rw [Percent.scan_of_ne hc, expandable_cons_iff, named_iff]
          refine Percent.scan_apart.trans ⟨fun h ↦ .inl ⟨rfl, hc, h⟩, ?_⟩
          rintro (⟨-, -, h⟩ | h)
          · exact h
          · exact hbehind h

/-- What the scan knows of a name that has been begun. -/
def Percent.ofName : Option (List Char) → Percent
  | none => .untouched
  | some [] => .adjacent
  | some (_ :: _) => .apart

/-- The text of a name that has been begun. -/
def nameText (name : Option (List Char)) : List Char := (name.map ('%' :: ·)).getD []

theorem Percent.ofName_append (name : List Char) (c : Char) :
    Percent.ofName (some (name ++ [c])) = .apart := by
  cases name <;> rfl

theorem Percent.away_ofName (name : List Char) : (Percent.ofName (some name)).away = .apart := by
  cases name <;> rfl

section

variable {lookup : List Char → Option (List Char)} {name cs : List Char} {c d : Char}

theorem expandFrom_begin :
    expandFrom lookup none ('%' :: cs) = expandFrom lookup (some []) cs := if_pos rfl

theorem expandFrom_again :
    expandFrom lookup (some []) ('%' :: cs) = '%' :: expandFrom lookup (some []) cs := if_pos rfl

theorem expandFrom_end_none (h : lookup (d :: name) = none) :
    expandFrom lookup (some (d :: name)) ('%' :: cs) =
      '%' :: d :: name ++ expandFrom lookup (some []) cs := by
  rw [expandFrom, if_pos rfl, if_neg (cons_ne_nil d name), h]

theorem expandFrom_end_some {value : List Char} (h : lookup (d :: name) = some value) :
    expandFrom lookup (some (d :: name)) ('%' :: cs) = value ++ expandFrom lookup none cs := by
  rw [expandFrom, if_pos rfl, if_neg (cons_ne_nil d name), h]

theorem expandFrom_none (h : c ≠ '%') :
    expandFrom lookup none (c :: cs) = c :: expandFrom lookup none cs := if_neg h

theorem expandFrom_some (h : c ≠ '%') :
    expandFrom lookup (some name) (c :: cs) = expandFrom lookup (some (name ++ [c])) cs := if_neg h

end

/-- A text without names between percent signs stays as it is. -/
theorem expandFrom_eq_self {lookup : List Char → Option (List Char)} {name : Option (List Char)}
    {cs : List Char} (h : (Percent.ofName name).scan cs ≠ .expands) :
    expandFrom lookup name cs = nameText name ++ cs := by
  induction cs generalizing name with
  | nil => cases name <;> simp [expandFrom, nameText]
  | cons c cs ih =>
      by_cases hc : c = '%'
      · subst hc
        rcases name with _ | _ | ⟨d, name⟩
        · rw [expandFrom_begin]
          exact ih h
        · rw [expandFrom_again, ih h]
          rfl
        · exact absurd Percent.scan_expands h
      · rw [Percent.scan_of_ne hc] at h
        cases name with
        | none =>
            rw [expandFrom_none hc]
            exact congrArg (c :: ·) (ih h)
        | some name =>
            rw [Percent.away_ofName, ← Percent.ofName_append name c] at h
            rw [expandFrom_some hc, ih h]
            simp [nameText]

theorem expand_eq_self {lookup : List Char → Option (List Char)} {line : List Char}
    (h : ¬Expandable line) : expand lookup line = line :=
  expandFrom_eq_self (mt scan_eq_expands_iff.1.mp h)

/-- Where no variable is known nothing is replaced. -/
theorem expandFrom_of_none {name : Option (List Char)} {cs : List Char} :
    expandFrom (fun _ ↦ none) name cs = nameText name ++ cs := by
  induction cs generalizing name with
  | nil => cases name <;> simp [expandFrom, nameText]
  | cons c cs ih =>
      by_cases hc : c = '%'
      · subst hc
        rcases name with _ | _ | ⟨d, name⟩
        · rw [expandFrom_begin, ih]
          rfl
        · rw [expandFrom_again, ih]
          rfl
        · rw [expandFrom_end_none rfl, ih]
          rfl
      · cases name with
        | none =>
            rw [expandFrom_none hc, ih]
            rfl
        | some name =>
            rw [expandFrom_some hc, ih]
            simp [nameText]

/-- Every variable is empty. -/
def emptied (_ : List Char) : Option (List Char) := some []

/-- Where every variable is empty no percent sign is added. -/
theorem count_expandFrom_le {name : Option (List Char)} {cs : List Char} :
    (expandFrom emptied name cs).count '%' ≤ (nameText name ++ cs).count '%' := by
  induction cs generalizing name with
  | nil => cases name <;> simp [expandFrom, nameText]
  | cons c cs ih =>
      by_cases hc : c = '%'
      · subst hc
        rcases name with _ | _ | ⟨d, name⟩
        · rw [expandFrom_begin]
          exact ih
        · have hrest : (expandFrom emptied (some []) cs).count '%' ≤ ('%' :: cs).count '%' := ih
          rw [expandFrom_again, count_cons_self]
          exact le_of_le_of_eq (Nat.succ_le_succ hrest) count_cons_self.symm
        · have hrest : (expandFrom emptied none cs).count '%' ≤ cs.count '%' := ih
          have hend : expandFrom emptied (some (d :: name)) ('%' :: cs) =
              [] ++ expandFrom emptied none cs := expandFrom_end_some rfl
          rw [hend, nil_append, count_append, count_cons_self]
          omega
      · cases name with
        | none =>
            have hrest : (expandFrom emptied none cs).count '%' ≤ cs.count '%' := ih
            change _ ≤ (c :: cs).count '%'
            rwa [expandFrom_none hc, count_cons_of_ne hc, count_cons_of_ne hc]
        | some name =>
            rw [expandFrom_some hc]
            refine le_of_le_of_eq ih ?_
            simp [nameText]

/-- A name between percent signs loses them where every variable is empty. -/
theorem count_expandFrom_lt {name : Option (List Char)} {cs : List Char}
    (h : (Percent.ofName name).scan cs = .expands) :
    (expandFrom emptied name cs).count '%' < (nameText name ++ cs).count '%' := by
  induction cs generalizing name with
  | nil => rcases name with _ | _ | ⟨d, name⟩ <;> cases h
  | cons c cs ih =>
      by_cases hc : c = '%'
      · subst hc
        rcases name with _ | _ | ⟨d, name⟩
        · rw [expandFrom_begin]
          exact ih h
        · have hrest : (expandFrom emptied (some []) cs).count '%' < ('%' :: cs).count '%' := ih h
          rw [expandFrom_again, count_cons_self]
          exact lt_of_lt_of_eq (Nat.succ_lt_succ hrest) count_cons_self.symm
        · have hrest : (expandFrom emptied none cs).count '%' ≤ cs.count '%' := count_expandFrom_le
          have hend : expandFrom emptied (some (d :: name)) ('%' :: cs) =
              [] ++ expandFrom emptied none cs := expandFrom_end_some rfl
          rw [hend, nil_append, count_append, count_cons_self]
          omega
      · rw [Percent.scan_of_ne hc] at h
        cases name with
        | none =>
            have hrest : (expandFrom emptied none cs).count '%' < cs.count '%' := ih h
            change _ < (c :: cs).count '%'
            rwa [expandFrom_none hc, count_cons_of_ne hc, count_cons_of_ne hc]
        | some name =>
            rw [Percent.away_ofName, ← Percent.ofName_append name c] at h
            rw [expandFrom_some hc]
            refine lt_of_lt_of_eq (ih h) ?_
            simp [nameText]

/-! ## Commands -/

def isBlank (c : Char) : Bool := c = ' ' || c = '\t'

def isParen (c : Char) : Bool := c = '(' || c = ')'

/-- What acts outside quotes, apart from a parenthesis. -/
def operators : List Char := ['"', '^', '&', '|', '<', '>', '\n', '\r']

inductive Mode where
  | bare
  | quoted
  | escaped
  | ampersand
deriving DecidableEq, Repr

structure Reader where
  /-- The texts of the commands that have ended. -/
  commands : List (List Char)
  current : List Char
  mode : Mode
deriving DecidableEq, Repr

namespace Reader

def init : Reader := ⟨[], [], .bare⟩

def push (r : Reader) (c : Char) (mode : Mode) : Reader :=
  { r with current := r.current ++ [c], mode }

/-- Whether a parenthesis acts. -/
def acts (inner : Bool) (r : Reader) (c : Char) : Bool :=
  isParen c && (inner || r.current.all isBlank)

def bare (inner : Bool) (r : Reader) (c : Char) : Option Reader :=
  if c = '"' then some (r.push c .quoted)
  else if c = '^' then some { r with mode := .escaped }
  else if c = '&' then some { r with mode := .ampersand }
  else if c ∈ operators ∨ r.acts inner c = true then none
  else some (r.push c .bare)

/-- One more character is read. -/
def step (inner : Bool) (r : Reader) (c : Char) : Option Reader :=
  match r.mode with
  | .bare => r.bare inner c
  | .quoted => some (r.push c (if c = '"' then .bare else .quoted))
  | .escaped => some (r.push c .bare)
  | .ampersand => if c = '&' then some ⟨r.commands ++ [r.current], [], .bare⟩ else none

def run (inner : Bool) (r : Reader) (cs : List Char) : Option Reader := cs.foldlM (step inner) r

/-- Quotes may be left open at the end. -/
def finish (r : Reader) : Option (List (List Char)) :=
  match r.mode with
  | .bare | .quoted => some (r.commands ++ [r.current])
  | .escaped | .ampersand => none

end Reader

/-- The texts of the commands of a line. -/
def commands (inner : Bool) (line : List Char) : Option (List (List Char)) :=
  (Reader.init.run inner line).bind Reader.finish

namespace Reader

variable {inner : Bool} {r r' : Reader} {c : Char} {cs cs' : List Char}

theorem run_nil : r.run inner [] = some r := rfl

theorem run_cons : r.run inner (c :: cs) = (r.step inner c).bind (·.run inner cs) := rfl

theorem run_append : r.run inner (cs ++ cs') = (r.run inner cs).bind (·.run inner cs') :=
  List.foldlM_append

/-- Whatever is read behind them, the commands that have ended stay. -/
theorem step_commands (h : r.step inner c = some r') : r.commands <+: r'.commands := by
  unfold step bare push at h
  split at h
  · split_ifs at h <;> cases h <;> exact List.prefix_rfl
  · cases h
    exact List.prefix_rfl
  · cases h
    exact List.prefix_rfl
  · split_ifs at h
    cases h
    exact List.prefix_append _ _

theorem run_commands (h : r.run inner cs = some r') : r.commands <+: r'.commands := by
  induction cs generalizing r with
  | nil =>
      cases h
      exact List.prefix_rfl
  | cons c cs ih =>
      obtain ⟨r₁, hstep, hrun⟩ := Option.bind_eq_some_iff.mp h
      exact (step_commands hstep).trans (ih hrun)

/-- Characters that do not act are added to the text of a command. -/
theorem run_idle (hmode : r.mode = .bare) (h : ∀ c ∈ cs, c ∉ operators ∧
    (isParen c = true → inner = false ∧ r.current.all isBlank = false)) :
    r.run inner cs = some ⟨r.commands, r.current ++ cs, .bare⟩ := by
  induction cs generalizing r with
  | nil =>
      obtain ⟨commands, current, mode⟩ := r
      cases hmode
      rw [List.append_nil]
      rfl
  | cons c cs ih =>
      obtain ⟨⟨hc, hparen⟩, hcs⟩ := List.forall_mem_cons.mp h
      have hne : ∀ d ∈ operators, c ≠ d := fun d hd heq ↦ hc (heq ▸ hd)
      have hacts : ¬(c ∈ operators ∨ r.acts inner c = true) := by
        rintro (hmem | hacts)
        · exact hc hmem
        · obtain ⟨hp, hplace⟩ := Bool.and_eq_true_iff.mp hacts
          rw [(hparen hp).1, (hparen hp).2] at hplace
          cases hplace
      have hstep : r.step inner c = some (r.push c .bare) := by
        rw [step, hmode]
        dsimp only
        rw [bare, if_neg (hne _ (by decide)), if_neg (hne _ (by decide)),
          if_neg (hne _ (by decide)), if_neg hacts]
      rw [run_cons, hstep, Option.bind_some, ih rfl]
      · rw [push, List.append_assoc, List.singleton_append]
      · intro d hd
        refine ⟨(hcs d hd).1, fun hp ↦ ⟨((hcs d hd).2 hp).1, ?_⟩⟩
        change (r.current ++ [c]).all isBlank = false
        rw [List.all_append, ((hcs d hd).2 hp).2, Bool.false_and]

/-- No percent sign is dropped. -/
theorem step_count (h : r.step inner c = some r') :
    r'.commands.flatten.count '%' + r'.current.count '%' =
      r.commands.flatten.count '%' + r.current.count '%' + [c].count '%' := by
  unfold step bare push at h
  split at h
  · split_ifs at h with hquote hcaret hand hother
    · cases h
      rw [List.count_append, Nat.add_assoc]
    · cases h
      rw [hcaret]
      rfl
    · cases h
      rw [hand]
      rfl
    · cases h
      rw [List.count_append, Nat.add_assoc]
  · cases h
    rw [List.count_append, Nat.add_assoc]
  · cases h
    rw [List.count_append, Nat.add_assoc]
  · split_ifs at h with hand
    cases h
    rw [hand]
    simp

theorem run_count (h : r.run inner cs = some r') :
    r'.commands.flatten.count '%' + r'.current.count '%' =
      r.commands.flatten.count '%' + r.current.count '%' + cs.count '%' := by
  induction cs generalizing r with
  | nil =>
      cases h
      rfl
  | cons c cs ih =>
      obtain ⟨r₁, hstep, hrun⟩ := Option.bind_eq_some_iff.mp h
      have hcons : (c :: cs).count '%' = [c].count '%' + cs.count '%' := by
        rw [← List.count_append, List.singleton_append]
      rw [ih hrun, step_count hstep, Nat.add_assoc, hcons]

theorem finish_eq_some {texts : List (List Char)} (h : r.finish = some texts) :
    texts = r.commands ++ [r.current] := by
  unfold finish at h
  split at h <;> cases h <;> rfl

end Reader

theorem count_commands {inner : Bool} {line : List Char} {texts : List (List Char)}
    (h : commands inner line = some texts) : texts.flatten.count '%' = line.count '%' := by
  obtain ⟨r, hrun, hfinish⟩ := Option.bind_eq_some_iff.mp h
  have hcount := Reader.run_count hrun
  rw [Reader.finish_eq_some hfinish, List.flatten_append, List.count_append,
    List.flatten_singleton, hcount]
  exact Nat.zero_add _

/-! ## What commands make of their texts -/

inductive Quotes where
  | bare
  | quoted
  /-- A quote in quotes, which another one makes a character. -/
  | closing
deriving DecidableEq, Repr

/-- The words that a program is given. -/
def words : Option (List Char) → Quotes → List Char → List (List Char)
  | word, _, [] => word.toList
  | word, mode, c :: cs =>
      if mode = .quoted then
        if c = '"' then words word .closing cs else words (some (word.getD [] ++ [c])) .quoted cs
      else if c = '"' then
        words (some (word.getD [] ++ if mode = .closing then ['"'] else [])) .quoted cs
      else if isBlank c then word.toList ++ words none .bare cs
      else words (some (word.getD [] ++ [c])) .bare cs

/-- What `cd` makes of an operand: the blanks around it and all quotes are dropped. -/
def operand (cs : List Char) : List Char :=
  ((cs.dropWhile isBlank).rdropWhile isBlank).filter (· ≠ '"')

/-- A text that changes the directory. -/
def ChangesTo (text directory : List Char) : Prop :=
  ∃ rest, text.dropWhile isBlank = "cd /d ".toList ++ rest ∧ operand rest = directory

/-- A text that sets a variable. -/
def Sets (text name value : List Char) : Prop :=
  text.dropWhile isBlank = "set ".toList ++ name ++ '=' :: value

instance decidableSets (text name value : List Char) : Decidable (Sets text name value) :=
  inferInstanceAs (Decidable (_ = _))

/-- Words hold all percent signs of their text. -/
theorem count_words {word : Option (List Char)} {mode : Quotes} {cs : List Char} :
    (words word mode cs).flatten.count '%' = (word.getD []).count '%' + cs.count '%' := by
  induction cs generalizing word mode with
  | nil => cases word <;> simp [words]
  | cons c cs ih =>
      have hcons : (c :: cs).count '%' = [c].count '%' + cs.count '%' := by
        rw [← count_append, singleton_append]
      rw [words, hcons]
      split_ifs with hquoted hquote hquote hclosing hblank
      · rw [ih, hquote]
        exact congrArg _ (Nat.zero_add _).symm
      · rw [ih, Option.getD_some, count_append, Nat.add_assoc]
      · rw [ih, hquote, Option.getD_some, count_append, Nat.add_assoc]
      · rw [ih, hquote, Option.getD_some, append_nil]
        exact congrArg _ (Nat.zero_add _).symm
      · have hc : [c].count '%' = 0 := by
          refine count_eq_zero_of_not_mem fun hmem ↦ ?_
          rw [← mem_singleton.mp hmem] at hblank
          exact absurd hblank (by decide)
        have hword : word.toList.flatten.count '%' = (word.getD []).count '%' := by
          cases word <;> simp
        rw [flatten_append, count_append, ih, hc, hword]
        rfl
      · rw [ih, Option.getD_some, count_append, Nat.add_assoc]

theorem count_operand_le {cs : List Char} : (operand cs).count '%' ≤ cs.count '%' := by
  refine (List.Sublist.count_le _ ?_)
  exact filter_sublist.trans
    ((List.rdropWhile_prefix _ _).sublist.trans (dropWhile_suffix _).sublist)

theorem ChangesTo.count_le {text directory : List Char} (h : ChangesTo text directory) :
    directory.count '%' ≤ text.count '%' := by
  obtain ⟨rest, htext, rfl⟩ := h
  have hrest : rest.count '%' ≤ (text.dropWhile isBlank).count '%' := by
    rw [htext, count_append]
    exact Nat.le_add_left _ _
  exact count_operand_le.trans (hrest.trans ((dropWhile_suffix _).sublist.count_le _))

end KaduoxSsh.Cmd
