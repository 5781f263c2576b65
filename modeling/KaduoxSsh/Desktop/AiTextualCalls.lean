import KaduoxSsh.Desktop.AiToolCallsSafety

/-!
# What is left of an answer

The scan of lines takes out of an answer what has become a call. A line with a reason is held
back until the next line is known. It is lost when that line asks for a command that is refused,
and of reasons in a row every other one is kept although a call follows.

The lines are told apart by their numbers, since some may be alike.
-/

namespace KaduoxSsh.Desktop.Ai

open Hosts Text List

/-! ## Kinds of lines -/

def isReason (line : List Char) : Bool := (labelled "reason" line).isSome

def isCommand (line : List Char) : Bool := (labelled "command" line).isSome

/-- Whether a line asks for a command that may be sent. -/
def makesCall (line : List Char) : Bool :=
  (labelled "command" line).any fun command ↦
    (validateCommand (String.ofList (trim command.toList))).isOk

/-- The command that a line asks for. -/
def commandOf (line : List Char) : String :=
  String.ofList (trim ((labelled "command" line).getD "").toList)

section

variable {line : List Char}

theorem isCommand_of_makesCall (h : makesCall line = true) : isCommand line = true := by
  obtain ⟨command, hcommand, -⟩ := (Option.any_eq_true _ _).mp h
  rw [isCommand, hcommand]
  rfl

/-- A line with a label begins as the label does. -/
theorem head_of_labelled {label : String} {c : Char} (hlabel : label.toList.head? = some c)
    (h : (labelled label line).isSome = true) : (trim line).head? = some c := by
  have hstrip : ∀ colon : String,
      (stripPrefix (String.ofList (trim line)) (label ++ colon)).isSome = true →
        (trim line).head? = some c := by
    intro colon hsome
    obtain ⟨rest, hrest⟩ := Option.isSome_iff_exists.mp hsome
    have htext := stripPrefix_eq_some.mp hrest
    rw [String.toList_ofList, String.toList_append, append_assoc] at htext
    rw [htext, List.head?_append, hlabel]
    rfl
  rw [labelled] at h
  cases hnarrow : stripPrefix (String.ofList (trim line)) (label ++ ":") with
  | some rest => exact hstrip ":" (by rw [hnarrow]; rfl)
  | none =>
      rw [hnarrow] at h
      exact hstrip "：" h

theorem isReason_head (h : isReason line = true) : (trim line).head? = some 'r' :=
  head_of_labelled rfl h

theorem isCommand_eq_false (h : isReason line = true) : isCommand line = false := by
  refine Bool.eq_false_iff.mpr fun hcommand ↦ ?_
  have hhead : (trim line).head? = some 'c' := head_of_labelled rfl hcommand
  rw [isReason_head h] at hhead
  exact absurd (Option.some.inj hhead) (by decide)

theorem makesCall_eq_false (h : isReason line = true) : makesCall line = false := by
  refine Bool.eq_false_iff.mpr fun hmakes ↦ ?_
  exact absurd (isCommand_of_makesCall hmakes) (by rw [isCommand_eq_false h]; exact nofun)

theorem isSeparator_eq_false (h : isReason line = true) : isSeparator line = false := by
  refine Bool.eq_false_iff.mpr fun hseparator ↦ ?_
  have hall : ∀ text ∈ ["---", "***", "___"], text.toList.head? ≠ some 'r' := by decide
  refine hall _ (contains_iff_mem.mp hseparator) ?_
  rw [String.toList_ofList]
  exact isReason_head h

end

/-! ## What is to be kept -/

section

variable {α : Type} (text : α → List Char)

/-- The lines that are to be kept once there are some calls: not those that become calls, not
the reason directly before one of these, and no separators behind a call. -/
def expected : Nat → List α → List α
  | _, [] => []
  | count, line :: rest =>
      if count < maxToolCalls ∧ makesCall (text line) = true then expected (count + 1) rest
      else if count < maxToolCalls ∧ isReason (text line) = true ∧
          rest.head?.any (fun next ↦ makesCall (text next)) = true then expected count rest
      else if 0 < count ∧ isSeparator (text line) = true then expected count rest
      else line :: expected count rest

/-- Wherever a command is asked for with reasons directly before it, the number of these is odd
if it may be sent, and even if it may not. -/
def ReasonsPaired : Nat → Nat → List α → Prop
  | _, _, [] => True
  | count, reasons, line :: rest =>
      if isReason (text line) = true then ReasonsPaired count (reasons + 1) rest
      else (count < maxToolCalls → isCommand (text line) = true →
          reasons = 0 ∨ (reasons % 2 = 1 ↔ makesCall (text line) = true)) ∧
        ReasonsPaired
          (if count < maxToolCalls ∧ makesCall (text line) = true then count + 1 else count) 0 rest

/-- A line behind some calls, which a separator is not. -/
def unseparated (count : Nat) (line : α) : List α :=
  if 0 < count ∧ isSeparator (text line) = true then [] else [line]

/-- What the scan keeps of lines, depending on the line that it holds back. -/
def keptFrom : Nat → Option α → List α → List α
  | _, pending, [] => pending.toList
  | count, pending, line :: rest =>
      if (pending.isNone ∧ count < maxToolCalls) ∧ isReason (text line) = true then
        keptFrom count (some line) rest
      else if count < maxToolCalls ∧ makesCall (text line) = true then
        keptFrom (count + 1) none rest
      else (if count < maxToolCalls ∧ isCommand (text line) = true then [] else pending.toList) ++
        (unseparated text count line ++ keptFrom count none rest)

variable {text : α → List Char} {count : Nat} {line next : α} {rest : List α}

theorem expected_of_call (hcount : count < maxToolCalls) (hmakes : makesCall (text line) = true) :
    expected text count (line :: rest) = expected text (count + 1) rest := by
  rw [expected, if_pos ⟨hcount, hmakes⟩]

/-- A line that is no reason stays unless it becomes a call. -/
theorem expected_of_other (hmakes : ¬(count < maxToolCalls ∧ makesCall (text line) = true))
    (hreason : ¬(count < maxToolCalls ∧ isReason (text line) = true)) :
    expected text count (line :: rest) =
      unseparated text count line ++ expected text count rest := by
  rw [expected, if_neg hmakes, if_neg fun h ↦ hreason ⟨h.1, h.2.1⟩, unseparated]
  split
  · rfl
  · rfl

/-- A reason stays unless the next line becomes a call. -/
theorem expected_of_reason (hreason : isReason (text line) = true)
    (hnext : ¬(count < maxToolCalls ∧ makesCall (text next) = true)) :
    expected text count (line :: next :: rest) = line :: expected text count (next :: rest) := by
  rw [expected, if_neg fun h ↦ Bool.eq_false_iff.mp (makesCall_eq_false hreason) h.2,
    if_neg fun h ↦ hnext ⟨h.1, h.2.2⟩,
    if_neg fun h ↦ Bool.eq_false_iff.mp (isSeparator_eq_false hreason) h.2]

theorem expected_of_last_reason (hreason : isReason (text line) = true) :
    expected text count [line] = [line] := by
  rw [expected, if_neg fun h ↦ Bool.eq_false_iff.mp (makesCall_eq_false hreason) h.2,
    if_neg fun h ↦ Bool.false_ne_true h.2.2,
    if_neg fun h ↦ Bool.eq_false_iff.mp (isSeparator_eq_false hreason) h.2, expected]

theorem expected_of_paired_reason (hcount : count < maxToolCalls)
    (hreason : isReason (text line) = true) (hnext : makesCall (text next) = true) :
    expected text count (line :: next :: rest) = expected text count (next :: rest) := by
  rw [expected, if_neg fun h ↦ Bool.eq_false_iff.mp (makesCall_eq_false hreason) h.2,
    if_pos ⟨hcount, hreason, hnext⟩]

theorem expected_sublist (lines : List α) : ∀ count, (expected text count lines).Sublist lines := by
  induction lines with
  | nil => exact fun _ ↦ List.Sublist.slnil
  | cons line rest ih =>
      intro count
      rw [expected]
      split_ifs
      · exact (ih _).cons line
      · exact (ih _).cons line
      · exact (ih _).cons line
      · exact (ih _).cons_cons line

theorem unseparated_sublist : (unseparated text count line).Sublist [line] := by
  rw [unseparated]
  split
  · exact nil_sublist [line]
  · exact List.Sublist.refl [line]

theorem keptFrom_sublist (lines : List α) :
    ∀ count (pending : Option α),
      (keptFrom text count pending lines).Sublist (pending.toList ++ lines) := by
  induction lines with
  | nil => exact fun _ pending ↦ by rw [keptFrom, append_nil]
  | cons line rest ih =>
      intro count pending
      rw [keptFrom]
      split_ifs with hreason
      · exact (ih _ _).trans (sublist_append_right _ _)
      · exact ((ih _ _).cons line).trans (sublist_append_right _ _)
      · exact (unseparated_sublist.append (ih _ _)).trans (sublist_append_right _ _)
      · exact (List.Sublist.refl _).append (unseparated_sublist.append (ih _ _))

/-! ## When all of it is kept -/

section

variable {text : α → List Char} {count reasons : Nat} {line reason : α} {rest : List α}

/-- With calls enough nothing is taken out any more but separators. -/
theorem keptFrom_of_full (hcount : ¬count < maxToolCalls) (lines : List α) :
    keptFrom text count none lines = expected text count lines ∧
      ReasonsPaired text count reasons lines := by
  induction lines generalizing reasons with
  | nil => exact ⟨rfl, trivial⟩
  | cons line rest ih =>
      constructor
      · rw [keptFrom, if_neg fun h ↦ hcount h.1.2, if_neg fun h ↦ hcount h.1,
          if_neg fun h ↦ hcount h.1, expected_of_other (fun h ↦ hcount h.1) fun h ↦ hcount h.1,
          (@ih 0).1]
        rfl
      · rw [ReasonsPaired]
        split
        · exact ih.2
        · rw [if_neg fun h ↦ hcount h.1]
          exact ⟨fun h ↦ absurd h hcount, ih.2⟩

/-- What is to be compared behind some reasons in a row, the last of which is given: the scan
holds back every other one. -/
def Agrees (text : α → List Char) (count : Nat) (rest : List α) : Prop :=
  (keptFrom text count none rest = expected text count rest ↔ ReasonsPaired text count 0 rest) ∧
    (count < maxToolCalls → ∀ reason reasons, isReason (text reason) = true → reason ∉ rest →
      (reasons % 2 = 1 → (keptFrom text count (some reason) rest =
        expected text count (reason :: rest) ↔ ReasonsPaired text count reasons rest)) ∧
      (reasons % 2 = 0 → reasons ≠ 0 → (reason :: keptFrom text count none rest =
        expected text count (reason :: rest) ↔ ReasonsPaired text count reasons rest)))

theorem Agrees.nil : Agrees text count ([] : List α) := by
  refine ⟨iff_of_true rfl trivial, fun _ reason reasons hreason _ ↦ ⟨fun _ ↦ ?_, fun _ _ ↦ ?_⟩⟩
  · exact iff_of_true (expected_of_last_reason hreason).symm trivial
  · exact iff_of_true (expected_of_last_reason hreason).symm trivial

/-- One more reason in the row. -/
theorem Agrees.reason_cons (h : Agrees text count rest) (hcount : count < maxToolCalls)
    (hline : isReason (text line) = true) (hmem : line ∉ rest) :
    Agrees text count (line :: rest) := by
  have hmakes : ¬(count < maxToolCalls ∧ makesCall (text line) = true) :=
    fun h ↦ Bool.eq_false_iff.mp (makesCall_eq_false hline) h.2
  have hcommand : ¬(count < maxToolCalls ∧ isCommand (text line) = true) :=
    fun h ↦ Bool.eq_false_iff.mp (isCommand_eq_false hline) h.2
  have hseparated : unseparated text count line = [line] :=
    if_neg fun h ↦ Bool.eq_false_iff.mp (isSeparator_eq_false hline) h.2
  have hpaired : ∀ reasons, ReasonsPaired text count reasons (line :: rest) ↔
      ReasonsPaired text count (reasons + 1) rest := by
    intro reasons
    rw [ReasonsPaired, if_pos hline]
  have hheld : keptFrom text count none (line :: rest) = keptFrom text count (some line) rest := by
    rw [keptFrom, if_pos ⟨⟨rfl, hcount⟩, hline⟩]
  refine ⟨?_, fun _ reason reasons hreason _ ↦ ⟨fun hodd ↦ ?_, fun heven hne ↦ ?_⟩⟩
  · rw [hheld, hpaired]
    exact (h.2 hcount line 1 hline hmem).1 rfl
  · rw [expected_of_reason hreason hmakes, hpaired, keptFrom,
      if_neg fun h ↦ Bool.false_ne_true h.1.1, if_neg hmakes, if_neg hcommand, hseparated,
      Option.toList_some, singleton_append, cons_inj_right, singleton_append]
    exact (h.2 hcount line (reasons + 1) hline hmem).2 (by omega) (by omega)
  · rw [expected_of_reason hreason hmakes, hpaired, hheld, cons_inj_right]
    exact (h.2 hcount line (reasons + 1) hline hmem).1 (by omega)

/-- A command that may be sent. -/
theorem Agrees.call_cons (h : Agrees text (count + 1) rest) (hcount : count < maxToolCalls)
    (hmakes : makesCall (text line) = true) : Agrees text count (line :: rest) := by
  have hline : ¬isReason (text line) = true :=
    fun hline ↦ Bool.eq_false_iff.mp (makesCall_eq_false hline) hmakes
  have hkept : ∀ pending : Option α,
      keptFrom text count pending (line :: rest) = keptFrom text (count + 1) none rest := by
    intro pending
    rw [keptFrom, if_neg fun h ↦ hline h.2, if_pos ⟨hcount, hmakes⟩]
  have hpaired : ∀ reasons, ReasonsPaired text count reasons (line :: rest) ↔
      (reasons = 0 ∨ reasons % 2 = 1) ∧ ReasonsPaired text (count + 1) 0 rest := by
    intro reasons
    rw [ReasonsPaired, if_neg hline, if_pos ⟨hcount, hmakes⟩, iff_true_intro hmakes, iff_true]
    exact and_congr_left' ⟨fun h ↦ h hcount (isCommand_of_makesCall hmakes), fun h _ _ ↦ h⟩
  refine ⟨?_, fun _ reason reasons hreason hmem ↦ ⟨fun hodd ↦ ?_, fun heven hne ↦ ?_⟩⟩
  · rw [hkept, hpaired, expected_of_call hcount hmakes, h.1]
    exact ⟨fun hrest ↦ ⟨.inl rfl, hrest⟩, And.right⟩
  · rw [hkept, hpaired, expected_of_paired_reason hcount hreason hmakes,
      expected_of_call hcount hmakes, h.1]
    exact ⟨fun hrest ↦ ⟨.inr hodd, hrest⟩, And.right⟩
  · rw [hkept, hpaired, expected_of_paired_reason hcount hreason hmakes,
      expected_of_call hcount hmakes]
    refine iff_of_false (fun heq ↦ hmem ?_) fun h ↦ ?_
    · exact mem_cons_of_mem line
        ((expected_sublist rest (count + 1)).subset (heq ▸ mem_cons_self))
    · omega

/-- A command that may not be sent. The reason that is held back is lost. -/
theorem Agrees.refused_cons (h : Agrees text count rest) (hcount : count < maxToolCalls)
    (hmakes : ¬makesCall (text line) = true) (hline : ¬isReason (text line) = true)
    (hcommand : isCommand (text line) = true) : Agrees text count (line :: rest) := by
  have hcall : ¬(count < maxToolCalls ∧ makesCall (text line) = true) := fun h ↦ hmakes h.2
  have hother : expected text count (line :: rest) =
      unseparated text count line ++ expected text count rest :=
    expected_of_other hcall fun h ↦ hline h.2
  have hkept : ∀ pending : Option α, keptFrom text count pending (line :: rest) =
      unseparated text count line ++ keptFrom text count none rest := by
    intro pending
    rw [keptFrom, if_neg fun h ↦ hline h.2, if_neg hcall, if_pos ⟨hcount, hcommand⟩,
      nil_append]
  have hpaired : ∀ reasons, ReasonsPaired text count reasons (line :: rest) ↔
      (reasons = 0 ∨ reasons % 2 = 0) ∧ ReasonsPaired text count 0 rest := by
    intro reasons
    rw [ReasonsPaired, if_neg hline, if_neg hcall, iff_false_intro hmakes, iff_false,
      Nat.mod_two_not_eq_one]
    exact and_congr_left' ⟨fun h ↦ h hcount hcommand, fun h _ _ ↦ h⟩
  refine ⟨?_, fun _ reason reasons hreason hmem ↦ ⟨fun hodd ↦ ?_, fun heven hne ↦ ?_⟩⟩
  · rw [hkept, hpaired, hother, append_cancel_left_eq, h.1]
    exact ⟨fun hrest ↦ ⟨.inl rfl, hrest⟩, And.right⟩
  · rw [hpaired, expected_of_reason hreason hcall]
    refine iff_of_false (fun heq ↦ hmem ?_) fun h ↦ ?_
    · rw [hkept] at heq
      have hsub : (unseparated text count line ++ keptFrom text count none rest).Sublist
          (line :: rest) := unseparated_sublist.append (keptFrom_sublist rest count none)
      exact hsub.subset (heq ▸ mem_cons_self)
    · omega
  · rw [hkept, hpaired, expected_of_reason hreason hcall, hother, cons_inj_right,
      append_cancel_left_eq, h.1]
    exact ⟨fun hrest ↦ ⟨.inr heven, hrest⟩, And.right⟩

/-- A line without a label. -/
theorem Agrees.plain_cons (h : Agrees text count rest)
    (hline : ¬isReason (text line) = true) (hcommand : ¬isCommand (text line) = true) :
    Agrees text count (line :: rest) := by
  have hcall : ¬(count < maxToolCalls ∧ makesCall (text line) = true) :=
    fun h ↦ hcommand (isCommand_of_makesCall h.2)
  have hother : expected text count (line :: rest) =
      unseparated text count line ++ expected text count rest :=
    expected_of_other hcall fun h ↦ hline h.2
  have hkept : ∀ pending : Option α, keptFrom text count pending (line :: rest) =
      pending.toList ++ (unseparated text count line ++ keptFrom text count none rest) := by
    intro pending
    rw [keptFrom, if_neg fun h ↦ hline h.2, if_neg hcall, if_neg fun h ↦ hcommand h.2]
  have hpaired : ∀ reasons,
      ReasonsPaired text count reasons (line :: rest) ↔ ReasonsPaired text count 0 rest := by
    intro reasons
    rw [ReasonsPaired, if_neg hline, if_neg hcall]
    exact and_iff_right fun _ h ↦ absurd h hcommand
  refine ⟨?_, fun _ reason reasons hreason hmem ↦ ⟨fun _ ↦ ?_, fun _ _ ↦ ?_⟩⟩
  · rw [hkept, hpaired, hother, Option.toList_none, nil_append, append_cancel_left_eq]
    exact h.1
  · rw [hkept, hpaired, expected_of_reason hreason hcall, hother, Option.toList_some,
      singleton_append, cons_inj_right, append_cancel_left_eq]
    exact h.1
  · rw [hkept, hpaired, expected_of_reason hreason hcall, hother, Option.toList_none,
      nil_append, cons_inj_right, append_cancel_left_eq]
    exact h.1

theorem agrees {lines : List α} (h : lines.Nodup) : ∀ count, Agrees text count lines := by
  induction lines with
  | nil => exact fun _ ↦ Agrees.nil
  | cons line rest ih =>
      obtain ⟨hmem, hrest⟩ := nodup_cons.mp h
      intro count
      by_cases hcount : count < maxToolCalls
      · by_cases hline : isReason (text line) = true
        · exact (ih hrest count).reason_cons hcount hline hmem
        · by_cases hmakes : makesCall (text line) = true
          · exact (ih hrest (count + 1)).call_cons hcount hmakes
          · by_cases hcommand : isCommand (text line) = true
            · exact (ih hrest count).refused_cons hcount hmakes hline hcommand
            · exact (ih hrest count).plain_cons hline hcommand
      · have hfull := @keptFrom_of_full α text count 0 hcount (line :: rest)
        exact ⟨iff_of_true hfull.1 hfull.2, fun h ↦ absurd h hcount⟩

end

end

/-! ## The scan -/

namespace TextualScan

section

variable {α β : Type} {text : α → List Char} {s : TextualScan α} {line : α} {rest : List α}

theorem kept_flush : s.flush.kept = s.kept ++ s.pendingReasonLine.toList := by
  rw [flush]
  cases s.pendingReasonLine with
  | none => exact (append_nil _).symm
  | some line => rfl

theorem pendingReasonLine_flush : s.flush.pendingReasonLine = none := by
  rw [flush]
  split
  · rfl
  · assumption

theorem kept_keep : (s.keep text line).kept =
    s.kept ++ (s.pendingReasonLine.toList ++ unseparated text s.calls.length line) := by
  rw [keep, ← append_assoc, ← kept_flush, unseparated]
  simp only [calls_flush, length_pos_iff]
  split
  · exact (append_nil _).symm
  · rfl

theorem pendingReasonLine_keep : (s.keep text line).pendingReasonLine = none := by
  rw [keep]
  split
  · exact pendingReasonLine_flush
  · exact pendingReasonLine_flush

/-- What is kept at the end when a scan goes on from here. -/
def keptWith (text : α → List Char) (s : TextualScan α) (rest : List α) : List α :=
  s.kept ++ keptFrom text s.calls.length s.pendingReasonLine rest

theorem keptWith_keep : (s.keep text line).keptWith text rest =
    s.kept ++ (s.pendingReasonLine.toList ++
      (unseparated text s.calls.length line ++ keptFrom text s.calls.length none rest)) := by
  rw [keptWith, kept_keep, pendingReasonLine_keep, calls_keep]
  simp only [append_assoc]

/-- The scan of lines that stand for others. -/
def map (f : α → β) (s : TextualScan α) : TextualScan β :=
  { calls := s.calls
    kept := s.kept.map f
    pendingReason := s.pendingReason
    pendingReasonLine := s.pendingReasonLine.map f }

theorem map_flush (f : α → β) : (s.map f).flush = s.flush.map f := by
  obtain ⟨calls, kept, reason, line⟩ := s
  cases line with
  | none => rfl
  | some line => simp [map, flush]

theorem map_keep (f : α → β) (text : β → List Char) :
    (s.map f).keep text (f line) = (s.keep (text ∘ f) line).map f := by
  rw [keep, keep, map_flush]
  split
  · next h => exact (congrArg (map f) (if_pos h)).symm
  · next h =>
    refine Eq.trans ?_ (congrArg (map f) (if_neg h)).symm
    simp [map]

end

section

variable [Alphabetic] {targetAlias : String} {platform : TargetPlatform} {α β : Type}
  {text : α → List Char} {s : TextualScan α} {line : α} {rest : List α}

/-- A call is made exactly of a command that may be sent. -/
theorem makesCall_eq {id : String} {command : String} {reason : List Char}
    (h : labelled "command" (text line) = some command) :
    (buildToolCall targetAlias platform id command.toList reason).isOk =
      makesCall (text line) := by
  rw [makesCall, h, Option.any_some, buildToolCall]
  cases validateCommand (String.ofList (trim command.toList)) with
  | error => rfl
  | ok => rfl

theorem keptWith_step : (s.step targetAlias platform text line).keptWith text rest =
    s.keptWith text (line :: rest) := by
  have hkept : s.keptWith text (line :: rest) =
      s.kept ++ keptFrom text s.calls.length s.pendingReasonLine (line :: rest) := rfl
  rw [hkept, step, keptFrom]
  split
  · next reason hreason =>
    split_ifs at hreason with hfree
    rw [if_pos ⟨hfree, Option.isSome_iff_exists.mpr ⟨reason, hreason⟩⟩]
    rfl
  · next hreason =>
    have hheld : ¬((s.pendingReasonLine.isNone ∧ s.calls.length < maxToolCalls) ∧
        isReason (text line) = true) := by
      rintro ⟨hfree, hlabel⟩
      rw [if_pos hfree] at hreason
      rw [isReason, hreason] at hlabel
      exact Bool.false_ne_true hlabel
    rw [if_neg hheld]
    split
    · next command hcommand =>
      split_ifs at hcommand with hfew
      have hlabel : isCommand (text line) = true := by
        rw [isCommand, hcommand]
        rfl
      dsimp only
      split
      · next call hcall =>
        have hmakes : makesCall (text line) = true := by
          rw [← makesCall_eq hcommand, hcall]
          rfl
        rw [if_pos ⟨hfew, hmakes⟩, keptWith, length_append]
        rfl
      · next error hcall =>
        have hmakes : makesCall (text line) = false := by
          rw [← makesCall_eq hcommand, hcall]
          rfl
        rw [if_neg fun h ↦ Bool.eq_false_iff.mp hmakes h.2, if_pos ⟨hfew, hlabel⟩, keptWith_keep]
        rfl
    · next hcommand =>
      have hlabel : ¬(s.calls.length < maxToolCalls ∧ isCommand (text line) = true) := by
        rintro ⟨hfew, hlabel⟩
        rw [if_pos hfew] at hcommand
        rw [isCommand, hcommand] at hlabel
        exact Bool.false_ne_true hlabel
      rw [if_neg fun h ↦ hlabel ⟨h.1, isCommand_of_makesCall h.2⟩, if_neg hlabel, keptWith_keep]

theorem kept_run (lines : List α) :
    (s.run targetAlias platform text lines).flush.kept = s.keptWith text lines := by
  induction lines generalizing s with
  | nil => exact kept_flush
  | cons line lines ih => exact ih.trans keptWith_step

/-- A step makes a call of a line that asks for one while there are too few. -/
theorem commands_step : (s.step targetAlias platform text line).calls.map AiToolCall.command =
    s.calls.map AiToolCall.command ++
      (if s.calls.length < maxToolCalls ∧ makesCall (text line) = true then [commandOf (text line)]
        else []) := by
  rw [step]
  split
  · next reason hreason =>
    split_ifs at hreason
    have hmakes : makesCall (text line) = false :=
      makesCall_eq_false (Option.isSome_iff_exists.mpr ⟨reason, hreason⟩)
    rw [if_neg fun h ↦ Bool.eq_false_iff.mp hmakes h.2, append_nil]
  · split
    · next command hcommand =>
      split_ifs at hcommand with hfew
      dsimp only
      split
      · next call hcall =>
        have hmakes : makesCall (text line) = true := by
          rw [← makesCall_eq hcommand, hcall]
          rfl
        have hcarried : call.command = commandOf (text line) := by
          rw [(buildToolCall_eq_ok.mp hcall).2, commandOf, hcommand, Option.getD_some]
        rw [if_pos ⟨hfew, hmakes⟩, map_append, map_singleton, hcarried]
      · next error hcall =>
        have hmakes : makesCall (text line) = false := by
          rw [← makesCall_eq hcommand, hcall]
          rfl
        rw [if_neg fun h ↦ Bool.eq_false_iff.mp hmakes h.2, append_nil, calls_keep]
    · next hcommand =>
      rw [if_neg, append_nil, calls_keep]
      rintro ⟨hfew, hmakes⟩
      rw [if_pos hfew] at hcommand
      rw [makesCall, hcommand] at hmakes
      exact Bool.false_ne_true hmakes

/-- The calls are those of the first lines that ask for one. -/
theorem commands_run (lines : List α) :
    (s.run targetAlias platform text lines).calls.map AiToolCall.command =
      s.calls.map AiToolCall.command ++
        ((lines.filter fun line ↦ makesCall (text line)).take
          (maxToolCalls - s.calls.length)).map fun line ↦ commandOf (text line) := by
  induction lines generalizing s with
  | nil =>
      rw [filter_nil, take_nil, map_nil, append_nil]
      rfl
  | cons line lines ih =>
      have hstep := @commands_step _ targetAlias platform α text s line
      have hlength := congrArg List.length hstep
      rw [length_append, length_map, length_map] at hlength
      have hrest := @ih (s.step targetAlias platform text line)
      rw [hstep, hlength, append_assoc] at hrest
      refine hrest.trans (congrArg _ ?_)
      rw [filter_cons]
      by_cases hmakes : makesCall (text line) = true
      · rw [if_pos hmakes]
        by_cases hfew : s.calls.length < maxToolCalls
        · have hroom : maxToolCalls - s.calls.length =
              maxToolCalls - (s.calls.length + 1) + 1 := by omega
          rw [if_pos ⟨hfew, hmakes⟩, length_singleton, hroom, take_succ_cons,
            map_cons, singleton_append]
        · have hfull : maxToolCalls - s.calls.length = 0 := by omega
          rw [if_neg fun h ↦ hfew h.1, length_nil, Nat.add_zero, hfull, take_zero,
            take_zero, nil_append]
      · rw [if_neg hmakes, if_neg fun h ↦ hmakes h.2, length_nil,
          Nat.add_zero, nil_append]

theorem map_step (f : α → β) (text : β → List Char) :
    (s.map f).step targetAlias platform text (f line) =
      (s.step targetAlias platform (text ∘ f) line).map f := by
  have hheld : (s.map f).pendingReasonLine.isNone = s.pendingReasonLine.isNone := Option.isNone_map
  have hcalls : (s.map f).calls = s.calls := rfl
  have hreason : (s.map f).pendingReason = s.pendingReason := rfl
  rw [step, step, hheld, hcalls, hreason, Function.comp_apply]
  cases (if s.pendingReasonLine.isNone = true ∧ s.calls.length < maxToolCalls then
    labelled "reason" (text (f line)) else none) with
  | some reason => rfl
  | none =>
      cases (if s.calls.length < maxToolCalls then
        labelled "command" (text (f line)) else none) with
      | none => exact map_keep f text
      | some command =>
          dsimp only
          cases buildToolCall targetAlias platform s!"text-{s.calls.length}" command.toList
            (s.pendingReason.getD []) with
          | ok call => rfl
          | error refusal => exact @map_keep α β ⟨s.calls, s.kept, none, none⟩ line f text

theorem map_run (f : α → β) (text : β → List Char) (lines : List α) :
    (s.map f).run targetAlias platform text (lines.map f) =
      (s.run targetAlias platform (text ∘ f) lines).map f := by
  induction lines generalizing s with
  | nil => rfl
  | cons line lines ih =>
      rw [map_cons, run, foldl_cons, map_step]
      exact ih

end

end TextualScan

/-! ## The text that is left -/

section

variable [Alphabetic] (targetAlias : String) (platform : TargetPlatform) (content : String)

/-- The lines of an answer, with their numbers. -/
def numberedLines : List (List Char × Nat) := (Toml.lines content.toList).zipIdx

/-- The lines that the scan keeps. -/
def keptLines : List (List Char × Nat) :=
  (TextualScan.start.run targetAlias platform Prod.fst (numberedLines content)).flush.kept

/-- A text of some lines, trimmed. -/
def cleanedText (lines : List (List Char × Nat)) : String :=
  String.ofList (trim (['\n'].intercalate (lines.map Prod.fst)))

variable {content}

omit [Alphabetic] in
theorem numberedLines_nodup : (numberedLines content).Nodup := by
  have hnumbers : ((numberedLines content).map Prod.snd).Nodup := by
    rw [numberedLines, zipIdx_map_snd]
    exact nodup_range'
  exact hnumbers.of_map

theorem scan_eq : TextualScan.start.run targetAlias platform id (Toml.lines content.toList) =
    (TextualScan.start.run targetAlias platform Prod.fst (numberedLines content)).map Prod.fst := by
  have hrun := @TextualScan.map_run _ targetAlias platform (List Char × Nat) (List Char) .start
    Prod.fst id (numberedLines content)
  rw [numberedLines, zipIdx_map_fst] at hrun
  exact hrun

/-- The scan knows lines by their texts alone. -/
theorem extractTextualToolCalls_fst : (extractTextualToolCalls targetAlias platform content).1 =
    cleanedText (keptLines targetAlias platform content) := by
  rw [extractTextualToolCalls, scan_eq, TextualScan.map_flush]
  rfl

theorem extractTextualToolCalls_commands :
    (extractTextualToolCalls targetAlias platform content).2.map AiToolCall.command =
      (((Toml.lines content.toList).filter makesCall).take maxToolCalls).map commandOf :=
  TextualScan.commands_run _

/-- The calls are those of the first lines that ask for one, the scan keeps the lines it is to
keep, and the text that it leaves is that of these lines. -/
structure LosesNothing (content : String) : Prop where
  commands : (extractTextualToolCalls targetAlias platform content).2.map AiToolCall.command =
    (((Toml.lines content.toList).filter makesCall).take maxToolCalls).map commandOf
  kept : keptLines targetAlias platform content = expected Prod.fst 0 (numberedLines content)
  cleaned : (extractTextualToolCalls targetAlias platform content).1 =
    cleanedText (expected Prod.fst 0 (numberedLines content))

omit [Alphabetic] in
theorem paired_numbered {lines : List (List Char)} : ∀ count reasons k,
    ReasonsPaired Prod.fst count reasons (lines.zipIdx k) ↔
      ReasonsPaired id count reasons lines := by
  induction lines with
  | nil => exact fun _ _ _ ↦ Iff.rfl
  | cons line lines ih =>
      intro count reasons k
      rw [zipIdx_cons, ReasonsPaired, ReasonsPaired, ih, ih]
      rfl

theorem losesNothing_iff (targetAlias : String) (platform : TargetPlatform) (content : String) :
    LosesNothing targetAlias platform content ↔
      ReasonsPaired id 0 0 (Toml.lines content.toList) := by
  have hkept : keptLines targetAlias platform content =
      keptFrom Prod.fst 0 none (numberedLines content) := by
    rw [keptLines, TextualScan.kept_run]
    rfl
  rw [← paired_numbered 0 0 0]
  refine Iff.trans ?_ (agrees numberedLines_nodup 0).1
  constructor
  · intro h
    exact hkept.symm.trans h.kept
  · intro h
    refine ⟨extractTextualToolCalls_commands targetAlias platform, hkept.trans h, ?_⟩
    rw [extractTextualToolCalls_fst, hkept]
    exact congrArg cleanedText h

omit [Alphabetic] in
/-- The reason of an empty command is lost, though the command stays. -/
theorem reason_of_refused : ¬∀ (_ : Alphabetic) (targetAlias : String)
    (platform : TargetPlatform) (content : String), LosesNothing targetAlias platform content := by
  intro h
  let _ : Alphabetic := asciiAlphabetic
  have hkept := (h asciiAlphabetic "web" .unix "reason: disk\ncommand:").kept
  revert hkept
  decide +kernel

end

end KaduoxSsh.Desktop.Ai
