import KaduoxSsh.Desktop.AiToolCalls
import Mathlib.Algebra.GroupWithZero.Nat

/-!
# Bounds on tool calls

Whatever a model answers, each call that is found carries a command that has passed the checks
of commands, with the risk of that command. A list of the provider and lines with labels give
four calls at most. Markup gives more when a block with a command comes behind four, since the
bound ends the scan of a block and not of the answer.
-/

namespace KaduoxSsh.Desktop.Ai

open Hosts Text Result List

/-! ## Numbers -/

section

variable {word : String} {call : AiToolCall} {calls : List AiToolCall}

/-- The ids of calls are numbers behind a word, from zero on. -/
def Numbered (word : String) (calls : List AiToolCall) : Prop :=
  calls.map AiToolCall.id = (List.range calls.length).map fun index ↦ word ++ toString index

theorem Numbered.concat (h : Numbered word calls)
    (hid : call.id = word ++ toString calls.length) : Numbered word (calls ++ [call]) := by
  rw [Numbered, map_append, h, length_append, length_singleton, range_succ,
    map_append, map_singleton, map_singleton, hid]

/-- Numbers are spelled differently. -/
theorem toString_injective : Function.Injective (toString : Nat → String) := by
  intro a b h
  have hdigits : Nat.toDigits 10 a = Nat.toDigits 10 b := by
    rw [← Nat.toList_repr, ← Nat.toList_repr]
    exact congrArg String.toList h
  rw [← Nat.ofDigitChars_ten_toDigits (n := a), hdigits, Nat.ofDigitChars_ten_toDigits]

theorem Numbered.nodup (h : Numbered word calls) :
    (calls.map AiToolCall.id).Nodup := by
  rw [h]
  refine nodup_range.map fun a b hab ↦ toString_injective ?_
  exact (String.append_right_inj word).mp hab

end

/-! ## Commands that are carried -/

theorem trimmed_trim (l : List Char) : Toml.Trimmed (trim l) := by
  have hhead : ∀ l : List Char, ∀ c ∈ (l.dropWhile isWhitespace).head?, isWhitespace c = false := by
    intro l c hc
    have hfirst := List.head?_dropWhile_not isWhitespace l
    rw [Option.mem_def.mp hc] at hfirst
    exact hfirst
  obtain ⟨front, hfront⟩ : (l.dropWhile isWhitespace).reverse.dropWhile isWhitespace <:+
      (l.dropWhile isWhitespace).reverse := dropWhile_suffix _
  constructor
  · intro c hc
    rw [trim, List.head?_reverse] at hc
    apply hhead l
    rw [← List.getLast?_reverse, ← hfront, List.getLast?_append, Option.mem_def.mp hc]
    rfl
  · rw [trim, List.getLast?_reverse]
    exact hhead _

theorem trim_ofList_trim (text : List Char) :
    trim (String.ofList (trim text)).toList = (String.ofList (trim text)).toList := by
  rw [String.toList_ofList]
  exact (trimmed_trim text).trim_eq

variable [Alphabetic] {targetAlias : String} {platform : TargetPlatform} {id : String}
  {command reason : List Char} {call : AiToolCall} {calls : List AiToolCall}

/-- A call carries a command that may be sent, with its own risk. -/
structure Classified (platform : TargetPlatform) (call : AiToolCall) : Prop where
  trimmed : trim call.command.toList = call.command.toList
  valid : validateCommand call.command = .ok ()
  risk : call.riskLevel = (classifyCommandFor call.command platform).asStr

theorem buildToolCall_eq_ok :
    buildToolCall targetAlias platform id command reason = .ok call ↔
      validateCommand (String.ofList (trim command)) = .ok () ∧
        call = ⟨id, "execute_command", targetAlias, String.ofList (trim command),
          String.ofList ((trim reason).take 500),
          (classifyCommandFor (String.ofList (trim command)) platform).asStr⟩ := by
  rw [buildToolCall]
  refine check_bind_eq_ok.trans (and_congr_right fun _ ↦ ?_)
  rw [pure_eq_ok, Except.ok.injEq, eq_comm]

theorem Classified.of_build (h : buildToolCall targetAlias platform id command reason = .ok call) :
    Classified platform call := by
  obtain ⟨hvalid, rfl⟩ := buildToolCall_eq_ok.mp h
  exact ⟨trim_ofList_trim command, hvalid, rfl⟩

/-! ## The list of the provider -/

section

variable {json : JsonTexts} {index : Nat} {rest : List CompletionToolCall}

theorem Classified.of_parse {completion : CompletionToolCall}
    (h : parseToolCall targetAlias platform json index completion = .ok (some call)) :
    Classified platform call := by
  obtain ⟨function, -, h⟩ := bind_eq_ok.mp h
  dsimp only at h
  split_ifs at h
  · cases h
  · obtain ⟨arguments, -, h⟩ := bind_eq_ok.mp h
    obtain ⟨text, htext, h⟩ := bind_eq_ok.mp h
    obtain ⟨hvalid, h⟩ := check_bind_eq_ok.mp h
    obtain ⟨given, -, rfl⟩ := Option.map_eq_some_iff.mp
      (Option.filter_eq_some_iff.mp (ofOption_eq_ok.mp htext)).1
    cases h
    exact ⟨trim_ofList_trim _, hvalid, rfl⟩

theorem parseToolCallsFrom_calls (h : parseToolCallsFrom targetAlias platform json index rest =
    .ok calls) : calls.length ≤ rest.length ∧ ∀ call ∈ calls, Classified platform call := by
  induction rest generalizing index calls with
  | nil =>
      cases h
      exact ⟨Nat.le_refl 0, nofun⟩
  | cons completion rest ih =>
      obtain ⟨first, hfirst, h⟩ := bind_eq_ok.mp h
      obtain ⟨others, hothers, h⟩ := bind_eq_ok.mp h
      cases h
      obtain ⟨hlength, hcalls⟩ := ih hothers
      cases first with
      | none => exact ⟨hlength.trans (Nat.le_succ _), hcalls⟩
      | some call =>
          exact ⟨Nat.succ_le_succ hlength,
            forall_mem_cons.mpr ⟨Classified.of_parse hfirst, hcalls⟩⟩

end

/-! ## Markup -/

/-- Whether a call is made of what a block asks for. -/
def usable (invoke : List Char) : Bool :=
  (invokeTexts invoke).any fun texts ↦
    (validateCommand (String.ofList (trim texts.1))).isOk

/-- How many calls may be made of a block. -/
def usableCount (block : List Char) : Nat := (invokes block).countP usable

/-- Behind blocks with calls enough there is one with another call. -/
def RunsOver (content : String) : Prop :=
  ∃ front block back, (dsmlBlocks content.toList).2 = front ++ block :: back ∧
    maxToolCalls ≤ (front.map usableCount).sum ∧ 0 < usableCount block

theorem invokeCall_eq_some {invoke : List Char}
    (h : invokeCall targetAlias platform id invoke = some call) :
    Classified platform call ∧ call.id = id := by
  obtain ⟨texts, -, h⟩ := Option.bind_eq_some_iff.mp h
  have hbuilt := toOption_eq_some.mp h
  refine ⟨.of_build hbuilt, ?_⟩
  rw [(buildToolCall_eq_ok.mp hbuilt).2]

theorem isSome_invokeCall {invoke : List Char} :
    (invokeCall targetAlias platform id invoke).isSome = usable invoke := by
  rw [invokeCall, usable]
  cases invokeTexts invoke with
  | none => rfl
  | some texts =>
      obtain ⟨command, reason⟩ := texts
      change (buildToolCall targetAlias platform id command reason).toOption.isSome =
        (validateCommand (String.ofList (trim command))).isOk
      rw [buildToolCall]
      cases validateCommand (String.ofList (trim command)) <;> rfl

/-- The calls of an answer are classified, and numbered. -/
structure Kept (word : String) (platform : TargetPlatform) (calls : List AiToolCall) : Prop where
  numbered : Numbered word calls
  classified : ∀ call ∈ calls, Classified platform call

theorem Kept.concat {word : String} (h : Kept word platform calls)
    (hid : call.id = word ++ toString calls.length) (hcall : Classified platform call) :
    Kept word platform (calls ++ [call]) where
  numbered := h.numbered.concat hid
  classified := forall_mem_append.mpr ⟨h.classified, forall_mem_singleton.mpr hcall⟩

theorem collectInvokes_kept {invokes : List (List Char)} (h : Kept "dsml-" platform calls) :
    Kept "dsml-" platform (collectInvokes targetAlias platform calls invokes) := by
  induction invokes generalizing calls with
  | nil => exact h
  | cons invoke rest ih =>
      rw [collectInvokes]
      split
      · exact ih h
      · next call hcall =>
        obtain ⟨hclassified, hid⟩ := invokeCall_eq_some hcall
        split_ifs
        · exact h.concat hid hclassified
        · exact ih (h.concat hid hclassified)

/-- The calls after a block: up to four, and beyond that one of each block that has any. -/
theorem length_collectInvokes {invokes : List (List Char)} :
    (collectInvokes targetAlias platform calls invokes).length =
      if calls.length < maxToolCalls then min maxToolCalls (calls.length + invokes.countP usable)
      else calls.length + min 1 (invokes.countP usable) := by
  induction invokes generalizing calls with
  | nil =>
      rw [collectInvokes, countP_nil]
      split_ifs <;> omega
  | cons invoke rest ih =>
      have hsome : (invokeCall targetAlias platform s!"dsml-{calls.length}" invoke).isSome =
          usable invoke := isSome_invokeCall
      rw [collectInvokes]
      split
      · next hnone =>
        rw [hnone] at hsome
        rw [ih, countP_cons_of_neg (by rw [← hsome]; exact Bool.false_ne_true)]
      · next call hcall =>
        rw [hcall] at hsome
        rw [countP_cons_of_pos hsome.symm]
        by_cases hfull : calls.length + 1 ≥ maxToolCalls
        · rw [if_pos hfull, length_append, length_singleton]
          rw [maxToolCalls] at hfull ⊢
          split_ifs <;> omega
        · rw [if_neg hfull, ih, length_append, length_singleton]
          rw [maxToolCalls] at hfull ⊢
          split_ifs <;> omega

omit [Alphabetic] in
/-- A list is cut at its first element or behind it. -/
theorem forall_cut_cons {α : Type} {P : List α → α → Prop} {first : α} {rest : List α} :
    (∀ front a back, first :: rest = front ++ a :: back → P front a) ↔
      P [] first ∧ ∀ front a back, rest = front ++ a :: back → P (first :: front) a := by
  constructor
  · intro h
    refine ⟨h [] first rest rfl, ?_⟩
    rintro front a back rfl
    exact h (first :: front) a back rfl
  · rintro ⟨hfirst, hrest⟩ front a back heq
    cases front with
    | nil =>
        injection heq with ha
        exact ha ▸ hfirst
    | cons b front =>
        injection heq with hb hback
        exact hb ▸ hrest front a back hback

/-- The bound is kept exactly when no block with a call comes behind calls enough. -/
theorem length_foldl_collect {blocks : List (List Char)} :
    (blocks.foldl (fun calls block ↦
        collectInvokes targetAlias platform calls (invokes block)) calls).length ≤ maxToolCalls ↔
      calls.length ≤ maxToolCalls ∧ ∀ front block back, blocks = front ++ block :: back →
        maxToolCalls ≤ calls.length + (front.map usableCount).sum → usableCount block = 0 := by
  induction blocks generalizing calls with
  | nil =>
      refine (and_iff_left ?_).symm
      intro front block back h
      cases front <;> cases h
  | cons block blocks ih =>
      have hlength : (collectInvokes targetAlias platform calls (invokes block)).length =
          if calls.length < maxToolCalls then min maxToolCalls (calls.length + usableCount block)
          else calls.length + min 1 (usableCount block) := length_collectInvokes
      rw [foldl_cons, ih, hlength, forall_cut_cons]
      rw [maxToolCalls]
      simp only [map_cons, sum_cons, map_nil, sum_nil, Nat.add_zero]
      by_cases hfew : calls.length < 4
      · rw [if_pos hfew]
        constructor
        · rintro ⟨-, hrest⟩
          refine ⟨hfew.le, fun h ↦ absurd h (Nat.not_le.mpr hfew), fun front other back heq h ↦ ?_⟩
          exact hrest front other back heq (by omega)
        · rintro ⟨-, -, hrest⟩
          refine ⟨Nat.min_le_left _ _, fun front other back heq h ↦ ?_⟩
          exact hrest front other back heq (by omega)
      · rw [if_neg hfew]
        constructor
        · rintro ⟨hle, hrest⟩
          refine ⟨by omega, fun _ ↦ by omega, fun front other back heq _ ↦ ?_⟩
          exact hrest front other back heq (by omega)
        · rintro ⟨hle, hnone, hrest⟩
          have hzero := hnone (Nat.le_of_not_lt hfew)
          refine ⟨by omega, fun front other back heq _ ↦ ?_⟩
          exact hrest front other back heq (by omega)

theorem Kept.nil {word : String} : Kept word platform [] := ⟨rfl, nofun⟩

theorem extractDsmlToolCalls_kept {content : String} :
    Kept "dsml-" platform (extractDsmlToolCalls targetAlias platform content).2 := by
  change Kept "dsml-" platform ((dsmlBlocks content.toList).2.foldl (fun calls block ↦
    collectInvokes targetAlias platform calls (invokes block)) [])
  exact List.foldlRecOn _ _ Kept.nil fun calls h block _ ↦ collectInvokes_kept h

/-- Markup gives four calls at most exactly when the blocks do not run over. -/
theorem length_extractDsml_le_iff {content : String} :
    (extractDsmlToolCalls targetAlias platform content).2.length ≤ maxToolCalls ↔
      ¬RunsOver content := by
  refine length_foldl_collect.trans ?_
  rw [and_iff_right (show [].length ≤ maxToolCalls from Nat.zero_le _), RunsOver]
  simp only [length_nil, Nat.zero_add, not_exists, not_and, Nat.not_lt, Nat.le_zero]

/-! ## Lines -/

section

variable {α : Type} {text : α → List Char} {s : TextualScan α} {line : α}

omit [Alphabetic] in
@[simp] theorem TextualScan.calls_flush : s.flush.calls = s.calls := by
  rw [flush]
  split <;> rfl

omit [Alphabetic] in
@[simp] theorem TextualScan.calls_keep : (s.keep text line).calls = s.calls := by
  rw [keep]
  split_ifs <;> exact calls_flush

/-- A step leaves the calls, or there is one more, which is made while there are too few. -/
theorem TextualScan.calls_step : (s.step targetAlias platform text line).calls = s.calls ∨
    s.calls.length < maxToolCalls ∧ ∃ call command reason,
      buildToolCall targetAlias platform s!"text-{s.calls.length}" command reason = .ok call ∧
        (s.step targetAlias platform text line).calls = s.calls ++ [call] := by
  rw [step]
  split
  · exact .inl rfl
  · split
    · next command hcommand =>
      split_ifs at hcommand with hfew
      dsimp only
      split
      · next call hcall => exact .inr ⟨hfew, call, _, _, hcall, rfl⟩
      · exact .inl calls_keep
    · exact .inl calls_keep

theorem TextualScan.run_kept {lines : List α} (h : Kept "text-" platform s.calls)
    (hlength : s.calls.length ≤ maxToolCalls) :
    Kept "text-" platform (s.run targetAlias platform text lines).calls ∧
      (s.run targetAlias platform text lines).calls.length ≤ maxToolCalls := by
  induction lines generalizing s with
  | nil => exact ⟨h, hlength⟩
  | cons line lines ih =>
      apply ih
      · rcases @calls_step _ targetAlias platform α text s line with hcalls | hmore
        · rw [hcalls]
          exact h
        · obtain ⟨-, call, command, reason, hbuilt, hcalls⟩ := hmore
          rw [hcalls]
          refine h.concat ?_ (.of_build hbuilt)
          rw [(buildToolCall_eq_ok.mp hbuilt).2]
          rfl
      · rcases @calls_step _ targetAlias platform α text s line with hcalls | hmore
        · rw [hcalls]
          exact hlength
        · obtain ⟨hfew, call, command, reason, hbuilt, hcalls⟩ := hmore
          rw [hcalls, length_append]
          exact hfew

end

/-! ## All three -/

/-- What is to hold of the calls on each of the three ways. -/
structure ExtractsWell (targetAlias : String) (platform : TargetPlatform) (json : JsonTexts)
    (message : CompletionMessage) (content : String) : Prop where
  parsed : ∀ calls, parseToolCalls targetAlias platform json message = .ok calls →
    calls.length ≤ maxToolCalls ∧ ∀ call ∈ calls, Classified platform call
  markup : (extractDsmlToolCalls targetAlias platform content).2.length ≤ maxToolCalls ∧
    ((extractDsmlToolCalls targetAlias platform content).2.map AiToolCall.id).Nodup ∧
    ∀ call ∈ (extractDsmlToolCalls targetAlias platform content).2, Classified platform call
  lines : (extractTextualToolCalls targetAlias platform content).2.length ≤ maxToolCalls ∧
    ((extractTextualToolCalls targetAlias platform content).2.map AiToolCall.id).Nodup ∧
    ∀ call ∈ (extractTextualToolCalls targetAlias platform content).2, Classified platform call

/-- Calls are bounded, numbered and classified exactly when the blocks do not run over. -/
theorem extractsWell_iff (targetAlias : String) (platform : TargetPlatform) (json : JsonTexts)
    (message : CompletionMessage) (content : String) :
    ExtractsWell targetAlias platform json message content ↔ ¬RunsOver content := by
  constructor
  · exact fun h ↦ length_extractDsml_le_iff.mp h.markup.1
  · intro h
    have hmarkup : Kept "dsml-" platform (extractDsmlToolCalls targetAlias platform content).2 :=
      extractDsmlToolCalls_kept
    obtain ⟨hlines, hlength⟩ : Kept "text-" platform
        (extractTextualToolCalls targetAlias platform content).2 ∧
        (extractTextualToolCalls targetAlias platform content).2.length ≤ maxToolCalls :=
      TextualScan.run_kept Kept.nil (Nat.zero_le _)
    refine ⟨fun calls hcalls ↦ ?_, ⟨length_extractDsml_le_iff.mpr h, hmarkup.numbered.nodup,
      hmarkup.classified⟩, hlength, hlines.numbered.nodup, hlines.classified⟩
    obtain ⟨hle, hclassified⟩ := parseToolCallsFrom_calls hcalls
    exact ⟨hle.trans (length_take_le _ _), hclassified⟩

omit [Alphabetic] in
theorem dsmlBlocks_of_block {rest before afterOpen block behind : List Char}
    (hopen : splitAtFirst dsmlOpen rest = some (before, afterOpen))
    (hclose : splitAtFirst dsmlClose afterOpen = some (block, behind)) :
    (dsmlBlocks rest).2 = block :: (dsmlBlocks behind).2 := by
  rw [dsmlBlocks]
  split
  · next hnone =>
    rw [hopen] at hnone
    cases hnone
  · next before' afterOpen' hopen' =>
    rw [hopen] at hopen'
    cases hopen'
    split
    · next hnone =>
      rw [hclose] at hnone
      cases hnone
    · next block' behind' hclose' =>
      rw [hclose] at hclose'
      cases hclose'
      rfl

/-- Markup that asks for one command. -/
def askFor : List Char :=
  ("<|DSML|invoke name=\"execute_command\">" ++
    "<|DSML|parameter name=\"command\">ls</|DSML|parameter>").toList

/-- Four commands are asked for in a first block, and one in a second. -/
def twoBlocks : List Char :=
  dsmlOpen ++ (askFor ++ askFor ++ askFor ++ askFor) ++ dsmlClose ++
    (dsmlOpen ++ askFor ++ dsmlClose)

omit [Alphabetic] in
/-- The fifth command becomes a call. -/
theorem fifth_call : ¬∀ (_ : Alphabetic) (targetAlias : String)
    (platform : TargetPlatform) (json : JsonTexts) (message : CompletionMessage)
    (content : String), ExtractsWell targetAlias platform json message content := by
  have hopen : splitAtFirst dsmlOpen twoBlocks = some ([], askFor ++ askFor ++ askFor ++ askFor ++
      dsmlClose ++ (dsmlOpen ++ askFor ++ dsmlClose)) := by decide +kernel
  have hopen' : splitAtFirst dsmlOpen (dsmlOpen ++ askFor ++ dsmlClose) =
      some ([], askFor ++ dsmlClose) := by decide +kernel
  have hfirst : (dsmlBlocks twoBlocks).2 = (askFor ++ askFor ++ askFor ++ askFor) ::
      (dsmlBlocks (dsmlOpen ++ askFor ++ dsmlClose)).2 :=
    dsmlBlocks_of_block hopen (by decide +kernel)
  have hsecond :
      (dsmlBlocks (dsmlOpen ++ askFor ++ dsmlClose)).2 = askFor :: (dsmlBlocks []).2 :=
    dsmlBlocks_of_block hopen' (by decide +kernel)
  have hover : RunsOver (String.ofList twoBlocks) := by
    refine ⟨[askFor ++ askFor ++ askFor ++ askFor], askFor, (dsmlBlocks []).2, ?_, ?_, ?_⟩
    · rw [String.toList_ofList, hfirst, hsecond]
      rfl
    · decide +kernel
    · decide +kernel
  intro h
  let _ : Alphabetic := asciiAlphabetic
  have hwell := h asciiAlphabetic "web" .unix (fun _ ↦ .error "") ⟨none, none⟩
    (String.ofList twoBlocks)
  exact length_extractDsml_le_iff.mp hwell.markup.1 hover

end KaduoxSsh.Desktop.Ai
