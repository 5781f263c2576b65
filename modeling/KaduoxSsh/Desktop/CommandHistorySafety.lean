import KaduoxSsh.Desktop.CommandHistory
import KaduoxSsh.Lib.JsonText

/-!
# Runs of the history of the commands

The history keeps what it should behind every run of calls, and what a call has used is listed
first behind it. A command that came from the remote host stays one when it is used again, and so
it is not listed; and an entry may give way to others that are gone in the end.
-/

namespace KaduoxSsh.Desktop.History

open Text JsonText Recency List
open Sessions (trimmed)

/-! ## Calls -/

structure AppendCall where
  hostAlias : String
  commands : List String
  source : String
  usedAtUnix : UInt64

/-- What a call uses, in order. -/
def AppendCall.pairs (call : AppendCall) : List (String × String) :=
  (usedCommands call.commands).map (call.hostAlias, ·)

/-- The commands of a call, each once and the newest first. -/
def AppendCall.newest (call : AppendCall) : List String :=
  (usedCommands call.commands).dedup.reverse

namespace CommandReader

variable (reader : CommandReader)

def append (file : HistoryFile) (call : AppendCall) : Result (Nat × List UInt8) :=
  reader.appendCommands file call.hostAlias call.commands call.source call.usedAtUnix

/-- The file behind some calls. -/
def run (file : HistoryFile) (calls : List AppendCall) : Result HistoryFile :=
  calls.foldlM (fun file call ↦ (reader.append file call).map fun written ↦ .ok written.2) file

end CommandReader

variable {reader : CommandReader} {file : HistoryFile} {entries : List CommandHistoryEntry}
  {uses : List (String × String)}

/-- The entries behind a call. -/
def entriesBehind (entries : List CommandHistoryEntry) (call : AppendCall) :
    List CommandHistoryEntry :=
  trimEntries (call.commands.foldl (useCommand call.hostAlias call.source call.usedAtUnix)
    (entries, 0)).1

/-- A call on a file that can be read succeeds. -/
theorem append_eq (hread : reader.readCommands file = .ok entries) (call : AppendCall) :
    ∃ added, reader.append file call =
      .ok (added, reader.writeCommands (entriesBehind entries call)) := by
  rw [CommandReader.append, CommandReader.appendCommands, hread]
  exact ⟨_, rfl⟩

theorem Keeps.behind (h : Keeps uses entries) (call : AppendCall) :
    Keeps (uses ++ call.pairs) (entriesBehind entries call) :=
  keeps_trimEntries (remembers_foldl call.commands h.remembers)

/-- Behind every run the history keeps what it should. -/
theorem run_keeps (calls : List AppendCall) (hread : reader.readCommands file = .ok entries)
    (h : Keeps uses entries) :
    ∃ last kept, reader.run file calls = .ok last ∧ reader.readCommands last = .ok kept ∧
      Keeps (uses ++ calls.flatMap AppendCall.pairs) kept := by
  induction calls generalizing file entries uses with
  | nil =>
      refine ⟨file, entries, rfl, hread, ?_⟩
      rwa [flatMap_nil, append_nil]
  | cons call calls ih =>
      obtain ⟨added, happend⟩ := append_eq hread call
      obtain ⟨last, kept, hrun, hkept, hkeeps⟩ :=
        ih (CommandReader.readCommands_writeCommands reader _) (h.behind call)
      refine ⟨last, kept, ?_, hkept, ?_⟩
      · rw [CommandReader.run, foldlM_cons, happend]
        exact hrun
      · rwa [flatMap_cons, ← append_assoc]

/-! ## Listing -/

variable {hostAlias source : String} {usedAtUnix : UInt64} {limit n : Nat}

/-- The commands of an alias that may be listed. -/
def visible (hostAlias : String) (entries : List CommandHistoryEntry) : List String :=
  (entries.filter fun entry ↦ entry.hostAlias = hostAlias ∧ entry.source ≠ "remote").map
    CommandHistoryEntry.command

/-- Commands are listed up to the limit, but one in any case. -/
theorem listFrom_eq (older : List CommandHistoryEntry) {output : List String}
    (h : output.length < max limit 1) :
    CommandReader.listFrom hostAlias limit output older =
      (output ++ visible hostAlias older).take (max limit 1) := by
  induction older generalizing output with
  | nil =>
      rw [CommandReader.listFrom, visible, filter_nil, map_nil, append_nil,
        take_of_length_le h.le]
  | cons entry older ih =>
      rw [CommandReader.listFrom]
      by_cases hentry : entry.hostAlias = hostAlias ∧ entry.source ≠ "remote"
      · have happend : output ++ visible hostAlias (entry :: older) =
            output ++ [entry.command] ++ visible hostAlias older := by
          rw [visible, filter_cons, if_pos (decide_eq_true hentry), map_cons,
            append_cons, visible]
        have hlength : (output ++ [entry.command]).length = output.length + 1 := by
          rw [length_append, length_singleton]
        rw [if_pos hentry, happend]
        by_cases hfull : (output ++ [entry.command]).length ≥ limit
        · have hmax : (output ++ [entry.command]).length = max limit 1 := by omega
          rw [← hmax, take_left]
          exact if_pos hfull
        · refine (if_neg hfull).trans (ih ?_)
          omega
      · have hcons : visible hostAlias (entry :: older) = visible hostAlias older := by
          rw [visible, filter_cons, if_neg fun heq ↦ hentry (of_decide_eq_true heq), visible]
        rw [if_neg hentry, hcons]
        exact ih h

theorem listCommands_eq (hread : reader.readCommands file = .ok entries) :
    reader.listCommands file hostAlias limit =
      .ok ((visible hostAlias entries.reverse).take (max limit 1)) := by
  rw [CommandReader.listCommands, hread, Result.bind_ok, listFrom_eq]
  · rfl
  · exact Nat.lt_of_lt_of_le Nat.one_pos (Nat.le_max_right limit 1)

/-! ### What a call has used -/

/-- A command that is used again within a call has the entry that it would have had at first. -/
theorem usedEntry_between (entries : List CommandHistoryEntry) (commands : List String)
    (command : String) :
    usedEntry (entries.filter (fun entry ↦ entry.pair ∉ commands.map (hostAlias, ·)) ++
      commands.dedup.map (usedEntry entries hostAlias source usedAtUnix))
        hostAlias source usedAtUnix command =
      usedEntry entries hostAlias source usedAtUnix command := by
  have hown : (fun entry ↦ decide (entry.pair = (hostAlias, command))) ∘
      usedEntry entries hostAlias source usedAtUnix = fun other ↦ decide (other = command) := by
    funext other
    rw [Function.comp_apply, pair_usedEntry, decide_eq_decide, Prod.mk.injEq, and_iff_right rfl]
  rw [usedEntry, List.find?_append, List.find?_filter, List.find?_map, hown]
  by_cases hmem : command ∈ commands
  · have hgone : (entries.find? fun entry ↦ decide (entry.pair ∉ commands.map (hostAlias, ·)) ∧
        decide (entry.pair = (hostAlias, command))) = none := by
      refine List.find?_eq_none.mpr fun entry _ h ↦ ?_
      obtain ⟨hout, hpair⟩ := of_decide_eq_true h
      rw [of_decide_eq_true hpair] at hout
      exact of_decide_eq_true hout (mem_map_of_mem hmem)
    have hfound : (commands.dedup.find? fun other ↦ decide (other = command)) = some command := by
      have hsome : (commands.dedup.find? fun other ↦ decide (other = command)).isSome = true :=
        List.find?_isSome.mpr ⟨command, mem_dedup.mpr hmem, decide_eq_true rfl⟩
      obtain ⟨other, hother⟩ := Option.isSome_iff_exists.mp hsome
      have heq := List.find?_some hother
      rw [hother, of_decide_eq_true heq]
    rw [hgone, hfound, Option.map_some, Option.none_or, Option.elim_some, usedEntry]
    cases entries.find? fun entry ↦ entry.pair = (hostAlias, command) with
    | none => rfl
    | some existing => rfl
  · have hsame : (fun entry : CommandHistoryEntry ↦
        decide (decide (entry.pair ∉ commands.map (hostAlias, ·)) = true ∧
          decide (entry.pair = (hostAlias, command)) = true)) =
        fun entry ↦ decide (entry.pair = (hostAlias, command)) := by
      funext entry
      rw [decide_eq_decide, decide_eq_true_iff, decide_eq_true_iff, and_iff_right_iff_imp]
      intro hpair hin
      rw [hpair] at hin
      obtain ⟨other, hother, heq⟩ := mem_map.mp hin
      exact hmem ((Prod.mk.inj heq).2 ▸ hother)
    have hnone : (commands.dedup.find? fun other ↦ decide (other = command)) = none := by
      refine List.find?_eq_none.mpr fun other hother heq ↦ hmem ?_
      exact of_decide_eq_true heq ▸ mem_dedup.mp hother
    rw [hsame, hnone, Option.map_none, Option.or_none, usedEntry]

/-- The entries behind the commands of a call: those of other commands as they were, and at the
end those of its own. -/
theorem foldl_useCommand (entries : List CommandHistoryEntry) (commands : List String) :
    (commands.foldl (useCommand hostAlias source usedAtUnix) (entries, n)).1 =
      entries.filter (fun entry ↦ entry.pair ∉ (usedCommands commands).map (hostAlias, ·)) ++
        (usedCommands commands).dedup.map (usedEntry entries hostAlias source usedAtUnix) := by
  induction commands using List.reverseRecOn with
  | nil =>
      have hnil : usedCommands [] = [] := rfl
      rw [hnil, map_nil, dedup_nil, map_nil, append_nil]
      refine (filter_eq_self.mpr fun entry _ ↦ ?_).symm
      exact decide_eq_true not_mem_nil
  | append_singleton commands command ih =>
      rw [foldl_concat, usedCommands_concat]
      generalize commands.foldl (useCommand hostAlias source usedAtUnix) (entries, n) = state
        at ih ⊢
      obtain ⟨between, n⟩ := state
      obtain rfl : between = _ := ih
      by_cases hcommand : trimmed command = ""
      · rw [useCommand_of_blank hcommand, if_pos hcommand, append_nil]
      · have hothers : (entries.filter fun entry ↦
            entry.pair ∉ (usedCommands commands).map (hostAlias, ·)).filter
              (fun entry ↦ entry.pair ≠ (hostAlias, trimmed command)) =
            entries.filter fun entry ↦
              entry.pair ∉ (usedCommands commands ++ [trimmed command]).map (hostAlias, ·) := by
          rw [filter_filter]
          refine filter_congr fun entry _ ↦ ?_
          rw [Bool.eq_iff_iff, Bool.and_eq_true, decide_eq_true_iff, decide_eq_true_iff,
            decide_eq_true_iff, map_append, mem_append, map_singleton,
            mem_singleton, not_or, and_comm]
        have hown : ((usedCommands commands).dedup.map
            (usedEntry entries hostAlias source usedAtUnix)).filter
              (fun entry ↦ entry.pair ≠ (hostAlias, trimmed command)) =
            ((usedCommands commands).dedup.filter (· ≠ trimmed command)).map
              (usedEntry entries hostAlias source usedAtUnix) := by
          rw [filter_map]
          refine congrArg _ (filter_congr fun other _ ↦ ?_)
          rw [Function.comp_apply, pair_usedEntry, decide_eq_decide, ne_eq, ne_eq, Prod.mk.injEq,
            and_iff_right rfl]
        rw [useCommand_eq hcommand, if_neg hcommand, usedEntry_between, dedup_concat,
          filter_append, hothers, hown,
          map_append (f := usedEntry entries hostAlias source usedAtUnix), append_assoc,
          map_singleton]

/-- The entry of a command came from the remote host. -/
def storedRemote (entries : List CommandHistoryEntry) (hostAlias command : String) : Bool :=
  (entries.find? fun entry ↦ entry.pair = (hostAlias, command)).any fun entry ↦
    entry.source = "remote"

/-- The commands of a call that are listed behind it. -/
def AppendCall.listed (call : AppendCall) (entries : List CommandHistoryEntry) : List String :=
  (call.newest.take MAX_COMMANDS_PER_ALIAS).filter fun command ↦
    ¬storedRemote entries call.hostAlias command

theorem source_usedEntry (hsource : source ≠ "remote") (command : String) :
    (usedEntry entries hostAlias source usedAtUnix command).source ≠ "remote" ↔
      ¬storedRemote entries hostAlias command = true := by
  rw [usedEntry, storedRemote]
  cases entries.find? fun entry ↦ entry.pair = (hostAlias, command) with
  | none => exact ⟨fun _ ↦ Bool.false_ne_true, fun _ ↦ hsource⟩
  | some existing =>
      rw [Option.any_some, decide_eq_true_iff]
      exact Iff.rfl

/-- A command that is used is listed unless it came from the remote host before. -/
theorem visible_usedEntry (hsource : source ≠ "remote") (commands : List String) :
    visible hostAlias (commands.map (usedEntry entries hostAlias source usedAtUnix)) =
      commands.filter fun command ↦ ¬storedRemote entries hostAlias command := by
  have hpair := pair_usedEntry entries hostAlias source usedAtUnix
  have hcommand : CommandHistoryEntry.command ∘ usedEntry entries hostAlias source usedAtUnix =
      id := by
    funext command
    exact (Prod.mk.inj (hpair command)).2
  rw [visible, filter_map, map_map, hcommand, map_id]
  refine filter_congr fun command _ ↦ ?_
  rw [Function.comp_apply, decide_eq_decide, and_iff_right (Prod.mk.inj (hpair command)).1,
    source_usedEntry hsource]

/-- The newest entries behind a call are those of its commands. -/
theorem newest_entriesBehind (entries : List CommandHistoryEntry) (call : AppendCall) :
    (call.newest.take MAX_COMMANDS_PER_ALIAS).map
        (usedEntry entries call.hostAlias call.source call.usedAtUnix) <+:
      (entriesBehind entries call).reverse := by
  rw [entriesBehind, trimEntries_eq, foldl_useCommand]
  generalize entries.filter (fun entry ↦
    entry.pair ∉ (usedCommands call.commands).map (call.hostAlias, ·)) = others
  generalize hown : (usedCommands call.commands).dedup.map
    (usedEntry entries call.hostAlias call.source call.usedAtUnix) = own
  have hnewest : (call.newest.take MAX_COMMANDS_PER_ALIAS).map
      (usedEntry entries call.hostAlias call.source call.usedAtUnix) =
        (own.drop (own.length - MAX_COMMANDS_PER_ALIAS)).reverse := by
    rw [AppendCall.newest, map_take, map_reverse, hown, take_reverse]
  have hback : (own.drop (own.length - MAX_COMMANDS_PER_ALIAS)).length ≤
      MAX_COMMANDS_PER_ALIAS := by
    rw [length_drop]
    omega
  have hcaps : MAX_COMMANDS_PER_ALIAS ≤ MAX_COMMAND_FILE_ENTRIES := by decide
  -- The cap on the file leaves the newest entries, since it is larger than that of an alias.
  have hdrop : (others ++ own).drop ((others ++ own).length - MAX_COMMAND_FILE_ENTRIES) =
      (others ++ own.take (own.length - MAX_COMMANDS_PER_ALIAS)).drop
        ((others ++ own).length - MAX_COMMAND_FILE_ENTRIES) ++
          own.drop (own.length - MAX_COMMANDS_PER_ALIAS) := by
    rw [← drop_append_of_le_length, append_assoc, take_append_drop]
    rw [length_append, length_append, length_take]
    omega
  rw [hnewest, hdrop]
  exact reverse_prefix.mpr (suffix_capped _ hback)

/-- What is listed behind a call begins with its commands. -/
theorem listed_behind (reader : CommandReader) (entries : List CommandHistoryEntry)
    {call : AppendCall} (hsource : call.source ≠ "remote") (limit : Nat) :
    ∃ shown, reader.listCommands (.ok (reader.writeCommands (entriesBehind entries call)))
        call.hostAlias limit = .ok shown ∧
      (call.listed entries).take limit <+: shown := by
  refine ⟨_, listCommands_eq (CommandReader.readCommands_writeCommands reader _), ?_⟩
  obtain ⟨older, holder⟩ := newest_entriesBehind entries call
  have hvisible : visible call.hostAlias (entriesBehind entries call).reverse =
      call.listed entries ++ visible call.hostAlias older := by
    rw [← holder, visible, filter_append, map_append, ← visible, ← visible,
      visible_usedEntry hsource, AppendCall.listed]
  rw [hvisible]
  refine prefix_of_prefix_length_le
    ((List.take_prefix limit _).trans (prefix_append _ _)) (List.take_prefix _ _) ?_
  rw [length_take, length_take, length_append]
  omega

/-! ## Runs -/

/-- Behind every run of calls the history keeps what it should, and behind one more call its
commands are listed first, but for those that came from the remote host. -/
theorem command_history_sound (reader : CommandReader) (start : HistoryFile)
    (entries : List CommandHistoryEntry) (calls : List AppendCall)
    (hstart : reader.readCommands start = .ok entries)
    (hvalid : Tidy entries) :
    ∃ file kept, reader.run start calls = .ok file ∧ reader.readCommands file = .ok kept ∧
      Keeps (entries.map CommandHistoryEntry.pair ++ calls.flatMap AppendCall.pairs) kept ∧
      ∀ call : AppendCall, call.source ≠ "remote" → ∀ limit, ∃ added bytes shown,
        reader.append file call = .ok (added, bytes) ∧
          reader.listCommands (.ok bytes) call.hostAlias limit = .ok shown ∧
          (call.listed kept).take limit <+: shown := by
  obtain ⟨file, kept, hrun, hkept, hkeeps⟩ := run_keeps calls hstart hvalid.keeps
  refine ⟨file, kept, hrun, hkept, hkeeps, fun call hsource limit ↦ ?_⟩
  obtain ⟨added, happend⟩ := append_eq hkept call
  obtain ⟨shown, hshown, hprefix⟩ := listed_behind reader kept hsource limit
  exact ⟨added, _, shown, happend, hshown, hprefix⟩

/-! ### A reader of what was written -/

/-- The line of an entry, as `serde_json` writes it. -/
def toJson (entry : CommandHistoryEntry) : String :=
  String.ofList (object [
    ("alias", quoted entry.hostAlias),
    ("command", quoted entry.command),
    ("usedAtUnix", Nat.toDigits 10 entry.usedAtUnix.toNat),
    ("source", quoted entry.source)])

theorem le_of_mem_toJson (entry : CommandHistoryEntry) :
    ∀ c ∈ (toJson entry).toList, 32 ≤ c.toNat := by
  rw [toJson, String.toList_ofList]
  refine fun c hc ↦ le_of_mem_object (fun value hvalue c hc ↦ ?_) hc
  simp only [mem_cons, not_mem_nil, or_false] at hvalue
  obtain rfl | rfl | rfl | rfl := hvalue
  · exact le_of_mem_quoted hc
  · exact le_of_mem_quoted hc
  · exact le_of_mem_digits hc
  · exact le_of_mem_quoted hc

theorem trimmed_toJson_ne (entry : CommandHistoryEntry) : trimmed (toJson entry) ≠ "" := by
  have htrim : Hosts.trim (toJson entry).toList = (toJson entry).toList := by
    rw [toJson, String.toList_ofList, object]
    refine Hosts.Toml.Trimmed.trim_eq ⟨?_, ?_⟩
    · rintro c ⟨⟩
      rfl
    · rw [List.getLast?_append]
      rintro c ⟨⟩
      rfl
  rw [trimmed, htrim, String.ofList_toList, toJson, object]
  intro h
  have hlist := congrArg String.toList h
  rw [String.toList_ofList] at hlist
  cases hlist

/-- There is no byte below the blank in what is written for an entry. -/
theorem notMem_utf8_toJson (entry : CommandHistoryEntry) {b : UInt8} (hb : b.toNat < 32) :
    b ∉ utf8 (toJson entry) :=
  fun hmem ↦ absurd (le_of_mem_utf8 (by decide) (le_of_mem_toJson entry) hmem) (Nat.not_le.mpr hb)

/-- Read an entry in just the form in which it is written. -/
def fromJson (line : String) : Option CommandHistoryEntry := do
  let input ← dropFront ['\x7b'] line.toList
  let (hostAlias, input) ← readMember "alias" readString input
  let input ← dropFront [','] input
  let (command, input) ← readMember "command" readString input
  let input ← dropFront [','] input
  let (usedAtUnix, input) ← readMember "usedAtUnix" readNat input
  let input ← dropFront [','] input
  let (source, input) ← readMember "source" readString input
  if input = ['\x7d'] then some ⟨hostAlias, command, UInt64.ofNat usedAtUnix, source⟩ else none

theorem fromJson_toJson (entry : CommandHistoryEntry) : fromJson (toJson entry) = some entry := by
  have htext : (toJson entry).toList =
      ['\x7b'] ++ (quoted "alias" ++ ':' :: quoted entry.hostAlias ++
        ([','] ++ (quoted "command" ++ ':' :: quoted entry.command ++
          ([','] ++ (quoted "usedAtUnix" ++ ':' :: Nat.toDigits 10 entry.usedAtUnix.toNat ++
            ([','] ++ (quoted "source" ++ ':' :: quoted entry.source ++ ['\x7d']))))))) := by
    rw [toJson, String.toList_ofList, object, members, members, members, members]
    simp only [append_assoc, cons_append, nil_append]
  have hnumber := readNat_digits entry.usedAtUnix.toNat (d := ',') (by decide)
  rw [fromJson, htext]
  refine Option.bind_eq_some_iff.mpr ⟨_, dropFront_append _ _, ?_⟩
  refine Option.bind_eq_some_iff.mpr
    ⟨_, readMember_append "alias" (readString_quoted entry.hostAlias _), ?_⟩
  refine Option.bind_eq_some_iff.mpr ⟨_, dropFront_append _ _, ?_⟩
  refine Option.bind_eq_some_iff.mpr
    ⟨_, readMember_append "command" (readString_quoted entry.command _), ?_⟩
  refine Option.bind_eq_some_iff.mpr ⟨_, dropFront_append _ _, ?_⟩
  refine Option.bind_eq_some_iff.mpr ⟨_, readMember_append "usedAtUnix" (hnumber _), ?_⟩
  refine Option.bind_eq_some_iff.mpr ⟨_, dropFront_append [','] _, ?_⟩
  refine Option.bind_eq_some_iff.mpr
    ⟨_, readMember_append "source" (readString_quoted entry.source _), ?_⟩
  dsimp only
  rw [if_pos rfl, UInt64.ofNat_toNat]

/-- The reader that reads no more than what was written. -/
def jsonReader : CommandReader where
  toText := toJson
  fromStr := fromJson
  oneLine entry := ⟨notMem_utf8_toJson entry (by decide), notMem_utf8_toJson entry (by decide)⟩
  notBlank := trimmed_toJson_ne
  fromStr_toText := fromJson_toJson

/-- Three calls on two hosts. -/
def sampleCalls : List AppendCall :=
  [⟨"web", ["ls", "pwd"], "terminal", 1⟩, ⟨"db", ["top"], "terminal", 2⟩,
    ⟨"web", [" ls ", "git status"], "local", 3⟩]

theorem command_history_sound_sample :
    ∃ file kept, jsonReader.run (.error .notFound) sampleCalls = .ok file ∧
      jsonReader.readCommands file = .ok kept ∧
      Keeps [("web", "ls"), ("web", "pwd"), ("db", "top"), ("web", "ls"), ("web", "git status")]
        kept := by
  obtain ⟨file, kept, hrun, hkept, hkeeps, -⟩ := command_history_sound jsonReader
    (.error .notFound) [] sampleCalls rfl ⟨nodup_nil, fun _ ↦ Nat.zero_le _, Nat.zero_le _⟩
  exact ⟨file, kept, hrun, hkept, hkeeps⟩

/-! ### What does not hold

A command that came from the remote host is not listed when it is used here. And 5000 commands of
one host drive out that of another host, while only 500 of them are kept. -/

/-- A command of some length. -/
def letters (n : Nat) : String := String.ofList (List.replicate (n + 1) 'a')

theorem trimmed_letters (n : Nat) : trimmed (letters n) = letters n := by
  have htrim : Hosts.Toml.Trimmed (List.replicate (n + 1) 'a') := by
    refine Hosts.Toml.trimmed_of_forall fun c hc ↦ ?_
    rw [eq_of_mem_replicate hc]
    rfl
  rw [trimmed, letters, String.toList_ofList, htrim.trim_eq]

theorem letters_injective : Function.Injective letters := by
  intro m n h
  have hlength := congrArg (fun text ↦ text.toList.length) h
  simpa [letters] using hlength

/-- Many commands, of which each is used once. -/
def manyCommands : List String := (List.range 5000).map letters

theorem usedCommands_many : usedCommands manyCommands = manyCommands := by
  have hmap : manyCommands.map trimmed = manyCommands := by
    rw [manyCommands, map_map]
    exact map_congr_left fun n _ ↦ trimmed_letters n
  rw [usedCommands, hmap, filter_eq_self]
  intro command hmem
  obtain ⟨n, -, rfl⟩ := mem_map.mp hmem
  refine decide_eq_true fun h ↦ ?_
  have hlist := congrArg String.toList h
  rw [letters, String.toList_ofList] at hlist
  cases hlist

theorem manyCommands_nodup : manyCommands.Nodup :=
  nodup_range.map letters_injective

theorem length_manyCommands : manyCommands.length = MAX_COMMAND_FILE_ENTRIES := by
  rw [manyCommands, length_map, length_range]
  rfl

def remoteCall : AppendCall := ⟨"web", ["ls"], "remote", 1⟩

def localCall : AppendCall := ⟨"web", ["ls"], "local", 2⟩

def quietCall : AppendCall := ⟨"db", ["top"], "local", 1⟩

def busyCall (commands : List String) : AppendCall := ⟨"web", commands, "local", 2⟩

/-- Behind as many commands as the file may have there is nothing of another host. -/
theorem entriesBehind_busy {commands : List String} (hused : usedCommands commands = commands)
    (hnodup : commands.Nodup) (hcount : commands.length = MAX_COMMAND_FILE_ENTRIES) :
    ∀ entry ∈ entriesBehind (entriesBehind [] quietCall) (busyCall commands),
      entry.hostAlias = "web" := by
  have hquiet : entriesBehind [] quietCall = [⟨"db", "top", 1, "local"⟩] := by decide
  have hused : usedCommands (busyCall commands).commands = commands := hused
  rw [hquiet, entriesBehind, trimEntries_eq, foldl_useCommand, hused, hnodup.dedup]
  generalize hown : commands.map (usedEntry _ (busyCall commands).hostAlias
    (busyCall commands).source (busyCall commands).usedAtUnix) = own
  have hlength : own.length = MAX_COMMAND_FILE_ENTRIES := by
    rw [← hown, length_map, hcount]
  have hweb : ∀ entry ∈ own, entry.hostAlias = "web" := by
    intro entry hmem
    rw [← hown] at hmem
    obtain ⟨command, -, rfl⟩ := mem_map.mp hmem
    exact (Prod.mk.inj (pair_usedEntry ..)).1
  have hother : [(⟨"db", "top", 1, "local"⟩ : CommandHistoryEntry)].filter (fun entry ↦
      entry.pair ∉ commands.map ((busyCall commands).hostAlias, ·)) =
        [⟨"db", "top", 1, "local"⟩] := by
    refine filter_eq_self.mpr fun entry hmem ↦ decide_eq_true fun hpair ↦ ?_
    rw [mem_singleton.mp hmem] at hpair
    obtain ⟨command, -, heq⟩ := mem_map.mp hpair
    exact absurd (show "web" = "db" from (Prod.mk.inj heq).1) (by decide)
  rw [hother]
  intro entry hmem
  have hdrop := (capped_sublist ..).subset hmem
  rw [length_append, hlength, length_singleton, Nat.add_sub_cancel,
    singleton_append, drop_one, tail_cons] at hdrop
  exact hweb entry hdrop

/-- An entry is missing only if enough of its alias were used later, or enough of those that are
kept. -/
def GivesWayToKept (reader : CommandReader) (calls : List AppendCall) : Prop :=
  ∀ file kept, reader.run (.error .notFound) calls = .ok file →
    reader.readCommands file = .ok kept → ∀ a ∈ calls.flatMap AppendCall.pairs,
      a ∉ kept.map CommandHistoryEntry.pair →
      MAX_COMMANDS_PER_ALIAS ≤ ((since (calls.flatMap AppendCall.pairs) a).toFinset.filter
        fun b ↦ b.1 = a.1).card ∨
      MAX_COMMAND_FILE_ENTRIES ≤ ((since (calls.flatMap AppendCall.pairs) a).toFinset.filter
        fun b ↦ b ∈ kept.map CommandHistoryEntry.pair).card

/-- Behind a call that is not one of the remote host all of its commands are listed first. -/
def ListsNewest (reader : CommandReader) (calls : List AppendCall) : Prop :=
  ∀ file (call : AppendCall) limit added bytes shown,
    reader.run (.error .notFound) calls = .ok file → call.source ≠ "remote" →
    reader.append file call = .ok (added, bytes) →
    reader.listCommands (.ok bytes) call.hostAlias limit = .ok shown →
    (call.newest.take MAX_COMMANDS_PER_ALIAS).take limit <+: shown

theorem not_listsNewest (reader : CommandReader) : ¬ListsNewest reader [remoteCall] := by
  intro h
  have hstart : reader.readCommands (.error .notFound) = .ok [] := rfl
  obtain ⟨_, hremote⟩ := append_eq hstart remoteCall
  have hread := reader.readCommands_writeCommands (entriesBehind [] remoteCall)
  obtain ⟨added, hlocal⟩ := append_eq hread localCall
  have hrun : reader.run (.error .notFound) [remoteCall] =
      .ok (.ok (reader.writeCommands (entriesBehind [] remoteCall))) := by
    rw [CommandReader.run, foldlM_cons, hremote]
    rfl
  have hlisted := @listCommands_eq reader _ _ "web" 10
    (reader.readCommands_writeCommands (entriesBehind (entriesBehind [] remoteCall) localCall))
  have hnone : visible "web" (entriesBehind (entriesBehind [] remoteCall) localCall).reverse = [] :=
    by decide
  rw [hnone, take_nil] at hlisted
  have hprefix := h _ localCall 10 _ _ _ hrun (by decide) hlocal hlisted
  exact absurd hprefix (by decide)

theorem not_givesWayToKept (reader : CommandReader) {commands : List String}
    (hused : usedCommands commands = commands) (hnodup : commands.Nodup)
    (hcount : commands.length = MAX_COMMAND_FILE_ENTRIES) :
    ¬GivesWayToKept reader [quietCall, busyCall commands] := by
  intro h
  have hstart : reader.readCommands (.error .notFound) = .ok [] := rfl
  obtain ⟨_, hquiet⟩ := append_eq hstart quietCall
  have hread := reader.readCommands_writeCommands (entriesBehind [] quietCall)
  obtain ⟨_, hbusy⟩ := append_eq hread (busyCall commands)
  have hrun : reader.run (.error .notFound) [quietCall, busyCall commands] =
      .ok (.ok (reader.writeCommands
        (entriesBehind (entriesBehind [] quietCall) (busyCall commands)))) := by
    rw [CommandReader.run, foldlM_cons, hquiet, Except.map, Result.bind_ok,
      foldlM_cons, hbusy]
    rfl
  have hweb := entriesBehind_busy hused hnodup hcount
  have htidy : Tidy [] := ⟨nodup_nil, fun _ ↦ Nat.zero_le _, Nat.zero_le _⟩
  have hkeeps := (htidy.keeps.behind quietCall).behind (busyCall commands)
  generalize entriesBehind (entriesBehind [] quietCall) (busyCall commands) = kept
    at hrun hweb hkeeps
  have hpairs : [quietCall, busyCall commands].flatMap AppendCall.pairs =
      [] ++ [("db", "top")] ++ commands.map ("web", ·) := by
    have hquiet : quietCall.pairs = [("db", "top")] := by decide
    have hbusy : (busyCall commands).pairs = commands.map ("web", ·) :=
      congrArg (List.map ("web", ·)) hused
    rw [flatMap_cons, flatMap_singleton, hquiet, hbusy, nil_append]
  have hother : ("db", "top") ∉ commands.map ("web", ·) := by
    intro hmem
    obtain ⟨command, -, heq⟩ := mem_map.mp hmem
    exact absurd (Prod.mk.inj heq).1 (by decide)
  have hgone : ("db", "top") ∉ kept.map CommandHistoryEntry.pair := by
    intro hmem
    obtain ⟨entry, hentry, heq⟩ := mem_map.mp hmem
    rw [CommandHistoryEntry.pair, hweb entry hentry] at heq
    exact absurd (Prod.mk.inj heq).1 (by decide)
  have hevidence := h _ kept hrun (reader.readCommands_writeCommands kept) ("db", "top")
    (hpairs ▸ mem_append_left _ (mem_singleton_self _)) hgone
  rw [hpairs, since_append_of_notMem _ hother, since_concat_self, nil_append] at hevidence
  rcases hevidence with halias | hkept
  · have hnone : ((commands.map ("web", ·)).toFinset.filter fun b ↦ b.1 = "db") = ∅ := by
      refine Finset.filter_eq_empty_iff.mpr fun b hb ↦ ?_
      obtain ⟨command, -, rfl⟩ := mem_map.mp (mem_toFinset.mp hb)
      exact (by decide : "web" ≠ "db")
    rw [hnone] at halias
    exact absurd halias (by decide)
  · have hsub : ((commands.map ("web", ·)).toFinset.filter fun b ↦
        b ∈ kept.map CommandHistoryEntry.pair) ⊆
          (kept.map CommandHistoryEntry.pair).toFinset := by
      intro b hb
      exact mem_toFinset.mpr (Finset.mem_filter.mp hb).2
    have hall : (kept.countP fun entry ↦ entry.hostAlias = "web") = kept.length :=
      countP_eq_length.mpr fun entry hentry ↦ decide_eq_true (hweb entry hentry)
    have hfew : kept.length ≤ MAX_COMMANDS_PER_ALIAS := hall ▸ hkeeps.perAlias "web"
    have hcard := (Finset.card_le_card hsub).trans (toFinset_card_le _)
    rw [length_map] at hcard
    exact absurd ((hkept.trans hcard).trans hfew) (by decide)

/-- Neither of the two holds. -/
theorem history_not_as_expected :
    (¬∀ reader calls, GivesWayToKept reader calls) ∧ ¬∀ reader calls, ListsNewest reader calls :=
  ⟨fun h ↦ not_givesWayToKept jsonReader usedCommands_many manyCommands_nodup length_manyCommands
    (h _ _), fun h ↦ not_listsNewest jsonReader (h _ _)⟩

end KaduoxSsh.Desktop.History
