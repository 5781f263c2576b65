import KaduoxSsh.Desktop.History
import KaduoxSsh.Hosts.Toml
import KaduoxSsh.Lib.Recency

/-!
# What is in the history of the commands

The history holds what was used last. An entry may be missing only if enough others have been
used since, of its own alias or of all of them. The newest commands of an alias are listed first,
but for those that were in the history already as ones of the remote host, which stay what they
are.

The two caps are applied one after the other. The first one counts entries that the second one
takes away, so that an entry can give way to others that are not kept.
-/

namespace KaduoxSsh.Desktop.History

open Text Lines Recency List
open Sessions (trimmed)

/-! ## The file -/

namespace CommandReader

variable {reader : CommandReader} {file : HistoryFile} {entries : List CommandHistoryEntry}

theorem mapM_lineText (lines : List String) : (lines.map some).mapM lineText = .ok lines := by
  induction lines with
  | nil => rfl
  | cons line lines ih =>
      rw [map_cons, mapM_cons, ih]
      rfl

/-- The lines of a file that was written are its entries. -/
theorem fileLines_writeCommands (entries : List CommandHistoryEntry) :
    fileLines (reader.writeCommands entries) = (entries.map reader.toText).map some := by
  have hwrite : reader.writeCommands entries =
      (entries.map reader.toText).flatMap fun text ↦ utf8 text ++ [newline] := by
    rw [flatMap_map]
    rfl
  rw [hwrite, fileLines_flatMap]
  intro text hmem
  obtain ⟨entry, -, rfl⟩ := mem_map.mp hmem
  exact reader.oneLine entry

/-- What was written is read back. -/
theorem readCommands_writeCommands (reader : CommandReader) (entries : List CommandHistoryEntry) :
    reader.readCommands (.ok (reader.writeCommands entries)) = .ok entries := by
  have hentry : reader.readEntry ∘ reader.toText = some := by
    funext entry
    rw [Function.comp_apply, readEntry, if_neg (reader.notBlank entry), reader.fromStr_toText]
  have hentries : (entries.map reader.toText).filterMap reader.readEntry = entries := by
    rw [filterMap_map, hentry, filterMap_some]
  rw [readCommands, fileLines_writeCommands, mapM_lineText]
  exact congrArg Except.ok hentries

end CommandReader

/-! ## Using a command -/

variable {entries : List CommandHistoryEntry} {hostAlias source command : String}
  {usedAtUnix : UInt64} {uses : List (String × String)} {n : Nat}

/-- The entry of a command that is used: the one there was with another time, or a new one. -/
def usedEntry (entries : List CommandHistoryEntry) (hostAlias source : String)
    (usedAtUnix : UInt64) (command : String) : CommandHistoryEntry :=
  (entries.find? fun entry ↦ entry.pair = (hostAlias, command)).elim
    ⟨hostAlias, command, usedAtUnix, source⟩ fun existing ↦ { existing with usedAtUnix }

theorem pair_usedEntry (entries : List CommandHistoryEntry) (hostAlias source : String)
    (usedAtUnix : UInt64) (command : String) :
    (usedEntry entries hostAlias source usedAtUnix command).pair = (hostAlias, command) := by
  rw [usedEntry]
  cases hfind : entries.find? fun entry ↦ entry.pair = (hostAlias, command) with
  | none => rfl
  | some existing =>
      have hpair := List.find?_some hfind
      exact of_decide_eq_true hpair

/-- Whether there is an entry of a command or not, its entry is at the end when it is used. -/
theorem useCommand_eq (hcommand : trimmed command ≠ "") :
    (useCommand hostAlias source usedAtUnix (entries, n) command).1 =
      entries.filter (fun entry ↦ entry.pair ≠ (hostAlias, trimmed command)) ++
        [usedEntry entries hostAlias source usedAtUnix (trimmed command)] := by
  rw [useCommand, usedEntry, if_neg hcommand]
  cases hfind : entries.find? fun entry ↦ entry.pair = (hostAlias, trimmed command) with
  | some existing => rfl
  | none =>
      have hself : entries.filter (fun entry ↦ entry.pair ≠ (hostAlias, trimmed command)) =
          entries := by
        refine filter_eq_self.mpr fun entry hmem ↦ decide_eq_true fun hpair ↦ ?_
        exact List.find?_eq_none.mp hfind entry hmem (decide_eq_true hpair)
      rw [hself]
      rfl

theorem useCommand_of_blank (hcommand : trimmed command = "") :
    useCommand hostAlias source usedAtUnix (entries, n) command = (entries, n) := by
  rw [useCommand]
  exact if_pos hcommand

/-- The commands of a call that are used: the blanks around them are left out, and those that are
nothing else. -/
def usedCommands (commands : List String) : List String :=
  (commands.map trimmed).filter (· ≠ "")

theorem usedCommands_concat (commands : List String) (command : String) :
    usedCommands (commands ++ [command]) =
      usedCommands commands ++ if trimmed command = "" then [] else [trimmed command] := by
  rw [usedCommands, map_append, filter_append, usedCommands]
  congr 1
  split
  · next h => simp [h]
  · next h => simp [h]

/-- A history that remembers what was used remembers what a call uses as well. -/
theorem remembers_foldl {m k : Nat} (commands : List String)
    (h : Remembers Prod.fst m k uses (entries.map CommandHistoryEntry.pair)) :
    Remembers Prod.fst m k (uses ++ (usedCommands commands).map (hostAlias, ·))
      ((commands.foldl (useCommand hostAlias source usedAtUnix) (entries, n)).1.map
        CommandHistoryEntry.pair) := by
  induction commands using List.reverseRecOn with
  | nil =>
      have hnil : usedCommands [] = [] := rfl
      rw [hnil, map_nil, append_nil]
      exact h
  | append_singleton commands command ih =>
      rw [foldl_concat, usedCommands_concat]
      generalize commands.foldl (useCommand hostAlias source usedAtUnix) (entries, n) = state
        at ih ⊢
      obtain ⟨entries, n⟩ := state
      by_cases hcommand : trimmed command = ""
      · rw [useCommand_of_blank hcommand, if_pos hcommand, append_nil]
        exact ih
      · have hmap : (entries.filter fun entry ↦
            entry.pair ≠ (hostAlias, trimmed command)).map CommandHistoryEntry.pair =
            (entries.map CommandHistoryEntry.pair).filter (· ≠ (hostAlias, trimmed command)) := by
          rw [filter_map]
          rfl
        rw [useCommand_eq hcommand, if_neg hcommand, map_append, map_append, hmap,
          ← append_assoc, map_singleton, map_singleton, pair_usedEntry]
        exact ih.touch _

/-! ## The caps -/

theorem dropOldest_eq (entries : List CommandHistoryEntry) :
    dropOldest entries = entries.drop (entries.length - MAX_COMMAND_FILE_ENTRIES) := by
  induction entries with
  | nil => rfl
  | cons entry entries ih =>
      rw [dropOldest]
      split
      · next h =>
        rw [ih, length_cons, Nat.succ_sub (Nat.le_of_lt_succ h), drop_succ_cons]
      · next h =>
        rw [Nat.sub_eq_zero_of_le (Nat.not_lt.mp h), drop_zero]

/-- The counts are those of the entries that have been seen, as far as the cap. -/
theorem keepNewest_eq {perAlias : SortedMap String Nat} (older newer : List CommandHistoryEntry)
    (h : ∀ a, (perAlias.get? a).getD 0 =
      min MAX_COMMANDS_PER_ALIAS (newer.countP fun entry ↦ entry.hostAlias = a)) :
    (keepNewest perAlias older).reverse ++
        capped CommandHistoryEntry.hostAlias MAX_COMMANDS_PER_ALIAS newer =
      capped CommandHistoryEntry.hostAlias MAX_COMMANDS_PER_ALIAS (older.reverse ++ newer) := by
  induction older generalizing perAlias newer with
  | nil => rfl
  | cons entry older ih =>
      have hcount := h entry.hostAlias
      rw [keepNewest, reverse_cons, append_assoc, singleton_append]
      by_cases hfew : (newer.countP fun other ↦ other.hostAlias = entry.hostAlias) <
          MAX_COMMANDS_PER_ALIAS
      · rw [Nat.min_eq_right hfew.le] at hcount
        rw [hcount, if_pos hfew, reverse_cons, append_assoc, singleton_append]
        rw [← ih (entry :: newer), capped, if_pos hfew]
        intro a
        rw [SortedMap.get?_insert, countP_cons]
        by_cases ha : a = entry.hostAlias
        · rw [if_pos ha, if_pos (decide_eq_true ha.symm), ha, Nat.min_eq_right hfew]
          rfl
        · rw [if_neg ha, h a, if_neg fun heq ↦ ha (of_decide_eq_true heq).symm, Nat.add_zero]
      · rw [Nat.min_eq_left (Nat.not_lt.mp hfew)] at hcount
        rw [hcount, if_neg (Nat.lt_irrefl _)]
        rw [← ih (entry :: newer), capped, if_neg hfew]
        intro a
        rw [h, countP_cons]
        by_cases ha : a = entry.hostAlias
        · have hmany := Nat.not_lt.mp hfew
          rw [ha, Nat.min_eq_left hmany, Nat.min_eq_left (hmany.trans (Nat.le_add_right _ _))]
        · rw [if_neg fun heq ↦ ha (of_decide_eq_true heq).symm, Nat.add_zero]

/-- What the two caps leave. -/
theorem trimEntries_eq (entries : List CommandHistoryEntry) :
    trimEntries entries = capped CommandHistoryEntry.hostAlias MAX_COMMANDS_PER_ALIAS
      (entries.drop (entries.length - MAX_COMMAND_FILE_ENTRIES)) := by
  have hnone : ∀ a : String, ((SortedMap.empty : SortedMap String Nat).get? a).getD 0 =
      min MAX_COMMANDS_PER_ALIAS
        (([] : List CommandHistoryEntry).countP fun entry ↦ entry.hostAlias = a) := by
    intro a
    rfl
  have hkeep := keepNewest_eq (dropOldest entries).reverse [] hnone
  rw [reverse_reverse, append_nil, capped, append_nil, dropOldest_eq] at hkeep
  rw [trimEntries, dropOldest_eq]
  exact hkeep

/-- Entries as a history has them: no command of an alias twice, and not too many. -/
structure Tidy (entries : List CommandHistoryEntry) : Prop where
  once : (entries.map CommandHistoryEntry.pair).Nodup
  perAlias : ∀ a, (entries.countP fun entry ↦ entry.hostAlias = a) ≤ MAX_COMMANDS_PER_ALIAS
  total : entries.length ≤ MAX_COMMAND_FILE_ENTRIES

/-- What is to hold of the entries of a history, `uses` being what has been used. -/
structure Keeps (uses : List (String × String)) (entries : List CommandHistoryEntry) : Prop
    extends Tidy entries where
  remembers : Remembers Prod.fst MAX_COMMANDS_PER_ALIAS MAX_COMMAND_FILE_ENTRIES uses
    (entries.map CommandHistoryEntry.pair)

theorem Tidy.keeps (h : Tidy entries) : Keeps (entries.map CommandHistoryEntry.pair) entries :=
  ⟨h, .refl h.once⟩

/-- The caps make a history out of entries that remember what was used. -/
theorem keeps_trimEntries
    (h : Remembers Prod.fst MAX_COMMANDS_PER_ALIAS MAX_COMMAND_FILE_ENTRIES uses
      (entries.map CommandHistoryEntry.pair)) : Keeps uses (trimEntries entries) := by
  have hremembers := h.dropOldest.capped
  rw [length_map, ← map_drop, ← capped_map] at hremembers
  rw [trimEntries_eq]
  refine ⟨⟨hremembers.nodup, fun a ↦ countP_capped_le _ _ _ a, ?_⟩, hremembers⟩
  have hsub := (capped_sublist CommandHistoryEntry.hostAlias MAX_COMMANDS_PER_ALIAS
    (entries.drop (entries.length - MAX_COMMAND_FILE_ENTRIES))).length_le
  rw [length_drop] at hsub
  omega

end KaduoxSsh.Desktop.History
