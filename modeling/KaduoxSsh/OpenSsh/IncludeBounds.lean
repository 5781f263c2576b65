import KaduoxSsh.Lib.Stateful
import KaduoxSsh.OpenSsh.Include

/-!
# Bounds of the expansion

Files may include themselves and each other, and a pattern may match the file it
stands in. That the expansion ends is what Lean asks of the recursion in
`Include`: each file is one level deeper than the one that includes it, and below
the last level no file is entered. Here is what it can use until it ends
(`ExpansionState.Within`), and that it leaves the set of active files as it found
it, whether it succeeds or not.
-/

namespace KaduoxSsh.OpenSsh

open Hosts.Toml (lines)

/-- The limits on the files entered and on the contents accepted. -/
structure ExpansionState.Within (state : ExpansionState) : Prop where
  counted : state.filesSeen = state.entered.length
  files : state.entered.length ≤ MAX_INCLUDE_FILES
  depth : ∀ file ∈ state.entered, file.2 ≤ MAX_INCLUDE_DEPTH
  accounted : (state.accepted.map String.utf8ByteSize).sum ≤ state.bytesRead
  bytes : (state.accepted.map String.utf8ByteSize).sum ≤ MAX_CONFIG_BYTES

theorem ExpansionState.within_new : ExpansionState.new.Within :=
  ⟨rfl, Nat.zero_le _, nofun, Nat.le_refl _, Nat.zero_le _⟩

/-- A step that keeps to the limits, leaves the active files as they were, and returns a value
with some property if any. -/
def Bounded {α : Type} (x : Expanding α) (post : α → Prop) : Prop :=
  ∀ state, (state.Within → (x.run state).2.Within) ∧
    (x.run state).2.activePaths = state.activePaths ∧
    ∀ a, (x.run state).1 = .ok a → post a

namespace Bounded

variable {α β : Type} {post : α → Prop}

theorem ofResult {x : Result α} (h : ∀ a, x = .ok a → post a) :
    Bounded (Expanding.ofResult x) post := fun _ ↦ ⟨id, rfl, h⟩

theorem pure {a : α} (h : post a) : Bounded (pure a : Expanding α) post := by
  intro state
  refine ⟨id, rfl, fun b hb ↦ ?_⟩
  cases hb
  exact h

theorem bind {x : Expanding α} {f : α → Expanding β} {mid : α → Prop} {post : β → Prop}
    (hx : Bounded x mid) (hf : ∀ a, mid a → Bounded (f a) post) : Bounded (x >>= f) post := by
  intro state
  obtain ⟨hwithin, hactive, hmid⟩ := hx state
  rw [Stateful.run_bind]
  rcases hrun : x.run state with ⟨e | a, next⟩
  · rw [hrun] at hwithin hactive
    exact ⟨hwithin, hactive, nofun⟩
  · rw [hrun] at hwithin hactive hmid
    obtain ⟨hwithin', hactive', hpost⟩ := hf a (hmid a rfl) next
    exact ⟨fun h ↦ hwithin' (hwithin h), hactive'.trans hactive, hpost⟩

theorem context {x : Expanding α} (h : Bounded x post) (text : String) :
    Bounded (x.context text) post := by
  intro state
  obtain ⟨hwithin, hactive, hpost⟩ := h state
  exact ⟨hwithin, hactive, fun a ha ↦ hpost a (Result.context_eq_ok.mp ha)⟩

end Bounded

/-! ## Texts -/

/-- A text within the limit of the output. -/
def Small (text : String) : Prop := text.utf8ByteSize ≤ MAX_CONFIG_BYTES

theorem small_empty : Small "" := Nat.zero_le _

theorem pushBounded_small {output text out : String} (h : pushBounded output text = .ok out) :
    Small out := by
  simp only [pushBounded, checkedAdd, Result.bind_eq_ok, Result.bailIf_eq_ok] at h
  obtain ⟨newLen, hlen, -, hle, hret⟩ := h
  cases hret
  split at hlen
  · cases hlen
    rw [Small, String.utf8ByteSize_append]
    exact Nat.le_of_not_lt hle
  · cases hlen

theorem pushLineBounded_small {output line out : String}
    (h : pushLineBounded output line = .ok out) : Small out := by
  obtain ⟨middle, -, hpush⟩ := Result.bind_eq_ok.mp h
  exact pushBounded_small hpush

theorem pushMissing_small {missing : Bool} {output out : String} (houtput : Small output)
    (h : pushMissing missing output = .ok out) : Small out := by
  rw [pushMissing] at h
  split at h
  · exact pushBounded_small h
  · cases h
    exact houtput

/-! ## Steps -/

theorem includeFiles_bounded {expand : PathBuf → Expanding String} {missing : String → Bool}
    (hexpand : ∀ file, Bounded (expand file) Small) (files : List PathBuf) {expanded : String}
    (hexpanded : Small expanded) :
    Bounded (includeFiles expand missing files expanded) Small := by
  induction files generalizing expanded with
  | nil => exact .pure hexpanded
  | cons file files ih =>
      rw [includeFiles]
      refine (hexpand file).bind fun included _ ↦ ?_
      refine (Bounded.ofResult fun _ ↦ pushBounded_small).bind fun joined hjoined ↦ ?_
      refine (Bounded.ofResult fun _ ↦ pushMissing_small hjoined).bind fun ended hended ↦ ?_
      exact ih hended

section

variable {world : World} {expanded : String} {expand : PathBuf → Expanding String}

theorem includeAll_bounded {missing : String → Bool}
    (hexpand : ∀ file, Bounded (expand file) Small) (arguments : List String)
    (hexpanded : Small expanded) :
    Bounded (includeAll world expand missing arguments expanded) Small := by
  induction arguments generalizing expanded with
  | nil => exact .pure hexpanded
  | cons argument arguments ih =>
      rw [includeAll]
      refine (Bounded.ofResult fun _ _ ↦ trivial).bind fun pattern _ ↦ ?_
      refine (Bounded.ofResult fun _ _ ↦ trivial).bind fun files _ ↦ ?_
      refine (includeFiles_bounded hexpand files hexpanded).bind fun joined hjoined ↦ ?_
      exact ih hjoined

/-- The bytes are counted, also those that are too many. -/
theorem accountInputBytes_cases (additional : Nat) (state : ExpansionState) :
    (∃ e bytesRead, state.bytesRead ≤ bytesRead ∧
      (accountInputBytes additional).run state = (.error e, { state with bytesRead })) ∨
    (state.bytesRead + additional ≤ MAX_CONFIG_BYTES ∧
      (accountInputBytes additional).run state =
        (.ok (), { state with bytesRead := state.bytesRead + additional })) := by
  have hrun : (accountInputBytes additional).run state = accountInputBytes additional state := rfl
  rw [hrun, accountInputBytes, checkedAdd]
  by_cases hoverflow : state.bytesRead + additional < 2 ^ 64
  · rw [if_pos hoverflow]
    dsimp only
    by_cases hlimit : state.bytesRead + additional > MAX_CONFIG_BYTES
    · rw [if_pos hlimit]
      exact .inl ⟨_, _, Nat.le_add_right _ additional, rfl⟩
    · rw [if_neg hlimit]
      exact .inr ⟨Nat.le_of_not_lt hlimit, rfl⟩
  · rw [if_neg hoverflow]
    exact .inl ⟨_, state.bytesRead, Nat.le_refl _, rfl⟩

theorem readConfig_bounded (path : PathBuf) :
    Bounded (readConfig world path) fun _ ↦ True := by
  rw [readConfig]
  refine (Bounded.ofResult fun _ _ ↦ trivial).bind fun contents _ ↦ ?_
  intro state
  rw [Stateful.run_bind]
  obtain ⟨e, bytesRead, hmore, hrun⟩ | ⟨hlimit, hrun⟩ :=
    accountInputBytes_cases contents.utf8ByteSize state
  · rw [hrun]
    refine ⟨fun hstate ↦ ?_, rfl, nofun⟩
    exact { hstate with accounted := hstate.accounted.trans hmore }
  · rw [hrun]
    refine ⟨fun hstate ↦ ?_, rfl, fun _ _ ↦ trivial⟩
    have hsum : ((state.accepted ++ [contents]).map String.utf8ByteSize).sum =
        (state.accepted.map String.utf8ByteSize).sum + contents.utf8ByteSize := by
      rw [List.map_append, List.sum_append]
      rfl
    have hle := Nat.add_le_add_right hstate.accounted contents.utf8ByteSize
    refine ⟨hstate.counted, hstate.files, hstate.depth, ?_, ?_⟩
    · exact hsum.trans_le hle
    · exact hsum.trans_le (hle.trans hlimit)

theorem connectionLine_bounded {expand : ConnectionExpander}
    (hexpand : ∀ file active never, Bounded (expand file active never) Small) (path : PathBuf)
    (neverMatch : Bool) (lineIndex : Nat) (line : String) (active : Bool)
    (hexpanded : Small expanded) :
    Bounded (connectionLine world expand path neverMatch lineIndex line active expanded)
      fun result ↦ Small result.2 := by
  unfold connectionLine
  split
  · exact (Bounded.ofResult fun _ _ ↦ trivial).bind fun _ _ ↦ .pure hexpanded
  split
  · exact (Bounded.ofResult fun _ _ ↦ trivial).bind fun _ _ ↦ .pure hexpanded
  refine (Bounded.ofResult fun _ _ ↦ trivial).bind fun arguments _ ↦ ?_
  cases arguments with
  | none =>
      dsimp only
      split
      · exact (Bounded.ofResult fun _ ↦ pushLineBounded_small).bind fun _ hpushed ↦ .pure hpushed
      · exact (Bounded.ofResult fun _ _ ↦ trivial).bind fun _ _ ↦ .pure hexpanded
  | some arguments =>
      refine (Bounded.ofResult fun _ _ ↦ trivial).bind fun _ _ ↦ ?_
      refine (includeAll_bounded (fun file ↦ ?_) arguments hexpanded).bind fun _ hjoined ↦
        .pure hjoined
      exact (hexpand file _ _).context _

theorem connectionLines_bounded {expand : ConnectionExpander}
    (hexpand : ∀ file active never, Bounded (expand file active never) Small) (path : PathBuf)
    (neverMatch : Bool) (lineIndex : Nat) (rest : List String) (active : Bool)
    (hexpanded : Small expanded) :
    Bounded (connectionLines world expand path neverMatch lineIndex rest active expanded)
      Small := by
  induction rest generalizing lineIndex active expanded with
  | nil => exact .pure hexpanded
  | cons line rest ih =>
      rw [connectionLines]
      refine (connectionLine_bounded hexpand path neverMatch lineIndex line active
        hexpanded).bind fun result hresult ↦ ?_
      exact ih _ _ hresult

theorem catalogLine_bounded (hexpand : ∀ file, Bounded (expand file) Small) (path : PathBuf)
    (lineIndex : Nat) (line : String) (hexpanded : Small expanded) :
    Bounded (catalogLine world expand path lineIndex line expanded) Small := by
  unfold catalogLine
  refine (Bounded.ofResult fun _ _ ↦ trivial).bind fun arguments _ ↦ ?_
  cases arguments with
  | none => exact .ofResult fun _ ↦ pushLineBounded_small
  | some arguments =>
      refine (Bounded.ofResult fun _ _ ↦ trivial).bind fun _ _ ↦ ?_
      exact includeAll_bounded (fun file ↦ (hexpand file).context _) arguments hexpanded

theorem catalogLines_bounded (hexpand : ∀ file, Bounded (expand file) Small) (path : PathBuf)
    (lineIndex : Nat) (rest : List String) (hexpanded : Small expanded) :
    Bounded (catalogLines world expand path lineIndex rest expanded) Small := by
  induction rest generalizing lineIndex expanded with
  | nil => exact .pure hexpanded
  | cons line rest ih =>
      rw [catalogLines]
      refine (catalogLine_bounded hexpand path lineIndex line hexpanded).bind fun _ hjoined ↦ ?_
      exact ih _ hjoined

/-! ## Files -/

/-- Entering a file fails and changes nothing, or adds a file to the active ones. -/
theorem enterFile_cases (path : PathBuf) (depth : Nat) (state : ExpansionState) :
    (∃ e, (enterFile world path depth).run state = (.error e, state)) ∨
    ∃ entered : Entered depth, entered.identity ∉ state.activePaths ∧
      state.filesSeen < MAX_INCLUDE_FILES ∧
      (enterFile world path depth).run state = (.ok entered, { state with
        activePaths := insert entered.identity state.activePaths
        filesSeen := state.filesSeen + 1
        entered := state.entered ++ [(path, depth)] }) := by
  have hrun : (enterFile world path depth).run state = enterFile world path depth state := rfl
  rw [hrun]
  unfold enterFile
  split
  · exact .inl ⟨_, rfl⟩
  split
  · exact .inl ⟨_, rfl⟩
  split
  · exact .inl ⟨_, rfl⟩
  split
  · exact .inl ⟨_, rfl⟩
  · rename_i hdepth hfiles _ identity _ hfresh
    exact .inr ⟨⟨identity, Nat.le_of_not_lt hdepth⟩, hfresh, Nat.lt_of_not_le hfiles, rfl⟩

/-- A file is entered and left around a bounded step. -/
theorem enter_leaving_bounded {path : PathBuf} {depth : Nat} {x : Expanding String}
    (hx : depth ≤ MAX_INCLUDE_DEPTH → Bounded x Small) :
    Bounded (enterFile world path depth >>= fun entered ↦ leaving entered.identity x) Small := by
  intro state
  rw [Stateful.run_bind]
  obtain ⟨e, hrun⟩ | ⟨entered, hfresh, hfiles, hrun⟩ := enterFile_cases path depth state
  · rw [hrun]
    exact ⟨id, rfl, nofun⟩
  rw [hrun]
  obtain ⟨hwithin, hactive, hpost⟩ := hx entered.shallow { state with
    activePaths := insert entered.identity state.activePaths
    filesSeen := state.filesSeen + 1
    entered := state.entered ++ [(path, depth)] }
  refine ⟨fun hstate ↦ ?_, ?_, hpost⟩
  · have hafter := hwithin ?_
    · exact ⟨hafter.counted, hafter.files, hafter.depth, hafter.accounted, hafter.bytes⟩
    refine ⟨?_, ?_, fun file hfile ↦ ?_, hstate.accounted, hstate.bytes⟩
    · rw [List.length_append, hstate.counted]
      rfl
    · rw [List.length_append, ← hstate.counted]
      exact hfiles
    · rcases List.mem_append.mp hfile with hfile | hfile
      · exact hstate.depth file hfile
      · rw [List.mem_singleton.mp hfile]
        exact entered.shallow
  · exact (congrArg (Finset.erase · entered.identity) hactive).trans (Finset.erase_insert hfresh)

end

theorem expandConnectionFile_bounded (world : World) (path : PathBuf) (depth : Nat)
    (inheritedActive neverMatch : Bool) :
    Bounded (expandConnectionFile world path depth inheritedActive neverMatch) Small := by
  induction hlevels : MAX_INCLUDE_DEPTH + 1 - depth using Nat.strong_induction_on
    generalizing path depth inheritedActive neverMatch with
  | _ levels ih =>
      rw [expandConnectionFile]
      refine enter_leaving_bounded fun hshallow ↦ ?_
      refine (readConfig_bounded path).bind fun contents _ ↦ ?_
      refine connectionLines_bounded (fun file active never ↦ ?_) path neverMatch 0 _ _ small_empty
      exact ih _ (by omega) file (depth + 1) active never rfl

theorem expandCatalogFile_bounded (world : World) (path : PathBuf) (depth : Nat) :
    Bounded (expandCatalogFile world path depth) Small := by
  induction hlevels : MAX_INCLUDE_DEPTH + 1 - depth using Nat.strong_induction_on
    generalizing path depth with
  | _ levels ih =>
      rw [expandCatalogFile]
      refine enter_leaving_bounded fun hshallow ↦ ?_
      refine (readConfig_bounded path).bind fun contents _ ↦ ?_
      refine catalogLines_bounded (fun file ↦ ?_) path 0 _ small_empty
      exact ih _ (by omega) file (depth + 1) rfl

/-- What an expansion leaves, whatever the files are: the limits are kept, from a state where they
are, the active files are those on entry, and a text that is returned is within its limit. -/
structure Limited (x : Expanding String) (state : ExpansionState) : Prop where
  within : state.Within → (x.run state).2.Within
  active : (x.run state).2.activePaths = state.activePaths
  output : ∀ out, (x.run state).1 = .ok out → out.utf8ByteSize ≤ MAX_CONFIG_BYTES

/-- On all files, the recursive step of either expansion keeps to the limits and restores the
active files, and so do the whole expansions, which start within the limits. -/
theorem include_expansion_limited (world : World) :
    ExpansionState.new.Within ∧
    (∀ path depth inheritedActive neverMatch state,
      Limited (expandConnectionFile world path depth inheritedActive neverMatch) state) ∧
    (∀ path depth state, Limited (expandCatalogFile world path depth) state) ∧
    (∀ root state, Limited (expandUserConfig world root) state) ∧
    ∀ root state, Limited (expandUserConfigForCatalog world root) state := by
  have hlimited {x : Expanding String} (h : Bounded x Small) (state : ExpansionState) :
      Limited x state := ⟨(h state).1, (h state).2.1, (h state).2.2⟩
  refine ⟨ExpansionState.within_new, fun path depth active never ↦ ?_, fun path depth ↦ ?_,
    fun root ↦ ?_, fun root ↦ ?_⟩
  · exact hlimited (expandConnectionFile_bounded world path depth active never)
  · exact hlimited (expandCatalogFile_bounded world path depth)
  · refine hlimited ((expandConnectionFile_bounded world root 0 true false).bind fun _ _ ↦ ?_)
    exact .ofResult fun _ ↦ pushBounded_small
  · exact hlimited (expandCatalogFile_bounded world root 0)

end KaduoxSsh.OpenSsh
