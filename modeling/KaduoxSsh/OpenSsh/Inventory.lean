import KaduoxSsh.Hosts.Toml
import KaduoxSsh.Lib.DepthFirst
import KaduoxSsh.Lib.Words
import KaduoxSsh.OpenSsh.Target
import Mathlib.Data.List.Perm.Subperm

/-!
# Inventories of hosts and groups

`inventory.rs`: a text of `host` and `group` lines. A group has hosts and other
groups as members and is expanded into its hosts depth first, each at its first
visit. Every group is expanded once when the text is read, so that an inventory
with a cycle is never handed out.

The recursion of the expansion is bounded by the number of groups, since the path
to a group has no group twice (`expandGroupInner_fuel`).
-/

namespace KaduoxSsh.OpenSsh

open Text DepthFirst Result SortedMap
open Hosts (trim)
open Hosts.Toml (lines)

def MAX_INVENTORY_HOSTS : Nat := 4096
def MAX_GROUPS : Nat := 512
def MAX_GROUP_MEMBERS : Nat := 8192
def MAX_EXPANDED_GROUP_HOSTS : Nat := 1024

inductive InventoryMember where
  | host (target : String)
  | group (name : String)
deriving DecidableEq, Repr

structure InventoryGroup where
  name : String
  members : List InventoryMember
deriving DecidableEq, Repr

structure HostInventory where
  source : Option PathBuf
  hosts : List String
  groups : List InventoryGroup
deriving DecidableEq, Repr

/-! ## Expansion of a group -/

/-- The hosts that were come to, as a set and in order. -/
structure Expansion where
  seenHosts : List String
  expanded : List String

def Expansion.empty : Expansion := ⟨[], []⟩

/-- The members of a group, with the expansion of a group among them. -/
def expandMembers (expandGroup : String → Expansion → Result Expansion) (name : String) :
    List InventoryMember → Expansion → Result Expansion
  | [], state => .ok state
  | .host host :: members, state =>
      if host ∈ state.seenHosts then expandMembers expandGroup name members state
      else
        let state := ⟨host :: state.seenHosts, state.expanded ++ [host]⟩
        if state.expanded.length > MAX_EXPANDED_GROUP_HOSTS then
          bail (s!"inventory group {name} expands beyond the " ++
            s!"{MAX_EXPANDED_GROUP_HOSTS} host safety limit")
        else expandMembers expandGroup name members state
  | .group group :: members, state => do
      let state ← expandGroup group state
      expandMembers expandGroup name members state

/-- A group on the path to itself is a cycle. The path is pushed before and popped after the
members, so that it is an argument here. -/
def expandGroupInner (groups : SortedMap String InventoryGroup) :
    Nat → String → List String → Expansion → Result Expansion
  | 0, _, _, _ => bail "inventory groups are nested too deeply"
  | fuel + 1, name, visiting, state =>
      if name ∈ visiting then
        let cycle := " -> ".intercalate (visiting.dropWhile (· ≠ name) ++ [name])
        bail s!"inventory group cycle detected: {cycle}"
      else
        match groups.get? name with
        | none => bail s!"inventory group not found during expansion: {name}"
        | some group =>
            expandMembers
              (fun inner state ↦ expandGroupInner groups fuel inner (visiting ++ [name]) state)
              name group.members state

namespace HostInventory

variable (inventory : HostInventory)

def lookup : SortedMap String InventoryGroup :=
  inventory.groups.foldl (fun map group ↦ map.insert group.name group) .empty

def expandGroup (name : String) : Result (List String) := do
  bailIf (¬inventory.lookup.contains name) s!"inventory group not found: {name}"
  let state ← expandGroupInner inventory.lookup (inventory.lookup.size + 1) name [] .empty
  return state.expanded

end HostInventory

/-! ## Reading an inventory -/

def validateGroupName (name : String) : Result Unit :=
  if name = "" ∨ (utf8 name).length > 64 then
    bail "group names must contain between 1 and 64 bytes"
  else if ¬name.toList.all fun c ↦ c.isAlphanum || c ∈ ['.', '_', '-'] then
    bail "group names may only contain ASCII letters, digits, '.', '_' and '-'"
  else .ok ()

/-- The words of a line before a comment. -/
def tokens (rawLine : List Char) : List String :=
  splitWhitespace (String.ofList (trim (rawLine.takeWhile (· ≠ '#'))))

/-- The member that a word names. -/
def memberOf (token : String) : InventoryMember :=
  match stripPrefix token "@" with
  | some group => .group group
  | none => .host token

def checkMember (lineNumber : Nat) (token : String) : Result Unit :=
  match stripPrefix token "@" with
  | some group =>
      (validateGroupName group).context
        s!"inventory line {lineNumber}: invalid nested group reference {debug token}"
  | none => do
      let _ ← (ConnectionTarget.parse token).context
        s!"inventory line {lineNumber}: invalid host member {debug token}"

def InventoryMember.identity : InventoryMember → String
  | .host target => s!"h:{target}"
  | .group name => s!"g:{name}"

/-- The members of a group line, with the identities before them and the number of members of the
whole text. -/
def parseMembers (lineNumber : Nat) (name : String) :
    List String → List String → Nat → Result (List InventoryMember × Nat)
  | [], _, total => .ok ([], total)
  | token :: rest, seen, total => do
      checkMember lineNumber token
      let member := memberOf token
      bailIf (member.identity ∈ seen)
        s!"inventory line {lineNumber}: duplicate member {token} in group {name}"
      bailIf (total + 1 > MAX_GROUP_MEMBERS)
        s!"inventory cannot contain more than {MAX_GROUP_MEMBERS} total group members"
      let (members, total) ← parseMembers lineNumber name rest (member.identity :: seen) (total + 1)
      return (member :: members, total)

structure ParseState where
  hosts : SortedMap String Unit
  groups : SortedMap String (List InventoryMember)
  totalMembers : Nat

def ParseState.empty : ParseState := ⟨.empty, .empty, 0⟩

def parseHost (state : ParseState) (lineNumber : Nat) (target : String) : Result ParseState := do
  let _ ← (ConnectionTarget.parse target).context
    s!"inventory line {lineNumber}: invalid host target {debug target}"
  bailIf (state.hosts.contains target)
    s!"inventory line {lineNumber}: duplicate host target {target}"
  let hosts := state.hosts.insert target ()
  bailIf (hosts.size > MAX_INVENTORY_HOSTS)
    s!"inventory cannot contain more than {MAX_INVENTORY_HOSTS} hosts"
  return { state with hosts }

def parseGroup (state : ParseState) (lineNumber : Nat) (name : String) (words : List String) :
    Result ParseState := do
  (validateGroupName name).context
    s!"inventory line {lineNumber}: invalid group name {debug name}"
  bailIf (state.groups.contains name)
    s!"inventory line {lineNumber}: duplicate group {name}"
  bailIf (state.groups.size ≥ MAX_GROUPS)
    s!"inventory cannot contain more than {MAX_GROUPS} groups"
  let (members, totalMembers) ← parseMembers lineNumber name words [] state.totalMembers
  return { state with groups := state.groups.insert name members, totalMembers }

def parseLine (state : ParseState) (lineNumber : Nat) (rawLine : List Char) : Result ParseState :=
  match tokens rawLine with
  | [] => .ok state
  | ["host", target] => parseHost state lineNumber target
  | "host" :: _ => bail s!"inventory line {lineNumber}: host requires exactly one target"
  | "group" :: name :: word :: words => parseGroup state lineNumber name (word :: words)
  | "group" :: _ =>
      bail s!"inventory line {lineNumber}: group requires a name and at least one member"
  | other :: _ =>
      bail (s!"inventory line {lineNumber}: unsupported directive {debug other}; " ++
        "expected host or group")

def parseLines : ParseState → Nat → List (List Char) → Result ParseState
  | state, _, [] => .ok state
  | state, lineNumber, rawLine :: rest => do
      let state ← parseLine state lineNumber rawLine
      parseLines state (lineNumber + 1) rest

/-- A member of a group has to be declared. -/
def checkDeclared (state : ParseState) (groupName : String) : InventoryMember → Result Unit
  | .host host =>
      bailIf (¬state.hosts.contains host)
        (s!"inventory group {groupName} references undeclared host {host}; " ++
          s!"add `host {host}` first")
  | .group group =>
      bailIf (¬state.groups.contains group)
        s!"inventory group {groupName} references unknown group @{group}"

def ParseState.inventory (state : ParseState) (source : Option PathBuf) : HostInventory where
  source
  hosts := state.hosts.keys
  groups := state.groups.entries.map fun entry ↦ ⟨entry.1, entry.2⟩

def parseInventory (text : String) (source : Option PathBuf) : Result HostInventory := do
  let state ← parseLines .empty 1 (lines text.toList)
  state.groups.entries.forM fun entry ↦ entry.2.forM (checkDeclared state entry.1)
  let inventory := state.inventory source
  inventory.groups.forM fun group ↦ do
    let _ ← inventory.expandGroup group.name
  return inventory

/-! ## What a text declares -/

/-- A text has a line for the host. -/
def DeclaresHost (text : String) (target : String) : Prop :=
  ∃ rawLine ∈ lines text.toList, tokens rawLine = ["host", target]

/-- A text has a line for the group, with these members. -/
def DeclaresGroup (text : String) (name : String) (members : List InventoryMember) : Prop :=
  ∃ rawLine ∈ lines text.toList, ∃ words, tokens rawLine = "group" :: name :: words ∧
    members = words.map memberOf

variable {lineNumber : Nat} {rawLine : List Char}

theorem parseMembers_ok {name : String} {words seen : List String} {total total' : Nat}
    {members : List InventoryMember}
    (h : parseMembers lineNumber name words seen total = .ok (members, total')) :
    members = words.map memberOf := by
  induction words generalizing seen total members with
  | nil =>
      cases h
      rfl
  | cons token words ih =>
      simp only [parseMembers, bind_eq_ok] at h
      obtain ⟨-, -, -, -, -, -, ⟨inner, total''⟩, hrest, hret⟩ := h
      cases hret
      rw [List.map_cons, ih hrest]

/-- What a line that is accepted does. -/
theorem parseLine_cases {state state' : ParseState}
    (h : parseLine state lineNumber rawLine = .ok state') :
    (tokens rawLine = [] ∧ state' = state) ∨
    (∃ target, tokens rawLine = ["host", target] ∧
      state' = { state with hosts := state.hosts.insert target () }) ∨
    (∃ name words total, tokens rawLine = "group" :: name :: words ∧
      state.groups.contains name = false ∧
      state' = { state with
        groups := state.groups.insert name (words.map memberOf), totalMembers := total }) := by
  unfold parseLine at h
  split at h
  · rename_i htokens
    cases h
    exact .inl ⟨htokens, rfl⟩
  · rename_i target htokens
    simp only [parseHost, bind_eq_ok] at h
    obtain ⟨-, -, -, -, -, -, hret⟩ := h
    cases hret
    exact .inr (.inl ⟨target, htokens, rfl⟩)
  · cases h
  · rename_i name word words htokens
    simp only [parseGroup, bind_eq_ok, bailIf_eq_ok] at h
    obtain ⟨-, -, -, hfresh, -, -, ⟨members, total⟩, hmembers, hret⟩ := h
    cases hret
    rw [parseMembers_ok hmembers]
    exact .inr (.inr ⟨name, word :: words, total, htokens, by simpa using hfresh, rfl⟩)
  · cases h
  · cases h

/-- The hosts and groups after some lines are those before and those of the lines. -/
structure Declared (state state' : ParseState) (rawLines : List (List Char)) : Prop where
  host : ∀ target, state'.hosts.contains target = true ↔ state.hosts.contains target = true ∨
    ∃ rawLine ∈ rawLines, tokens rawLine = ["host", target]
  group : ∀ name members, state'.groups.get? name = some members ↔
    state.groups.get? name = some members ∨ ∃ rawLine ∈ rawLines, ∃ words,
      tokens rawLine = "group" :: name :: words ∧ members = words.map memberOf

theorem parseLine_declared {state state' : ParseState}
    (h : parseLine state lineNumber rawLine = .ok state') : Declared state state' [rawLine] := by
  obtain ⟨htokens, rfl⟩ | ⟨target, htokens, rfl⟩ | ⟨name, words, total, htokens, hfresh, rfl⟩ :=
    parseLine_cases h
  · constructor <;> simp [htokens]
  · constructor
    · intro other
      simp only [SortedMap.contains, SortedMap.get?_insert, List.mem_singleton, exists_eq_left,
        htokens, List.cons.injEq, and_true, true_and]
      by_cases hother : other = target
      · simp [hother]
      · simp [hother, Ne.symm hother]
    · simp [htokens]
  · constructor
    · simp [htokens]
    · intro other members
      simp only [get?_insert, List.mem_singleton, exists_eq_left, htokens,
        List.cons.injEq, true_and]
      by_cases hother : other = name
      · rw [hother, contains_eq_false_iff.mp hfresh]
        simp [eq_comm]
      · simp [hother, Ne.symm hother]

theorem Declared.cons {s₁ s₂ s₃ : ParseState} {rest : List (List Char)}
    (hfirst : Declared s₁ s₂ [rawLine]) (hrest : Declared s₂ s₃ rest) :
    Declared s₁ s₃ (rawLine :: rest) := by
  constructor
  · intro target
    rw [hrest.host, hfirst.host]
    simp [or_assoc]
  · intro name members
    rw [hrest.group, hfirst.group]
    simp [or_assoc]

theorem parseLines_declared {state state' : ParseState} {rawLines : List (List Char)}
    (h : parseLines state lineNumber rawLines = .ok state') : Declared state state' rawLines := by
  induction rawLines generalizing state lineNumber with
  | nil =>
      cases h
      constructor <;> simp
  | cons rawLine rest ih =>
      obtain ⟨middle, hline, hrest⟩ := bind_eq_ok.mp h
      exact (parseLine_declared hline).cons (ih hrest)

/-! ## What an expansion that succeeds has found -/

/-- A host is a leaf of the walk, a group a node. -/
def InventoryMember.toSum : InventoryMember → String ⊕ String
  | .host target => .inl target
  | .group name => .inr name

/-- The groups as nodes of a walk. -/
def memberLists (groups : SortedMap String InventoryGroup) (name : String) :
    Option (List (String ⊕ String)) :=
  (groups.get? name).map fun group ↦ group.members.map InventoryMember.toSum

/-- The set is that of the hosts in order. -/
def Expansion.Consistent (state : Expansion) : Prop :=
  ∀ host, host ∈ state.seenHosts ↔ host ∈ state.expanded

/-- Some members have been walked from one state to another, and no group under them is on the
path. -/
structure Walked (groups : SortedMap String InventoryGroup) (path : List String)
    (members : List InventoryMember) (state state' : Expansion) : Prop where
  consistent : state'.Consistent
  walk : ∃ leaves, Walk (memberLists groups) (members.map InventoryMember.toSum) leaves ∧
    state'.expanded = addNew state.expanded leaves
  avoids : ∀ group, .group group ∈ members →
    ∀ other, Relation.ReflTransGen (Includes (memberLists groups)) group other → other ∉ path

section

variable {groups : SortedMap String InventoryGroup} {path : List String} {name : String}
  {members : List InventoryMember}

theorem Walked.host {host : String} {state middle state' : Expansion}
    (hmiddle : middle.expanded = addNew state.expanded [host])
    (h : Walked groups path members middle state') :
    Walked groups path (.host host :: members) state state' := by
  obtain ⟨leaves, hwalk, hexpanded⟩ := h.walk
  refine ⟨h.consistent, ⟨host :: leaves, .leaf hwalk, ?_⟩, fun group hgroup ↦ ?_⟩
  · rw [hexpanded, hmiddle, ← addNew_append]
    rfl
  · rcases List.mem_cons.mp hgroup with hhost | hgroup
    · cases hhost
    · exact h.avoids group hgroup

theorem Walked.group {group : String} {state middle state' : Expansion}
    (hgroup : Walked groups path [.group group] state middle)
    (h : Walked groups path members middle state') :
    Walked groups path (.group group :: members) state state' := by
  obtain ⟨first, hfirst, hmiddle⟩ := hgroup.walk
  obtain ⟨leaves, hwalk, hexpanded⟩ := h.walk
  refine ⟨h.consistent, ⟨first ++ leaves, ?_, ?_⟩, fun other hother ↦ ?_⟩
  · cases hfirst with
    | node ha hinner hnil =>
        cases hnil
        rw [List.append_nil]
        exact .node ha hinner hwalk
  · rw [hexpanded, hmiddle, addNew_append]
  · rcases List.mem_cons.mp hother with heq | hmem
    · exact hgroup.avoids other (heq ▸ List.mem_singleton.mpr rfl)
    · exact h.avoids other hmem

theorem expandMembers_walked {expandGroup : String → Expansion → Result Expansion}
    (hgroup : ∀ group state state', state.Consistent → expandGroup group state = .ok state' → Walked groups path [.group group] state state')
    {state state' : Expansion} (hstate : state.Consistent)
    (h : expandMembers expandGroup name members state = .ok state') :
    Walked groups path members state state' := by
  induction members generalizing state with
  | nil =>
      cases h
      exact ⟨hstate, ⟨[], .nil, rfl⟩, nofun⟩
  | cons member members ih =>
      cases member with
      | host host =>
          rw [expandMembers] at h
          split at h
          · rename_i hseen
            refine Walked.host ?_ (ih hstate h)
            rw [addNew_cons, if_pos ((hstate host).mp hseen)]
            rfl
          · rename_i hseen
            rw [ite_bail_eq_ok] at h
            refine Walked.host ?_ (ih ?_ h.2)
            · rw [addNew_cons, if_neg fun hmem ↦ hseen ((hstate host).mpr hmem)]
              rfl
            · intro other
              rw [List.mem_cons, List.mem_append, List.mem_singleton, hstate other, or_comm]
      | group group =>
          obtain ⟨middle, hinner, hrest⟩ := bind_eq_ok.mp h
          have hwalked := hgroup group state middle hstate hinner
          exact hwalked.group (ih hwalked.consistent hrest)

/-- A group that is expanded is none of the path, and its members are walked with the group on the
path. -/
theorem expandGroupInner_ok {fuel : Nat} {state state' : Expansion} (hstate : state.Consistent)
    (h : expandGroupInner groups fuel name path state = .ok state') :
    name ∉ path ∧ ∃ group, groups.get? name = some group ∧
      Walked groups (path ++ [name]) group.members state state' := by
  induction fuel generalizing name path state state' with
  | zero => cases h
  | succ fuel ih =>
      rw [expandGroupInner, ite_bail_eq_ok] at h
      obtain ⟨hname, h⟩ := h
      refine ⟨hname, ?_⟩
      cases hget : groups.get? name with
      | none =>
          rw [hget] at h
          cases h
      | some group =>
          rw [hget] at h
          refine ⟨group, rfl, expandMembers_walked ?_ hstate h⟩
          intro inner state state' hstate hinner
          obtain ⟨hfresh, members, hmembers, hwalked⟩ := ih hstate hinner
          obtain ⟨leaves, hwalk, hexpanded⟩ := hwalked.walk
          have hlist : memberLists groups inner =
              some (members.members.map InventoryMember.toSum) := by
            rw [memberLists, hmembers]
            rfl
          refine ⟨hwalked.consistent, ⟨leaves ++ [], .node hlist hwalk .nil, ?_⟩, ?_⟩
          · rw [List.append_nil, hexpanded]
          · intro g hg other hpath
            cases List.mem_singleton.mp hg
            rcases hpath.cases_head with rfl | ⟨next, ⟨list, hlist', hnext⟩, hpath⟩
            · exact hfresh
            · cases hlist.symm.trans hlist'
              obtain ⟨member, hmember, hsum⟩ := List.mem_map.mp hnext
              cases member with
              | host target => cases hsum
              | group target =>
                  cases hsum
                  have havoid := hwalked.avoids next hmember other hpath
                  exact fun hmem ↦ havoid (List.mem_append_left _ hmem)

end

/-! ## Accepted inventories -/

namespace HostInventory

/-- The groups of the inventory as nodes, their hosts as leaves. -/
def members (inventory : HostInventory) : String → Option (List (String ⊕ String)) :=
  memberLists inventory.lookup

/-- What is promised of an inventory that is handed out. -/
structure Sound (inventory : HostInventory) : Prop where
  acyclic : ∀ name, ¬Relation.TransGen (Includes inventory.members) name name
  hostDeclared : ∀ group ∈ inventory.groups, ∀ host, .host host ∈ group.members →
    host ∈ inventory.hosts
  groupDeclared : ∀ group ∈ inventory.groups, ∀ name, .group name ∈ group.members →
    ∃ other ∈ inventory.groups, other.name = name
  expands : ∀ group ∈ inventory.groups, ∃ visits,
    Walk inventory.members [.inr group.name] visits ∧
      inventory.expandGroup group.name = .ok visits.eraseDups
  expandsExactly : ∀ group ∈ inventory.groups, ∀ expanded,
    inventory.expandGroup group.name = .ok expanded →
      expanded.Nodup ∧
        ∀ host, host ∈ expanded ↔ DepthFirst.Reaches inventory.members group.name host

end HostInventory

section

variable {inventory : HostInventory} {state : ParseState} {text name : String}
  {source : Option PathBuf}

theorem mem_groups_inventory {group : InventoryGroup} :
    group ∈ (state.inventory source).groups ↔
      state.groups.get? group.name = some group.members := by
  rw [get?_eq_some_iff, ParseState.inventory, List.mem_map]
  constructor
  · rintro ⟨entry, hentry, rfl⟩
    exact hentry
  · intro h
    exact ⟨_, h, rfl⟩

theorem lookup_inventory :
    (state.inventory source).lookup.get? name =
      (state.groups.get? name).map fun members ↦ ⟨name, members⟩ := by
  have hnodup : ((state.inventory source).groups.map InventoryGroup.name).Nodup := by
    rw [ParseState.inventory, List.map_map]
    exact state.groups.keys_nodup
  apply Option.ext
  intro group
  rw [HostInventory.lookup, get?_eq_some_iff]
  refine Iff.trans (mem_foldl_insert hnodup) ?_
  constructor
  · rintro (⟨other, hmem, hentry⟩ | ⟨hempty, -⟩)
    · obtain ⟨rfl, rfl⟩ := Prod.mk.inj hentry
      rw [mem_groups_inventory.mp hmem]
      rfl
    · cases hempty
  · intro h
    obtain ⟨members, hget, rfl⟩ := Option.map_eq_some_iff.mp h
    exact .inl ⟨⟨name, members⟩, mem_groups_inventory.mpr hget, rfl⟩

theorem parseInventory_ok (h : parseInventory text source = .ok inventory) :
    ∃ state, Declared .empty state (lines text.toList) ∧ inventory = state.inventory source ∧
      (∀ name members, state.groups.get? name = some members →
        ∀ member ∈ members, checkDeclared state name member = .ok ()) ∧
      ∀ group ∈ inventory.groups, ∃ expanded, inventory.expandGroup group.name = .ok expanded := by
  rw [parseInventory, bind_eq_ok] at h
  obtain ⟨state, hlines, h⟩ := h
  rw [check_bind_eq_ok, check_bind_eq_ok, forM_eq_ok, forM_eq_ok] at h
  obtain ⟨hdeclared, hexpands, hret⟩ := h
  cases hret
  refine ⟨state, parseLines_declared hlines, rfl, ?_, ?_⟩
  · intro name members hget
    exact forM_eq_ok.mp (hdeclared (name, members) (get?_eq_some_iff.mp hget))
  · intro group hgroup
    obtain ⟨expanded, hexpanded, -⟩ := bind_eq_ok.mp (hexpands group hgroup)
    exact ⟨expanded, hexpanded⟩

/-- What `expand_group` returns, and that no group under it leads back to it. -/
theorem expandGroup_ok {expanded : List String} (h : inventory.expandGroup name = .ok expanded) :
    ∃ visits, Walk inventory.members [.inr name] visits ∧ expanded = visits.eraseDups ∧
      ∀ next, Includes inventory.members name next →
        ¬Relation.ReflTransGen (Includes inventory.members) next name := by
  simp only [HostInventory.expandGroup, bind_eq_ok] at h
  obtain ⟨-, -, state, hinner, hret⟩ := h
  cases hret
  obtain ⟨-, group, hget, hwalked⟩ := expandGroupInner_ok (fun _ ↦ Iff.rfl) hinner
  obtain ⟨leaves, hwalk, hexpanded⟩ := hwalked.walk
  have hlist : inventory.members name = some (group.members.map InventoryMember.toSum) := by
    rw [HostInventory.members, memberLists, hget]
    rfl
  refine ⟨leaves ++ [], .node hlist hwalk .nil, ?_, ?_⟩
  · rw [hexpanded, List.append_nil]
    exact addNew_nil leaves
  · rintro next ⟨list, hlist', hnext⟩ hback
    cases hlist.symm.trans hlist'
    obtain ⟨member, hmember, hsum⟩ := List.mem_map.mp hnext
    cases member with
    | host target => cases hsum
    | group target =>
        cases hsum
        exact hwalked.avoids next hmember name hback (List.mem_singleton.mpr rfl)

/-- A group that includes another is one of the inventory. -/
theorem mem_groups_of_includes {next : String}
    (h : Includes (state.inventory source).members name next) :
    ∃ group ∈ (state.inventory source).groups, group.name = name := by
  obtain ⟨list, hlist, -⟩ := h
  rw [HostInventory.members, memberLists, lookup_inventory, Option.map_map,
    Option.map_eq_some_iff] at hlist
  obtain ⟨members, hget, -⟩ := hlist
  exact ⟨⟨name, members⟩, mem_groups_inventory.mpr hget, rfl⟩

theorem parseInventory_sound (h : parseInventory text source = .ok inventory) :
    inventory.Sound := by
  obtain ⟨state, -, rfl, hdeclared, hexpands⟩ := parseInventory_ok h
  refine ⟨?_, ?_, ?_, ?_, ?_⟩
  · intro name hcycle
    obtain ⟨next, hnext, hback⟩ := Relation.TransGen.head'_iff.mp hcycle
    obtain ⟨group, hgroup, rfl⟩ := mem_groups_of_includes hnext
    obtain ⟨expanded, hexpanded⟩ := hexpands group hgroup
    obtain ⟨-, -, -, havoids⟩ := expandGroup_ok hexpanded
    exact havoids next hnext hback
  · intro group hgroup host hhost
    have hcheck := hdeclared _ _ (mem_groups_inventory.mp hgroup) _ hhost
    rw [checkDeclared, bailIf_eq_ok, not_not] at hcheck
    exact mem_keys.mpr hcheck
  · intro group hgroup name hname
    have hcheck := hdeclared _ _ (mem_groups_inventory.mp hgroup) _ hname
    rw [checkDeclared, bailIf_eq_ok, not_not, contains_iff] at hcheck
    obtain ⟨members, hget⟩ := hcheck
    exact ⟨⟨name, members⟩, mem_groups_inventory.mpr hget, rfl⟩
  · intro group hgroup
    obtain ⟨expanded, hexpanded⟩ := hexpands group hgroup
    obtain ⟨visits, hwalk, rfl, -⟩ := expandGroup_ok hexpanded
    exact ⟨visits, hwalk, hexpanded⟩
  · intro group hgroup expanded hexpanded
    obtain ⟨visits, hwalk, rfl, -⟩ := expandGroup_ok hexpanded
    rw [← addNew_nil]
    refine ⟨nodup_addNew List.nodup_nil visits, fun host ↦ ?_⟩
    rw [addNew_nil, List.mem_eraseDups, hwalk.mem_iff]
    simp

end

/-- One group names another, in the lines of a text. -/
def TextIncludes (text : String) (name next : String) : Prop :=
  ∃ members, DeclaresGroup text name members ∧ .group next ∈ members

/-- A group of a text has a member that the text does not declare. -/
def Undeclared (text : String) : Prop :=
  ∃ name members, DeclaresGroup text name members ∧
    ((∃ host, .host host ∈ members ∧ ¬DeclaresHost text host) ∨
      ∃ group, .group group ∈ members ∧ ∀ inner, ¬DeclaresGroup text group inner)

theorem declaresGroup_iff {state : ParseState} {text name : String} {members : List InventoryMember}
    (h : Declared .empty state (lines text.toList)) :
    state.groups.get? name = some members ↔ DeclaresGroup text name members := by
  rw [h.group]
  exact or_iff_right nofun

theorem declaresHost_iff {state : ParseState} {text target : String}
    (h : Declared .empty state (lines text.toList)) :
    state.hosts.contains target = true ↔ DeclaresHost text target := by
  rw [h.host]
  exact or_iff_right nofun

/-- An inventory that is handed out is sound; a text with a cycle of groups or with a member that
it does not declare gives none. -/
theorem inventory_groups (text : String) (source : Option PathBuf) :
    (∀ inventory, parseInventory text source = .ok inventory → inventory.Sound) ∧
      ((∃ name, Relation.TransGen (TextIncludes text) name name) ∨ Undeclared text →
        ∃ e, parseInventory text source = .error e) := by
  refine ⟨fun inventory ↦ parseInventory_sound, fun hbad ↦ ?_⟩
  cases hparse : parseInventory text source with
  | error e => exact ⟨e, rfl⟩
  | ok inventory =>
      exfalso
      have hsound := parseInventory_sound hparse
      obtain ⟨state, hstate, rfl, hdeclared, -⟩ := parseInventory_ok hparse
      rcases hbad with ⟨name, hcycle⟩ | ⟨name, members, hgroup, hmember⟩
      · refine hsound.acyclic name (Relation.TransGen.mono ?_ _ _ hcycle)
        rintro a b ⟨members, hmembers, hb⟩
        have hget := (declaresGroup_iff hstate).mpr hmembers
        refine ⟨members.map InventoryMember.toSum, ?_, List.mem_map.mpr ⟨_, hb, rfl⟩⟩
        rw [HostInventory.members, memberLists, lookup_inventory, hget]
        rfl
      · have hget := (declaresGroup_iff hstate).mpr hgroup
        rcases hmember with ⟨host, hhost, hundeclared⟩ | ⟨group, hmem, hundeclared⟩
        · have hcheck := hdeclared name members hget _ hhost
          rw [checkDeclared, bailIf_eq_ok, not_not, declaresHost_iff hstate] at hcheck
          exact hundeclared hcheck
        · have hcheck := hdeclared name members hget _ hmem
          rw [checkDeclared, bailIf_eq_ok, not_not, contains_iff] at hcheck
          obtain ⟨inner, hinner⟩ := hcheck
          exact hundeclared inner ((declaresGroup_iff hstate).mp hinner)

/-- Groups that share a host: it is expanded once. -/
def sampleInventory : String :=
  "host web-01\nhost db-01\ngroup web web-01\ngroup production @web db-01 web-01 # all\n"

theorem inventory_groups_sample :
    ∃ inventory, parseInventory sampleInventory none = .ok inventory ∧ inventory.Sound ∧
      inventory.expandGroup "production" = .ok ["web-01", "db-01"] := by
  refine ⟨⟨none, ["db-01", "web-01"], [⟨"production", [.group "web", .host "db-01",
    .host "web-01"]⟩, ⟨"web", [.host "web-01"]⟩]⟩, ?_, ?_, ?_⟩
  · decide +kernel
  · exact (inventory_groups sampleInventory none).1 _ (by decide +kernel)
  · decide +kernel

end KaduoxSsh.OpenSsh
