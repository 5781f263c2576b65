import KaduoxSsh.Hosts.Codec
import KaduoxSsh.Hosts.TableLines

/-!
# The records of a host file

A table is read as a record: a host, the name of a chain, or a hop with its place. What
the decoder has loaded so far are the records of the tables before, and it depends on
their order in two ways only: which of two records of one name is refused, and in which
order the hops of a chain are kept until they are sorted.

A failure depends on the order as far as its message goes, so that readings are
compared by what they succeed with.
-/

namespace KaduoxSsh.Hosts

open Text Toml Result List

/-! ## Readings that differ in their messages -/

/-- Two readings of a table succeed on the same tables, with the same results. -/
def SameReading {α : Type} (x y : Taking α) : Prop := ∀ values r, x values = .ok r ↔ y values = .ok r
namespace SameReading

variable {α β : Type}

theorem refl (x : Taking α) : SameReading x x := fun _ _ ↦ .rfl

theorem bind {x y : Taking α} {f g : α → Taking β} (h : SameReading x y)
    (hf : ∀ a, SameReading (f a) (g a)) : SameReading (x >>= f) (y >>= g) := by
  intro values r
  show (x values >>= fun p ↦ f p.1 p.2) = _ ↔ (y values >>= fun p ↦ g p.1 p.2) = _
  rw [bind_eq_ok, bind_eq_ok]
  exact exists_congr fun p ↦ and_congr (h values p) (hf p.1 p.2 r)

theorem ofOption (text text' : String) (o : Option α) :
    SameReading (ofOption text o : Taking α) (ofOption text' o) := by
  cases o with
  | some a => exact refl _
  | none => exact fun _ _ ↦ iff_of_false nofun nofun

theorem requiredString (key : String) (line line' : Nat) :
    SameReading (Hosts.requiredString key line) (Hosts.requiredString key line') :=
  (refl _).bind fun _ ↦ ofOption _ _ _
theorem takePort (text text' : String) : SameReading (Hosts.takePort text) (Hosts.takePort text') := by
  refine (refl _).bind fun port ↦ ?_
  dsimp only
  split_ifs
  · exact refl _
  · exact fun _ _ ↦ iff_of_false nofun nofun

theorem rejectUnknown (location location' : String) :
    SameReading (Hosts.rejectUnknown location) (Hosts.rejectUnknown location') := by
  intro values r
  rw [Hosts.rejectUnknown, Hosts.rejectUnknown]
  cases values.keys with
  | nil => exact .rfl
  | cons key keys => exact iff_of_false nofun nofun

end SameReading

/-- The number of the line matters only for the text of an error. -/
theorem decodeHost_sameReading (line line' : Nat) :
    SameReading (decodeHost line) (decodeHost line') := by
  unfold decodeHost
  refine .bind (.requiredString _ _ _) fun _ ↦ .bind (.refl _) fun _ ↦
    .bind (.requiredString _ _ _) fun _ ↦ .bind (.requiredString _ _ _) fun _ ↦
    .bind (.takePort _ _) fun _ ↦ .bind (.refl _) fun _ ↦ .bind (.refl _) fun _ ↦
    .bind (.refl _) fun _ ↦ .bind (.refl _) fun _ ↦ .bind (.refl _) fun _ ↦
    .bind (.refl _) fun _ ↦ .bind (.refl _) fun _ ↦ .bind (.refl _) fun _ ↦
    .bind (.refl _) fun _ ↦ .bind (.refl _) fun _ ↦ ?_
  exact .bind (.rejectUnknown _ _) fun _ ↦ .refl _

theorem decodeJump_sameReading (kind : String) (line line' : Nat) :
    SameReading (decodeJump kind line) (decodeJump kind line') := by
  unfold decodeJump
  split
  · exact .bind (.requiredString _ _ _) fun _ ↦ .refl _
  split
  · exact .bind (.requiredString _ _ _) fun _ ↦ .refl _
  split
  · refine .bind (.requiredString _ _ _) fun _ ↦ .bind (.requiredString _ _ _) fun _ ↦
      .bind (.requiredString _ _ _) fun _ ↦ .bind (.takePort _ _) fun _ ↦ ?_
    exact .refl _
  · exact fun _ _ ↦ iff_of_false nofun nofun

theorem decodeHop_sameReading (line line' : Nat) :
    SameReading (decodeHop line) (decodeHop line') := by
  unfold decodeHop
  refine .bind (.requiredString _ _ _) fun _ ↦ .bind (.refl _) fun _ ↦ .bind (.refl _) fun _ ↦
    .bind (.requiredString _ _ _) fun kind ↦ .bind (decodeJump_sameReading kind _ _) fun _ ↦ ?_
  exact .bind (.rejectUnknown _ _) fun _ ↦ .refl _

theorem decodeChain_sameReading (line line' : Nat) :
    SameReading (decodeChain line) (decodeChain line') := by
  unfold decodeChain
  exact .bind (.requiredString _ _ _) fun _ ↦ .bind (.rejectUnknown _ _) fun _ ↦ .refl _

/-! ## Records -/

/-- What a table is read as. -/
inductive Record where
  | host (host : HostRecord)
  | chain (name : String)
  | hop (name : String) (index : Nat) (hop : JumpHop)

/-- The record of a table, before it is known what else there is. -/
def readRecord [Unicode] (line : Nat) (parsed : Parsed) : Result Record :=
  match parsed.1 with
  | .host => do
      let (host, _) ← decodeHost line parsed.2
      host.validate
      return .host host
  | .chain => do
      let (name, _) ← decodeChain line parsed.2
      return .chain name
  | .hop => do
      let ((name, index, hop), _) ← decodeHop line parsed.2
      hop.validate
      return .hop name index hop

/-- One more record, unless its name is taken. -/
def Loading.add (loading : Loading) : Record → Option Loading
  | .host host =>
      if loading.database.hosts.contains host.hostAlias then none else some (loading.insertHost host)
  | .chain name =>
      if name ∈ loading.seenChainNames then none else some (loading.insertChain name)
  | .hop name index hop => some (loading.pushHop name index hop)

section

variable [Unicode]

/-- Which record is read does not depend on the number of the line. -/
theorem readRecord_line (line line' : Nat) {parsed : Parsed} {record : Record} :
    readRecord line parsed = .ok record ↔ readRecord line' parsed = .ok record := by
  obtain ⟨kind, values⟩ := parsed
  cases kind with
  | host =>
      simp only [readRecord, bind_eq_ok]
      exact exists_congr fun p ↦ and_congr_left' (decodeHost_sameReading line line' values p)
  | chain =>
      simp only [readRecord, bind_eq_ok]
      exact exists_congr fun p ↦ and_congr_left' (decodeChain_sameReading line line' values p)
  | hop =>
      simp only [readRecord, bind_eq_ok]
      exact exists_congr fun p ↦ and_congr_left' (decodeHop_sameReading line line' values p)

/-- A table is loaded by adding its record. -/
theorem Loading.readTable_eq_ok {loading next : Loading} {table : Table} :
    loading.readTable table = .ok next ↔ ∃ record,
      readRecord 0 (Document.content table) = .ok record ∧ loading.add record = some next := by
  obtain ⟨kind, line, values⟩ := table
  simp only [readRecord_line 0 line]
  cases kind with
  | host =>
      simp only [readTable, readRecord, Document.content, bind_eq_ok, pure_eq_ok,
        ite_bail_eq_ok, Except.ok.injEq]
      constructor
      · rintro ⟨p, hp, _, hvalid, hnew, rfl⟩
        exact ⟨_, ⟨p, hp, _, hvalid, rfl⟩, if_neg hnew⟩
      · rintro ⟨_, ⟨p, hp, _, hvalid, rfl⟩, hadd⟩
        rw [add, Option.ite_none_left_eq_some, Option.some.injEq] at hadd
        exact ⟨p, hp, _, hvalid, hadd⟩
  | chain =>
      simp only [readTable, readRecord, Document.content, bind_eq_ok, pure_eq_ok,
        ite_bail_eq_ok, Except.ok.injEq]
      constructor
      · rintro ⟨p, hp, hnew, rfl⟩
        exact ⟨_, ⟨p, hp, rfl⟩, if_neg hnew⟩
      · rintro ⟨_, ⟨p, hp, rfl⟩, hadd⟩
        rw [add, Option.ite_none_left_eq_some, Option.some.injEq] at hadd
        exact ⟨p, hp, hadd⟩
  | hop =>
      simp only [readTable, readRecord, Document.content, bind_eq_ok, pure_eq_ok,
        Except.ok.injEq]
      constructor
      · rintro ⟨p, hp, _, hvalid, rfl⟩
        exact ⟨_, ⟨p, hp, _, hvalid, rfl⟩, rfl⟩
      · rintro ⟨_, ⟨p, hp, _, hvalid, rfl⟩, hadd⟩
        cases hadd
        exact ⟨p, hp, _, hvalid, rfl⟩

/-- Tables are loaded by adding their records. -/
theorem foldlM_readTable {tables : List Table} {loading next : Loading} :
    tables.foldlM Loading.readTable loading = .ok next ↔ ∃ records,
      List.Forall₂ (fun parsed record ↦ readRecord 0 parsed = .ok record)
        (tables.map Document.content) records ∧ records.foldlM Loading.add loading = some next := by
  induction tables generalizing loading with
  | nil => simp
  | cons table tables ih =>
      simp only [foldlM_cons, bind_eq_ok, Loading.readTable_eq_ok, ih, map_cons,
        forall₂_cons_left_iff]
      constructor
      · rintro ⟨middle, ⟨record, hrecord, hadd⟩, records, hrecords, hfold⟩
        refine ⟨_, ⟨record, records, hrecord, hrecords, rfl⟩, ?_⟩
        rw [foldlM_cons, hadd]
        exact hfold
      · rintro ⟨_, ⟨record, records, hrecord, hrecords, rfl⟩, hfold⟩
        rw [foldlM_cons] at hfold
        obtain ⟨middle, hadd, hfold⟩ := Option.bind_eq_some_iff.mp hfold
        exact ⟨middle, ⟨record, hrecord, hadd⟩, records, hrecords, hfold⟩

end

/-! ## What records amount to -/

def hostsOf (records : List Record) : List HostRecord :=
  records.filterMap fun
    | .host host => some host
    | _ => none

def chainsOf (records : List Record) : List String :=
  records.filterMap fun
    | .chain name => some name
    | _ => none

/-- The hops of a chain, with their places. -/
def hopsOf (name : String) (records : List Record) : List (Nat × JumpHop) :=
  records.filterMap fun
    | .hop name' index hop => if name' = name then some (index, hop) else none
    | _ => none

/-- What has been loaded are the hosts, the chains and the hops of some records. -/
structure Loads (start : Loading) (records : List Record) (loading : Loading) : Prop where
  hosts : ∀ k host, loading.database.hosts.get? k = some host ↔
    host ∈ hostsOf records ∧ host.hostAlias = k
  chains : ∀ k chain, loading.database.chains.get? k = some chain ↔
    k ∈ chainsOf records ∧ chain = ⟨k, []⟩
  hops : ∀ name, loading.rawHops.get? name =
    if hopsOf name records = [] then none else some (hopsOf name records)
  seen : ∀ name, name ∈ loading.seenChainNames ↔ name ∈ chainsOf records
  aliases_nodup : ((hostsOf records).map HostRecord.hostAlias).Nodup
  names_nodup : (chainsOf records).Nodup
  rest : loading.database = { start.database with
    hosts := loading.database.hosts
    chains := loading.database.chains }

theorem nodup_concat {α : Type} {l : List α} {a : α} (h : l.Nodup) (hnew : a ∉ l) :
    (l ++ [a]).Nodup :=
  nodup_append.mpr ⟨h, nodup_singleton a, fun _ hb _ hc heq ↦
    hnew (mem_singleton.mp hc ▸ heq ▸ hb)⟩

namespace Loads

variable {start loading next : Loading} {records rest : List Record} {record : Record}

theorem nil (folders jumpFolders : List String) :
    Loads (.start folders jumpFolders) [] (.start folders jumpFolders) where
  hosts k host := by simp [Loading.start, HostDatabase.default, hostsOf]
  chains k chain := by simp [Loading.start, HostDatabase.default, chainsOf]
  hops name := rfl
  seen name := by simp [Loading.start, chainsOf]
  aliases_nodup := .nil
  names_nodup := .nil
  rest := rfl

section

variable (h : Loads start records loading)

include h

theorem contains_iff (hostAlias : String) :
    loading.database.hosts.contains hostAlias = true ↔
      hostAlias ∈ (hostsOf records).map HostRecord.hostAlias := by
  rw [SortedMap.contains_iff, mem_map]
  exact exists_congr fun host ↦ h.hosts hostAlias host

theorem addHost {host : HostRecord}
    (hnew : host.hostAlias ∉ (hostsOf records).map HostRecord.hostAlias) :
    Loads start (records ++ [.host host]) (loading.insertHost host) := by
  have hhosts : hostsOf (records ++ [.host host]) = hostsOf records ++ [host] := by
    simp [hostsOf]
  have hchains : chainsOf (records ++ [.host host]) = chainsOf records := by simp [chainsOf]
  have hhops (name : String) : hopsOf name (records ++ [.host host]) = hopsOf name records := by
    simp [hopsOf]
  constructor
  case hosts =>
    intro k host'
    rw [hhosts, mem_append, mem_singleton, Loading.insertHost, SortedMap.get?_insert]
    split
    · next hk =>
        subst hk
        rw [Option.some.injEq]
        constructor
        · rintro rfl
          exact ⟨.inr rfl, rfl⟩
        · rintro ⟨hmem | rfl, heq⟩
          · exact absurd (mem_map.mpr ⟨host', hmem, heq⟩) hnew
          · rfl
    · next hk =>
        rw [h.hosts]
        refine and_congr_left fun heq ↦ (or_iff_left ?_).symm
        rintro rfl
        exact hk heq.symm
  case chains =>
    rw [hchains]
    exact h.chains
  case hops =>
    intro name
    rw [hhops]
    exact h.hops name
  case seen =>
    rw [hchains]
    exact h.seen
  case aliases_nodup =>
    rw [hhosts, map_append, map_singleton]
    exact nodup_concat h.aliases_nodup hnew
  case names_nodup =>
    rw [hchains]
    exact h.names_nodup
  case rest => rw [Loading.insertHost, h.rest]

theorem addChain {name : String} (hnew : name ∉ chainsOf records) :
    Loads start (records ++ [.chain name]) (loading.insertChain name) := by
  have hhosts : hostsOf (records ++ [.chain name]) = hostsOf records := by simp [hostsOf]
  have hchains : chainsOf (records ++ [.chain name]) = chainsOf records ++ [name] := by
    simp [chainsOf]
  have hhops (name' : String) : hopsOf name' (records ++ [.chain name]) = hopsOf name' records := by
    simp [hopsOf]
  constructor
  case hosts =>
    rw [hhosts]
    exact h.hosts
  case chains =>
    intro k chain
    rw [hchains, mem_append, mem_singleton, Loading.insertChain, SortedMap.get?_insert]
    split
    · next hk =>
        rw [Option.some.injEq, and_iff_right (.inr hk), hk]
        exact eq_comm
    · next hk => rw [h.chains, or_iff_left hk]
  case hops =>
    intro name'
    rw [hhops]
    exact h.hops name'
  case seen =>
    intro name'
    rw [hchains, mem_append, mem_singleton, Loading.insertChain, mem_cons, h.seen,
      or_comm]
  case aliases_nodup =>
    rw [hhosts]
    exact h.aliases_nodup
  case names_nodup =>
    rw [hchains]
    exact nodup_concat h.names_nodup hnew
  case rest => rw [Loading.insertChain, h.rest]

theorem pushHop (name : String) (index : Nat) (hop : JumpHop) :
    Loads start (records ++ [.hop name index hop]) (loading.pushHop name index hop) := by
  have hhosts : hostsOf (records ++ [.hop name index hop]) = hostsOf records := by simp [hostsOf]
  have hchains : chainsOf (records ++ [.hop name index hop]) = chainsOf records := by
    simp [chainsOf]
  have hhops (name' : String) : hopsOf name' (records ++ [.hop name index hop]) =
      hopsOf name' records ++ if name = name' then [(index, hop)] else [] := by
    by_cases hname : name = name'
    · simp [hopsOf, hname]
    · simp [hopsOf, hname]
  constructor
  case hosts =>
    rw [hhosts]
    exact h.hosts
  case chains =>
    rw [hchains]
    exact h.chains
  case hops =>
    intro name'
    rw [hhops, Loading.pushHop, SortedMap.get?_insert]
    by_cases hname : name' = name
    · rw [if_pos hname, if_pos hname.symm, if_neg (by simp), h.hops, hname]
      split
      · next hnone => rw [hnone]; rfl
      · rfl
    · rw [if_neg hname, if_neg (Ne.symm hname), append_nil]
      exact h.hops name'
  case seen =>
    rw [hchains]
    exact h.seen
  case aliases_nodup =>
    rw [hhosts]
    exact h.aliases_nodup
  case names_nodup =>
    rw [hchains]
    exact h.names_nodup
  case rest => exact h.rest

/-- A record that is added has been loaded with those before it. -/
theorem add (hadd : loading.add record = some next) : Loads start (records ++ [record]) next := by
  cases record with
  | host host =>
      rw [Loading.add, Option.ite_none_left_eq_some, h.contains_iff] at hadd
      cases hadd.2
      exact h.addHost hadd.1
  | chain name =>
      rw [Loading.add, Option.ite_none_left_eq_some, h.seen] at hadd
      cases hadd.2
      exact h.addChain hadd.1
  | hop name index hop =>
      cases hadd
      exact h.pushHop name index hop

/-- A record can be added where no alias and no chain occurs twice. -/
theorem exists_add (haliases : ((hostsOf (records ++ [record])).map HostRecord.hostAlias).Nodup)
    (hnames : (chainsOf (records ++ [record])).Nodup) : ∃ next, loading.add record = some next := by
  cases record with
  | host host =>
      refine ⟨loading.insertHost host, if_neg fun hmem ↦ ?_⟩
      rw [hostsOf, filterMap_append, map_append] at haliases
      exact (nodup_append.mp haliases).2.2 _ (h.contains_iff _ |>.mp hmem) host.hostAlias
        (mem_singleton_self _) rfl
  | chain name =>
      refine ⟨loading.insertChain name, if_neg fun hmem ↦ ?_⟩
      rw [chainsOf, filterMap_append] at hnames
      exact (nodup_append.mp hnames).2.2 _ ((h.seen name).mp hmem) name
        (mem_singleton_self _) rfl
  | hop name index hop => exact ⟨_, rfl⟩

theorem foldlM (hfold : rest.foldlM Loading.add loading = some next) :
    Loads start (records ++ rest) next := by
  induction rest generalizing records loading with
  | nil =>
      cases hfold
      rwa [append_nil]
  | cons record rest ih =>
      rw [foldlM_cons] at hfold
      obtain ⟨middle, hadd, hfold⟩ := Option.bind_eq_some_iff.mp hfold
      have := ih (h.add hadd) hfold
      rwa [append_assoc, singleton_append] at this

/-- Records can be added one after the other where no alias and no chain occurs twice. -/
theorem exists_foldlM (haliases : ((hostsOf (records ++ rest)).map HostRecord.hostAlias).Nodup)
    (hnames : (chainsOf (records ++ rest)).Nodup) :
    ∃ next, rest.foldlM Loading.add loading = some next := by
  induction rest generalizing records loading with
  | nil => exact ⟨loading, rfl⟩
  | cons record rest ih =>
      rw [← singleton_append, ← append_assoc] at haliases hnames
      have haliases' : ((hostsOf (records ++ [record])).map HostRecord.hostAlias).Nodup := by
        rw [hostsOf, filterMap_append, map_append] at haliases
        exact (nodup_append.mp haliases).1
      have hnames' : (chainsOf (records ++ [record])).Nodup := by
        rw [chainsOf, filterMap_append] at hnames
        exact (nodup_append.mp hnames).1
      obtain ⟨middle, hadd⟩ := h.exists_add haliases' hnames'
      obtain ⟨next, hfold⟩ := ih (h.add hadd) haliases hnames
      refine ⟨next, ?_⟩
      rw [foldlM_cons, hadd]
      exact hfold

end

end Loads

/-- Records in another order amount to the same hosts and chains, and to the same hops of each
chain up to their order. -/
theorem exists_loading_perm {folders jumpFolders : List String} {records records' : List Record}
    {loading : Loading} (hperm : records.Perm records')
    (hfold : records.foldlM Loading.add (.start folders jumpFolders) = some loading) :
    ∃ loading', records'.foldlM Loading.add (.start folders jumpFolders) = some loading' ∧
      loading'.database = loading.database ∧ ∃ hops hops' : String → List (Nat × JumpHop),
        (∀ name, (hops name).Perm (hops' name)) ∧
        (∀ name, loading.rawHops.get? name = if hops name = [] then none else some (hops name)) ∧
        ∀ name, loading'.rawHops.get? name = if hops' name = [] then none else some (hops' name) := by
  have h := (Loads.nil folders jumpFolders).foldlM hfold
  rw [nil_append] at h
  have hhosts : (hostsOf records).Perm (hostsOf records') := hperm.filterMap _
  have hchains : (chainsOf records).Perm (chainsOf records') := hperm.filterMap _
  obtain ⟨loading', hfold'⟩ := (Loads.nil folders jumpFolders).exists_foldlM
    (show ((hostsOf records').map HostRecord.hostAlias).Nodup from
      ((hhosts.map HostRecord.hostAlias).nodup_iff).mp h.aliases_nodup)
    (show (chainsOf records').Nodup from hchains.nodup_iff.mp h.names_nodup)
  have h' := (Loads.nil folders jumpFolders).foldlM hfold'
  rw [nil_append] at h'
  refine ⟨loading', hfold', ?_, fun name ↦ hopsOf name records, fun name ↦ hopsOf name records',
    fun name ↦ hperm.filterMap _, h.hops, h'.hops⟩
  have hsame : loading'.database.hosts = loading.database.hosts := by
    refine SortedMap.ext_get? fun k ↦ Option.ext fun host ↦ ?_
    rw [h.hosts, h'.hosts, hhosts.mem_iff]
  have hsame' : loading'.database.chains = loading.database.chains := by
    refine SortedMap.ext_get? fun k ↦ Option.ext fun chain ↦ ?_
    rw [h.chains, h'.chains, hchains.mem_iff]
  rw [h.rest, h'.rest, hsame, hsame']

end KaduoxSsh.Hosts
