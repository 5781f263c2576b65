import KaduoxSsh.Hosts.Records

/-!
# The order of the tables of a host file

A host file is decoded table by table, and the state of the decoder depends on the
order of the tables. The database that comes out does not: the hosts and the chains
are in maps, and the hops of a chain are put in the order of their places, which
are different where there is no gap between them.
-/

namespace KaduoxSsh.Hosts

open Text Toml Result List

/-! ## The hops of a chain -/

/-- Hops in the order of their places. -/
def sortHops (hops : List (Nat × JumpHop)) : List (Nat × JumpHop) :=
  hops.insertionSort fun a b ↦ a.1 ≤ b.1

/-- Places without a gap increase. -/
theorem pairwise_of_contiguous {name : String} {expected : Nat} {hops : List (Nat × JumpHop)}
    {jumps : List JumpHop} (h : contiguous name expected hops = .ok jumps) :
    (∀ hop ∈ hops, expected ≤ hop.1) ∧ hops.Pairwise fun a b ↦ a.1 < b.1 := by
  induction hops generalizing expected jumps with
  | nil => exact ⟨nofun, .nil⟩
  | cons hop hops ih =>
      obtain ⟨actual, jump⟩ := hop
      rw [contiguous, ite_bail_eq_ok, not_not] at h
      obtain ⟨rfl, h⟩ := h
      obtain ⟨rest, hrest, -⟩ := bind_eq_ok.mp h
      obtain ⟨hle, hpairwise⟩ := ih hrest
      constructor
      · intro hop hmem
        rcases mem_cons.mp hmem with rfl | hmem
        · exact le_rfl
        · exact Nat.le_of_succ_le (hle hop hmem)
      · exact pairwise_cons.mpr ⟨fun hop hmem ↦ hle hop hmem, hpairwise⟩

/-- Hops with different places are put into one order, whatever order they come in. -/
theorem sortHops_perm {hops hops' : List (Nat × JumpHop)} (hperm : hops.Perm hops')
    (h : (sortHops hops).Pairwise fun a b ↦ a.1 < b.1) : sortHops hops = sortHops hops' := by
  have hsorted : (sortHops hops).Perm (sortHops hops') :=
    (perm_insertionSort _ hops).trans (hperm.trans (perm_insertionSort _ hops').symm)
  have hnodup : ((sortHops hops).map Prod.fst).Nodup := pairwise_map.mpr (h.imp ne_of_lt)
  refine hsorted.eq_of_pairwise (fun a b ha hb hab hba ↦ ?_) (pairwise_insertionSort _ _)
    (pairwise_insertionSort _ _)
  exact inj_on_of_nodup_map hnodup ha (hsorted.mem_iff.mpr hb) (le_antisymm hab hba)

/-- A chain of the database gets hops that are in their order. -/
def attachSorted (chains : SortedMap String JumpChain) (entry : String × List (Nat × JumpHop)) :
    Result (SortedMap String JumpChain) := do
  let (name, hops) := entry
  let chain ← ofOption s!"hop references missing chain {debug name}" (chains.get? name)
  let hops ← contiguous name 0 hops
  return chains.insert name { chain with hops := chain.hops ++ hops }

theorem foldlM_attachSorted (rawHops : SortedMap String (List (Nat × JumpHop)))
    (chains : SortedMap String JumpChain) : rawHops.entries.foldlM attachHops chains =
      (rawHops.mapVal sortHops).entries.foldlM attachSorted chains := by
  rw [SortedMap.mapVal, foldlM_map]
  rfl

/-- Hops that have been given to the chains have places without a gap. -/
theorem pairwise_of_attached {rawHops : SortedMap String (List (Nat × JumpHop))}
    {chains next : SortedMap String JumpChain} {name : String} {hops : List (Nat × JumpHop)}
    (h : rawHops.entries.foldlM attachHops chains = .ok next)
    (hhops : rawHops.get? name = some hops) :
    (sortHops hops).Pairwise fun a b ↦ a.1 < b.1 := by
  cases hcontiguous : contiguous name 0 (sortHops hops) with
  | ok jumps => exact (pairwise_of_contiguous hcontiguous).2
  | error e =>
      have hfails (chains : SortedMap String JumpChain) :
          (attachHops chains (name, hops)).isOk = false := by
        refine isOk_eq_false_iff.mpr fun next hnext ↦ ?_
        obtain ⟨chain, -, hchain⟩ := bind_eq_ok.mp hnext
        obtain ⟨jumps, hjumps, -⟩ := bind_eq_ok.mp hchain
        cases hcontiguous.symm.trans hjumps
      have := foldlM_isOk_eq_false (SortedMap.get?_eq_some_iff.mp hhops) hfails chains
      exact absurd h (isOk_eq_false_iff.mp this next)

/-- The chains get the same hops, whatever order these come in. -/
theorem foldlM_attachHops_perm {rawHops rawHops' : SortedMap String (List (Nat × JumpHop))}
    {hops hops' : String → List (Nat × JumpHop)} (hperm : ∀ name, (hops name).Perm (hops' name))
    (hraw : ∀ name, rawHops.get? name = if hops name = [] then none else some (hops name))
    (hraw' : ∀ name, rawHops'.get? name = if hops' name = [] then none else some (hops' name))
    {chains next : SortedMap String JumpChain}
    (h : rawHops.entries.foldlM attachHops chains = .ok next) :
    rawHops'.entries.foldlM attachHops chains = .ok next := by
  have hsame : rawHops.mapVal sortHops = rawHops'.mapVal sortHops := by
    refine SortedMap.ext_get? fun name ↦ ?_
    rw [SortedMap.get?_mapVal, SortedMap.get?_mapVal, hraw, hraw']
    by_cases hnone : hops name = []
    · have hnone' : hops' name = [] := (hnone ▸ hperm name).nil_eq.symm
      rw [if_pos hnone, if_pos hnone']
    · have hnone' : hops' name ≠ [] := fun hnil ↦ hnone (hnil ▸ hperm name).eq_nil
      have hpairwise := pairwise_of_attached h ((hraw name).trans (if_neg hnone))
      rw [if_neg hnone, if_neg hnone', Option.map_some, Option.map_some,
        sortHops_perm (hperm name) hpairwise]
  rw [foldlM_attachSorted] at h ⊢
  rwa [← hsame]

/-! ## The database of a file -/

/-- The text of a header and of one table after the other, with a line feed at its end or
without. -/
def fileText (header : List (List Char)) (tables : List (List (List Char))) (closed : Bool) :
    String :=
  String.ofList (joinLines (header ++ tables.flatten ++ if closed then [[]] else []))

theorem readLines_closing (document : Document) (lineNo : Nat) (ls : List (List Char))
    (closed : Bool) : document.readLines lineNo (ls ++ if closed then [[]] else []) =
      document.readLines lineNo ls := by
  cases closed with
  | false => exact congrArg _ (append_nil ls)
  | true =>
      rw [if_pos rfl, Document.readLines_append]
      cases document.readLines lineNo ls with
      | error e => rfl
      | ok next => rw [bind_ok, Document.readLines, Document.readLine_blank]; rfl

section

variable [Unicode] {database : HostDatabase}

/-- A database is put together from records. -/
def Assembles (folders jumpFolders : List String) (records : List Record)
    (database : HostDatabase) : Prop :=
  ∃ loading chains, records.foldlM Loading.add (.start folders jumpFolders) = some loading ∧
    loading.rawHops.entries.foldlM attachHops loading.database.chains = .ok chains ∧
    database = { loading.database with chains } ∧ database.validate = .ok ()

theorem Assembles.perm {folders jumpFolders : List String} {records records' : List Record}
    (hperm : records.Perm records') (h : Assembles folders jumpFolders records database) :
    Assembles folders jumpFolders records' database := by
  obtain ⟨loading, chains, hfold, hattach, hdatabase, hvalid⟩ := h
  obtain ⟨loading', hfold', hsame, hops, hops', hhops, hraw, hraw'⟩ :=
    exists_loading_perm hperm hfold
  refine ⟨loading', chains, hfold', ?_, ?_, hvalid⟩
  · rw [hsame]
    exact foldlM_attachHops_perm hhops hraw hraw' hattach
  · rw [hsame]
    exact hdatabase

variable {header : List (List Char)} {tables tables' : List (List (List Char))} {closed : Bool}

/-- What the text of whole tables is decoded to. -/
theorem decode_fileText_eq_ok (hheader : NoHeader header) (htables : ∀ ls ∈ tables, IsTable ls)
    (hlines : ∀ l ∈ header ++ tables.flatten, '\n' ∉ l) :
    decode (fileText header tables closed) = .ok database ↔
      (utf8 (fileText header tables closed)).length ≤ MAX_INPUT_BYTES ∧
      ∃ values root parsed records, ReadsFields .empty header values ∧
        decodeRoot values = .ok root ∧ List.Forall₂ ReadsTable tables parsed ∧
        List.Forall₂ (fun parsed record ↦ readRecord 0 parsed = .ok record) parsed records ∧
        Assembles root.1.1 root.1.2 records database := by
  have hall : ∀ l ∈ header ++ tables.flatten ++ if closed then [[]] else [], '\n' ∉ l := by
    intro l hmem
    rcases mem_append.mp hmem with hmem | hmem
    · exact hlines l hmem
    · cases closed with
      | false => cases hmem
      | true =>
          cases mem_singleton.mp hmem
          exact not_mem_nil
  have hread (document : Document) :
      Document.empty.readLines 1 (lines (fileText header tables closed).toList) = .ok document ↔
        ∃ values, ReadsFields .empty header values ∧
          (Document.empty.setValues values).readLines (1 + header.length) tables.flatten =
            .ok document := by
    rw [fileText, String.toList_ofList, Document.readLines_joinLines hall, readLines_closing,
      Document.readLines_append, bind_eq_ok]
    simp only [Document.readLines_noHeader hheader]
    constructor
    · rintro ⟨_, ⟨values, hvalues, rfl⟩, hrest⟩
      exact ⟨values, hvalues, hrest⟩
    · rintro ⟨values, hvalues, hrest⟩
      exact ⟨_, ⟨values, hvalues, rfl⟩, hrest⟩
  rw [decode, ite_bail_eq_ok, Nat.not_lt]
  refine and_congr_right fun _ ↦ ?_
  simp only [bind_eq_ok, hread, pure_eq_ok, Except.ok.injEq]
  constructor
  · rintro ⟨document, ⟨values, hvalues, htext⟩, root, hroot, loading, hload, chains, hchains, _,
      hvalid, rfl⟩
    obtain ⟨parsed, hparsed, hsame, hclose⟩ := Document.readLines_flatten htables htext
    obtain ⟨records, hrecords, hfold⟩ := foldlM_readTable.mp hload
    rw [hsame] at hroot
    rw [hclose] at hrecords
    exact ⟨values, root, parsed, records, hvalues, hroot, hparsed, hrecords, loading, chains,
      hfold, hchains, rfl, hvalid⟩
  · rintro ⟨values, root, parsed, records, hvalues, hroot, hparsed, hrecords, loading, chains,
      hfold, hchains, rfl, hvalid⟩
    obtain ⟨document, htext, hsame, hclose⟩ := Document.exists_readLines_flatten htables hparsed
      (Document.empty.setValues values) (1 + header.length)
    refine ⟨document, ⟨values, hvalues, htext⟩, root, ?_, loading, ?_, chains, hchains, (),
      hvalid, rfl⟩
    · rw [hsame]
      exact hroot
    · refine foldlM_readTable.mpr ⟨records, ?_, hfold⟩
      rw [hclose]
      exact hrecords

theorem decode_of_perm (hheader : NoHeader header) (htables : ∀ ls ∈ tables, IsTable ls)
    (hlines : ∀ l ∈ header ++ tables.flatten, '\n' ∉ l) (hperm : tables.Perm tables')
    (h : decode (fileText header tables closed) = .ok database) :
    decode (fileText header tables' closed) = .ok database := by
  have hall : (header ++ tables.flatten).Perm (header ++ tables'.flatten) :=
    hperm.flatten.append_left header
  obtain ⟨hlength, values, root, parsed, records, hvalues, hroot, hparsed, hrecords, hassembles⟩ :=
    (decode_fileText_eq_ok hheader htables hlines).mp h
  obtain ⟨parsed', hparsed', hpermParsed⟩ := perm_comp_forall₂ hperm.symm hparsed
  obtain ⟨records', hrecords', hpermRecords⟩ := perm_comp_forall₂ hpermParsed hrecords
  refine (decode_fileText_eq_ok hheader (fun ls hls ↦ htables ls (hperm.mem_iff.mpr hls))
    fun l hl ↦ hlines l (hall.mem_iff.mpr hl)).mpr ⟨?_, values, root, parsed', records', hvalues,
      hroot, hparsed', hrecords', hassembles.perm hpermRecords.symm⟩
  rw [fileText, ← length_joinLines_perm (hall.append_right _)]
  exact hlength

/-- Whatever order the whole tables of a host file are in, either no database is decoded from it
or the same one. This does not need the hops of a chain to keep their order. -/
theorem decode_tables_perm (hheader : NoHeader header) (htables : ∀ ls ∈ tables, IsTable ls)
    (hlines : ∀ l ∈ header ++ tables.flatten, '\n' ∉ l) (hperm : tables.Perm tables') :
    (decode (fileText header tables closed)).toOption =
      (decode (fileText header tables' closed)).toOption := by
  have hall : (header ++ tables.flatten).Perm (header ++ tables'.flatten) :=
    hperm.flatten.append_left header
  refine Option.ext fun database ↦ ?_
  rw [toOption_eq_some, toOption_eq_some]
  exact ⟨decode_of_perm hheader htables hlines hperm,
    decode_of_perm hheader (fun ls hls ↦ htables ls (hperm.mem_iff.mpr hls))
      (fun l hl ↦ hlines l (hall.mem_iff.mpr hl)) hperm.symm⟩

end

def sampleHeader : List (List Char) := ["version = 1".toList, []]

/-- A chain between its hops, which are not in the order of their places. -/
def sampleTables : List (List (List Char)) :=
  [["[[hop]]".toList, "chain = \"dmz\"".toList, "index = 1".toList, "kind = \"openssh\"".toList,
      "name = \"gate\"".toList],
    ["[[chain]]".toList, "name = \"dmz\"".toList],
    ["[[hop]]".toList, "chain = \"dmz\"".toList, "index = 0".toList, "kind = \"openssh\"".toList,
      "name = \"bastion\"".toList]]

theorem decode_tables_perm_sample :
    (@decode asciiLetters (fileText sampleHeader sampleTables true)).isOk = true ∧
      (@decode asciiLetters (fileText sampleHeader sampleTables true)).toOption =
        (@decode asciiLetters (fileText sampleHeader sampleTables.reverse true)).toOption := by
  constructor
  · unfold decode
    rw [fileText, String.toList_ofList]
    decide +kernel
  · exact @decode_tables_perm asciiLetters _ _ _ _ (by decide +kernel) (by decide +kernel)
      (by decide) (reverse_perm _).symm

end KaduoxSsh.Hosts
