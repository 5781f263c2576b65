import KaduoxSsh.Hosts.Tables

/-!
# The round trip of the host library

The tables of a database are read back together as the database: the hosts one
after the other, the chains first without their hops, and then the hops of each
chain in the order of their places.
-/

namespace KaduoxSsh.Hosts

open Text Toml Result List SortedMap

/-! ## Reading the tables together -/

/-- The tables of a document, wherever they stand. -/
def Reads (read : List Table) (written : List (TableKind × Fields)) : Prop :=
  read.map Document.content = written.map fun table ↦ (table.1, table.2.toMap)

theorem Reads.cons_inv {read : List Table} {kind : TableKind} {fields : Fields}
    {written : List (TableKind × Fields)} (h : Reads read ((kind, fields) :: written)) :
    ∃ line rest, read = ⟨kind, line, fields.toMap⟩ :: rest ∧ Reads rest written := by
  rw [Reads, map_cons, map_eq_cons_iff] at h
  obtain ⟨⟨kind', line, values⟩, rest, rfl, htable, hrest⟩ := h
  have hkind : kind' = kind := congrArg Prod.fst htable
  have hvalues : values = fields.toMap := congrArg Prod.snd htable
  exact ⟨line, rest, by rw [hkind, hvalues], hrest⟩

theorem Reads.append_inv {read : List Table} {written written' : List (TableKind × Fields)}
    (h : Reads read (written ++ written')) :
    ∃ first rest, read = first ++ rest ∧ Reads first written ∧ Reads rest written' := by
  rw [Reads, map_append, map_eq_append_iff] at h
  exact h

namespace Loading

section

variable [Unicode]

theorem foldlM_hosts {hosts : List HostRecord} (hvalid : ∀ host ∈ hosts, host.validate = .ok ())
    (hpath : ∀ host ∈ hosts, ∀ path ∈ host.identityFile, path.toStr.isSome = true)
    (hnodup : (hosts.map HostRecord.hostAlias).Nodup) {read : List Table}
    (hread : Reads read (hosts.map fun host ↦ (.host, hostFields host))) (loading : Loading)
    (hnew : ∀ host ∈ hosts, loading.database.hosts.get? host.hostAlias = none) :
    read.foldlM readTable loading = .ok (hosts.foldl insertHost loading) := by
  induction hosts generalizing read loading with
  | nil =>
      obtain rfl := map_eq_nil_iff.mp hread
      rfl
  | cons host hosts ih =>
      obtain ⟨line, rest, rfl, hrest⟩ := hread.cons_inv
      obtain ⟨hhost, hnodup⟩ := nodup_cons.mp hnodup
      have hport := (HostRecord.validate_eq_ok.mp (hvalid host mem_cons_self)).2.2.1
      have hstep : readTable loading ⟨.host, line, (hostFields host).toMap⟩ =
          .ok (loading.insertHost host) := by
        simp [readTable, decodeHost_hostFields hport (hpath host mem_cons_self),
          hvalid host mem_cons_self, SortedMap.contains, hnew host mem_cons_self]
      rw [foldlM_cons, hstep, bind_ok, foldl_cons]
      refine ih (fun h hh ↦ hvalid h (mem_cons_of_mem host hh))
        (fun h hh ↦ hpath h (mem_cons_of_mem host hh)) hnodup hrest _ fun h hh ↦ ?_
      have hne : h.hostAlias ≠ host.hostAlias := by
        intro heq
        exact hhost (heq ▸ mem_map_of_mem hh)
      rw [insertHost, get?_insert_of_ne _ _ hne]
      exact hnew h (mem_cons_of_mem host hh)

/-- The hops of one chain are collected in order. -/
theorem foldlM_hops {name : String} {hops : List (JumpHop × Nat)}
    (hindex : ∀ hop ∈ hops, hop.2 < 2 ^ 64) (hvalid : ∀ hop ∈ hops, hop.1.validate = .ok ())
    (hpath : ∀ hop ∈ hops, hop.1.HasTextPath) {read : List Table}
    (hread : Reads read (hops.map fun hop ↦ (.hop, hopFields name hop))) {loading : Loading} :
    read.foldlM readTable loading =
      .ok (hops.foldl (fun loading hop ↦ loading.pushHop name hop.2 hop.1) loading) := by
  induction hops generalizing read loading with
  | nil =>
      obtain rfl := map_eq_nil_iff.mp hread
      rfl
  | cons hop hops ih =>
      obtain ⟨line, rest, rfl, hrest⟩ := hread.cons_inv
      have hstep : readTable loading ⟨.hop, line, (hopFields name hop).toMap⟩ =
          .ok (loading.pushHop name hop.2 hop.1) := by
        simp [readTable, decodeHop_hopFields (hindex hop mem_cons_self)
          (hvalid hop mem_cons_self) (hpath hop mem_cons_self),
          hvalid hop mem_cons_self]
      rw [foldlM_cons, hstep, bind_ok, foldl_cons]
      exact ih (fun h hh ↦ hindex h (mem_cons_of_mem hop hh))
        (fun h hh ↦ hvalid h (mem_cons_of_mem hop hh))
        (fun h hh ↦ hpath h (mem_cons_of_mem hop hh)) hrest

end

/-- A chain with all of its hops. -/
def addChain (loading : Loading) (chain : JumpChain) : Loading :=
  { loading.insertChain chain.name with
    rawHops := loading.rawHops.insert chain.name (chain.hops.zipIdx.map Prod.swap) }

theorem foldl_pushHop {name : String} (hops : List (JumpHop × Nat)) {loading : Loading}
    {earlier : List (Nat × JumpHop)} (h : loading.rawHops.get? name = some earlier) :
    hops.foldl (fun loading hop ↦ loading.pushHop name hop.2 hop.1) loading =
      { loading with rawHops := loading.rawHops.insert name (earlier ++ hops.map Prod.swap) } := by
  induction hops generalizing loading earlier with
  | nil =>
      rw [map_nil, append_nil, insert_get?_self h]
      rfl
  | cons hop hops ih =>
      rw [foldl_cons, ih (get?_insert_self _ _ _)]
      simp [pushHop, insert_insert, h]
      rfl

theorem foldl_pushHop_chain {chain : JumpChain} (hhops : chain.hops ≠ []) {loading : Loading}
    (hnew : loading.rawHops.get? chain.name = none) :
    chain.hops.zipIdx.foldl (fun loading hop ↦ loading.pushHop chain.name hop.2 hop.1)
      (loading.insertChain chain.name) = loading.addChain chain := by
  obtain ⟨hop, hops, heq⟩ := exists_cons_of_ne_nil hhops
  rw [addChain, heq, zipIdx_cons, foldl_cons,
    foldl_pushHop _ (get?_insert_self _ _ _)]
  simp [pushHop, insertChain, insert_insert, hnew]

theorem foldlM_chains [Unicode] {chains : List JumpChain}
    (hvalid : ∀ chain ∈ chains, chain.validate = .ok ())
    (hpath : ∀ chain ∈ chains, ∀ hop ∈ chain.hops, hop.HasTextPath)
    (hnodup : (chains.map JumpChain.name).Nodup) {read : List Table}
    (hread : Reads read (chains.flatMap chainTables)) (loading : Loading)
    (hseen : ∀ chain ∈ chains, chain.name ∉ loading.seenChainNames)
    (hnew : ∀ chain ∈ chains, loading.rawHops.get? chain.name = none) :
    read.foldlM readTable loading = .ok (chains.foldl addChain loading) := by
  induction chains generalizing read loading with
  | nil =>
      obtain rfl := map_eq_nil_iff.mp hread
      rfl
  | cons chain chains ih =>
      rw [flatMap_cons] at hread
      obtain ⟨first, rest, rfl, hfirst, hrest⟩ := hread.append_inv
      obtain ⟨line, hops, rfl, hhops⟩ := hfirst.cons_inv
      obtain ⟨hchain, hnodup⟩ := nodup_cons.mp hnodup
      obtain ⟨-, hne, hlength, hhop, -⟩ :=
        JumpChain.validate_eq_ok.mp (hvalid chain mem_cons_self)
      have hstep : readTable loading ⟨.chain, line, Fields.toMap [("name", some (.string chain.name))]⟩ =
          .ok (loading.insertChain chain.name) := by
        simp [readTable, decodeChain_name, hseen chain mem_cons_self]
      have hcollect : hops.foldlM readTable (loading.insertChain chain.name) =
          .ok (loading.addChain chain) := by
        rw [← foldl_pushHop_chain hne (hnew chain mem_cons_self)]
        refine foldlM_hops (fun hop hmem ↦ ?_) (fun hop hmem ↦ ?_) (fun hop hmem ↦ ?_) hhops
        · have hindex : hop.2 < chain.hops.length := by simpa using snd_lt_of_mem_zipIdx hmem
          have : MAX_CHAIN_HOPS ≤ 2 ^ 64 := by decide
          omega
        · exact hhop hop.1 (fst_mem_of_mem_zipIdx hmem)
        · exact hpath chain mem_cons_self hop.1 (fst_mem_of_mem_zipIdx hmem)
      have hother {next : JumpChain} (hmem : next ∈ chains) : next.name ≠ chain.name := by
        intro heq
        exact hchain (heq ▸ mem_map_of_mem hmem)
      rw [foldlM_append, foldlM_cons, hstep, bind_ok, hcollect, bind_ok,
        foldl_cons]
      refine ih (fun c hc ↦ hvalid c (mem_cons_of_mem chain hc))
        (fun c hc ↦ hpath c (mem_cons_of_mem chain hc)) hnodup hrest _ (fun c hc ↦ ?_)
        fun c hc ↦ ?_
      · exact not_mem_cons_of_ne_of_not_mem (hother hc)
          (hseen c (mem_cons_of_mem chain hc))
      · rw [addChain, get?_insert_of_ne _ _ (hother hc)]
        exact hnew c (mem_cons_of_mem chain hc)

theorem foldl_insertHost (hosts : List HostRecord) (loading : Loading) :
    hosts.foldl insertHost loading = { loading with
      database.hosts :=
        hosts.foldl (fun acc host ↦ acc.insert host.hostAlias host) loading.database.hosts } := by
  induction hosts generalizing loading with
  | nil => rfl
  | cons host hosts ih => rw [foldl_cons, ih, foldl_cons, insertHost]

theorem foldl_addChain (chains : List JumpChain) (loading : Loading) :
    chains.foldl addChain loading = {
      database := { loading.database with
        chains := chains.foldl (fun acc chain ↦ acc.insert chain.name ⟨chain.name, []⟩)
          loading.database.chains }
      rawHops := chains.foldl
        (fun acc chain ↦ acc.insert chain.name (chain.hops.zipIdx.map Prod.swap)) loading.rawHops
      seenChainNames := (chains.map JumpChain.name).reverse ++ loading.seenChainNames } := by
  induction chains generalizing loading with
  | nil => rfl
  | cons chain chains ih => simp [ih, addChain, insertChain]

end Loading

/-! ## Giving the chains their hops -/

theorem contiguous_zipIdx (name : String) (start : Nat) (hops : List JumpHop) :
    contiguous name start ((hops.zipIdx start).map Prod.swap) = .ok hops := by
  induction hops generalizing start with
  | nil => rfl
  | cons hop hops ih =>
      rw [zipIdx_cons, map_cons, Prod.swap_prod_mk, contiguous, if_neg (by simp), ih]
      rfl

theorem pairwise_zipIdx (start : Nat) (hops : List JumpHop) :
    ((hops.zipIdx start).map Prod.swap).Pairwise fun a b ↦ a.1 ≤ b.1 := by
  induction hops generalizing start with
  | nil => exact .nil
  | cons hop hops ih =>
      rw [zipIdx_cons, map_cons, pairwise_cons]
      refine ⟨fun b hb ↦ ?_, ih (start + 1)⟩
      obtain ⟨⟨hop', index⟩, hmem, rfl⟩ := mem_map.mp hb
      have := le_snd_of_mem_zipIdx hmem
      exact Nat.le_of_succ_le this

theorem attachHops_eq {chains : SortedMap String JumpChain} {chain : JumpChain}
    (h : chains.get? chain.name = some ⟨chain.name, []⟩) :
    attachHops chains (chain.name, chain.hops.zipIdx.map Prod.swap) =
      .ok (chains.insert chain.name chain) := by
  simp [attachHops, h, (pairwise_zipIdx 0 chain.hops).insertionSort_eq, contiguous_zipIdx,
    ofOption]

theorem foldlM_attachHops {chains : List JumpChain} (hnodup : (chains.map JumpChain.name).Nodup)
    {acc : SortedMap String JumpChain}
    (h : ∀ chain ∈ chains, acc.get? chain.name = some ⟨chain.name, []⟩) :
    (chains.map fun chain ↦ (chain.name, chain.hops.zipIdx.map Prod.swap)).foldlM attachHops acc =
      .ok (chains.foldl (fun acc chain ↦ acc.insert chain.name chain) acc) := by
  induction chains generalizing acc with
  | nil => rfl
  | cons chain chains ih =>
      obtain ⟨hchain, hnodup⟩ := nodup_cons.mp hnodup
      rw [map_cons, foldlM_cons, attachHops_eq (h chain mem_cons_self),
        bind_ok, foldl_cons]
      refine ih hnodup fun c hc ↦ ?_
      have hne : c.name ≠ chain.name := by
        intro heq
        exact hchain (heq ▸ mem_map_of_mem hc)
      rw [get?_insert_of_ne _ _ hne]
      exact h c (mem_cons_of_mem chain hc)

/-! ## Lines of a database -/

theorem isLine_fields {fields : Fields} (h : ∀ key ∈ fields.map Prod.fst, IsKey key) :
    ∀ l ∈ fields.lines, IsLine l := by
  intro l hl
  obtain ⟨⟨key, value⟩, hmem, hsome⟩ := mem_filterMap.mp hl
  obtain ⟨v, rfl, rfl⟩ := Option.map_eq_some_iff.mp hsome
  exact isLine_fieldLine (h key (mem_map_of_mem hmem)) v

theorem isLine_header (kind : TableKind) : IsLine (Document.header kind) := by
  cases kind <;> exact ⟨by decide, by decide⟩
theorem isLine_documentLines (database : HostDatabase) : ∀ l ∈ documentLines database, IsLine l := by
  intro l hl
  rcases mem_append.mp hl with hl | hl
  · rcases mem_cons.mp hl with rfl | hl
    · exact ⟨by decide, by decide⟩
    · exact isLine_fields (isKey_rootFields database) l hl
  · obtain ⟨⟨kind, fields⟩, hmem, hline⟩ := mem_flatMap.mp hl
    rcases mem_cons.mp hline with rfl | hline
    · exact ⟨by decide, by decide⟩
    rcases mem_cons.mp hline with rfl | hline
    · exact isLine_header kind
    · exact isLine_fields (isKey_tables database _ hmem) l hline

/-! ## The round trip -/

/-- The identity files of a database are texts. -/
structure HasTextPaths (database : HostDatabase) : Prop where
  hosts : ∀ host ∈ database.hosts.values, ∀ path ∈ host.identityFile, path.toStr.isSome = true
  hops : ∀ chain ∈ database.chains.values, ∀ hop ∈ chain.hops, hop.HasTextPath

/-- The notes of a database are readable. -/
def HasReadableNotes (database : HostDatabase) : Prop :=
  ∀ host ∈ database.hosts.values, ∀ note ∈ host.note, Readable note

section

variable [Unicode] {database : HostDatabase}

/-- From the tables of its document a database is rebuilt. -/
theorem loadTables (h : database.Valid) (hpath : HasTextPaths database) {read : List Table}
    (hread : Reads read (tables database)) :
    ∃ loading : Loading,
      read.foldlM Loading.readTable (.start database.folders database.jumpFolders) = .ok loading ∧
      loading.rawHops.entries.foldlM attachHops loading.database.chains = .ok database.chains ∧
      { loading.database with chains := database.chains } = database := by
  obtain ⟨first, rest, rfl, hfirst, hrest⟩ := hread.append_inv
  have hnames : (database.chains.values.map JumpChain.name).Nodup := by
    rw [map_key_values h.chainKey]
    exact database.chains.keys_nodup
  let middle : Loading := { Loading.start database.folders database.jumpFolders with
    database.hosts := database.hosts }
  have hhosts : first.foldlM Loading.readTable (.start database.folders database.jumpFolders) =
      .ok middle := by
    rw [Loading.foldlM_hosts ?_ hpath.hosts ?_ hfirst _ fun _ _ ↦ rfl, Loading.foldl_insertHost,
      foldl_insert_values_of_keys h.hostKey fun _ he ↦ absurd he not_mem_nil]
    · intro host hmem
      obtain ⟨k, hget⟩ := mem_values.mp hmem
      exact h.hostRecord k host hget
    · rw [map_key_values h.hostKey]
      exact database.hosts.keys_nodup
  have hchains : rest.foldlM Loading.readTable middle =
      .ok (database.chains.values.foldl Loading.addChain middle) := by
    refine Loading.foldlM_chains ?_ hpath.hops hnames hrest middle (fun _ _ ↦ not_mem_nil)
      fun _ _ ↦ rfl
    intro chain hmem
    obtain ⟨k, hget⟩ := mem_values.mp hmem
    exact h.chainRecord k chain hget
  refine ⟨database.chains.values.foldl Loading.addChain middle, ?_, ?_, ?_⟩
  · rw [foldlM_append, hhosts, bind_ok, hchains]
  · rw [Loading.foldl_addChain]
    simp only [middle, Loading.start, HostDatabase.default]
    rw [foldl_insert_values h.chainKey fun chain ↦ JumpChain.mk chain.name [],
      foldl_insert_values h.chainKey fun chain ↦ chain.hops.zipIdx.map Prod.swap,
      entries_mapVal h.chainKey, foldlM_attachHops hnames,
      foldl_insert_values_of_keys h.chainKey]
    · rintro ⟨k, chain⟩ hmem
      obtain ⟨v, hv, -⟩ := mem_mapVal.mp hmem
      exact mem_map.mpr ⟨(k, v), hv, rfl⟩
    · intro chain hmem
      obtain ⟨k, hget⟩ := mem_values.mp hmem
      rw [h.chainKey k chain hget, get?_mapVal, hget, ← h.chainKey k chain hget]
      rfl
  · rw [Loading.foldl_addChain]
    simp only [middle, Loading.start, HostDatabase.default, ← h.version]

theorem wellFormed_tables (h : database.Valid) (hnotes : HasReadableNotes database) :
    ∀ table ∈ tables database, table.2.WellFormed := by
  intro table hmem
  rcases mem_append.mp hmem with hmem | hmem
  · obtain ⟨host, hhost, rfl⟩ := mem_map.mp hmem
    obtain ⟨k, hget⟩ := mem_values.mp hhost
    exact wellFormed_hostFields (h.hostRecord k host hget) (hnotes host hhost)
  · obtain ⟨chain, hchain, htable⟩ := mem_flatMap.mp hmem
    obtain ⟨k, hget⟩ := mem_values.mp hchain
    exact wellFormed_chainTables (h.chainRecord k chain hget) table htable

theorem readLines_documentLines (h : database.Valid) (hnotes : HasReadableNotes database) :
    ∃ document : Document, Document.empty.readLines 1 (documentLines database) = .ok document ∧
      document.root = (rootFields database).toMap ∧ Reads document.close (tables database) := by
  have hroot := wellFormed_rootFields h
  have hcomment : Document.empty.readLine 1 commentLine = .ok .empty := by
    rw [Document.readLine, show stripComment commentLine = .ok [] by decide]
    rfl
  have hfields : Document.empty.readLines 2 (rootFields database).lines =
      .ok ⟨(rootFields database).toMap, [], none⟩ := by
    rw [Document.readLines_fields hroot fun _ _ ↦ rfl, ← hroot.insertAll_empty]
    rfl
  obtain ⟨document, hread, hdocument, hclose⟩ := Document.readLines_tables
    (wellFormed_tables h hnotes) ⟨(rootFields database).toMap, [], none⟩
    (2 + (rootFields database).lines.length)
  refine ⟨document, ?_, hdocument, hclose⟩
  rw [documentLines, cons_append, Document.readLines, hcomment, bind_ok,
    Document.readLines_append, hfields, bind_ok, hread]

/-- A database with readable notes comes back from its text. -/
theorem decode_of_readable (h : database.Valid) (hpath : HasTextPaths database)
    (hnotes : HasReadableNotes database) {text : String} (htext : encode database = .ok text)
    (hlength : (utf8 text).length ≤ MAX_INPUT_BYTES) : decode text = .ok database := by
  rw [encode_eq h, Except.ok.injEq] at htext
  obtain ⟨document, hdocument, hroot, hread⟩ := readLines_documentLines h hnotes
  obtain ⟨loading, hloading, hattach, heq⟩ := loadTables h hpath hread
  have hlines : lines text.toList = documentLines database := by
    rw [← htext, String.toList_ofList, lines_unlines (isLine_documentLines database)]
  rw [decode, if_neg (Nat.not_lt.mpr hlength), hlines, hdocument, bind_ok, hroot,
    decodeRoot_rootFields h, bind_ok]
  simp only [hloading, hattach, bind_ok, heq, HostDatabase.validate_eq_ok.mpr h,
    pure_eq_ok]

/-- An unreadable note makes the text unreadable. -/
theorem readable_of_decode {database result : HostDatabase} (h : database.Valid) {text : String}
    (htext : encode database = .ok text) (hdecode : decode text = .ok result) :
    HasReadableNotes database := by
  intro host hmem note hnote
  by_contra hbad
  rw [encode_eq h, Except.ok.injEq] at htext
  have hlines : lines text.toList = documentLines database := by
    rw [← htext, String.toList_ofList, lines_unlines (isLine_documentLines database)]
  have hline : fieldLine "note" (.string note) ∈ documentLines database := by
    refine mem_append_right _ (mem_flatMap.mpr ⟨(.host, hostFields host), ?_, ?_⟩)
    · exact mem_append_left _ (mem_map_of_mem hmem)
    · refine mem_cons_of_mem _ (mem_cons_of_mem _ (mem_filterMap.mpr
        ⟨("note", host.note.map .string), ?_, ?_⟩))
      · simp [hostFields]
      · rw [Option.mem_def.mp hnote]
        rfl
  rw [decode, ite_bail_eq_ok, bind_eq_ok, hlines] at hdecode
  obtain ⟨-, document, hread, -⟩ := hdecode
  exact Document.readLines_ne_ok
    (fun document result lineNo ↦
      Document.readLine_string_ne_ok (by decide) hbad document result lineNo) hline _ _ _ hread

/-- A valid database, with paths that are texts and a text of an admissible size, comes back from
its text exactly when the control characters of its notes are those that have an escape. -/
theorem decode_encode_iff (h : database.validate = .ok ()) (hpath : HasTextPaths database)
    (hlength : ∀ text, encode database = .ok text → (utf8 text).length ≤ MAX_INPUT_BYTES) :
    (encode database >>= decode) = .ok database ↔
      ∀ host ∈ database.hosts.values, ∀ note ∈ host.note, ∀ c ∈ note.toList,
        isControl c = true → c = '\n' ∨ c = '\r' ∨ c = '\t' := by
  have hvalid := HostDatabase.validate_eq_ok.mp h
  have htext := encode_eq hvalid
  rw [htext, bind_ok]
  constructor
  · exact readable_of_decode hvalid htext
  · intro hnotes
    exact decode_of_readable hvalid hpath hnotes htext (hlength _ htext)

end

/-- A host behind a jump node, with what a note may have. -/
def sampleDatabase : HostDatabase :=
  let host : HostRecord := { HostRecord.new "web" "10.0.0.5" "deploy" with
    note := some "a \"quoted\" # line\nand a tab\t", groups := ["prod"],
    identityFile := some (.ofString "/keys/web"), jumpChain := some "edge" }
  let jump : InlineJump := ⟨"gate", "gate.example", 2222, "jump", none, .strict⟩
  { HostDatabase.default with
    hosts := empty.insert "web" host
    chains := empty.insert "edge" ⟨"edge", [.inline jump]⟩ }

/-- A host with an escape character in its note. -/
def escapeNote : HostDatabase :=
  let host : HostRecord := { HostRecord.new "web" "10.0.0.5" "deploy" with note := some "\x1b[1m" }
  { HostDatabase.default with hosts := empty.insert "web" host }

theorem encode_length_le [Unicode] {database : HostDatabase} (h : database.Valid)
    (hlines : (unlines (documentLines database)).length ≤ MAX_INPUT_BYTES / 4) (text : String)
    (htext : encode database = .ok text) : (utf8 text).length ≤ MAX_INPUT_BYTES := by
  rw [encode_eq h, Except.ok.injEq] at htext
  have hbytes := length_utf8_ofList_le (unlines (documentLines database))
  rw [htext] at hbytes
  omega

theorem sampleDatabase_validate : @HostDatabase.validate asciiLetters sampleDatabase = .ok () := by
  decide

theorem escapeNote_validate : @HostDatabase.validate asciiLetters escapeNote = .ok () := by
  decide

theorem decode_encode_sample :
    (@encode asciiLetters sampleDatabase >>= @decode asciiLetters) = .ok sampleDatabase := by
  have hvalid := (@HostDatabase.validate_eq_ok asciiLetters _).mp sampleDatabase_validate
  refine (@decode_encode_iff asciiLetters _ sampleDatabase_validate ⟨?_, ?_⟩
    (@encode_length_le asciiLetters _ hvalid ?_)).mpr ?_
  · decide
  · decide
  · decide +kernel
  · decide

/-- The note passes the check and is written, but its text cannot be read. -/
theorem escapeNote_unreadable :
    @HostDatabase.validate asciiLetters escapeNote = .ok () ∧ HasTextPaths escapeNote ∧
      (∀ text, @encode asciiLetters escapeNote = .ok text → (utf8 text).length ≤ MAX_INPUT_BYTES) ∧
      (@encode asciiLetters escapeNote).isOk = true ∧
      (@encode asciiLetters escapeNote >>= @decode asciiLetters).isOk = false := by
  have hvalid := (@HostDatabase.validate_eq_ok asciiLetters _).mp escapeNote_validate
  have htext := @encode_eq asciiLetters _ hvalid
  refine ⟨escapeNote_validate, ⟨by decide, by decide⟩,
    @encode_length_le asciiLetters _ hvalid (by decide +kernel), ?_, ?_⟩
  · rw [isOk_iff]
    exact ⟨_, htext⟩
  rw [← Bool.not_eq_true, isOk_iff, htext, bind_ok]
  rintro ⟨result, hdecode⟩
  have hnotes := @readable_of_decode asciiLetters _ _ hvalid _ htext hdecode
  revert hnotes
  unfold HasReadableNotes
  decide

end KaduoxSsh.Hosts
