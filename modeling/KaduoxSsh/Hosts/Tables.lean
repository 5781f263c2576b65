import KaduoxSsh.Hosts.Codec

/-!
# The tables of the host library

The text of a database is that of a document with one table for each host, chain
and hop, and each of these tables is read back as what it was written for.
-/

namespace KaduoxSsh.Hosts

open Text Toml List

/-! ## The document of a database -/

def hostFields (host : HostRecord) : Fields := [
  ("alias", some (.string host.hostAlias)),
  ("role", if host.role ≠ .both then some (.string host.role.asStr) else none),
  ("address", some (.string host.address)),
  ("port", some (.integer host.port.toUInt64)),
  ("user", some (.string host.user)),
  ("identity_file", host.identityFile.map fun path ↦ .string path.toStringLossy),
  ("groups", some (.strings host.groups)),
  ("tags", some (.strings host.tags)),
  ("note", host.note.map .string),
  ("host_key_policy", some (.string host.hostKeyPolicy.asStr)),
  ("os_type", if host.osType ≠ .auto then some (.string host.osType.asStr) else none),
  ("jump_chain", host.jumpChain.map .string),
  ("last_connected_unix", host.stats.lastConnectedUnix.map .integer),
  ("connection_count", some (.integer host.stats.connectionCount)),
  ("last_auth_method", host.stats.lastAuthMethod.map fun method ↦ .string method.asStr)]

def jumpFields : JumpHop → Fields
  | .host hostAlias => [("kind", some (.string "host")), ("name", some (.string hostAlias))]
  | .openSshAlias hostAlias =>
      [("kind", some (.string "openssh")), ("name", some (.string hostAlias))]
  | .inline jump => [
      ("kind", some (.string "inline")),
      ("alias", some (.string jump.hostAlias)),
      ("host", some (.string jump.host)),
      ("port", some (.integer jump.port.toUInt64)),
      ("user", some (.string jump.user)),
      ("identity_file", jump.identityFile.map fun path ↦ .string path.toStringLossy),
      ("host_key_policy", some (.string jump.hostKeyPolicy.asStr))]

def hopFields (name : String) (hop : JumpHop × Nat) : Fields :=
  ("chain", some (.string name)) :: ("index", some (.integer (UInt64.ofNat hop.2))) ::
    jumpFields hop.1

def chainTables (chain : JumpChain) : List (TableKind × Fields) :=
  (.chain, [("name", some (.string chain.name))]) ::
    chain.hops.zipIdx.map fun hop ↦ (.hop, hopFields chain.name hop)

def rootFields (database : HostDatabase) : Fields := [
  ("version", some (.integer database.version.toUInt64)),
  ("folders", if database.folders ≠ [] then some (.strings database.folders) else none),
  ("jump_folders",
    if database.jumpFolders ≠ [] then some (.strings database.jumpFolders) else none)]

def tables (database : HostDatabase) : List (TableKind × Fields) :=
  (database.hosts.values.map fun host ↦ (.host, hostFields host)) ++
    database.chains.values.flatMap chainTables

def documentLines (database : HostDatabase) : List (List Char) :=
  commentLine :: (rootFields database).lines ++ (tables database).flatMap Document.tableLines

/-! ## The text is that of the document -/

theorem unlines_cons (l : List Char) (ls : List (List Char)) :
    unlines (l :: ls) = l ++ '\n' :: unlines ls := by
  rw [unlines, flatMap_cons, append_assoc]
  rfl

theorem unlines_flatMap {α : Type} (l : List α) (f : α → List (List Char)) :
    unlines (l.flatMap f) = l.flatMap fun a ↦ unlines (f a) :=
  flatMap_assoc

/-- The text of one field. -/
def writeField (key : String) (value : Option Value) : List Char :=
  value.elim [] fun value ↦ fieldLine key value ++ ['\n']

theorem unlines_lines_cons (key : String) (value : Option Value) (fields : Fields) :
    unlines (Fields.lines ((key, value) :: fields)) =
      writeField key value ++ unlines (Fields.lines fields) := by
  cases value with
  | none => rfl
  | some value => rw [writeField, Option.elim_some, append_assoc]; exact unlines_cons _ _

theorem unlines_lines_nil : unlines (Fields.lines []) = [] := rfl

theorem writeString_eq (key value : String) :
    writeString key value = writeField key (some (.string value)) := rfl

theorem writeStrings_eq (key : String) (values : List String) :
    writeStrings key values = writeField key (some (.strings values)) := by
  simp [writeStrings, writeField, fieldLine, render]

theorem writeInteger_eq (key : String) (value : UInt64) :
    writeInteger key value.toNat = writeField key (some (.integer value)) := rfl

theorem writeField_map {α : Type} (key : String) (o : Option α) (f : α → Value) :
    writeField key (o.map f) = o.elim [] fun a ↦ writeField key (some (f a)) := by
  cases o <;> rfl

theorem writeField_ite {c : Prop} [Decidable c] (key : String) (value : Value) :
    writeField key (if c then some value else none) =
      if c then writeField key (some value) else [] := by
  by_cases h : c <;> simp [h, writeField]

theorem unlines_tableLines (kind : TableKind) (fields : Fields) :
    unlines (Document.tableLines (kind, fields)) =
      '\n' :: Document.header kind ++ ['\n'] ++ unlines fields.lines := by
  rw [Document.tableLines, unlines_cons, unlines_cons]
  simp

/-- What is written for a host are the lines of its table. -/
theorem encodeHost_eq (host : HostRecord) :
    encodeHost host = unlines (Document.tableLines (.host, hostFields host)) := by
  have hport : host.port.toNat = host.port.toUInt64.toNat := host.port.toNat_toUInt64.symm
  have hheader : "\n[[host]]\n".toList = '\n' :: Document.header .host ++ ['\n'] := by decide
  unfold encodeHost
  rw [unlines_tableLines, hostFields, hheader]
  simp only [unlines_lines_cons, unlines_lines_nil, writeField_map, writeField_ite, writeString_eq,
    writeStrings_eq, hport, writeInteger_eq, append_nil, append_assoc]
  rfl
theorem encodeJump_eq (hop : JumpHop) : encodeJump hop = unlines (Fields.lines (jumpFields hop)) := by
  cases hop with
  | host hostAlias =>
      rw [encodeJump, jumpFields]
      simp only [unlines_lines_cons, unlines_lines_nil, writeString_eq, append_nil]
  | openSshAlias hostAlias =>
      rw [encodeJump, jumpFields]
      simp only [unlines_lines_cons, unlines_lines_nil, writeString_eq, append_nil]
  | inline jump =>
      have hport : jump.port.toNat = jump.port.toUInt64.toNat := jump.port.toNat_toUInt64.symm
      unfold encodeJump jumpFields
      simp only [unlines_lines_cons, unlines_lines_nil, writeField_map, writeString_eq, hport,
        writeInteger_eq, append_nil, append_assoc]

theorem encodeHop_eq {name : String} {hop : JumpHop × Nat} (hindex : hop.2 < 2 ^ 64) :
    encodeHop name hop = unlines (Document.tableLines (.hop, hopFields name hop)) := by
  have hnat : hop.2 = (UInt64.ofNat hop.2).toNat := by
    rw [UInt64.toNat_ofNat', Nat.mod_eq_of_lt hindex]
  have hheader : "\n[[hop]]\n".toList = '\n' :: Document.header .hop ++ ['\n'] := by decide
  unfold encodeHop
  rw [encodeJump_eq, hnat, unlines_tableLines, hopFields, hheader]
  simp only [unlines_lines_cons, writeString_eq, writeInteger_eq, append_assoc]

/-- What is written for a chain are the lines of its table and of those of its hops. -/
theorem encodeChain_eq {chain : JumpChain} (hlength : chain.hops.length ≤ MAX_CHAIN_HOPS) :
    encodeChain chain = unlines ((chainTables chain).flatMap Document.tableLines) := by
  have hheader : "\n[[chain]]\n".toList = '\n' :: Document.header .chain ++ ['\n'] := by decide
  have hhops : chain.hops.zipIdx.flatMap (encodeHop chain.name) =
      chain.hops.zipIdx.flatMap fun hop ↦
        unlines (Document.tableLines (.hop, hopFields chain.name hop)) := by
    refine flatMap_congr fun hop hmem ↦ encodeHop_eq ?_
    have hindex : hop.2 < chain.hops.length := by simpa using snd_lt_of_mem_zipIdx hmem
    calc hop.2 < chain.hops.length := hindex
      _ ≤ MAX_CHAIN_HOPS := hlength
      _ ≤ 2 ^ 64 := by decide
  unfold encodeChain
  rw [hhops, chainTables, flatMap_cons, unlines_append, unlines_tableLines,
    flatMap_map, unlines_flatMap, hheader]
  simp only [unlines_lines_cons, unlines_lines_nil, writeString_eq, append_nil,
    append_assoc]

/-- What is written for a database: a comment, the fields of the root, and the tables. -/
theorem unlines_documentLines (database : HostDatabase) : unlines (documentLines database) =
    commentLine ++ ['\n'] ++ unlines (rootFields database).lines ++
      unlines ((tables database).flatMap Document.tableLines) := by
  rw [documentLines, cons_append, unlines_cons, unlines_append]
  simp

/-- The text of a valid database is that of its document. -/
theorem encode_eq [Unicode] {database : HostDatabase} (h : database.Valid) :
    encode database = .ok (String.ofList (unlines (documentLines database))) := by
  have hversion : database.version.toNat = database.version.toUInt64.toNat :=
    database.version.toNat_toUInt64.symm
  have hchains : database.chains.values.flatMap encodeChain =
      unlines ((database.chains.values.flatMap chainTables).flatMap Document.tableLines) := by
    rw [flatMap_assoc, unlines_flatMap]
    refine flatMap_congr fun chain hmem ↦ encodeChain_eq ?_
    obtain ⟨name, hget⟩ := SortedMap.mem_values.mp hmem
    exact (JumpChain.validate_eq_ok.mp (h.chainRecord name chain hget)).2.2.1
  have hhosts : database.hosts.values.flatMap encodeHost =
      unlines ((database.hosts.values.map fun host ↦ (TableKind.host, hostFields host)).flatMap
        Document.tableLines) := by
    rw [flatMap_map, unlines_flatMap]
    exact flatMap_congr fun host _ ↦ encodeHost_eq host
  unfold encode
  rw [HostDatabase.validate_eq_ok.mpr h, Result.bind_ok, Result.pure_eq_ok,
    unlines_documentLines, hchains, hhosts, tables, flatMap_append, unlines_append,
    rootFields]
  simp only [unlines_lines_cons, unlines_lines_nil, writeField_ite, hversion, writeInteger_eq,
    writeStrings_eq, append_nil, append_assoc]

/-! ## Taking fields that were written -/

section

variable {β : Type} {fields : Fields} {key : String} {α : Type}

theorem take_bind {expected : String} {select : Value → Option α} {inject : α → Value}
    {f : Option α → Taking β} (value : Option α) (h : fields.lookup key = value.map inject)
    (hselect : ∀ a, select (inject a) = some a) :
    (take expected select key >>= f) fields.toMap = f value (fields.without key).toMap := by
  have htake : take expected select key fields.toMap = .ok (value, (fields.without key).toMap) := by
    rw [take, Fields.get?_toMap, h, Fields.erase_toMap]
    cases value with
    | none => rfl
    | some a => simp [hselect]
  show (take expected select key fields.toMap >>= fun p ↦ f p.1 p.2) = _
  rw [htake, Result.bind_ok]

theorem takeString_bind {f : Option String → Taking β} (value : Option String)
    (h : fields.lookup key = value.map .string) :
    (takeString key >>= f) fields.toMap = f value (fields.without key).toMap :=
  take_bind value h fun _ ↦ rfl

theorem takeInteger_bind {f : Option UInt64 → Taking β} (value : Option UInt64)
    (h : fields.lookup key = value.map .integer) :
    (takeInteger key >>= f) fields.toMap = f value (fields.without key).toMap :=
  take_bind value h fun _ ↦ rfl

theorem takeStrings_bind {f : Option (List String) → Taking β} (value : Option (List String))
    (h : fields.lookup key = value.map .strings) :
    (takeStrings key >>= f) fields.toMap = f value (fields.without key).toMap :=
  take_bind value h fun _ ↦ rfl

theorem ofOption_some_bind {f : α → Taking β} (text : String) (a : α) :
    ((liftM (Result.ofOption text (some a)) : Taking α) >>= f) = f a := rfl

theorem requiredString_bind {f : String → Taking β} {line : Nat} (value : String)
    (h : fields.lookup key = some (.string value)) :
    (requiredString key line >>= f) fields.toMap = f value (fields.without key).toMap := by
  rw [requiredString, bind_assoc, takeString_bind (some value) h]
  rfl

/-- A field that was written from a value gives that value, and is taken out. -/
theorem takeParsed_bind {parse : String → Result α} {f : Option α → Taking β} (value : Option α)
    (text : α → String) (hparse : ∀ a ∈ value, parse (text a) = .ok a)
    (h : fields.lookup key = value.map fun a ↦ .string (text a)) :
    (takeParsed key parse >>= f) fields.toMap = f value (fields.without key).toMap := by
  rw [takeParsed, bind_assoc, takeString_bind (value.map text) (by rw [h, Option.map_map]; rfl)]
  cases value with
  | none => rfl
  | some a =>
      show ((liftM (parse (text a)) >>= fun a ↦ pure (some a)) >>= f) _ = _
      rw [hparse a rfl]
      rfl

theorem takePort_bind {f : UInt16 → Taking β} {invalid : String} {port : UInt16} (hport : port ≠ 0)
    (h : fields.lookup "port" = some (.integer port.toUInt64)) :
    (takePort invalid >>= f) fields.toMap = f port (fields.without "port").toMap := by
  rw [takePort, bind_assoc, takeInteger_bind (some port.toUInt64) h]
  have hvalid : port.toUInt64.toNat < 65536 ∧ port.toUInt64 ≠ 0 := by
    refine ⟨by simpa using port.toNat_lt, fun hzero ↦ hport ?_⟩
    simpa using congrArg UInt64.toUInt16 hzero
  show ((if port.toUInt64.toNat < 65536 ∧ port.toUInt64 ≠ 0 then pure port.toUInt64.toUInt16
    else liftM (Result.bail invalid : Result UInt16)) >>= f) _ = _
  rw [if_pos hvalid, pure_bind, UInt16.toUInt16_toUInt64]

/-- Where all fields have been taken, none is unknown. -/
theorem rejectUnknown_bind {f : Unit → Taking β} {location : String} (h : fields = []) :
    (rejectUnknown location >>= f) fields.toMap = f () .empty := by
  subst h
  rfl

end

/-! ## Names of choices -/

theorem HostRole.parse_asStr (role : HostRole) : HostRole.parse role.asStr = .ok role := by
  cases role <;> rfl

theorem StoredHostKeyPolicy.parse_asStr (policy : StoredHostKeyPolicy) :
    StoredHostKeyPolicy.parse policy.asStr = .ok policy := by
  cases policy <;> rfl

theorem StoredOsType.parse_asStr (osType : StoredOsType) :
    StoredOsType.parse osType.asStr = .ok osType := by
  cases osType <;> rfl

theorem StoredAuthMethod.parse_asStr (method : StoredAuthMethod) :
    StoredAuthMethod.parse method.asStr = .ok method := by
  cases method <;> rfl

/-! ## Reading tables back -/

/-- A path that is a text survives being written as one. -/
theorem ofString_toStringLossy {path : PathBuf} (h : path.toStr.isSome = true) :
    PathBuf.ofString path.toStringLossy = path := by
  obtain ⟨s, hs⟩ := Option.isSome_iff_exists.mp h
  rw [PathBuf.toStringLossy, ← PathBuf.toStr, hs]
  exact PathBuf.toStr_eq_some_iff.mp hs

theorem map_ofString_toStringLossy {file : Option PathBuf}
    (h : ∀ path ∈ file, path.toStr.isSome = true) :
    (file.map PathBuf.toStringLossy).map PathBuf.ofString = file := by
  cases file with
  | none => rfl
  | some path => simp [ofString_toStringLossy (h path rfl)]

/-- A host is read from its fields. -/
theorem decodeHost_hostFields {host : HostRecord} (hport : host.port ≠ 0)
    (hpath : ∀ path ∈ host.identityFile, path.toStr.isSome = true) (line : Nat) :
    decodeHost line (hostFields host).toMap = .ok (host, .empty) := by
  have hidentity := map_ofString_toStringLossy hpath
  have hrole : (if host.role ≠ .both then some host.role else none).getD .default = host.role := by
    cases host.role <;> rfl
  have hosType : (if host.osType ≠ .auto then some host.osType else none).getD .default =
      host.osType := by
    cases host.osType <;> rfl
  unfold decodeHost
  rw [requiredString_bind host.hostAlias,
    takeParsed_bind (if host.role ≠ .both then some host.role else none) HostRole.asStr
      (fun role _ ↦ role.parse_asStr),
    requiredString_bind host.address, requiredString_bind host.user, takePort_bind hport,
    takeString_bind (host.identityFile.map PathBuf.toStringLossy),
    takeStrings_bind (some host.groups), takeStrings_bind (some host.tags),
    takeString_bind host.note,
    takeParsed_bind (some host.hostKeyPolicy) StoredHostKeyPolicy.asStr
      (fun policy _ ↦ policy.parse_asStr),
    takeString_bind host.jumpChain,
    takeParsed_bind (if host.osType ≠ .auto then some host.osType else none) StoredOsType.asStr
      (fun osType _ ↦ osType.parse_asStr),
    takeInteger_bind host.stats.lastConnectedUnix,
    takeInteger_bind (some host.stats.connectionCount),
    takeParsed_bind host.stats.lastAuthMethod StoredAuthMethod.asStr
      (fun method _ ↦ method.parse_asStr),
    rejectUnknown_bind, hidentity, hrole, hosType]
  · rfl
  · simp [hostFields, Fields.without]
  all_goals simp [Fields.lookup_without, hostFields, Fields.lookup, apply_ite, Function.comp_def]

/-- The identity file of a hop is a text, if there is one. -/
def JumpHop.HasTextPath : JumpHop → Prop
  | .inline jump => ∀ path ∈ jump.identityFile, path.toStr.isSome = true
  | _ => True

instance : (hop : JumpHop) → Decidable hop.HasTextPath
  | .host _ => inferInstanceAs (Decidable True)
  | .openSshAlias _ => inferInstanceAs (Decidable True)
  | .inline jump => inferInstanceAs (Decidable (∀ path ∈ jump.identityFile, _))

/-- How the kind of a hop is written. -/
def JumpHop.kindName : JumpHop → String
  | .host _ => "host"
  | .openSshAlias _ => "openssh"
  | .inline _ => "inline"

theorem decodeJump_bind [Unicode] {β : Type} {f : JumpHop → Taking β} {hop : JumpHop}
    (hvalid : hop.validate = .ok ()) (hpath : hop.HasTextPath) (line : Nat) :
    (decodeJump hop.kindName line >>= f) ((jumpFields hop).without "kind").toMap =
      f hop .empty := by
  unfold decodeJump
  cases hop with
  | host hostAlias =>
      rw [JumpHop.kindName, if_pos rfl, bind_assoc, requiredString_bind hostAlias rfl]
      rfl
  | openSshAlias hostAlias =>
      rw [JumpHop.kindName, if_neg (by decide), if_pos rfl, bind_assoc,
        requiredString_bind hostAlias rfl]
      rfl
  | inline jump =>
      obtain ⟨-, -, hport, -, -⟩ := InlineJump.validate_eq_ok.mp hvalid
      rw [JumpHop.kindName, if_neg (by decide), if_neg (by decide), if_pos rfl, jumpFields]
      simp only [bind_assoc]
      rw [requiredString_bind jump.hostAlias, requiredString_bind jump.host,
        requiredString_bind jump.user, takePort_bind hport,
        takeString_bind (jump.identityFile.map PathBuf.toStringLossy),
        takeParsed_bind (some jump.hostKeyPolicy) StoredHostKeyPolicy.asStr
          (fun policy _ ↦ policy.parse_asStr),
        map_ofString_toStringLossy hpath]
      · simp [Fields.without, Fields.toMap]
      all_goals simp [Fields.lookup_without, Fields.lookup, Function.comp_def]

/-- A hop is read from its fields, with its chain and its place there. -/
theorem decodeHop_hopFields [Unicode] {name : String} {hop : JumpHop × Nat}
    (hindex : hop.2 < 2 ^ 64) (hvalid : hop.1.validate = .ok ()) (hpath : hop.1.HasTextPath)
    (line : Nat) :
    decodeHop line (hopFields name hop).toMap = .ok ((name, hop.2, hop.1), .empty) := by
  obtain ⟨hop, index⟩ := hop
  have hnat : (UInt64.ofNat index).toNat = index := by
    rw [UInt64.toNat_ofNat', Nat.mod_eq_of_lt hindex]
  have hrest : Fields.without "index" (Fields.without "chain" (hopFields name (hop, index))) =
      jumpFields hop := by
    cases hop <;> rfl
  have hkind : (jumpFields hop).lookup "kind" = some (.string hop.kindName) := by
    cases hop <;> rfl
  unfold decodeHop
  rw [requiredString_bind name rfl, takeInteger_bind (some (UInt64.ofNat index)) rfl, hrest,
    ofOption_some_bind, requiredString_bind hop.kindName hkind, decodeJump_bind hvalid hpath, hnat]
  rfl

theorem decodeChain_name (name : String) (line : Nat) :
    decodeChain line (Fields.toMap [("name", some (.string name))]) = .ok (name, .empty) := by
  rw [decodeChain, requiredString_bind name rfl]
  rfl

/-- The folders are read from the fields of the root. -/
theorem decodeRoot_rootFields [Unicode] {database : HostDatabase} (h : database.Valid) :
    decodeRoot (rootFields database).toMap =
      .ok ((database.folders, database.jumpFolders), .empty) := by
  have hfolders (values : List String) :
      (if values ≠ [] then some values else none).getD [] = values := by
    cases values <;> rfl
  unfold decodeRoot
  rw [takeInteger_bind (some database.version.toUInt64) rfl, ofOption_some_bind,
    if_neg (by rw [h.version]; exact not_not.mpr rfl),
    takeStrings_bind (if database.folders ≠ [] then some database.folders else none),
    takeStrings_bind (if database.jumpFolders ≠ [] then some database.jumpFolders else none),
    rejectUnknown_bind, hfolders, hfolders]
  · rfl
  · simp [rootFields, Fields.without]
  all_goals simp [rootFields, Fields.lookup_without, Fields.lookup, apply_ite]

/-! ## Fields that can be read -/

def rootKeys : List String := ["version", "folders", "jump_folders"]

def hostKeys : List String :=
  ["alias", "role", "address", "port", "user", "identity_file", "groups", "tags", "note",
    "host_key_policy", "os_type", "jump_chain", "last_connected_unix", "connection_count",
    "last_auth_method"]

/-- The keys of a hop that is a host of the library or of the OpenSSH configuration. -/
def namedHopKeys : List String := ["chain", "index", "kind", "name"]

def inlineHopKeys : List String :=
  ["chain", "index", "kind", "alias", "host", "port", "user", "identity_file", "host_key_policy"]

theorem isKey_rootFields (database : HostDatabase) :
    ∀ key ∈ (rootFields database).map Prod.fst, IsKey key := by
  show ∀ key ∈ rootKeys, IsKey key
  decide

theorem isKey_hostFields (host : HostRecord) :
    ∀ key ∈ (hostFields host).map Prod.fst, IsKey key := by
  show ∀ key ∈ hostKeys, IsKey key
  decide

theorem isKey_hopFields (name : String) (hop : JumpHop × Nat) :
    ∀ key ∈ (hopFields name hop).map Prod.fst, IsKey key := by
  obtain ⟨hop, index⟩ := hop
  cases hop with
  | host hostAlias =>
      show ∀ key ∈ namedHopKeys, IsKey key
      decide
  | openSshAlias hostAlias =>
      show ∀ key ∈ namedHopKeys, IsKey key
      decide
  | inline jump =>
      show ∀ key ∈ inlineHopKeys, IsKey key
      decide

theorem isKey_tables (database : HostDatabase) :
    ∀ table ∈ tables database, ∀ key ∈ table.2.map Prod.fst, IsKey key := by
  intro table hmem
  rcases mem_append.mp hmem with hmem | hmem
  · obtain ⟨host, hhost, rfl⟩ := mem_map.mp hmem
    exact isKey_hostFields host
  · obtain ⟨chain, hchain, htable⟩ := mem_flatMap.mp hmem
    rcases mem_cons.mp htable with rfl | htable
    · show ∀ key ∈ ["name"], IsKey key
      decide
    · obtain ⟨hop, hhop, rfl⟩ := mem_map.mp htable
      exact isKey_hopFields chain.name hop

theorem Plain.readable {value : String} (h : Plain value) : Readable value := by
  intro c hc hcontrol
  rw [h c hc] at hcontrol
  cases hcontrol

section

variable [Unicode]

theorem wellFormed_rootFields {database : HostDatabase} (h : database.Valid) :
    (rootFields database).WellFormed where
  isKey := isKey_rootFields database
  nodup := by
    show rootKeys.Nodup
    decide
  readable := by
    have hfolder (name : String) (hmem : name ∈ database.folders ++ database.jumpFolders) :=
      (validateLabel_plain (h.folderLabels name hmem)).readable
    simp only [rootFields, forall_mem_cons, Option.mem_def, Option.ite_none_right_eq_some,
      Option.some.injEq, forall_eq', not_mem_nil]
    refine ⟨trivial, ?_, ?_, nofun⟩
    · rintro _ ⟨-, rfl⟩ name hname
      exact hfolder name (mem_append_left _ hname)
    · rintro _ ⟨-, rfl⟩ name hname
      exact hfolder name (mem_append_right _ hname)

/-- The fields of a valid host are well formed if its note is readable. -/
theorem wellFormed_hostFields {host : HostRecord} (h : host.validate = .ok ())
    (hnote : ∀ note, host.note = some note → Readable note) : (hostFields host).WellFormed where
  isKey := isKey_hostFields host
  nodup := by
    show hostKeys.Nodup
    decide
  readable := by
    obtain ⟨hname, haddress, -, huser, hidentity, hgroups, htags, -, hchain⟩ :=
      HostRecord.validate_eq_ok.mp h
    simp only [hostFields, forall_mem_cons, Option.mem_def, Option.ite_none_right_eq_some,
      Option.some.injEq, forall_eq', not_mem_nil, Option.map_eq_some_iff]
    refine ⟨(validateLabel_plain hname).readable, ?_, (validateEndpointToken_plain haddress).readable,
      trivial, (validateEndpointToken_plain huser).readable, ?_, ?_, ?_, ?_, ?_, ?_, ?_, ?_,
      trivial, ?_, nofun⟩
    · rintro _ ⟨-, rfl⟩
      cases host.role <;> decide
    · rintro _ ⟨path, hpath, rfl⟩
      rw [hpath] at hidentity
      exact (validateOptionalPath_plain hidentity).readable
    · exact fun value hvalue ↦ (validateLabels_plain hgroups value hvalue).readable
    · exact fun value hvalue ↦ (validateLabels_plain htags value hvalue).readable
    · rintro _ ⟨note, hsome, rfl⟩
      exact hnote note hsome
    · cases host.hostKeyPolicy <;> decide
    · rintro _ ⟨-, rfl⟩
      cases host.osType <;> decide
    · rintro _ ⟨chain, hsome, rfl⟩
      exact (validateLabel_plain (hchain chain hsome)).readable
    · rintro _ ⟨time, -, rfl⟩
      trivial
    · rintro _ ⟨method, -, rfl⟩
      cases method <;> decide

theorem wellFormed_hopFields {name : String} (hname : Readable name) {hop : JumpHop × Nat}
    (h : hop.1.validate = .ok ()) : (hopFields name hop).WellFormed := by
  obtain ⟨hop, index⟩ := hop
  cases hop with
  | host hostAlias =>
      refine ⟨isKey_hopFields name _, ?_, ?_⟩
      · show namedHopKeys.Nodup
        decide
      · simp only [hopFields, jumpFields, forall_mem_cons, Option.mem_def, Option.some.injEq,
          forall_eq', not_mem_nil]
        exact ⟨hname, trivial, by decide, (validateLabel_plain h).readable, nofun⟩
  | openSshAlias hostAlias =>
      refine ⟨isKey_hopFields name _, ?_, ?_⟩
      · show namedHopKeys.Nodup
        decide
      · simp only [hopFields, jumpFields, forall_mem_cons, Option.mem_def, Option.some.injEq,
          forall_eq', not_mem_nil]
        exact ⟨hname, trivial, by decide, (validateName_plain h).readable, nofun⟩
  | inline jump =>
      obtain ⟨halias, hhost, -, huser, hidentity⟩ := InlineJump.validate_eq_ok.mp h
      refine ⟨isKey_hopFields name _, ?_, ?_⟩
      · show inlineHopKeys.Nodup
        decide
      · simp only [hopFields, jumpFields, forall_mem_cons, Option.mem_def, Option.some.injEq,
          forall_eq', not_mem_nil, Option.map_eq_some_iff]
        refine ⟨hname, trivial, by decide, (validateLabel_plain halias).readable,
          (validateEndpointToken_plain hhost).readable, trivial,
          (validateEndpointToken_plain huser).readable, ?_, ?_, nofun⟩
        · rintro _ ⟨path, hpath, rfl⟩
          rw [hpath] at hidentity
          exact (validateOptionalPath_plain hidentity).readable
        · cases jump.hostKeyPolicy <;> decide

theorem wellFormed_chainTables {chain : JumpChain} (h : chain.validate = .ok ()) :
    ∀ table ∈ chainTables chain, table.2.WellFormed := by
  obtain ⟨hname, -, -, hhops, -⟩ := JumpChain.validate_eq_ok.mp h
  have hreadable := (validateLabel_plain hname).readable
  rw [chainTables, forall_mem_cons]
  constructor
  · refine ⟨by simp; decide, by simp, ?_⟩
    simp only [forall_mem_cons, Option.mem_def, Option.some.injEq, forall_eq',
      not_mem_nil]
    exact ⟨hreadable, nofun⟩
  · intro table hmem
    obtain ⟨hop, hhop, rfl⟩ := mem_map.mp hmem
    exact wellFormed_hopFields hreadable (hhops hop.1 (fst_mem_of_mem_zipIdx hhop))

end

end KaduoxSsh.Hosts
