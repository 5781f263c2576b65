import KaduoxSsh.Hosts.RoundTrip
import KaduoxSsh.Hosts.StoreInvariant
import KaduoxSsh.Lib.SharedValue

/-!
# Several users of one hosts file

The daemon, a direct run of the command line and every other program that edits
the library open the hosts file, change the database in memory, and write it back
as a whole. Nothing ties the writing to the state of the file at that time: a
daemon request reads the file, connects to the host, which takes as long as it
takes, and only then records the connection and saves what it has read before.

A save therefore loses no edit of another user exactly as long as the records that
it does not edit itself are still in the file as they were when it was opened.
-/

namespace KaduoxSsh.Hosts

open Text Result

/-! ## The file -/

/-- What the file system says about the hosts file: missing, or a private file with this text. -/
def metadata : Option String → Except IoErrorKind StoreEntry
  | none => .error .notFound
  | some text => .ok {
      isSymlink := false, isFile := true, mode := 0o600, len := (utf8 text).length
      openError := none, readError := none, bytes := utf8 text }

/-- How writing the file ends. The text is staged in another file and then renamed, so that the
hosts file holds the old text or the new one; an error after the renaming is an error too. -/
inductive WriteOutcome where
  | failed
  | failedAfterRename
  | written
deriving DecidableEq, Repr

/-- The text that `save` writes. -/
def HostStore.encoded [Unicode] (store : HostStore) : Result String := do
  store.database.validate
  let encoded ← encode store.database
  bailIf ((utf8 encoded).length > MAX_STORE_BYTES)
    s!"encoded host database exceeds {MAX_STORE_BYTES} bytes"
  return encoded

/-! ## Users -/

/-- A user between opening and closing the file: the database that was read, or written last, and
the store it works on. -/
structure Session where
  base : HostDatabase
  store : HostStore

/-- The file, the sessions by the number of their user, and the writes there have been. -/
structure Shared where
  path : PathBuf
  file : Option String
  sessions : SortedMap Nat Session
  log : List (Write HostDatabase)

inductive Event where
  | open (user : Nat)
  | edit (user : Nat) (operation : Operation)
  /-- The daemon has a connection to a host, made with this method unless it is an old one. -/
  | recordUse (user : Nat) (hostAlias : String) (newMethod : Option StoredAuthMethod) (clock : Int)
  | save (user : Nat) (outcome : WriteOutcome)

/-- The operation with which the daemon records a connection to a host of the library. -/
def recordStoreUse (store : HostStore) (hostAlias : String) (newMethod : Option StoredAuthMethod)
    (clock : Int) : Option Operation :=
  (store.database.hosts.get? hostAlias).map fun host ↦
    .recordSuccess hostAlias ((newMethod.or host.stats.lastAuthMethod).getD .auto) clock

namespace Shared

variable [Unicode]

/-- The database that a user sees who opens the file now. -/
def read (shared : Shared) : Result HostDatabase := do
  let store ← HostStore.open shared.path (metadata shared.file)
  return store.database

/-- The file has the database of a session now. -/
def publish (shared : Shared) (session : Session) (text : String) (acknowledged : Bool) : Shared :=
  { shared with
    file := some text
    log := shared.log ++ [⟨session.base, session.store.database, acknowledged⟩] }

def closed (shared : Shared) (user : Nat) : Shared :=
  { shared with sessions := shared.sessions.erase user }

/-- An error ends the session it occurs in: every caller returns with it. -/
def runEdit (shared : Shared) (user : Nat) (session : Session) (operation : Operation) : Shared :=
  match operation.run session.store with
  | (.ok _, store) =>
      { shared with sessions := shared.sessions.insert user { session with store } }
  | (.error _, _) => shared.closed user

def step (shared : Shared) : Event → Option Shared
  | .open user =>
      match HostStore.open shared.path (metadata shared.file) with
      | .ok store =>
          some { shared with sessions := shared.sessions.insert user ⟨store.database, store⟩ }
      | .error _ => some (shared.closed user)
  | .edit user operation => do
      let session ← shared.sessions.get? user
      some (shared.runEdit user session operation)
  | .recordUse user hostAlias newMethod clock => do
      let session ← shared.sessions.get? user
      match recordStoreUse session.store hostAlias newMethod clock with
      | some operation => some (shared.runEdit user session operation)
      | none => some (shared.closed user)
  | .save user outcome => do
      let session ← shared.sessions.get? user
      match session.store.encoded with
      | .error _ => some (shared.closed user)
      | .ok text =>
          match outcome with
          | .failed => some (shared.closed user)
          | .failedAfterRename => some ((shared.publish session text false).closed user)
          | .written =>
              let published := shared.publish session text true
              some { published with
                sessions := shared.sessions.insert user ⟨session.store.database, session.store⟩ }

end Shared

/-! ## Records -/

/-- The records of a library that are edited one by one. -/
inductive RecordKey where
  | host (hostAlias : String)
  | chain (name : String)
  | folder (name : String)
deriving DecidableEq, Repr

/-- What a library says about a record. -/
inductive StoredRecord where
  | host (record : Option HostRecord)
  | chain (record : Option JumpChain)
  | folder (isTarget isJump : Bool)
deriving DecidableEq, Repr

def HostDatabase.record (database : HostDatabase) : RecordKey → StoredRecord
  | .host hostAlias => .host (database.hosts.get? hostAlias)
  | .chain name => .chain (database.chains.get? name)
  | .folder name => .folder (name ∈ database.folders) (name ∈ database.jumpFolders)

namespace Shared

variable [Unicode] {shared : Shared} {text : String} {store : HostStore} {user : Nat}

/-- A save that leaves alone what the session has not edited, of a database that the file can
hold. -/
def Safe (shared : Shared) : Event → Prop
  | .save user _ => ∀ session, shared.sessions.get? user = some session →
      (HasTextPaths session.store.database ∧ HasReadableNotes session.store.database) ∧
      ∀ key, session.base.record key = session.store.database.record key →
        ∀ database, shared.read = .ok database → database.record key = session.base.record key
  | _ => True

/-- Every edit whose save succeeded is in the file, unless the same record was edited later. -/
def Preserved (shared : Shared) : Prop :=
  ∀ earlier write later, shared.log = earlier ++ write :: later → write.acknowledged = true →
    ∀ key, write.Edits HostDatabase.record key →
      (∃ next ∈ later, next.Edits HostDatabase.record key) ∨
        ∃ database, shared.read = .ok database ∧ database.record key = write.written.record key

/-! ## No lost edits -/

theorem open_some {path : PathBuf} {database : HostDatabase}
    (hlength : (utf8 text).length ≤ MAX_STORE_BYTES) (h : decode text = .ok database) :
    HostStore.open path (metadata (some text)) = .ok ⟨path, database⟩ := by
  have hread : StoreEntry.readToString path ⟨false, true, 0o600, (utf8 text).length, none, none,
      utf8 text⟩ = .ok text := by
    rw [StoreEntry.readToString]
    simp [Option.forM, context, ofOption]
  rw [HostStore.open.eq_def]
  simp only [metadata, loadDatabase, validatePrivateFile, hread, h, bind_ok, bailIf]
  rw [if_neg (by decide), if_neg (by decide), if_neg (by decide), if_neg (Nat.not_lt.mpr hlength)]
  rfl

/-- A database that the file can hold is seen by the next user. -/
theorem read_publish (shared : Shared) {session : Session} (acknowledged : Bool)
    (hpath : HasTextPaths session.store.database)
    (hnotes : HasReadableNotes session.store.database) (htext : session.store.encoded = .ok text) :
    (shared.publish session text acknowledged).read = .ok session.store.database := by
  rw [HostStore.encoded, check_bind_eq_ok, bind_eq_ok] at htext
  obtain ⟨hvalid, encoded, hencode, hrest⟩ := htext
  obtain ⟨hlength, heq⟩ := check_bind_eq_ok.mp hrest
  cases heq
  have hle : (utf8 text).length ≤ MAX_STORE_BYTES := Nat.not_lt.mp (bailIf_eq_ok.mp hlength)
  have hdecode := decode_of_readable (HostDatabase.validate_eq_ok.mp hvalid) hpath hnotes hencode hle
  show (HostStore.open shared.path (metadata (some text)) >>= fun store ↦ pure store.database) = _
  rw [open_some hle hdecode]
  rfl

/-- What a run keeps: the file can be read once it was written, and no edit is lost in it. -/
structure Inv (shared : Shared) : Prop where
  readable : shared.log ≠ [] → ∃ database, shared.read = .ok database
  kept : ∀ database, shared.read = .ok database → Kept HostDatabase.record shared.log database

theorem Inv.of_eq {shared next : Shared} (h : shared.Inv) (hread : next.read = shared.read)
    (hlog : next.log = shared.log) : next.Inv := by
  refine ⟨?_, ?_⟩
  · rw [hread, hlog]
    exact h.readable
  · rw [hread, hlog]
    exact h.kept

theorem Inv.runEdit (h : shared.Inv) (user : Nat) (session : Session) (operation : Operation) :
    (shared.runEdit user session operation).Inv := by
  rw [Shared.runEdit]
  split
  · exact h.of_eq rfl rfl
  · exact h.of_eq rfl rfl

theorem Inv.publish (h : shared.Inv) {outcome : WriteOutcome} {session : Session}
    (hsafe : shared.Safe (.save user outcome))
    (hsession : shared.sessions.get? user = some session)
    (htext : session.store.encoded = .ok text) (acknowledged : Bool) :
    (shared.publish session text acknowledged).Inv := by
  obtain ⟨⟨hpath, hnotes⟩, hfresh⟩ := hsafe session hsession
  have hread := read_publish shared acknowledged hpath hnotes htext
  refine ⟨fun _ ↦ ⟨_, hread⟩, fun database hdatabase ↦ ?_⟩
  rw [hread] at hdatabase
  cases hdatabase
  cases hold : shared.read with
  | ok current =>
      refine (h.kept current hold).push fun key hsame ↦ ?_
      exact hfresh key (not_not.mp hsame) current hold
  | error e =>
      -- Nothing was written yet, or the file could be read.
      have hempty : shared.log = [] := by
        by_contra hne
        obtain ⟨current, hcurrent⟩ := h.readable hne
        rw [hold] at hcurrent
        cases hcurrent
      rw [Shared.publish, hempty]
      exact (Kept.nil session.base).push fun key _ ↦ rfl

theorem step_inv {shared next : Shared} {event : Event} (h : shared.Inv)
    (hsafe : shared.Safe event) (hstep : shared.step event = some next) : next.Inv := by
  cases event with
  | «open» user =>
      rw [step] at hstep
      split at hstep
      · cases hstep
        exact h.of_eq rfl rfl
      · cases hstep
        exact h.of_eq rfl rfl
  | edit user operation =>
      obtain ⟨session, -, hrun⟩ := Option.bind_eq_some_iff.mp hstep
      cases hrun
      exact h.runEdit user session operation
  | recordUse user hostAlias newMethod clock =>
      obtain ⟨session, -, hrun⟩ := Option.bind_eq_some_iff.mp hstep
      split at hrun
      · cases hrun
        exact h.runEdit user session _
      · cases hrun
        exact h.of_eq rfl rfl
  | save user outcome =>
      obtain ⟨session, hsession, hrun⟩ := Option.bind_eq_some_iff.mp hstep
      cases htext : session.store.encoded with
      | error e =>
          rw [htext] at hrun
          cases hrun
          exact h.of_eq rfl rfl
      | ok text =>
          rw [htext] at hrun
          cases outcome with
          | failed =>
              cases hrun
              exact h.of_eq rfl rfl
          | failedAfterRename =>
              cases hrun
              exact (h.publish hsafe hsession htext false).of_eq rfl rfl
          | written =>
              cases hrun
              exact (h.publish hsafe hsession htext true).of_eq rfl rfl

/-- In every run whose saves are safe no edit is lost. -/
theorem no_lost_edit {start shared : Shared} (hstart : start.log = [])
    (hreach : Reaches step Safe start shared) : shared.Preserved := by
  have hinit : start.Inv := by
    refine ⟨fun hne ↦ absurd hstart hne, fun database _ ↦ ?_⟩
    rw [hstart]
    exact Kept.nil database
  have hinv := hreach.invariant hinit fun current event next hcurrent hsafe hstep ↦
    step_inv hcurrent hsafe hstep
  intro earlier write later hlog hack key hedits
  have hne : shared.log ≠ [] := by
    rw [hlog]
    simp
  obtain ⟨database, hread⟩ := hinv.readable hne
  rcases hinv.kept database hread earlier write later hlog hack key hedits with hlater | hvalue
  · exact .inl hlater
  · exact .inr ⟨database, hread, hvalue⟩

/-! ## Steps that succeed -/

theorem step_open (user : Nat) (h : HostStore.open shared.path (metadata shared.file) = .ok store) :
    shared.step (.open user) =
      some { shared with sessions := shared.sessions.insert user ⟨store.database, store⟩ } := by
  rw [step, h]

theorem step_edit (session : Session) {operation : Operation}
    (hsession : shared.sessions.get? user = some session)
    (h : operation.run session.store = (.ok (), store)) :
    shared.step (.edit user operation) =
      some { shared with sessions := shared.sessions.insert user { session with store } } := by
  rw [step, hsession, Option.bind_eq_bind, Option.bind_some, runEdit, h]

theorem step_recordUse (session : Session) {hostAlias : String}
    {newMethod : Option StoredAuthMethod} {clock : Int} {operation : Operation}
    (hsession : shared.sessions.get? user = some session)
    (huse : recordStoreUse session.store hostAlias newMethod clock = some operation)
    (h : operation.run session.store = (.ok (), store)) :
    shared.step (.recordUse user hostAlias newMethod clock) =
      some { shared with sessions := shared.sessions.insert user { session with store } } := by
  rw [step, hsession, Option.bind_eq_bind, Option.bind_some, huse]
  show some (shared.runEdit user session operation) = _
  rw [runEdit, h]

theorem step_save (session : Session) (hsession : shared.sessions.get? user = some session)
    (h : session.store.encoded = .ok text) :
    shared.step (.save user .written) = some { shared.publish session text true with
      sessions := shared.sessions.insert user ⟨session.store.database, session.store⟩ } := by
  rw [step, hsession, Option.bind_eq_bind, Option.bind_some, h]

end Shared

/-! ## A lost edit -/

/-- The text of a database. -/
def textOf (database : HostDatabase) : String :=
  String.ofList (Toml.unlines (documentLines database))

/-- A database that the file can hold. -/
structure Storable [Unicode] (database : HostDatabase) : Prop where
  valid : database.validate = .ok ()
  paths : HasTextPaths database
  notes : HasReadableNotes database
  short : (Toml.unlines (documentLines database)).length ≤ MAX_INPUT_BYTES / 4

namespace Storable

variable [Unicode] {database : HostDatabase}

theorem encode_eq (h : Storable database) : encode database = .ok (textOf database) :=
  Hosts.encode_eq (HostDatabase.validate_eq_ok.mp h.valid)

theorem length_le (h : Storable database) : (utf8 (textOf database)).length ≤ MAX_STORE_BYTES :=
  encode_length_le (HostDatabase.validate_eq_ok.mp h.valid) h.short _ h.encode_eq

theorem encoded_eq (h : Storable database) (path : PathBuf) :
    HostStore.encoded ⟨path, database⟩ = .ok (textOf database) := by
  rw [HostStore.encoded, h.valid, bind_ok, h.encode_eq, bind_ok,
    check_bind_eq_ok, bailIf_eq_ok]
  exact ⟨Nat.not_lt.mpr h.length_le, rfl⟩

theorem open_eq (h : Storable database) (path : PathBuf) :
    HostStore.open path (metadata (some (textOf database))) = .ok ⟨path, database⟩ :=
  Shared.open_some h.length_le (decode_of_readable (HostDatabase.validate_eq_ok.mp h.valid)
    h.paths h.notes h.encode_eq h.length_le)

theorem read_eq (h : Storable database) (path : PathBuf) (sessions : SortedMap Nat Session)
    (log : List (Write HostDatabase)) :
    Shared.read ⟨path, some (textOf database), sessions, log⟩ = .ok database := by
  unfold Shared.read
  rw [h.open_eq]
  rfl

/-- A session saves as long as the file is as it was when the session opened it. -/
theorem safe {base : HostDatabase} (hbase : Storable base) (h : Storable database)
    {path : PathBuf} {sessions : SortedMap Nat Session} {log : List (Write HostDatabase)}
    {user : Nat} {outcome : WriteOutcome}
    (hsession : sessions.get? user = some ⟨base, ⟨path, database⟩⟩) :
    Shared.Safe ⟨path, some (textOf base), sessions, log⟩ (.save user outcome) := by
  rintro session hopen
  obtain rfl := Option.some.inj (hsession.symm.trans hopen)
  refine ⟨⟨h.paths, h.notes⟩, fun key _ current hread ↦ ?_⟩
  rw [hbase.read_eq] at hread
  cases hread
  rfl

end Storable

/-- A library with one host, the same with one more, and both after a connection. -/
def webDatabase : HostDatabase := sampleStore.database

def dbHost : HostRecord := HostRecord.new "db" "10.0.0.6" "deploy"

def grownDatabase : HostDatabase := { webDatabase with hosts := webDatabase.hosts.insert "db" dbHost }

def usedDatabase : HostDatabase :=
  (sampleStore.recordSuccess "web" .agent 1700000000).2.database

def grownUsedDatabase : HostDatabase :=
  (HostStore.recordSuccess ⟨sampleStore.path, grownDatabase⟩ "web" .agent 1700000000).2.database

theorem storable_web : @Storable asciiLetters webDatabase :=
  @Storable.mk asciiLetters _ (by decide) ⟨by decide, by decide⟩
    (by unfold HasReadableNotes; decide +kernel) (by decide +kernel)

theorem storable_grown : @Storable asciiLetters grownDatabase :=
  @Storable.mk asciiLetters _ (by decide) ⟨by decide, by decide⟩
    (by unfold HasReadableNotes; decide +kernel) (by decide +kernel)

theorem storable_used : @Storable asciiLetters usedDatabase :=
  @Storable.mk asciiLetters _ (by decide) ⟨by decide, by decide⟩
    (by unfold HasReadableNotes; decide +kernel) (by decide +kernel)

theorem storable_grownUsed : @Storable asciiLetters grownUsedDatabase :=
  @Storable.mk asciiLetters _ (by decide) ⟨by decide, by decide⟩
    (by unfold HasReadableNotes; decide +kernel) (by decide +kernel)

/-- A hosts file with one host, and no user. -/
def quietFile : Shared :=
  ⟨sampleStore.path, some (textOf webDatabase), .empty, []⟩

theorem insertHost_web :
    @Operation.run asciiLetters (.insertHost dbHost) ⟨sampleStore.path, webDatabase⟩ =
      (.ok (), ⟨sampleStore.path, grownDatabase⟩) := by
  decide

/-- A daemon request opens the file and comes to nothing; meanwhile another program adds a host and
saves; the next request of the daemon opens the file, and records its connection while the other
program is still there. -/
theorem reaches_secondRequest [Unicode] {path : PathBuf} {web grown used : HostDatabase}
    {operation : Operation} (hweb : Storable web) (hgrown : Storable grown) (hused : Storable used)
    (hinsert : (Operation.insertHost dbHost).run ⟨path, web⟩ = (.ok (), ⟨path, grown⟩))
    (huse : recordStoreUse ⟨path, grown⟩ "web" (some .agent) 1700000000 = some operation)
    (hrecord : operation.run ⟨path, grown⟩ = (.ok (), ⟨path, used⟩)) :
    Reaches Shared.step Shared.Safe ⟨path, some (textOf web), .empty, []⟩ {
      path, file := some (textOf used)
      sessions := (SortedMap.empty.insert 0 ⟨used, ⟨path, used⟩⟩).insert 1 ⟨grown, ⟨path, grown⟩⟩
      log := [⟨web, grown, true⟩, ⟨grown, used, true⟩] } := by
  have hstart : Reaches Shared.step Shared.Safe ⟨path, some (textOf web), .empty, []⟩ _ := .start
  have hadded := ((hstart.next (e := Event.open 0) trivial
      (Shared.step_open 0 (hweb.open_eq path))).next (e := Event.open 1) trivial
      (Shared.step_open 1 (hweb.open_eq path))).next (e := Event.edit 1 (.insertHost dbHost)) trivial
      (Shared.step_edit ⟨web, ⟨path, web⟩⟩ rfl hinsert)
  have hsaved := hadded.next (e := Event.save 1 .written) (hweb.safe hgrown rfl)
      (Shared.step_save ⟨web, ⟨path, grown⟩⟩ rfl (hgrown.encoded_eq path))
  have hused' := (hsaved.next (e := Event.open 0) trivial
      (Shared.step_open 0 (hgrown.open_eq path))).next
      (e := Event.recordUse 0 "web" (some .agent) 1700000000) trivial
      (Shared.step_recordUse ⟨grown, ⟨path, grown⟩⟩ rfl huse hrecord)
  exact hused'.next (e := Event.save 0 .written) (hgrown.safe hused rfl)
    (Shared.step_save ⟨grown, ⟨path, used⟩⟩ rfl (hused.encoded_eq path))

/-- Both edits are in the file. -/
def sharedFile : Shared where
  path := sampleStore.path
  file := some (textOf grownUsedDatabase)
  sessions :=
    (SortedMap.empty.insert 0 ⟨grownUsedDatabase, ⟨sampleStore.path, grownUsedDatabase⟩⟩).insert 1
      ⟨grownDatabase, ⟨sampleStore.path, grownDatabase⟩⟩
  log := [⟨webDatabase, grownDatabase, true⟩, ⟨grownDatabase, grownUsedDatabase, true⟩]

theorem no_lost_edit_sample : @Shared.Preserved asciiLetters sharedFile := by
  have huse : recordStoreUse ⟨sampleStore.path, grownDatabase⟩ "web" (some .agent) 1700000000 =
      some (.recordSuccess "web" .agent 1700000000) := by decide
  have hrecord : @Operation.run asciiLetters (.recordSuccess "web" .agent 1700000000)
      ⟨sampleStore.path, grownDatabase⟩ = (.ok (), ⟨sampleStore.path, grownUsedDatabase⟩) := by
    decide
  exact @Shared.no_lost_edit asciiLetters quietFile sharedFile rfl
    (@reaches_secondRequest asciiLetters _ _ _ _ _ storable_web storable_grown storable_grownUsed
      insertHost_web huse hrecord)

/-- A daemon request opens the file and connects; meanwhile another program adds a host and saves;
then the daemon records the connection and saves. -/
def daemonRace : List Event :=
  [.open 0, .open 1, .edit 1 (.insertHost dbHost), .save 1 .written,
    .recordUse 0 "web" (some .agent) 1700000000, .save 0 .written]

/-- What the race leaves behind: two writes, each of its own edit. -/
def racedFile : Shared where
  path := sampleStore.path
  file := some (textOf usedDatabase)
  sessions := (SortedMap.empty.insert 0 ⟨usedDatabase, ⟨sampleStore.path, usedDatabase⟩⟩).insert 1
    ⟨grownDatabase, ⟨sampleStore.path, grownDatabase⟩⟩
  log := [⟨webDatabase, grownDatabase, true⟩, ⟨webDatabase, usedDatabase, true⟩]

/-- The race with any three databases and their texts: what counts is only how the operations lead
from one to the other. -/
theorem run_race [Unicode] {path : PathBuf} {web grown used : HostDatabase}
    {webText grownText usedText : String} {operation : Operation}
    (hopen : HostStore.open path (metadata (some webText)) = .ok ⟨path, web⟩)
    (hinsert : (Operation.insertHost dbHost).run ⟨path, web⟩ = (.ok (), ⟨path, grown⟩))
    (hgrown : HostStore.encoded ⟨path, grown⟩ = .ok grownText)
    (huse : recordStoreUse ⟨path, web⟩ "web" (some .agent) 1700000000 = some operation)
    (hrecord : operation.run ⟨path, web⟩ = (.ok (), ⟨path, used⟩))
    (hused : HostStore.encoded ⟨path, used⟩ = .ok usedText) :
    runEvents Shared.step ⟨path, some webText, .empty, []⟩ daemonRace = some {
      path, file := some usedText
      sessions := (SortedMap.empty.insert 0 ⟨used, ⟨path, used⟩⟩).insert 1 ⟨grown, ⟨path, grown⟩⟩
      log := [⟨web, grown, true⟩, ⟨web, used, true⟩] } := by
  rw [daemonRace, runEvents, Shared.step_open 0 hopen, Option.bind_some,
    runEvents, Shared.step_open 1 hopen, Option.bind_some,
    runEvents, Shared.step_edit ⟨web, ⟨path, web⟩⟩ rfl hinsert, Option.bind_some,
    runEvents, Shared.step_save ⟨web, ⟨path, grown⟩⟩ rfl hgrown, Option.bind_some,
    runEvents, Shared.step_recordUse ⟨web, ⟨path, web⟩⟩ rfl huse hrecord, Option.bind_some,
    runEvents, Shared.step_save ⟨web, ⟨path, used⟩⟩ rfl hused, Option.bind_some]
  rfl

theorem run_daemonRace :
    runEvents (@Shared.step asciiLetters) quietFile daemonRace = some racedFile := by
  have hrecord : @Operation.run asciiLetters (.recordSuccess "web" .agent 1700000000)
      ⟨sampleStore.path, webDatabase⟩ = (.ok (), ⟨sampleStore.path, usedDatabase⟩) := by
    decide
  have huse : recordStoreUse ⟨sampleStore.path, webDatabase⟩ "web" (some .agent) 1700000000 =
      some (.recordSuccess "web" .agent 1700000000) := by decide
  exact @run_race asciiLetters _ _ _ _ _ _ _ _
    (@Storable.open_eq asciiLetters _ storable_web sampleStore.path) insertHost_web
    (@Storable.encoded_eq asciiLetters _ storable_grown sampleStore.path) huse hrecord
    (@Storable.encoded_eq asciiLetters _ storable_used sampleStore.path)

/-- The host that the other program added is gone, and nobody edited it after that. -/
theorem daemon_save_loses_host :
    runEvents (@Shared.step asciiLetters) quietFile daemonRace = some racedFile ∧
      quietFile.log = [] ∧ ¬@Shared.Preserved asciiLetters racedFile := by
  refine ⟨run_daemonRace, rfl, fun h ↦ ?_⟩
  have hread : @Shared.read asciiLetters racedFile = .ok usedDatabase := by
    exact @Storable.read_eq asciiLetters _ storable_used _ _ _
  have hedits : Write.Edits HostDatabase.record ⟨webDatabase, grownDatabase, true⟩ (.host "db") := by
    unfold Write.Edits
    decide
  rcases h [] _ _ rfl rfl (.host "db") hedits with ⟨next, hnext, hagain⟩ | ⟨database, hdatabase, heq⟩
  · rw [List.mem_singleton.mp hnext] at hagain
    revert hagain
    unfold Write.Edits
    decide
  · rw [hread] at hdatabase
    cases hdatabase
    revert heq
    decide

end KaduoxSsh.Hosts
