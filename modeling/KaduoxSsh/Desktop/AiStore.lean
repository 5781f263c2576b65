import KaduoxSsh.Lib.Pool
import KaduoxSsh.Desktop.Sessions

/-!
# The conversations with the assistant

`ai_store.rs`: the database of conversations, of their messages and of the commands that were run.
Every call opens the database for itself and executes a few statements. Each statement is a
transaction of its own, and nothing keeps two calls from taking turns between them.

`Serves` says what SQLite does with a statement. Any of them may also fail, for a busy database or
a full disk, and then changes nothing.
-/

namespace KaduoxSsh.Desktop.AiStore

open Asking (query ofResult)
open Sessions (trimmed)

def MAX_TITLE_CHARS : Nat := 200

def MAX_MESSAGE_CHARS : Nat := 64 * 1024

def MAX_MESSAGES_PER_CONVERSATION : Nat := 2000

def MAX_CONVERSATIONS : Nat := 500

/-- A row of `conversations`, with the count of its messages. -/
structure AiConversation where
  id : String
  title : String
  /-- The host; empty for no host. -/
  hostAlias : String
  createdAtUnix : Nat
  updatedAtUnix : Nat
  messageCount : Nat
deriving DecidableEq, Repr

structure AiStoredMessage where
  id : Nat
  conversationId : String
  role : String
  content : String
  toolJson : Option String
  createdAtUnix : Nat
deriving DecidableEq, Repr

/-- A row of `command_audit`. -/
structure AiCommandAudit where
  id : Nat
  hostAlias : String
  command : String
  riskLevel : String
  permissionMode : String
  approvedByUser : Bool
  exitStatus : Option Int
  durationMs : Int
  createdAtUnix : Nat
  approvalBatch : Option String
deriving DecidableEq, Repr

/-! ## Questions -/

structure Connection where
  foreignKeys : Bool
deriving DecidableEq, Repr

/-- The statements, with their parameters. -/
inductive Statement where
  | journalMode
  | foreignKeys
  | createConversations
  | createMessages
  | createIndex
  | createCommandAudit
  | hasAlias
  | addAlias
  | hasApprovalBatch
  | addApprovalBatch
  | countConversations
  | insertConversation (id title hostAlias : String) (now : Nat)
  | selectConversations (hostAlias : Option String)
  | updateTitle (id title : String) (now : Nat)
  | deleteConversation (id : String)
  | selectMessages (conversationId : String)
  | countMessages (conversationId : String)
  | insertMessage (conversationId role content : String) (toolJson : Option String) (now : Nat)
  | touchConversation (id : String) (now : Nat)
  | insertCommandAudit (row : AiCommandAudit)

/-- Rows, the count of changed rows, or the id of a new row. -/
abbrev Statement.Reply : Statement → Type
  | .hasAlias | .hasApprovalBatch => Bool
  | .countConversations | .updateTitle _ _ _ | .deleteConversation _ | .countMessages _
  | .insertMessage _ _ _ _ _ | .touchConversation _ _ => Nat
  | .selectConversations _ => List AiConversation
  | .selectMessages _ => List AiStoredMessage
  | _ => Unit

inductive StoreQuestion where
  /-- Is there a database file? -/
  | pathExists
  | connect
  | execute (conn : Connection) (statement : Statement)
  /-- The clock, in seconds and in nanoseconds. -/
  | nowUnix
  | nanos

def StoreQuestion.Reply : StoreQuestion → Type
  | .pathExists => Bool
  | .connect => Result Unit
  | .execute _ statement => Result statement.Reply
  | .nowUnix => Result Nat
  | .nanos => Nat

abbrev Storing := Asking StoreQuestion StoreQuestion.Reply

def execute (conn : Connection) (statement : Statement) : Storing statement.Reply :=
  query (.execute conn statement) id

/-! ## Calls -/

/-- `open`: the tables and columns that are not there yet are added. -/
def openDatabase : Storing Connection := do
  (query .connect id).context "打开 AI 对话数据库失败"
  let conn : Connection := ⟨false⟩
  execute conn .journalMode
  execute conn .foreignKeys
  let conn : Connection := ⟨true⟩
  execute conn .createConversations
  execute conn .createMessages
  execute conn .createIndex
  execute conn .createCommandAudit
  let hasAlias : Bool ← execute conn .hasAlias
  unless hasAlias do
    execute conn .addAlias
  let hasBatch : Bool ← execute conn .hasApprovalBatch
  unless hasBatch do
    execute conn .addApprovalBatch
  return conn

def validateTitle (title : String) : Result String := do
  Result.bailIf (trimmed title = "" ∨ (trimmed title).length > MAX_TITLE_CHARS)
    s!"会话标题长度必须在 1..={MAX_TITLE_CHARS} 字符之间"
  return trimmed title

def nowUnix : Storing Nat := query .nowUnix id

def createConversation (title hostAlias : String) : Storing AiConversation := do
  let title ← ofResult (validateTitle title)
  let conn ← openDatabase
  let count : Nat ← execute conn .countConversations
  ofResult (Result.bailIf (count ≥ MAX_CONVERSATIONS)
    s!"AI 会话数量已达上限 {MAX_CONVERSATIONS}，请先删除旧会话")
  let now ← nowUnix
  let suffix : Nat ← query .nanos .ok
  let id := s!"conv-{now}-{suffix}"
  execute conn (.insertConversation id title hostAlias now)
  return ⟨id, title, hostAlias, now, now, 0⟩

def listConversations (hostAlias : Option String) : Storing (List AiConversation) := do
  let found : Bool ← query .pathExists .ok
  if found then
    let conn ← openDatabase
    execute conn (.selectConversations hostAlias)
  else
    return []

def renameConversation (id title : String) : Storing Unit := do
  let title ← ofResult (validateTitle title)
  let conn ← openDatabase
  let now ← nowUnix
  let changed : Nat ← execute conn (.updateTitle id title now)
  ofResult (Result.bailIf (changed = 0) "会话不存在")

def deleteConversation (id : String) : Storing Unit := do
  let found : Bool ← query .pathExists .ok
  if found then
    let conn ← openDatabase
    let _ : Nat ← execute conn (.deleteConversation id)
    return ()
  else
    return ()

def listMessages (conversationId : String) : Storing (List AiStoredMessage) := do
  let found : Bool ← query .pathExists .ok
  if found then
    let conn ← openDatabase
    execute conn (.selectMessages conversationId)
  else
    return []

def RoleOk (role : String) : Prop := role = "user" ∨ role = "assistant" ∨ role = "tool"

instance (role : String) : Decidable (RoleOk role) := inferInstanceAs (Decidable (_ ∨ _))

def appendMessage (conversationId role content : String) (toolJson : Option String) :
    Storing AiStoredMessage := do
  ofResult (Result.bailIf (¬RoleOk role) "AI 消息角色无效")
  ofResult (Result.bailIf (content.length > MAX_MESSAGE_CHARS)
    s!"单条 AI 消息不能超过 {MAX_MESSAGE_CHARS} 字符")
  let conn ← openDatabase
  let count : Nat ← execute conn (.countMessages conversationId)
  ofResult (Result.bailIf (count ≥ MAX_MESSAGES_PER_CONVERSATION)
    s!"单个会话的消息数量已达上限 {MAX_MESSAGES_PER_CONVERSATION}")
  let now ← nowUnix
  let rowid : Nat ← execute conn (.insertMessage conversationId role content toolJson now)
  let _ : Nat ← execute conn (.touchConversation conversationId now)
  return ⟨rowid, conversationId, role, content, toolJson, now⟩

/-- The id of the row is the database's to choose, and the time that of the clock. -/
def recordCommandAudit (row : AiCommandAudit) : Storing Unit := do
  let conn ← openDatabase
  let now ← nowUnix
  execute conn (.insertCommandAudit { row with createdAtUnix := now })

/-- A call of the store, whatever becomes of its result. -/
inductive Calls : Interaction StoreQuestion StoreQuestion.Reply Unit → Prop
  | createConversation (title hostAlias : String) :
      Calls ((createConversation title hostAlias).run >>= fun _ ↦ .done ())
  | listConversations (hostAlias : Option String) :
      Calls ((listConversations hostAlias).run >>= fun _ ↦ .done ())
  | renameConversation (id title : String) :
      Calls ((renameConversation id title).run >>= fun _ ↦ .done ())
  | deleteConversation (id : String) :
      Calls ((deleteConversation id).run >>= fun _ ↦ .done ())
  | listMessages (conversationId : String) :
      Calls ((listMessages conversationId).run >>= fun _ ↦ .done ())
  | appendMessage (conversationId role content : String) (toolJson : Option String) :
      Calls ((appendMessage conversationId role content toolJson).run >>= fun _ ↦ .done ())
  | recordCommandAudit (row : AiCommandAudit) :
      Calls ((recordCommandAudit row).run >>= fun _ ↦ .done ())

/-! ## The database -/

structure ConversationRow where
  id : String
  title : String
  hostAlias : String
  createdAtUnix : Nat
  updatedAtUnix : Nat
deriving DecidableEq, Repr

/-- The tables and columns that there are, of those that a program of some version has made. -/
structure Schema where
  conversations : Bool
  messages : Bool
  commandAudit : Bool
  /-- The column `alias` of `conversations`. -/
  hostAlias : Bool
  approvalBatch : Bool
deriving DecidableEq, Repr

structure Database where
  isFile : Bool
  schema : Schema
  conversations : List ConversationRow
  messages : List AiStoredMessage
  /-- The largest id that a message has had. -/
  messageSequence : Nat
  commandAudit : List AiCommandAudit
  auditSequence : Nat
deriving DecidableEq, Repr

namespace Database

def empty : Database := ⟨false, ⟨false, false, false, false, false⟩, [], [], 0, [], 0⟩

variable (db : Database)

def ids : List String := db.conversations.map (·.id)

/-- The rowid that `AUTOINCREMENT` gives. -/
def nextMessageId : Nat := (db.messages.map (·.id)).foldr max db.messageSequence + 1

def nextAuditId : Nat := (db.commandAudit.map (·.id)).foldr max db.auditSequence + 1

def messagesOf (conversationId : String) : List AiStoredMessage :=
  db.messages.filter (·.conversationId = conversationId)

def updateConversation (id : String) (f : ConversationRow → ConversationRow) : Database :=
  { db with conversations := db.conversations.map fun row ↦ if row.id = id then f row else row }

def createConversations : Database :=
  if db.schema.conversations then db
  else { db with schema := { db.schema with conversations := true, hostAlias := true } }

def createMessages : Database := { db with schema := { db.schema with messages := true } }

/-- The column for the approval is not in the text of the table. -/
def createCommandAudit : Database :=
  if db.schema.commandAudit then db
  else { db with schema := { db.schema with commandAudit := true, approvalBatch := false } }

def addAlias : Database where
  __ := db
  schema := { db.schema with hostAlias := true }
  conversations := db.conversations.map ({ · with hostAlias := "" })

def addApprovalBatch : Database where
  __ := db
  schema := { db.schema with approvalBatch := true }
  commandAudit := db.commandAudit.map ({ · with approvalBatch := none })

def insertConversation (row : ConversationRow) : Database :=
  { db with conversations := db.conversations ++ [row] }

/-- Where foreign keys count, the messages go with their conversation. -/
def deleteConversation (conn : Connection) (id : String) : Database where
  __ := db
  conversations := db.conversations.filter (·.id ≠ id)
  messages := if conn.foreignKeys then db.messages.filter (·.conversationId ≠ id) else db.messages

def insertMessage (conversationId role content : String) (toolJson : Option String) (now : Nat) :
    Database where
  __ := db
  messages := db.messages ++ [⟨db.nextMessageId, conversationId, role, content, toolJson, now⟩]
  messageSequence := db.nextMessageId

def insertCommandAudit (row : AiCommandAudit) : Database where
  __ := db
  commandAudit := db.commandAudit ++ [{ row with id := db.nextAuditId }]
  auditSequence := db.nextAuditId

/-- The rows of the conversations with their messages counted, for a host or for all. -/
def listing (hostAlias : Option String) : List AiConversation :=
  (db.conversations.filter fun row ↦ hostAlias.all (row.hostAlias = ·)).map fun row ↦
    ⟨row.id, row.title, row.hostAlias, row.createdAtUnix, row.updatedAtUnix,
      (db.messagesOf row.id).length⟩

/-- What a statement replies and does when it does not fail. Numbers are stored as `i64`. -/
def Executes (conn : Connection) : (statement : Statement) → statement.Reply → Database → Prop
  | .journalMode, _, after | .foreignKeys, _, after | .createIndex, _, after => after = db
  | .createConversations, _, after => after = db.createConversations
  | .createMessages, _, after => after = db.createMessages
  | .createCommandAudit, _, after => after = db.createCommandAudit
  | .hasAlias, found, after => found = db.schema.hostAlias ∧ after = db
  | .addAlias, _, after =>
      (db.schema.conversations ∧ ¬db.schema.hostAlias) ∧ after = db.addAlias
  | .hasApprovalBatch, found, after => found = db.schema.approvalBatch ∧ after = db
  | .addApprovalBatch, _, after =>
      (db.schema.commandAudit ∧ ¬db.schema.approvalBatch) ∧ after = db.addApprovalBatch
  | .countConversations, count, after =>
      db.schema.conversations ∧ count = db.conversations.length ∧ after = db
  | .insertConversation id title hostAlias now, _, after =>
      (db.schema.conversations ∧ db.schema.hostAlias) ∧ (id ∉ db.ids ∧ now < 2 ^ 63) ∧
        after = db.insertConversation ⟨id, title, hostAlias, now, now⟩
  | .selectConversations hostAlias, rows, after =>
      (db.schema.conversations ∧ db.schema.messages ∧ db.schema.hostAlias) ∧
        (List.Perm rows (db.listing hostAlias) ∧
          List.Pairwise (fun a b ↦ b.updatedAtUnix ≤ a.updatedAtUnix) rows) ∧ after = db
  | .updateTitle id title now, changed, after =>
      (db.schema.conversations ∧ now < 2 ^ 63) ∧ changed = db.ids.count id ∧
        after = db.updateConversation id ({ · with title := title, updatedAtUnix := now })
  | .deleteConversation id, changed, after =>
      db.schema.conversations ∧ changed = db.ids.count id ∧
        after = db.deleteConversation conn id
  | .selectMessages conversationId, rows, after =>
      db.schema.messages ∧ (List.Perm rows (db.messagesOf conversationId) ∧
        List.Pairwise (fun a b ↦ a.id ≤ b.id) rows) ∧ after = db
  | .countMessages conversationId, count, after =>
      db.schema.messages ∧ count = (db.messagesOf conversationId).length ∧ after = db
  | .insertMessage conversationId role content toolJson now, rowid, after =>
      (db.schema.messages ∧ db.nextMessageId < 2 ^ 63 ∧ now < 2 ^ 63) ∧
        (conn.foreignKeys → db.schema.conversations ∧ conversationId ∈ db.ids) ∧
        rowid = db.nextMessageId ∧
        after = db.insertMessage conversationId role content toolJson now
  | .touchConversation id now, changed, after =>
      (db.schema.conversations ∧ now < 2 ^ 63) ∧ changed = db.ids.count id ∧
        after = db.updateConversation id ({ · with updatedAtUnix := now })
  | .insertCommandAudit row, _, after =>
      (db.schema.commandAudit ∧ db.schema.approvalBatch) ∧
        (db.nextAuditId < 2 ^ 63 ∧ row.createdAtUnix < 2 ^ 63) ∧
        after = db.insertCommandAudit row

end Database

/-- How the system goes on with a question. -/
inductive Serves : Service StoreQuestion.Reply Database
  | pathExists {db : Database} {found : Bool} (hfound : found = true → db.isFile = true) :
      Serves db ⟨.pathExists, found⟩ db
  | connect {db : Database} : Serves db ⟨.connect, Except.ok ()⟩ { db with isFile := true }
  | connectFailed {db : Database} {error : AnyError} :
      Serves db ⟨.connect, Except.error error⟩ db
  | nowUnix {db : Database} {now : Result Nat} : Serves db ⟨.nowUnix, now⟩ db
  | nanos {db : Database} {nanos : Nat} : Serves db ⟨.nanos, nanos⟩ db
  | executed {db after : Database} {conn : Connection} {statement : Statement}
      {reply : statement.Reply} (hexecutes : db.Executes conn statement reply after) :
      Serves db ⟨.execute conn statement, Except.ok reply⟩ after
  | failed {db : Database} {conn : Connection} {statement : Statement} {error : AnyError} :
      Serves db ⟨.execute conn statement, Except.error error⟩ db

end KaduoxSsh.Desktop.AiStore
