import KaduoxSsh.Desktop.AiStore

/-!
# The conversations as their calls have left them

A list of chats, each with its messages in their order, is what the database stands for. Each
statement changes it as its name says: `served_chats` is the refinement, and `reached_replays`
says that what the calls read is what the statements before have made of the chats, however the
calls take turns.

The limits are checked in a statement before the one that inserts. `reached_bounded` says how far
calls that take turns can get beyond them.
-/

namespace KaduoxSsh.Desktop.AiStore

open Interaction List Nat
open Asking (query ofResult)

abbrev StoreEvent := Event StoreQuestion.Reply

/-! ## The chats -/

/-- A conversation with its messages. -/
structure Chat extends ConversationRow where
  messages : List AiStoredMessage

abbrev Chats := List Chat

namespace Chats

variable (chats : Chats)

def ids : List String := chats.map (·.id)

def messagesOf (id : String) : List AiStoredMessage :=
  (chats.find? (·.id = id)).elim [] Chat.messages

def change (id : String) (f : Chat → Chat) : Chats :=
  chats.map fun chat ↦ if chat.id = id then f chat else chat

def listing (hostAlias : Option String) : List AiConversation :=
  (chats.filter fun chat ↦ hostAlias.all (chat.hostAlias = ·)).map fun chat ↦
    ⟨chat.id, chat.title, chat.hostAlias, chat.createdAtUnix, chat.updatedAtUnix,
      chat.messages.length⟩

/-- What a statement makes of the chats. -/
def next : StoreEvent → Chats
  | ⟨.execute _ .addAlias, .ok _⟩ => chats.map ({ · with hostAlias := "" })
  | ⟨.execute _ (.insertConversation id title hostAlias now), .ok _⟩ =>
      chats ++ [⟨⟨id, title, hostAlias, now, now⟩, []⟩]
  | ⟨.execute _ (.updateTitle id title now), .ok _⟩ =>
      chats.change id ({ · with title := title, updatedAtUnix := now })
  | ⟨.execute _ (.deleteConversation id), .ok _⟩ => chats.filter (·.id ≠ id)
  | ⟨.execute _ (.insertMessage id role content toolJson now), .ok rowid⟩ =>
      chats.change id fun chat ↦
        { chat with messages := chat.messages ++ [⟨rowid, id, role, content, toolJson, now⟩] }
  | ⟨.execute _ (.touchConversation id now), .ok _⟩ =>
      chats.change id ({ · with updatedAtUnix := now })
  | _ => chats

/-- What the statements of a history have made of the chats. -/
def after (history : List StoreEvent) : Chats := history.foldl next chats

/-- The reply to a statement is what the chats say. -/
def Tells : StoreEvent → Prop
  | ⟨.execute _ .countConversations, .ok total⟩ => total = chats.length
  | ⟨.execute _ (.insertConversation id _ _ _), .ok _⟩ => id ∉ chats.ids
  | ⟨.execute _ (.selectConversations hostAlias), .ok rows⟩ =>
      List.Perm rows (chats.listing hostAlias) ∧
        List.Pairwise (fun a b ↦ b.updatedAtUnix ≤ a.updatedAtUnix) rows
  | ⟨.execute _ (.updateTitle id _ _), .ok changed⟩ => changed = chats.ids.count id
  | ⟨.execute _ (.selectMessages id), .ok rows⟩ => rows = chats.messagesOf id
  | ⟨.execute _ (.countMessages id), .ok total⟩ => total = (chats.messagesOf id).length
  | ⟨.execute _ (.insertMessage id _ _ _ _), .ok _⟩ => id ∈ chats.ids
  | _ => True

end Chats

/-- The id that a new message gets. -/
def messageId? : StoreEvent → Option Nat
  | ⟨.execute _ (.insertMessage _ _ _ _ _), .ok rowid⟩ => some rowid
  | _ => none

/-! ## What a call keeps to -/

inductive CallPhase where
  | idle
  /-- There were not too many conversations. -/
  | mayCreate
  /-- There were not too many messages. -/
  | mayAppend (conversationId : String)
deriving DecidableEq

def TitleOk (title : String) : Prop := title ≠ "" ∧ title.length ≤ MAX_TITLE_CHARS

def storeProtocol : Monitor StoreQuestion.Reply CallPhase where
  allows
    | phase, .execute conn (.insertConversation _ title _ _) =>
        phase = .mayCreate ∧ conn.foreignKeys = true ∧ TitleOk title
    | phase, .execute conn (.insertMessage id role content _ _) =>
        phase = .mayAppend id ∧ conn.foreignKeys = true ∧ RoleOk role ∧
          content.length ≤ MAX_MESSAGE_CHARS
    | _, .execute _ (.updateTitle _ title _) => TitleOk title
    | _, .execute conn (.deleteConversation _) => conn.foreignKeys = true
    | _, _ => True
  next
    | _, ⟨.execute _ .countConversations, .ok total⟩ =>
        if total < MAX_CONVERSATIONS then .mayCreate else .idle
    | _, ⟨.execute _ (.countMessages id), .ok total⟩ =>
        if total < MAX_MESSAGES_PER_CONVERSATION then .mayAppend id else .idle
    | _, ⟨.execute _ (.insertConversation _ _ _ _), _⟩
    | _, ⟨.execute _ (.insertMessage _ _ _ _ _), _⟩ => .idle
    | phase, _ => phase

/-- The statements that need no permission and give none. -/
def Statement.Quiet : Statement → Prop
  | .countConversations | .insertConversation _ _ _ _ | .updateTitle _ _ _ | .deleteConversation _
  | .countMessages _ | .insertMessage _ _ _ _ _ => False
  | _ => True

section

variable {α β : Type} {conn : Connection} {statement : Statement} {phase : CallPhase}
  {post : α → CallPhase → Prop}

theorem allows_quiet (h : statement.Quiet) :
    storeProtocol.allows phase (.execute conn statement) := by
  cases statement with
  | countConversations | insertConversation | updateTitle | deleteConversation | countMessages
  | insertMessage => exact h.elim
  | _ => trivial

theorem next_quiet (h : statement.Quiet) (reply : Result statement.Reply) :
    storeProtocol.next phase ⟨.execute conn statement, reply⟩ = phase := by
  cases statement with
  | countConversations | insertConversation | updateTitle | deleteConversation | countMessages
  | insertMessage => exact h.elim
  | _ => rfl

theorem meets_execute (h : statement.Quiet) : (execute conn statement).Meets storeProtocol
    (· = phase) (fun _ ↦ (· = phase)) fun _ ↦ True := by
  refine .query (fun _ _ ↦ allows_quiet h) (fun s reply a hs _ ↦ ?_) fun _ _ _ _ _ ↦ trivial
  exact (next_quiet h reply).trans hs

theorem meets_quietly {f : statement.Reply → Storing α} (h : statement.Quiet)
    (hf : ∀ a, (f a).Meets storeProtocol (· = phase) post fun _ ↦ True) :
    (execute conn statement >>= f).Meets storeProtocol (· = phase) post fun _ ↦ True :=
  (meets_execute h).bind hf

/-- A database that has been opened checks foreign keys. -/
theorem meets_openDatabase : openDatabase.Meets storeProtocol (· = phase)
    (fun conn s ↦ conn.foreignKeys = true ∧ s = phase) fun _ ↦ True := by
  have hconnect : (Asking.query .connect id : Storing Unit).Meets storeProtocol (· = phase)
      (fun _ ↦ (· = phase)) fun _ ↦ True :=
    .query (fun _ _ ↦ trivial) (fun _ _ _ hs _ ↦ hs) fun _ _ _ _ _ ↦ trivial
  refine hconnect.context.bind fun _ ↦ ?_
  refine meets_quietly trivial fun _ ↦ meets_quietly trivial fun _ ↦ ?_
  refine meets_quietly trivial fun _ ↦ meets_quietly trivial fun _ ↦ ?_
  refine meets_quietly trivial fun _ ↦ meets_quietly trivial fun _ ↦ ?_
  have hbatch : (do
      let hasBatch : Bool ← execute ⟨true⟩ .hasApprovalBatch
      unless hasBatch do
        execute ⟨true⟩ .addApprovalBatch
      return ⟨true⟩ : Storing Connection).Meets storeProtocol (· = phase)
      (fun conn s ↦ conn.foreignKeys = true ∧ s = phase) fun _ ↦ True := by
    refine meets_quietly trivial fun hasBatch ↦ ?_
    cases hasBatch with
    | true => exact .pure fun _ hs ↦ ⟨rfl, hs⟩
    | false => exact meets_quietly trivial fun _ ↦ .pure fun _ hs ↦ ⟨rfl, hs⟩
  refine meets_quietly trivial fun hasAlias ↦ ?_
  cases hasAlias with
  | true => exact hbatch
  | false => exact meets_quietly trivial fun _ ↦ hbatch

theorem meets_opening {f : Connection → Storing α}
    (hf : ∀ conn, conn.foreignKeys = true →
      (f conn).Meets storeProtocol (· = phase) post fun _ ↦ True) :
    (openDatabase >>= f).Meets storeProtocol (· = phase) post fun _ ↦ True :=
  meets_openDatabase.bind fun conn ↦ .of_fact fun hconn ↦ hf conn hconn

theorem meets_checking {x : Result β} {f : β → Storing α}
    (hf : ∀ a, x = .ok a → (f a).Meets storeProtocol (· = phase) post fun _ ↦ True) :
    (ofResult x >>= f).Meets storeProtocol (· = phase) post fun _ ↦ True := by
  have hcheck : (ofResult x : Storing β).Meets storeProtocol (· = phase)
      (fun a s ↦ x = .ok a ∧ s = phase) fun _ ↦ True :=
    .ofResult (fun _ ha _ hs ↦ ⟨ha, hs⟩) fun _ _ _ _ ↦ trivial
  exact hcheck.bind fun a ↦ .of_fact fun ha ↦ hf a ha

theorem meets_finding {f : Bool → Storing α}
    (hf : ∀ found, (f found).Meets storeProtocol (· = phase) post fun _ ↦ True) :
    (query .pathExists .ok >>= f).Meets storeProtocol (· = phase) post fun _ ↦ True :=
  (Asking.Meets.query (fun _ _ ↦ trivial) (fun _ _ _ hs _ ↦ hs) fun _ _ _ _ _ ↦ trivial).bind hf

theorem meets_timing {f : Nat → Storing α}
    (hf : ∀ now, (f now).Meets storeProtocol (· = phase) post fun _ ↦ True) :
    (nowUnix >>= f).Meets storeProtocol (· = phase) post fun _ ↦ True :=
  (Asking.Meets.query (fun _ _ ↦ trivial) (fun _ _ _ hs _ ↦ hs) fun _ _ _ _ _ ↦ trivial).bind hf

/-- A last statement. -/
theorem meets_last (hallows : storeProtocol.allows phase (.execute conn statement)) :
    (execute conn statement).Meets storeProtocol (· = phase) (fun _ _ ↦ True) fun _ ↦ True :=
  .query (fun _ hs ↦ hs ▸ hallows) (fun _ _ _ _ _ ↦ trivial) fun _ _ _ _ _ ↦ trivial

theorem meets_lastly {f : statement.Reply → Storing α}
    (hallows : storeProtocol.allows phase (.execute conn statement))
    (hf : ∀ a, (f a).Meets storeProtocol (fun _ ↦ True) post fun _ ↦ True) :
    (execute conn statement >>= f).Meets storeProtocol (· = phase) post fun _ ↦ True :=
  (meets_last hallows).bind hf

theorem titleOk_of_validateTitle {title valid : String} (h : validateTitle title = .ok valid) :
    TitleOk valid := by
  obtain ⟨_, hcheck, h⟩ := Result.bind_eq_ok.mp h
  obtain rfl := Except.ok.inj h
  rw [Result.bailIf_eq_ok, not_or, not_lt] at hcheck
  exact hcheck

theorem meets_createConversation {title hostAlias : String} :
    (createConversation title hostAlias).Meets storeProtocol (· = .idle) (fun _ _ ↦ True)
      fun _ ↦ True := by
  refine meets_checking fun valid hvalid ↦ meets_opening fun conn hconn ↦ ?_
  have hcount : (execute conn .countConversations).Meets storeProtocol (· = .idle)
      (fun (count : Nat) s ↦ s = if count < MAX_CONVERSATIONS then .mayCreate else .idle)
      fun _ ↦ True := by
    refine .query (fun _ _ ↦ trivial) (fun s reply count hs heq ↦ ?_) fun _ _ _ _ _ ↦ trivial
    obtain rfl : reply = .ok count := heq
    rfl
  refine hcount.bind fun count ↦ meets_checking fun _ hlimit ↦ ?_
  rw [Result.bailIf_eq_ok, not_le] at hlimit
  rw [if_pos hlimit]
  refine meets_timing fun now ↦ ?_
  have hnanos : (query .nanos .ok : Storing Nat).Meets storeProtocol (· = .mayCreate)
      (fun _ ↦ (· = .mayCreate)) fun _ ↦ True :=
    .query (fun _ _ ↦ trivial) (fun _ _ _ hs _ ↦ hs) fun _ _ _ _ _ ↦ trivial
  refine hnanos.bind fun suffix ↦ ?_
  exact meets_lastly ⟨rfl, hconn, titleOk_of_validateTitle hvalid⟩ fun _ ↦
    .pure fun _ _ ↦ trivial

theorem meets_listConversations {hostAlias : Option String} :
    (listConversations hostAlias).Meets storeProtocol (· = .idle) (fun _ _ ↦ True)
      fun _ ↦ True := by
  refine meets_finding fun found ↦ ?_
  cases found with
  | true => exact meets_opening fun conn _ ↦ meets_last trivial
  | false => exact .pure fun _ _ ↦ trivial

theorem meets_renameConversation {id title : String} :
    (renameConversation id title).Meets storeProtocol (· = .idle) (fun _ _ ↦ True)
      fun _ ↦ True := by
  refine meets_checking fun valid hvalid ↦ meets_opening fun conn _ ↦ meets_timing fun now ↦ ?_
  refine meets_lastly (titleOk_of_validateTitle hvalid) fun changed ↦ ?_
  exact .ofResult (fun _ _ _ _ ↦ trivial) fun _ _ _ _ ↦ trivial

theorem meets_deleteConversation {id : String} :
    (deleteConversation id).Meets storeProtocol (· = .idle) (fun _ _ ↦ True) fun _ ↦ True := by
  refine meets_finding fun found ↦ ?_
  cases found with
  | true =>
      exact meets_opening fun conn hconn ↦
        meets_lastly hconn fun _ ↦ .pure fun _ _ ↦ trivial
  | false => exact .pure fun _ _ ↦ trivial

theorem meets_listMessages {id : String} :
    (listMessages id).Meets storeProtocol (· = .idle) (fun _ _ ↦ True) fun _ ↦ True := by
  refine meets_finding fun found ↦ ?_
  cases found with
  | true => exact meets_opening fun conn _ ↦ meets_last trivial
  | false => exact .pure fun _ _ ↦ trivial

theorem meets_appendMessage {id role content : String} {toolJson : Option String} :
    (appendMessage id role content toolJson).Meets storeProtocol (· = .idle) (fun _ _ ↦ True)
      fun _ ↦ True := by
  refine meets_checking fun _ hrole ↦ meets_checking fun _ hcontent ↦ ?_
  rw [Result.bailIf_eq_ok, not_not] at hrole
  rw [Result.bailIf_eq_ok, not_lt] at hcontent
  refine meets_opening fun conn hconn ↦ ?_
  have hcount : (execute conn (.countMessages id)).Meets storeProtocol (· = .idle)
      (fun (count : Nat) s ↦
        s = if count < MAX_MESSAGES_PER_CONVERSATION then .mayAppend id else .idle)
      fun _ ↦ True := by
    refine .query (fun _ _ ↦ trivial) (fun s reply count hs heq ↦ ?_) fun _ _ _ _ _ ↦ trivial
    obtain rfl : reply = .ok count := heq
    rfl
  refine hcount.bind fun count ↦ meets_checking fun _ hlimit ↦ ?_
  rw [Result.bailIf_eq_ok, not_le] at hlimit
  rw [if_pos hlimit]
  refine meets_timing fun now ↦ ?_
  have hinsert : (execute conn (.insertMessage id role content toolJson now)).Meets storeProtocol
      (· = .mayAppend id) (fun _ ↦ (· = .idle)) fun _ ↦ True := by
    refine .query (fun _ hs ↦ ⟨hs, hconn, hrole, hcontent⟩) (fun _ _ _ _ _ ↦ rfl) ?_
    exact fun _ _ _ _ _ ↦ trivial
  refine hinsert.bind fun rowid ↦ meets_quietly trivial fun _ ↦ .pure fun _ _ ↦ trivial

theorem meets_recordCommandAudit {row : AiCommandAudit} :
    (recordCommandAudit row).Meets storeProtocol (· = .idle) (fun _ _ ↦ True) fun _ ↦ True :=
  meets_opening fun _ _ ↦ meets_timing fun _ ↦ meets_last trivial

end

/-- Every call of the store keeps to the protocol. -/
theorem keeps_of_calls {x : Interaction StoreQuestion StoreQuestion.Reply Unit} (h : Calls x) :
    x.Keeps storeProtocol .idle fun _ _ ↦ True := by
  have hkeeps : ∀ {α : Type} {y : Storing α}, y.Meets storeProtocol (· = .idle)
      (fun _ _ ↦ True) (fun _ ↦ True) →
      (y.run >>= fun _ ↦ .done () : Interaction StoreQuestion StoreQuestion.Reply Unit).Keeps
        storeProtocol .idle fun _ _ ↦ True :=
    fun hy ↦ keeps_bind.mpr ((hy _ rfl).mono fun _ _ _ ↦ trivial)
  cases h with
  | createConversation => exact hkeeps meets_createConversation
  | listConversations => exact hkeeps meets_listConversations
  | renameConversation => exact hkeeps meets_renameConversation
  | deleteConversation => exact hkeeps meets_deleteConversation
  | listMessages => exact hkeeps meets_listMessages
  | appendMessage => exact hkeeps meets_appendMessage
  | recordCommandAudit => exact hkeeps meets_recordCommandAudit

/-! ## The database stands for chats -/

namespace Database

/-- What every statement keeps. -/
structure Valid (db : Database) : Prop where
  ids : db.ids.Nodup
  titles : ∀ row ∈ db.conversations, TitleOk row.title
  parents : ∀ message ∈ db.messages, message.conversationId ∈ db.ids
  contents : ∀ message ∈ db.messages,
    RoleOk message.role ∧ message.content.length ≤ MAX_MESSAGE_CHARS
  ordered : db.messages.Pairwise fun a b ↦ a.id < b.id
  sequence : ∀ message ∈ db.messages, message.id ≤ db.messageSequence

def chats (db : Database) : Chats := db.conversations.map fun row ↦ ⟨row, db.messagesOf row.id⟩

variable {db : Database} {conn : Connection} {id : String}

theorem ids_chats : db.chats.ids = db.ids := map_map

theorem listing_chats (hostAlias : Option String) :
    db.chats.listing hostAlias = db.listing hostAlias := by
  rw [Chats.listing, chats, filter_map, map_map, listing]
  rfl

theorem messagesOf_eq_nil (h : db.Valid) (hid : id ∉ db.ids) : db.messagesOf id = [] := by
  refine filter_eq_nil_iff.mpr fun message hmessage heq ↦ hid ?_
  exact of_decide_eq_true heq ▸ h.parents message hmessage

/-- In a valid database the messages of a chat are those of its conversation. -/
theorem messagesOf_chats (h : db.Valid) : db.chats.messagesOf id = db.messagesOf id := by
  rw [Chats.messagesOf, chats, List.find?_map]
  cases hfind : db.conversations.find? ((fun chat : Chat ↦ decide (chat.id = id)) ∘
      fun row ↦ ⟨row, db.messagesOf row.id⟩) with
  | some row =>
      have hid := List.find?_some hfind
      obtain rfl : row.id = id := of_decide_eq_true hid
      rfl
  | none =>
      refine (messagesOf_eq_nil h fun hid ↦ ?_).symm
      obtain ⟨row, hrow, hid⟩ := mem_map.mp hid
      exact List.find?_eq_none.mp hfind row hrow (decide_eq_true hid)

theorem nextMessageId_eq (h : db.Valid) : db.nextMessageId = db.messageSequence + 1 := by
  have hmax : ∀ ids : List Nat, (∀ id ∈ ids, id ≤ db.messageSequence) →
      ids.foldr max db.messageSequence = db.messageSequence := by
    intro ids hids
    induction ids with
    | nil => rfl
    | cons id ids ih =>
        obtain ⟨hid, hids⟩ := forall_mem_cons.mp hids
        rw [foldr_cons, ih hids, max_eq_right hid]
  rw [nextMessageId, hmax _ (forall_mem_map.mpr h.sequence)]

/-! ### Each change -/

section

variable {f : ConversationRow → ConversationRow}

theorem ids_updateConversation (hf : ∀ row, (f row).id = row.id) :
    (db.updateConversation id f).ids = db.ids := by
  rw [ids, updateConversation, map_map]
  refine map_congr_left fun row _ ↦ ?_
  rw [Function.comp_apply]
  split
  · exact hf row
  · rfl

/-- A change of a conversation that keeps its id and gives no bad title. -/
theorem Valid.updateConversation (h : db.Valid) (hf : ∀ row, (f row).id = row.id)
    (htitle : ∀ row, TitleOk row.title → TitleOk (f row).title) :
    (db.updateConversation id f).Valid where
  ids := by
    rw [ids_updateConversation hf]
    exact h.ids
  titles := by
    refine forall_mem_map.mpr fun row hrow ↦ ?_
    split
    · exact htitle row (h.titles row hrow)
    · exact h.titles row hrow
  parents := by
    rw [ids_updateConversation hf]
    exact h.parents
  contents := h.contents
  ordered := h.ordered
  sequence := h.sequence

theorem chats_updateConversation (hf : ∀ row, (f row).id = row.id) :
    (db.updateConversation id f).chats = db.chats.change id fun chat ↦
      { chat with toConversationRow := f chat.toConversationRow } := by
  rw [chats, updateConversation, Chats.change, chats, map_map, map_map]
  refine map_congr_left fun row _ ↦ ?_
  rw [Function.comp_apply, Function.comp_apply]
  split
  · rw [hf]
    rfl
  · rfl

end

theorem Valid.addAlias (h : db.Valid) : db.addAlias.Valid where
  ids := by
    rw [Database.ids, Database.addAlias, map_map]
    exact h.ids
  titles := forall_mem_map.mpr h.titles
  parents := by
    rw [Database.ids, Database.addAlias, map_map]
    exact h.parents
  contents := h.contents
  ordered := h.ordered
  sequence := h.sequence

theorem chats_addAlias : db.addAlias.chats = db.chats.map ({ · with hostAlias := "" }) := by
  rw [chats, addAlias, chats, map_map, map_map]
  rfl

section

variable {row : ConversationRow}

theorem ids_insertConversation : (db.insertConversation row).ids = db.ids ++ [row.id] :=
  map_append

theorem Valid.insertConversation (h : db.Valid) (hid : row.id ∉ db.ids)
    (htitle : TitleOk row.title) : (db.insertConversation row).Valid where
  ids := by
    rw [ids_insertConversation, ← concat_eq_append]
    exact h.ids.concat hid
  titles := by
    intro other hother
    rcases mem_append.mp hother with hother | hother
    · exact h.titles other hother
    · exact mem_singleton.mp hother ▸ htitle
  parents message hmessage := by
    rw [ids_insertConversation]
    exact mem_append_left _ (h.parents message hmessage)
  contents := h.contents
  ordered := h.ordered
  sequence := h.sequence

theorem chats_insertConversation (h : db.Valid) (hid : row.id ∉ db.ids) :
    (db.insertConversation row).chats = db.chats ++ [⟨row, []⟩] := by
  rw [← messagesOf_eq_nil h hid]
  exact map_append

end

/-! ### Conversations go with their messages -/

theorem ids_deleteConversation : (db.deleteConversation conn id).ids = db.ids.filter (· ≠ id) := by
  rw [ids, ids, filter_map]
  rfl

theorem messages_deleteConversation (hconn : conn.foreignKeys = true) :
    (db.deleteConversation conn id).messages = db.messages.filter (·.conversationId ≠ id) :=
  if_pos hconn

/-- With foreign keys checked, the messages go with their conversation. -/
theorem Valid.deleteConversation (h : db.Valid) (hconn : conn.foreignKeys = true) :
    (db.deleteConversation conn id).Valid where
  ids := ids_deleteConversation ▸ h.ids.filter _
  titles row hrow := h.titles row (mem_of_mem_filter hrow)
  parents message hmessage := by
    rw [messages_deleteConversation hconn, mem_filter] at hmessage
    rw [ids_deleteConversation, mem_filter]
    exact ⟨h.parents message hmessage.1, hmessage.2⟩
  contents message hmessage := by
    rw [messages_deleteConversation hconn] at hmessage
    exact h.contents message (mem_of_mem_filter hmessage)
  ordered := by
    rw [messages_deleteConversation hconn]
    exact h.ordered.filter _
  sequence message hmessage := by
    rw [messages_deleteConversation hconn] at hmessage
    exact h.sequence message (mem_of_mem_filter hmessage)

theorem messagesOf_deleteConversation (hconn : conn.foreignKeys = true) {other : String}
    (hother : other ≠ id) : (db.deleteConversation conn id).messagesOf other =
      db.messagesOf other := by
  rw [messagesOf, messages_deleteConversation hconn, filter_filter]
  refine filter_congr fun message _ ↦ ?_
  by_cases heq : message.conversationId = other
  · rw [decide_eq_true heq, Bool.true_and]
    exact decide_eq_true (heq ▸ hother)
  · rw [decide_eq_false heq, Bool.false_and]

theorem chats_deleteConversation (hconn : conn.foreignKeys = true) :
    (db.deleteConversation conn id).chats = db.chats.filter (·.id ≠ id) := by
  rw [chats, chats, filter_map]
  refine map_congr_left fun row hrow ↦ ?_
  obtain ⟨-, hid⟩ : row ∈ db.conversations ∧ decide (row.id ≠ id) = true := mem_filter.mp hrow
  rw [messagesOf_deleteConversation hconn (of_decide_eq_true hid)]

/-! ### A message gets an id that no message has had -/

section

variable {role content : String} {toolJson : Option String} {now : Nat}

theorem Valid.insertMessage (h : db.Valid) (hid : id ∈ db.ids) (hrole : RoleOk role)
    (hcontent : content.length ≤ MAX_MESSAGE_CHARS) :
    (db.insertMessage id role content toolJson now).Valid where
  ids := h.ids
  titles := h.titles
  parents message hmessage := by
    rcases mem_append.mp hmessage with hmessage | hmessage
    · exact h.parents message hmessage
    · obtain rfl := mem_singleton.mp hmessage
      exact hid
  contents message hmessage := by
    rcases mem_append.mp hmessage with hmessage | hmessage
    · exact h.contents message hmessage
    · obtain rfl := mem_singleton.mp hmessage
      exact ⟨hrole, hcontent⟩
  ordered := by
    refine pairwise_append.mpr ⟨h.ordered, pairwise_singleton _ _, ?_⟩
    intro message hmessage other hother
    rw [mem_singleton.mp hother, nextMessageId_eq h]
    exact lt_succ_of_le (h.sequence message hmessage)
  sequence message hmessage := by
    rcases mem_append.mp hmessage with hmessage | hmessage
    · refine (h.sequence message hmessage).trans ?_
      rw [Database.insertMessage, nextMessageId_eq h]
      exact le_succ _
    · obtain rfl := mem_singleton.mp hmessage
      exact le_refl _

theorem messagesOf_insertMessage (other : String) :
    (db.insertMessage id role content toolJson now).messagesOf other = db.messagesOf other ++
      if other = id then [⟨db.nextMessageId, id, role, content, toolJson, now⟩] else [] := by
  rw [messagesOf, insertMessage, filter_append]
  refine congrArg (db.messagesOf other ++ ·) ?_
  rw [filter_singleton]
  by_cases hother : other = id
  · rw [if_pos hother, hother, decide_eq_true rfl]
    rfl
  · rw [if_neg hother, decide_eq_false (Ne.symm hother)]
    rfl

/-- A message is put at the end of its chat. -/
theorem chats_insertMessage :
    (db.insertMessage id role content toolJson now).chats = db.chats.change id fun chat ↦
      { chat with messages :=
          chat.messages ++ [⟨db.nextMessageId, id, role, content, toolJson, now⟩] } := by
  rw [chats, Chats.change, chats, map_map]
  refine map_congr_left fun row _ ↦ ?_
  rw [messagesOf_insertMessage, Function.comp_apply]
  split
  · rfl
  · rw [append_nil]

end

end Database

/-! ## Each statement -/

section

variable {db after : Database} {e : StoreEvent} {phase : CallPhase}

/-- What a call that keeps to the protocol asks leaves the database valid. -/
theorem served_valid (h : db.Valid) (hallows : storeProtocol.allows phase e.question)
    (hserves : Serves db e after) : after.Valid := by
  cases hserves with
  | pathExists | connectFailed | nowUnix | nanos | failed => exact h
  | connect => exact ⟨h.ids, h.titles, h.parents, h.contents, h.ordered, h.sequence⟩
  | @executed _ _ conn statement reply hexecutes =>
      have hschema : ∀ schema : Schema, { db with schema := schema }.Valid := fun _ ↦
        ⟨h.ids, h.titles, h.parents, h.contents, h.ordered, h.sequence⟩
      cases statement with
      | journalMode | foreignKeys | createIndex => exact hexecutes ▸ h
      | createConversations | createCommandAudit =>
          subst hexecutes
          dsimp only [Database.createConversations, Database.createCommandAudit]
          split
          · exact h
          · exact hschema _
      | createMessages => exact hexecutes ▸ hschema _
      | hasAlias | hasApprovalBatch => exact hexecutes.2 ▸ h
      | addAlias => exact hexecutes.2 ▸ h.addAlias
      | addApprovalBatch =>
          rw [hexecutes.2]
          exact ⟨h.ids, h.titles, h.parents, h.contents, h.ordered, h.sequence⟩
      | countConversations | selectConversations | selectMessages | countMessages =>
          exact hexecutes.2.2 ▸ h
      | insertConversation id title hostAlias now =>
          rw [hexecutes.2.2]
          exact h.insertConversation hexecutes.2.1.1 hallows.2.2
      | updateTitle id title now =>
          rw [hexecutes.2.2]
          exact h.updateConversation (fun _ ↦ rfl) fun _ _ ↦ hallows
      | deleteConversation id =>
          rw [hexecutes.2.2]
          exact h.deleteConversation hallows
      | insertMessage id role content toolJson now =>
          obtain ⟨-, hparent, -, rfl⟩ := hexecutes
          obtain ⟨-, hconn, hrole, hcontent⟩ := hallows
          exact h.insertMessage (hparent hconn).2 hrole hcontent
      | touchConversation id now =>
          rw [hexecutes.2.2]
          exact h.updateConversation (fun _ ↦ rfl) fun _ htitle ↦ htitle
      | insertCommandAudit row =>
          rw [hexecutes.2.2]
          exact ⟨h.ids, h.titles, h.parents, h.contents, h.ordered, h.sequence⟩

/-- What the database stands for changes as the statement says. -/
theorem served_chats (h : db.Valid) (hallows : storeProtocol.allows phase e.question)
    (hserves : Serves db e after) : after.chats = db.chats.next e := by
  cases hserves with
  | pathExists | connect | connectFailed | nowUnix | nanos => rfl
  | @failed _ conn statement error => cases statement <;> rfl
  | @executed _ _ conn statement reply hexecutes =>
      cases statement with
      | journalMode | foreignKeys | createIndex => exact congrArg _ hexecutes
      | createConversations | createCommandAudit =>
          subst hexecutes
          dsimp only [Database.createConversations, Database.createCommandAudit]
          split <;> rfl
      | createMessages =>
          subst hexecutes
          rfl
      | hasAlias | hasApprovalBatch => exact congrArg _ hexecutes.2
      | addAlias => exact (congrArg _ hexecutes.2).trans Database.chats_addAlias
      | addApprovalBatch =>
          obtain ⟨-, rfl⟩ := hexecutes
          rfl
      | countConversations | selectConversations | selectMessages | countMessages =>
          exact congrArg _ hexecutes.2.2
      | insertCommandAudit row =>
          obtain ⟨-, -, rfl⟩ := hexecutes
          rfl
      | insertConversation id title hostAlias now =>
          exact (congrArg _ hexecutes.2.2).trans
            (Database.chats_insertConversation h hexecutes.2.1.1)
      | updateTitle id title now | touchConversation id now =>
          exact (congrArg _ hexecutes.2.2).trans (Database.chats_updateConversation fun _ ↦ rfl)
      | deleteConversation id =>
          exact (congrArg _ hexecutes.2.2).trans (Database.chats_deleteConversation hallows)
      | insertMessage id role content toolJson now =>
          obtain ⟨-, -, rfl, rfl⟩ := hexecutes
          exact Database.chats_insertMessage

/-- What such a call is told is what the chats say. -/
theorem served_tells (h : db.Valid) (hallows : storeProtocol.allows phase e.question)
    (hserves : Serves db e after) : db.chats.Tells e := by
  cases hserves with
  | pathExists | connect | connectFailed | nowUnix | nanos => trivial
  | @failed _ conn statement error => cases statement <;> trivial
  | @executed _ _ conn statement reply hexecutes =>
      cases statement with
      | countConversations => exact hexecutes.2.1.trans (length_map _).symm
      | insertConversation id title hostAlias now =>
          rw [Chats.Tells, Database.ids_chats]
          exact hexecutes.2.1.1
      | selectConversations hostAlias =>
          rw [Chats.Tells, Database.listing_chats]
          exact hexecutes.2.1
      | updateTitle id title now =>
          rw [Chats.Tells, Database.ids_chats]
          exact hexecutes.2.1
      | selectMessages id =>
          obtain ⟨-, ⟨hperm, hsorted⟩, -⟩ := hexecutes
          rw [Chats.Tells, Database.messagesOf_chats h]
          have hnodup : (db.messages.map (·.id)).Nodup :=
            pairwise_map.mpr (h.ordered.imp ne_of_lt)
          refine hperm.eq_of_pairwise (fun a b ha hb hab hba ↦ ?_) hsorted
            ((h.ordered.filter _).imp le_of_lt)
          exact inj_on_of_nodup_map hnodup (mem_of_mem_filter (hperm.mem_iff.mp ha))
            (mem_of_mem_filter hb) (le_antisymm hab hba)
      | countMessages id =>
          rw [Chats.Tells, Database.messagesOf_chats h]
          exact hexecutes.2.1
      | insertMessage id role content toolJson now =>
          rw [Chats.Tells, Database.ids_chats]
          exact (hexecutes.2.1 hallows.2.1).2
      | _ => trivial

/-- A message gets the number after the last one that was given. -/
theorem served_sequence (h : db.Valid) (hserves : Serves db e after) :
    after.messageSequence = (messageId? e).getD db.messageSequence ∧
      ∀ rowid ∈ messageId? e, rowid = db.messageSequence + 1 := by
  have hnone : ∀ rowid ∈ (none : Option Nat), rowid = db.messageSequence + 1 := by
    rintro _ ⟨⟩
  cases hserves with
  | pathExists | connect | connectFailed | nowUnix | nanos => exact ⟨rfl, hnone⟩
  | @failed _ conn statement error => cases statement <;> exact ⟨rfl, hnone⟩
  | @executed _ _ conn statement reply hexecutes =>
      cases statement with
      | createConversations | createCommandAudit =>
          subst hexecutes
          dsimp only [Database.createConversations, Database.createCommandAudit]
          split <;> exact ⟨rfl, hnone⟩
      | insertMessage id role content toolJson now =>
          obtain ⟨-, -, rfl, rfl⟩ := hexecutes
          refine ⟨rfl, fun rowid hrowid ↦ ?_⟩
          rw [← Option.some.inj hrowid]
          exact Database.nextMessageId_eq h
      | journalMode | foreignKeys | createIndex | createMessages =>
          subst hexecutes
          exact ⟨rfl, hnone⟩
      | hasAlias | hasApprovalBatch | addAlias | addApprovalBatch =>
          obtain ⟨-, rfl⟩ := hexecutes
          exact ⟨rfl, hnone⟩
      | _ =>
          obtain ⟨-, -, rfl⟩ := hexecutes
          exact ⟨rfl, hnone⟩

end

/-! ## All calls together -/

/-- How a database that the calls have come to goes with their history. -/
structure Replays (db service : Database) (history : List StoreEvent) : Prop where
  valid : service.Valid
  chats : service.chats = db.chats.after history
  sequence : db.messageSequence ≤ service.messageSequence
  ids : ∀ e ∈ history, ∀ rowid ∈ messageId? e, rowid ≤ service.messageSequence
  told : ∀ before e rest, history = before ++ e :: rest → (db.chats.after before).Tells e ∧
    ∀ rowid ∈ messageId? e, db.messageSequence < rowid ∧
      ∀ earlier ∈ before, ∀ rowid' ∈ messageId? earlier, rowid' < rowid

section

variable {db service after : Database} {history : List StoreEvent} {e : StoreEvent}
  {phase : CallPhase} {phases : List CallPhase} {limit : Nat}
  {p : Pool StoreQuestion.Reply Unit Database}

theorem Replays.start (h : db.Valid) : Replays db db [] where
  valid := h
  chats := rfl
  sequence := le_refl _
  ids _ he := absurd he not_mem_nil
  told before e rest heq := by cases before <;> cases heq

theorem Replays.step (h : Replays db service history)
    (hallows : storeProtocol.allows phase e.question) (hserves : Serves service e after) :
    Replays db after (history ++ [e]) := by
  obtain ⟨hsequence, hrowid⟩ := served_sequence h.valid hserves
  have hle : service.messageSequence ≤ after.messageSequence := by
    rw [hsequence]
    cases hid : messageId? e with
    | none => exact le_refl _
    | some rowid => exact (le_succ _).trans (hrowid rowid hid).ge
  refine ⟨served_valid h.valid hallows hserves, ?_, h.sequence.trans hle, ?_, ?_⟩
  · rw [served_chats h.valid hallows hserves, h.chats]
    rw [Chats.after, Chats.after, foldl_append]
    rfl
  · intro other hother rowid hid
    rcases mem_append.mp hother with hother | hother
    · exact (h.ids other hother rowid hid).trans hle
    · obtain rfl := mem_singleton.mp hother
      rw [hsequence, Option.mem_def.mp hid]
      exact le_refl _
  · intro before other rest heq
    rcases eq_nil_or_concat rest with rfl | ⟨rest, last, rfl⟩
    · obtain ⟨rfl, hlast⟩ := append_inj' heq rfl
      obtain rfl := singleton_inj.mp hlast
      refine ⟨h.chats ▸ served_tells h.valid hallows hserves, fun rowid hid ↦ ?_⟩
      rw [hrowid rowid hid]
      exact ⟨lt_succ_of_le h.sequence, fun earlier hearlier rowid' hid' ↦
        lt_succ_of_le (h.ids earlier hearlier rowid' hid')⟩
    · rw [concat_eq_append, ← cons_append, ← append_assoc] at heq
      exact h.told before other rest (append_inj' heq rfl).1

/-- In whatever order the statements of the calls come, each is replied to as if the chats were
what the statements before have made of them, and so is what is in the database. A message never
gets an id that there has been before. -/
theorem reached_replays (h : db.Valid) (hreached : Pool.Reached Serves Calls limit db p) :
    p.service.Valid ∧ p.service.chats = db.chats.after p.history ∧
      ∀ before e rest, p.history = before ++ e :: rest → (db.chats.after before).Tells e ∧
        ∀ rowid ∈ messageId? e, db.messageSequence < rowid ∧
          ∀ earlier ∈ before, ∀ rowid' ∈ messageId? earlier, rowid' < rowid := by
  obtain ⟨_, -, hreplays⟩ := hreached.rely (fun service history _ ↦ Replays db service history)
    (fun _ ↦ keeps_of_calls) (.start h) (fun _ _ _ hinv _ ↦ hinv) (fun _ _ _ _ _ hinv ↦ hinv)
    fun _ _ _ _ _ _ _ hinv hallows hserves ↦ hinv.step hallows hserves
  exact ⟨hreplays.valid, hreplays.chats, hreplays.told⟩

/-! ## The limits -/

/-- The statements that change no number of rows. -/
theorem sizes_quiet {statement : Statement} {conn : Connection} {reply : statement.Reply}
    (h : statement.Quiet) (hexecutes : db.Executes conn statement reply after) :
    after.conversations.length = db.conversations.length ∧ after.messages = db.messages := by
  cases statement with
  | countConversations | insertConversation | updateTitle | deleteConversation | countMessages
  | insertMessage => exact h.elim
  | createConversations | createCommandAudit =>
      subst hexecutes
      dsimp only [Database.createConversations, Database.createCommandAudit]
      split <;> exact ⟨rfl, rfl⟩
  | journalMode | foreignKeys | createIndex | createMessages =>
      subst hexecutes
      exact ⟨rfl, rfl⟩
  | addAlias =>
      obtain ⟨-, rfl⟩ := hexecutes
      exact ⟨length_map _, rfl⟩
  | hasAlias | hasApprovalBatch | addApprovalBatch =>
      obtain ⟨-, rfl⟩ := hexecutes
      exact ⟨rfl, rfl⟩
  | touchConversation id now =>
      obtain ⟨-, -, rfl⟩ := hexecutes
      exact ⟨length_map _, rfl⟩
  | _ =>
      obtain ⟨-, -, rfl⟩ := hexecutes
      exact ⟨rfl, rfl⟩

/-- A statement that fails gives no permission. -/
theorem count_next_failed {statement : Statement} {conn : Connection} {error : AnyError}
    {ticket : CallPhase} (hticket : ticket ≠ .idle) :
    [storeProtocol.next phase ⟨.execute conn statement, Except.error error⟩].count ticket ≤
      [phase].count ticket := by
  by_cases hquiet : statement.Quiet
  · rw [next_quiet hquiet]
  · cases statement with
    | insertConversation | insertMessage =>
        exact (count_cons_of_ne hticket.symm).trans_le (zero_le _)
    | countConversations | countMessages | updateTitle | deleteConversation => exact le_refl _
    | _ => exact absurd trivial hquiet

/-- A count gives no other permission than its own. -/
theorem count_permission_le {count limit n : Nat} {ticket permission : CallPhase}
    (hticket : ticket ≠ .idle) (hne : count < limit → permission ≠ ticket) :
    [if count < limit then permission else .idle].count ticket ≤ n := by
  have hnext : (if count < limit then permission else .idle) ≠ ticket := by
    split
    · next hlt => exact hne hlt
    · exact hticket.symm
  exact (count_cons_of_ne hnext).trans_le (zero_le _)

/-- A permission to create a conversation is used up, or was given below the limit. -/
theorem conversations_step (hallows : storeProtocol.allows phase e.question)
    (hserves : Serves db e after) :
    after.conversations.length + [storeProtocol.next phase e].count .mayCreate ≤
        db.conversations.length + [phase].count .mayCreate ∨
      after.conversations.length < MAX_CONVERSATIONS := by
  cases hserves with
  | pathExists | connect | connectFailed | nowUnix | nanos => exact .inl (le_refl _)
  | failed => exact .inl (Nat.add_le_add_left (count_next_failed CallPhase.noConfusion) _)
  | @executed _ _ conn statement reply hexecutes =>
      by_cases hquiet : statement.Quiet
      · rw [next_quiet hquiet, (sizes_quiet hquiet hexecutes).1]
        exact .inl (le_refl _)
      · cases statement with
        | countConversations =>
            obtain ⟨-, rfl, rfl⟩ := hexecutes
            by_cases hlt : after.conversations.length < MAX_CONVERSATIONS
            · exact .inr hlt
            · exact .inl (Nat.add_le_add_left
                (count_permission_le CallPhase.noConfusion fun h ↦ absurd h hlt) _)
        | insertConversation id title hostAlias now =>
            obtain ⟨-, -, rfl⟩ := hexecutes
            obtain ⟨rfl, -⟩ := hallows
            exact .inl (le_of_eq (length_append))
        | countMessages id =>
            obtain ⟨-, rfl, rfl⟩ := hexecutes
            exact .inl (Nat.add_le_add_left
              (count_permission_le CallPhase.noConfusion fun _ ↦ CallPhase.noConfusion) _)
        | insertMessage id role content toolJson now =>
            obtain ⟨-, -, -, rfl⟩ := hexecutes
            exact .inl (le_add_right _ _)
        | updateTitle id title now =>
            obtain ⟨-, -, rfl⟩ := hexecutes
            exact .inl (Nat.add_le_add_right (Nat.le_of_eq (length_map _)) _)
        | deleteConversation id =>
            obtain ⟨-, -, rfl⟩ := hexecutes
            exact .inl (Nat.add_le_add_right (length_filter_le _ _) _)
        | _ => exact absurd trivial hquiet

theorem Database.messagesOf_congr (h : after.messages = db.messages) (id : String) :
    after.messagesOf id = db.messagesOf id := congrArg (List.filter _) h

/-- A permission to append a message is used up, or was given below the limit. -/
theorem messages_step (id : String) (hallows : storeProtocol.allows phase e.question)
    (hserves : Serves db e after) :
    (after.messagesOf id).length + [storeProtocol.next phase e].count (.mayAppend id) ≤
        (db.messagesOf id).length + [phase].count (.mayAppend id) ∨
      (after.messagesOf id).length < MAX_MESSAGES_PER_CONVERSATION := by
  cases hserves with
  | pathExists | connect | connectFailed | nowUnix | nanos => exact .inl (le_refl _)
  | failed => exact .inl (Nat.add_le_add_left (count_next_failed CallPhase.noConfusion) _)
  | @executed _ _ conn statement reply hexecutes =>
      by_cases hquiet : statement.Quiet
      · rw [next_quiet hquiet, Database.messagesOf_congr (sizes_quiet hquiet hexecutes).2]
        exact .inl (le_refl _)
      · cases statement with
        | countConversations =>
            obtain ⟨-, rfl, rfl⟩ := hexecutes
            exact .inl (Nat.add_le_add_left
              (count_permission_le CallPhase.noConfusion fun _ ↦ CallPhase.noConfusion) _)
        | insertConversation other title hostAlias now =>
            obtain ⟨-, -, rfl⟩ := hexecutes
            exact .inl (le_add_right _ _)
        | countMessages other =>
            obtain ⟨-, rfl, rfl⟩ := hexecutes
            by_cases hother : other = id
            · subst hother
              by_cases hlt : (after.messagesOf other).length < MAX_MESSAGES_PER_CONVERSATION
              · exact .inr hlt
              · exact .inl (Nat.add_le_add_left
                  (count_permission_le CallPhase.noConfusion fun h ↦ absurd h hlt) _)
            · have hne : CallPhase.mayAppend other ≠ .mayAppend id := fun heq ↦
                hother (CallPhase.mayAppend.inj heq)
              exact .inl (Nat.add_le_add_left
                (count_permission_le CallPhase.noConfusion fun _ ↦ hne) _)
        | insertMessage other role content toolJson now =>
            obtain ⟨-, -, -, rfl⟩ := hexecutes
            obtain ⟨rfl, -⟩ := hallows
            refine .inl ?_
            rw [Database.messagesOf_insertMessage, length_append]
            split
            · next hother =>
              subst hother
              rw [count_cons_self]
              exact le_refl _
            · exact le_add_right _ _
        | updateTitle other title now =>
            obtain ⟨-, -, rfl⟩ := hexecutes
            exact .inl (le_refl _)
        | deleteConversation other =>
            obtain ⟨-, -, rfl⟩ := hexecutes
            refine .inl (Nat.add_le_add_right ?_ _)
            rw [Database.messagesOf, Database.messages_deleteConversation hallows]
            exact (filter_sublist.filter _).length_le
        | _ => exact absurd trivial hquiet

/-- The numbers of rows, with what the calls in flight may still add. -/
structure Bounded (limit : Nat) (db : Database) (phases : List CallPhase) : Prop where
  length : phases.length ≤ limit
  conversations : db.conversations.length + phases.count .mayCreate < MAX_CONVERSATIONS + limit
  messages : ∀ id, (db.messagesOf id).length + phases.count (.mayAppend id) <
    MAX_MESSAGES_PER_CONVERSATION + limit

theorem Bounded.step {before rest : List CallPhase} (h : Bounded limit db (before ++ phase :: rest))
    (hallows : storeProtocol.allows phase e.question) (hserves : Serves db e after) :
    Bounded limit after (before ++ storeProtocol.next phase e :: rest) where
  length := by
    have hlength := h.length
    rw [length_append, length_cons] at hlength ⊢
    exact hlength
  conversations := Pool.tickets_lt h.conversations h.length (conversations_step hallows hserves)
  messages id := Pool.tickets_lt (h.messages id) h.length (messages_step id hallows hserves)

theorem Bounded.drop {before rest : List CallPhase}
    (h : Bounded limit db (before ++ phase :: rest)) : Bounded limit db (before ++ rest) := by
  have hsublist : (before ++ rest).Sublist (before ++ phase :: rest) :=
    (sublist_cons_self phase rest).append_left before
  refine ⟨hsublist.length_le.trans h.length, ?_, fun id ↦ ?_⟩
  · exact (Nat.add_le_add_left (hsublist.count_le _) _).trans_lt h.conversations
  · exact (Nat.add_le_add_left (hsublist.count_le _) _).trans_lt (h.messages id)

theorem Bounded.call (h : Bounded limit db phases) (hlength : phases.length < limit) :
    Bounded limit db (.idle :: phases) := by
  refine ⟨hlength, ?_, fun id ↦ ?_⟩
  · rw [count_cons_of_ne CallPhase.noConfusion]
    exact h.conversations
  · rw [count_cons_of_ne CallPhase.noConfusion]
    exact h.messages id

/-- Calls that take turns get beyond a limit by less than their number. -/
theorem reached_bounded (hlimit : 0 < limit)
    (hconversations : db.conversations.length ≤ MAX_CONVERSATIONS)
    (hmessages : ∀ id, (db.messagesOf id).length ≤ MAX_MESSAGES_PER_CONVERSATION)
    (hreached : Pool.Reached Serves Calls limit db p) :
    p.service.conversations.length < MAX_CONVERSATIONS + limit ∧
      ∀ id, (p.service.messagesOf id).length < MAX_MESSAGES_PER_CONVERSATION + limit := by
  have hstart : Bounded limit db [] :=
    ⟨Nat.zero_le _, hconversations.trans_lt (Nat.lt_add_of_pos_right hlimit), fun id ↦
      (hmessages id).trans_lt (Nat.lt_add_of_pos_right hlimit)⟩
  obtain ⟨phases, -, hbounded⟩ := hreached.rely
    (fun service _ phases ↦ Bounded limit service phases) (fun _ ↦ keeps_of_calls) hstart
    (fun _ _ _ hinv ↦ hinv.call) (fun _ _ _ _ _ ↦ Bounded.drop)
    fun _ _ _ _ _ _ _ hinv hallows hserves ↦ hinv.step hallows hserves
  exact ⟨(le_add_right _ _).trans_lt hbounded.conversations, fun id ↦
    (le_add_right _ _).trans_lt (hbounded.messages id)⟩

/-- A database with one conversation. -/
def oneConversation : Database :=
  ⟨true, ⟨true, true, true, true, true⟩, [⟨"c", "t", "", 0, 0⟩], [], 0, [], 0⟩

/-- The same one with a message. -/
def oneMessage : Database where
  __ := oneConversation
  conversations := [⟨"c", "t", "", 0, 7⟩]
  messages := [⟨1, "c", "user", "hi", none, 7⟩]
  messageSequence := 1

/-- And the same with an answer. -/
def twoMessages : Database where
  __ := oneConversation
  conversations := [⟨"c", "t", "", 0, 8⟩]
  messages := [⟨1, "c", "user", "hi", none, 7⟩, ⟨2, "c", "assistant", "hello", none, 8⟩]
  messageSequence := 2

def appendCall (role content : String) : Interaction StoreQuestion StoreQuestion.Reply Unit :=
  (appendMessage "c" role content none).run >>= fun _ ↦ .done ()

/-- What `appendMessage` asks until it knows how many messages there are. -/
def counts : List StoreEvent :=
  [⟨.connect, Except.ok ()⟩, ⟨.execute ⟨false⟩ .journalMode, Except.ok ()⟩,
    ⟨.execute ⟨false⟩ .foreignKeys, Except.ok ()⟩,
    ⟨.execute ⟨true⟩ .createConversations, Except.ok ()⟩,
    ⟨.execute ⟨true⟩ .createMessages, Except.ok ()⟩,
    ⟨.execute ⟨true⟩ .createIndex, Except.ok ()⟩,
    ⟨.execute ⟨true⟩ .createCommandAudit, Except.ok ()⟩,
    ⟨.execute ⟨true⟩ .hasAlias, Except.ok true⟩,
    ⟨.execute ⟨true⟩ .hasApprovalBatch, Except.ok true⟩,
    ⟨.execute ⟨true⟩ (.countMessages "c"), Except.ok (0 : Nat)⟩]

/-- What it asks then. -/
def inserts (role content : String) (now rowid : Nat) : List StoreEvent :=
  [⟨.nowUnix, Except.ok now⟩,
    ⟨.execute ⟨true⟩ (.insertMessage "c" role content none now), Except.ok rowid⟩,
    ⟨.execute ⟨true⟩ (.touchConversation "c" now), Except.ok (1 : Nat)⟩]

/-- Two calls count the messages before one of them appends its own. -/
def appended : List StoreEvent :=
  counts ++ counts ++ inserts "user" "hi" 7 1 ++ inserts "assistant" "hello" 8 2

theorem oneConversation_valid : oneConversation.Valid where
  ids := nodup_singleton "c"
  titles row hrow := by
    rw [mem_singleton.mp hrow]
    exact ⟨by decide, by decide⟩
  parents _ h := absurd h not_mem_nil
  contents _ h := absurd h not_mem_nil
  ordered := .nil
  sequence _ h := absurd h not_mem_nil

theorem counts_serving : Pool.Serving Serves oneConversation counts oneConversation :=
  .cons .connect <| .cons (.executed rfl) <| .cons (.executed rfl) <| .cons (.executed rfl) <|
    .cons (.executed rfl) <| .cons (.executed rfl) <| .cons (.executed rfl) <|
    .cons (.executed ⟨rfl, rfl⟩) <| .cons (.executed ⟨rfl, rfl⟩) <|
    .cons (.executed ⟨rfl, rfl, rfl⟩) .nil

theorem first_inserts_serving :
    Pool.Serving Serves oneConversation (inserts "user" "hi" 7 1) oneMessage :=
  .cons .nowUnix <|
    .cons (.executed ⟨⟨rfl, by decide, by decide⟩, fun _ ↦ ⟨rfl, .head _⟩, rfl, rfl⟩) <|
    .cons (.executed ⟨⟨rfl, by decide⟩, rfl, rfl⟩) .nil

theorem second_inserts_serving :
    Pool.Serving Serves oneMessage (inserts "assistant" "hello" 8 2) twoMessages :=
  .cons .nowUnix <|
    .cons (.executed ⟨⟨rfl, by decide, by decide⟩, fun _ ↦ ⟨rfl, .head _⟩, rfl, rfl⟩) <|
    .cons (.executed ⟨⟨rfl, by decide⟩, rfl, rfl⟩) .nil

theorem appended_reached :
    Pool.Reached Serves Calls 2 oneConversation ⟨twoMessages, appended, [.done (), .done ()]⟩ := by
  obtain ⟨second, hcounts, hinserts⟩ : ∃ rest, Runs (appendCall "assistant" "hello") counts rest ∧
      Runs rest (inserts "assistant" "hello" 8 2) (.done ()) :=
    ⟨_, .next (.next (.next (.next (.next (.next (.next (.next (.next (.next (.start _)))))))))),
      .next (.next (.next (.start _)))⟩
  have hfirst : Runs (appendCall "user" "hi") (counts ++ inserts "user" "hi" 7 1) (.done ()) :=
    .next (.next (.next (.next (.next (.next (.next (.next (.next (.next (.next (.next (.next
      (.start _)))))))))))))
  have hcalls : Pool.Reached Serves Calls 2 oneConversation ⟨oneConversation, [],
      [] ++ [appendCall "assistant" "hello", appendCall "user" "hi"]⟩ :=
    .tail (.single (.call (.appendMessage "c" "user" "hi" none) (by decide)))
      (.call (.appendMessage "c" "assistant" "hello" none) (by decide))
  have hcounted : Pool.Reached Serves Calls 2 oneConversation ⟨oneConversation, counts,
      [second] ++ [appendCall "user" "hi"]⟩ := hcalls.runs [] hcounts counts_serving
  have hserved := counts_serving.append first_inserts_serving
  have hinserted : Pool.Reached Serves Calls 2 oneConversation ⟨oneMessage,
      counts ++ (counts ++ inserts "user" "hi" 7 1), [] ++ [second, .done ()]⟩ :=
    hcounted.runs [second] hfirst hserved
  exact hinserted.runs [] hinserts second_inserts_serving

theorem reached_replays_appended : oneConversation.Valid ∧
    Pool.Reached Serves Calls 2 oneConversation ⟨twoMessages, appended, [.done (), .done ()]⟩ ∧
    (oneConversation.chats.after appended).messagesOf "c" =
      [⟨1, "c", "user", "hi", none, 7⟩, ⟨2, "c", "assistant", "hello", none, 8⟩] := by
  have hreplays := reached_replays oneConversation_valid appended_reached
  refine ⟨oneConversation_valid, appended_reached, ?_⟩
  rw [← hreplays.2.1, Database.messagesOf_chats hreplays.1]
  decide

theorem reached_bounded_appended : oneConversation.conversations.length ≤ MAX_CONVERSATIONS ∧
    (∀ id, (oneConversation.messagesOf id).length ≤ MAX_MESSAGES_PER_CONVERSATION) ∧
    Pool.Reached Serves Calls 2 oneConversation ⟨twoMessages, appended, [.done (), .done ()]⟩ ∧
    (twoMessages.messagesOf "c").length < MAX_MESSAGES_PER_CONVERSATION + 2 :=
  ⟨by decide, fun _ ↦ zero_le _, appended_reached, (reached_bounded (by decide) (by decide)
    (fun _ ↦ zero_le _) appended_reached).2 "c"⟩

end

end KaduoxSsh.Desktop.AiStore
