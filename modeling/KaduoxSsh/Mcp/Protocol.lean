import KaduoxSsh.Lib.Text

/-!
# The messages of the MCP server

What `main.rs` of the MCP server reads and writes: JSON values, the requests that
are read from them, and the responses. A request is read by a derived
deserializer, for which a member that is `null` and one that is missing are the
same, and which also takes an array of the members in their order.
-/

namespace KaduoxSsh.Mcp

/-- A JSON value. A number is kept as it is printed. -/
inductive Value where
  | null
  | bool (b : Bool)
  | number (literal : String)
  | string (s : String)
  | array (items : List Value)
  | object (members : List (String × Value))
deriving Repr

namespace Value

def asStr : Value → Option String
  | .string s => some s
  | _ => none

/-- The member of an object with some name, or `null`. -/
def member (name : String) (members : List (String × Value)) : Value :=
  (members.find? fun entry ↦ entry.1 == name).elim .null Prod.snd

/-- `get` of an object. -/
def get (name : String) : Value → Option Value
  | .object members => (members.find? fun entry ↦ entry.1 == name).map Prod.snd
  | _ => none

/-- An `Option<Value>` that is read from a value. -/
def toOption : Value → Option Value
  | .null => none
  | value => some value

/-- The members that a derived deserializer reads for the fields of a struct. -/
def fields (names : List String) : Value → Option (List Value)
  | .object members =>
      if names.all fun name ↦ (members.filter fun entry ↦ entry.1 == name).length ≤ 1 then
        some (names.map fun name ↦ member name members)
      else none
  | .array items =>
      if items.length ≤ names.length then
        some (names.zipIdx.map fun (_, index) ↦ items[index]?.getD .null)
      else none
  | _ => none

end Value

structure RpcRequest where
  id : Option Value
  method : String
  params : Option Value

def RpcRequest.fromValue (value : Value) : Option RpcRequest :=
  match value.fields ["id", "method", "params"] with
  | some [id, .string method, params] => some ⟨id.toOption, method, params.toOption⟩
  | _ => none

structure CallToolParams where
  name : String
  arguments : Option Value

def CallToolParams.fromValue (value : Value) : Option CallToolParams :=
  match value.fields ["name", "arguments"] with
  | some [.string name, arguments] => some ⟨name, arguments.toOption⟩
  | _ => none

/-! ## JSON-RPC -/

/-- What JSON-RPC 2.0 takes a message for. -/
inductive Message where
  | request (id : Value) (method : String)
  | notification (method : String)
  | malformed

namespace Value

/-- A string, a number or `null`. -/
def isId : Value → Bool
  | .string _ | .number _ | .null => true
  | _ => false

/-- An array or an object. -/
def isStructured : Value → Bool
  | .array _ | .object _ => true
  | _ => false

/-- A request object has a version, a method and, if it has any, structured parameters. One without
an id is a notification. -/
def message : Value → Message
  | .object members =>
      let value := Value.object members
      if (members.map Prod.fst).Nodup ∧ (value.get "jsonrpc").bind asStr = some "2.0" ∧
          (value.get "params").all isStructured then
        match value.get "method", value.get "id" with
        | some (.string method), none => .notification method
        | some (.string method), some id => if id.isId then .request id method else .malformed
        | _, _ => .malformed
      else .malformed
  | _ => .malformed

end Value

/-! ## Responses -/

def rpcResult (id : Option Value) (result : Value) : Value :=
  .object [("jsonrpc", .string "2.0"), ("id", id.getD .null), ("result", result)]

def rpcError (id : Option Value) (code : Int) (message : String) : Value :=
  .object [("jsonrpc", .string "2.0"), ("id", id.getD .null),
    ("error", .object [("code", .number (toString code)), ("message", .string message)])]

@[simp] theorem get_id_rpcResult (id : Option Value) (result : Value) :
    (rpcResult id result).get "id" = some (id.getD .null) := rfl

@[simp] theorem get_id_rpcError (id : Option Value) (code : Int) (message : String) :
    (rpcError id code message).get "id" = some (id.getD .null) := rfl

/-! ## The version of the protocol -/

def PROTOCOL_VERSION : String := "2024-11-05"

def negotiatedProtocol (params : Option Value) : String :=
  let requested := (params.bind (Value.get "protocolVersion")).bind Value.asStr
  if requested = some "2025-06-18" then "2025-06-18"
  else if requested = some "2025-03-26" then "2025-03-26"
  else PROTOCOL_VERSION

end KaduoxSsh.Mcp
