import KaduoxSsh.Hosts.Model
import KaduoxSsh.Lib.Lines
import KaduoxSsh.Lib.Words
import KaduoxSsh.Mcp.Protocol

/-!
# The MCP server

`McpServer` of `main.rs`: it reads a line of at most 1 MiB, takes it for a request,
writes the response if there is one, and reads the next line. A line that is too
long or no text ends the session.

What lies outside is a `Runtime`: how texts are read as JSON and what the errors
of that say, the switches of the environment, and what the tools do. A remote
command has no time limit, so that a tool need not return; the session waits for it
then. The session is a log of its rounds, each with the bytes that were read and the
response.
-/

namespace KaduoxSsh.Mcp

open Text Lines
open Hosts (trim)

/-! ## Tools -/

inductive Tool where
  | listHosts
  | route
  | basicInfo
  | systemMetrics
  | listFiles
  | exec
  | upload
  | download
deriving DecidableEq, Repr

/-- What the server finds around it, with a state `σ` that the tools read and change. -/
structure Runtime (σ : Type) where
  /-- A text as JSON, where of the members of one name in an inner object the last one is left. -/
  parse : String → Option Value
  /-- What the error says about a text that is not read as a request. -/
  invalidText : String → String
  /-- What the error says about parameters that are not read as a call. -/
  invalidParams : Value → String
  pretty : Value → String
  execEnabled : Bool
  mutationsEnabled : Bool
  /-- What a tool makes of its arguments, if it ever returns. -/
  perform : Tool → Value → σ → Option (Except String Value × σ)

variable {σ : Type}

def objectSchema (properties : List (String × Value)) (required : List String) : Value :=
  .object [("type", .string "object"), ("properties", .object properties),
    ("required", .array (required.map .string)), ("additionalProperties", .bool false)]

/-- A parameter of a tool, with its description if it has one. -/
def stringProperty (name : String) (description : Option String) : String × Value :=
  (name, .object (("type", .string "string") ::
    (description.map fun text ↦ ("description", Value.string text)).toList))

def toolDefinition (name description : String) (inputSchema : Value) : Value :=
  .object [("name", .string name), ("description", .string description),
    ("inputSchema", inputSchema)]

namespace Runtime

variable (runtime : Runtime σ)

def toolDefinitions : List Value :=
  [toolDefinition "kssh_list_hosts" "列出 Kaduox 主机库中的主机，不返回密码、私钥或 API 密钥。"
      (.object [("type", .string "object"), ("properties", .object []),
        ("additionalProperties", .bool false)]),
    toolDefinition "kssh_route" "解析指定主机的实际连接路径，按跳板到目标的顺序返回节点。"
      (objectSchema [stringProperty "alias" (some "Kaduox 主机别名或 OpenSSH Host 别名")] ["alias"]),
    toolDefinition "kssh_basic_info"
      "读取已连接远程目标的主机名、系统、用户、运行时间和地址，并返回实际跳板链。"
      (objectSchema [stringProperty "alias" (some "已配置且可连接的主机别名")] ["alias"]),
    toolDefinition "kssh_system_metrics"
      ("读取已连接远程目标的 CPU、负载、内存、系统盘、GPU、网络累计值和运行身份，" ++
        "并返回实际跳板链。")
      (objectSchema [stringProperty "alias" (some "已配置且可连接的主机别名")] ["alias"]),
    toolDefinition "kssh_list_files" "列出已连接远程主机的 SFTP 目录。"
      (objectSchema [stringProperty "alias" none,
        stringProperty "path" (some "远程绝对路径，例如 /home/user")] ["alias", "path"])] ++
  (if runtime.execEnabled then
    [toolDefinition "kssh_exec"
      ("在已连接远程主机上执行命令。仅当启动 MCP 进程时显式设置 KADUOX_MCP_ALLOW_EXEC=1 才会公布此工具；" ++
        "调用前必须得到用户授权。")
      (objectSchema [stringProperty "alias" none,
        stringProperty "command" (some "要执行的远程命令")] ["alias", "command"])]
    else []) ++
  (if runtime.mutationsEnabled then
    [toolDefinition "kssh_upload"
        "把本地普通文件上传到已连接远程主机。需要 KADUOX_MCP_ALLOW_MUTATIONS=1。"
        (objectSchema [stringProperty "alias" none, stringProperty "localPath" none,
          stringProperty "remotePath" none] ["alias", "localPath", "remotePath"]),
      toolDefinition "kssh_download"
        "从已连接远程主机下载普通文件到本地。需要 KADUOX_MCP_ALLOW_MUTATIONS=1。"
        (objectSchema [stringProperty "alias" none, stringProperty "remotePath" none,
          stringProperty "localPath" none] ["alias", "remotePath", "localPath"])]
    else [])

/-- The tool that a name stands for, if it is available. -/
def tool (name : String) : Option Tool :=
  if name = "kssh_list_hosts" then some .listHosts
  else if name = "kssh_route" then some .route
  else if name = "kssh_basic_info" then some .basicInfo
  else if name = "kssh_system_metrics" then some .systemMetrics
  else if name = "kssh_list_files" then some .listFiles
  else if name = "kssh_exec" ∧ runtime.execEnabled then some .exec
  else if name = "kssh_upload" ∧ runtime.mutationsEnabled then some .upload
  else if name = "kssh_download" ∧ runtime.mutationsEnabled then some .download
  else none

def toolResult (value : Value) (isError : Bool) : Value :=
  .object [("content", .array [.object [("type", .string "text"),
    ("text", .string (runtime.pretty value))]]), ("isError", .bool isError)]

def toolResponse : Except String Value → Value
  | .ok value => runtime.toolResult value false
  | .error error => runtime.toolResult (.object [("error", .string error)]) true

def callTool (call : CallToolParams) (s : σ) : Option (Value × σ) :=
  let arguments := call.arguments.getD (.object [])
  match runtime.tool call.name with
  | some tool => (runtime.perform tool arguments s).map fun done ↦
      (runtime.toolResponse done.1, done.2)
  | none => some (runtime.toolResponse (.error s!"tool is unavailable: {call.name}"), s)

/-! ## A message -/

def SERVER_NAME : String := "kaduox-ssh"

def SERVER_VERSION : String := "1.2.0"

def initializeResult (params : Option Value) : Value :=
  .object [("protocolVersion", .string (negotiatedProtocol params)),
    ("capabilities", .object [("tools", .object [("listChanged", .bool false)])]),
    ("serverInfo", .object [("name", .string SERVER_NAME), ("version", .string SERVER_VERSION)]),
    ("instructions", .string
      ("Kaduox SSH MCP 默认提供只读主机、路由、基础信息和文件目录工具；远程命令需要 " ++
        "KADUOX_MCP_ALLOW_EXEC=1 显式启用，上传/下载需要 KADUOX_MCP_ALLOW_MUTATIONS=1。"))]

/-- The response to a request, if there is one, unless a tool never returns. -/
def handle (request : RpcRequest) (s : σ) : Option (Option Value × σ) :=
  let id := request.id
  if request.method = "initialize" then
    some (some (rpcResult id (initializeResult request.params)), s)
  else if request.method = "notifications/initialized" ∨
      request.method = "notifications/cancelled" then
    some (none, s)
  else if request.method = "ping" then some (some (rpcResult id (.object [])), s)
  else if request.method = "tools/list" then
    some (some (rpcResult id (.object [("tools", .array runtime.toolDefinitions)])), s)
  else if request.method = "tools/call" then
    match request.params with
    | none => some (some (rpcError id (-32602) "tools/call requires params"), s)
    | some params =>
        match CallToolParams.fromValue params with
        | none => some (some (rpcError id (-32602) (runtime.invalidParams params)), s)
        | some call => (runtime.callTool call s).map fun (result, s) ↦
            (some (rpcResult id result), s)
  else some (some (rpcError id (-32601) s!"method not found: {request.method}"), s)

/-- A text read as a request. -/
def fromStr (raw : String) : Option RpcRequest := (runtime.parse raw).bind RpcRequest.fromValue

/-- The response to the text of a line. -/
def respond (line : String) (s : σ) : Option (Option Value × σ) :=
  let raw := String.ofList (trim line.toList)
  if raw = "" then some (none, s)
  else
    match runtime.fromStr raw with
    | some request => runtime.handle request s
    | none =>
        some (some (rpcError none (-32700) s!"invalid JSON: {runtime.invalidText raw}"), s)

end Runtime

/-! ## A session -/

def MAX_LINE_BYTES : Nat := 1024 * 1024

def newline : UInt8 := byte '\n'

/-- The bytes that one round reads. -/
def readLine (bytes : List UInt8) : List UInt8 := takeLine newline (bytes.take MAX_LINE_BYTES)

/-- A round of the session: what was read, and the response that was written. -/
structure Exchange where
  line : List UInt8
  response : Option Value

/-- How a session ends. -/
inductive Ending where
  | eof
  | invalidUtf8
  | tooLong
  /-- It waits for a tool. -/
  | stalled
deriving DecidableEq, Repr

namespace Runtime

variable (runtime : Runtime σ)

/-- At most so many rounds of a session. -/
def rounds : Nat → List UInt8 → σ → List Exchange × Ending
  | 0, _, _ => ([], .eof)
  | fuel + 1, bytes, s =>
      let line := readLine bytes
      if line = [] then ([], .eof)
      else
        match fromUtf8 line with
        | none => ([], .invalidUtf8)
        | some text =>
            if line.getLast? ≠ some newline ∧ MAX_LINE_BYTES ≤ line.length then ([], .tooLong)
            else
              match runtime.respond text s with
              | none => ([], .stalled)
              | some (response, s) =>
                  let (later, ending) := rounds fuel (bytes.drop line.length) s
                  (⟨line, response⟩ :: later, ending)

/-- The session over all that comes in. Each round but the last one reads at least one byte. -/
def run (bytes : List UInt8) (s : σ) : List Exchange × Ending :=
  runtime.rounds (bytes.length + 1) bytes s

end Runtime

end KaduoxSsh.Mcp
