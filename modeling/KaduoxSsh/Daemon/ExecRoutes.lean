import KaduoxSsh.Core.Command
import KaduoxSsh.Core.ConnectionManager
import KaduoxSsh.Core.Credentials
import KaduoxSsh.Daemon.Exec
import KaduoxSsh.OpenSsh.Target

/-!
# The two routes of a command

`kssh exec` sends a command either over a connection of its own or through the daemon
(`daemon_cli.rs`). On either route the command is rendered and the credentials are
resolved, by the command line for the direct route and by the command line and the
daemon for the other one, which may also have a session in its pool that was made with
others. Both agree on a command only when its two renderings do, or the other side is not
Windows, and on credentials only when what is named on one side is the same on the other.
-/

namespace KaduoxSsh.Daemon

open KaduoxSsh.Core OpenSsh Result

/-! ## Invocations -/

/-- The options of the command line that matter for the route and the credentials. -/
structure Cli where
  host : String
  port : Option UInt16
  user : Option String
  identity : Option PathBuf
  askKeyPassphrase : Bool
  password : Bool
  keyboardInteractive : Bool
  hostKey : Option String
  jump : Option String
  proxyCommand : Option String
  forwardAgent : Bool
  localForward : List String
  remoteForward : List String
  dynamicForward : List String
deriving DecidableEq, Repr

/-- The operands of `exec`. -/
structure ExecCommand where
  asUser : Option String
  cwd : Option String
  environment : List String
  command : List String
deriving DecidableEq, Repr

inductive Command where
  | shell (asUser : Option String)
  | exec (command : ExecCommand)
  | other
deriving DecidableEq, Repr

def eligible (cli : Cli) (command : Command) : Bool :=
  command ≠ .other && cli.port.isNone && cli.user.isNone && cli.jump.isNone &&
    cli.proxyCommand.isNone && cli.hostKey.isNone && !cli.forwardAgent &&
    cli.localForward.isEmpty && cli.remoteForward.isEmpty && cli.dynamicForward.isEmpty &&
    !cli.host.toList.contains '@'

/-- What stands before and after the first separator. -/
def splitOnce (sep : Char) (value : List Char) : Option (List Char × List Char) :=
  if sep ∈ value then
    some (value.takeWhile (· ≠ sep), (value.dropWhile (· ≠ sep)).drop 1)
  else none

def parseRemoteEnvironment (value : String) : Result (String × String) := do
  let (name, value) ← ofOption "--env must use NAME=VALUE syntax" (splitOnce '=' value.toList)
  bailIf (name = []) "--env variable name cannot be empty"
  return (String.ofList name, String.ofList value)

def remoteUser (asUser : Option String) : RemoteUser :=
  match asUser with
  | some user => .sudo user
  | none => .current

/-- The command as it is given to either rendering. -/
def ExecCommand.spec (command : ExecCommand) : Result RemoteCommandSpec :=
  match command.command with
  | [] => bail "remote command requires a program"
  | program :: arguments => do
      let environment ← command.environment.mapM parseRemoteEnvironment
      return ⟨program, arguments, environment, command.cwd⟩

/-! ## Credentials -/

/-- What the two programs find around them: the host library, the OpenSSH configuration, the
stored passwords, and what the user types. -/
structure Surroundings where
  library : String → Option (Option String → Option UInt16 → Result ConnectionConfig)
  openSsh : String → Option String → Option UInt16 → Result ConnectionConfig
  keyring : Keyring
  prompt : String → Result String

namespace Surroundings

variable (w : Surroundings)

def resolveHost (hostAlias : String) (user : Option String) (port : Option UInt16) :
    Result ConnectionConfig :=
  match w.library hostAlias with
  | some record => record user port
  | none => w.openSsh hostAlias user port

/-- The configuration for a host as it is given on the command line. -/
def targetConfig (cli : Cli) : Result ConnectionConfig :=
  match w.library cli.host with
  | some _ => w.resolveHost cli.host cli.user cli.port
  | none => do
      let target ← ConnectionTarget.parse cli.host
      w.openSsh target.host (cli.user.or target.username) cli.port

/-- The configuration for the direct route. -/
def connectionConfig (cli : Cli) : Result ConnectionConfig := do
  let config ← w.targetConfig cli
  return { config with
    port := cli.port.getD config.port
    username := cli.user.getD config.username }

def resolveAuthentication (cli : Cli) (config : ConnectionConfig) : Result Authentication :=
  if cli.password then (w.prompt "SSH password: ").map .password
  else if cli.keyboardInteractive then
    (w.prompt "Keyboard-interactive response: ").map .keyboardInteractive
  else match cli.identity with
    | some path =>
        if cli.askKeyPassphrase then
          (w.prompt "Private key passphrase: ").map (.privateKey path <| some ·)
        else .ok (.privateKey path none)
    | none => match w.keyring.storedPassword config with
      | some password => .ok (.password password)
      | none => .ok (.auto config.identityFiles none)

end Surroundings

def authRequest : Authentication → AuthRequest
  | .password secret => .password secret
  | .keyboardInteractive secret => .keyboardInteractive secret
  | .privateKey path passphrase => .privateKey path passphrase
  | .agent => .agent
  | .auto _ _ => .auto

def AuthRequest.intoAuthentication (request : AuthRequest) (configuredIdentities : List PathBuf) :
    Authentication :=
  match request with
  | .auto => .auto configuredIdentities none
  | .agent => .agent
  | .password secret => .password secret
  | .keyboardInteractive secret => .keyboardInteractive secret
  | .privateKey path passphrase => .privateKey path passphrase

/-! ## The routes -/

section

variable (w : Surroundings) (cli : Cli) (command : ExecCommand) (platform : RemotePlatform)

def directAuthentication : Result Authentication := do
  w.resolveAuthentication cli (← w.connectionConfig cli)

/-- The text that the direct route sends. -/
def directCommand : Result String := do
  let spec ← command.spec
  let rendered ← match platform with
    | .windows => spec.renderCmd
    | .unix => spec.renderPosix
  commandForUser rendered (remoteUser command.asUser) platform

/-- A request as it comes out at the daemon. -/
def carried (request : ExecRequest) : Result ExecRequest := do
  match ← decodeClient (← encodeClient request.frame) with
  | .exec hostAlias auth command asUser => return ⟨hostAlias, auth, command, asUser⟩
  | _ => bail "unexpected frame"

/-- What goes to the other side: the command if it is not refused, over a session that an
authentication has been used for. -/
structure Sent where
  authentication : Authentication
  command : Result String
deriving DecidableEq, Repr

/-- A session of the daemon, as it was made. -/
structure Pooled where
  config : ConnectionConfig
  authentication : Authentication
deriving DecidableEq, Repr

/-- `acquire_client`: the authentication of the session that a request gets, the one in the pool
under its alias or a new one. There is none when credentials are needed. -/
def acquiredAuthentication (pooled : Option Pooled) (request : ExecRequest) :
    Result (Option Authentication) := do
  let config ← (w.resolveHost request.hostAlias none none).context
    s!"failed to resolve daemon target {Text.debug request.hostAlias}"
  match pooled with
  | some existing => do
      bailIf (existing.config ≠ config)
        (s!"cached connection {Text.debug request.hostAlias} no longer matches the current " ++
          "host/OpenSSH configuration; disconnect it before reconnecting")
      return some existing.authentication
  | none => return request.auth.map (·.intoAuthentication config.identityFiles)

/-- `handle_exec`, with nothing sent when credentials are needed. -/
def served (pooled : Option Pooled) (request : ExecRequest) : Result (Option Sent) := do
  let acquired ← acquiredAuthentication w pooled request
  return acquired.map
    (⟨·, commandForUser request.command (remoteUser request.asUser) platform⟩)

/-- `run_exec` with a daemon that answers: a request without credentials, and one with them when
the daemon asks for them. -/
def daemonRun (pooled pooledThen : Option Pooled) : Result Sent := do
  let _ ← w.connectionConfig cli
  let rendered ← (← command.spec).renderPosix
  match ← served w platform pooled (← carried ⟨cli.host, none, rendered, command.asUser⟩) with
  | some sent => return sent
  | none =>
      let config ← w.resolveHost cli.host none none
      let authentication ← w.resolveAuthentication cli config
      let request ← carried ⟨cli.host, some (authRequest authentication), rendered, command.asUser⟩
      match ← served w platform pooledThen request with
      | some sent => return sent
      | none => bail s!"daemon requested authentication twice for {Text.debug cli.host}"

/-- `try_run`, with nothing sent when the daemon is left out. -/
def tryRun (pooled pooledThen : Option Pooled) : Result (Option Sent) :=
  if eligible cli (.exec command) then
    (daemonRun w cli command platform pooled pooledThen).map some
  else .ok none

end

/-! ## Places of keys -/

/-- A directory, as the names that lead to it from the root. -/
abbrev Place := List (List UInt8)

def dot : List UInt8 := [46]

def dotDot : List UInt8 := [46, 46]

/-- Follow one component of a path. No symbolic links are on the way. -/
def enter (place : Place) (component : List UInt8) : Place :=
  if component = [] ∨ component = dot then place
  else if component = dotDot then place.dropLast
  else place ++ [component]

def isAbsolute (path : PathBuf) : Bool := path.bytes.head? = some 47

/-- The place that a path leads to from a working directory. -/
def keyPlace (cwd : Place) (path : PathBuf) : Place :=
  (path.bytes.splitOn 47).foldl enter (if isAbsolute path then [] else cwd)

/-- How far components lead up, and what they add there. -/
def climb (way : Nat × Place) (component : List UInt8) : Nat × Place :=
  if component = [] ∨ component = dot then way
  else if component = dotDot then if way.2 = [] then (way.1 + 1, []) else (way.1, way.2.dropLast)
  else (way.1, way.2 ++ [component])

/-- The number of directories that a path leaves before it goes down. -/
def climbs (path : PathBuf) : Nat := ((path.bytes.splitOn 47).foldl climb (0, [])).1

theorem foldl_enter (cwd : Place) (components : List (List UInt8)) (way : Nat × Place) :
    components.foldl enter (List.dropLast^[way.1] cwd ++ way.2) =
      List.dropLast^[(components.foldl climb way).1] cwd ++ (components.foldl climb way).2 := by
  induction components generalizing way with
  | nil => rfl
  | cons component components ih =>
      have hstep : enter (List.dropLast^[way.1] cwd ++ way.2) component =
          List.dropLast^[(climb way component).1] cwd ++ (climb way component).2 := by
        unfold enter climb
        split
        · rfl
        · split
          · split
            · next hnil =>
              rw [hnil, List.append_nil, List.append_nil, Function.iterate_succ_apply']
            · next hne => exact List.dropLast_append_of_ne_nil hne
          · exact List.append_assoc _ _ _
      rw [List.foldl_cons, List.foldl_cons, hstep]
      exact ih (climb way component)

/-- A path leads to the same place from two working directories. -/
def SamePlace (cwd cwd' : Place) (path : PathBuf) : Prop :=
  isAbsolute path = true ∨ List.dropLast^[climbs path] cwd = List.dropLast^[climbs path] cwd'

theorem keyPlace_eq_iff {cwd cwd' : Place} {path : PathBuf} :
    keyPlace cwd path = keyPlace cwd' path ↔ SamePlace cwd cwd' path := by
  unfold keyPlace SamePlace
  cases isAbsolute path with
  | true => exact ⟨fun _ ↦ .inl rfl, fun _ ↦ rfl⟩
  | false =>
      have hplace := fun cwd ↦ foldl_enter cwd (path.bytes.splitOn 47) (0, [])
      simp only [Function.iterate_zero, id_eq, List.append_nil] at hplace
      simp only [Bool.false_eq_true, if_false, false_or]
      rw [hplace cwd, hplace cwd']
      exact List.append_left_inj _

/-- Credentials with the keys themselves in place of paths. -/
inductive Credentials where
  | password (secret : String)
  | keyboardInteractive (secret : String)
  | privateKey (key : Place) (passphrase : Option String)
  | agent
  | auto (keys : List Place) (passphrase : Option String)
deriving DecidableEq, Repr

/-- What an authentication denotes for a process. -/
def credentials (cwd : Place) : Authentication → Credentials
  | .password secret => .password secret
  | .keyboardInteractive secret => .keyboardInteractive secret
  | .privateKey path passphrase => .privateKey (keyPlace cwd path) passphrase
  | .agent => .agent
  | .auto identityFiles passphrase => .auto (identityFiles.map (keyPlace cwd)) passphrase

/-! ## Agreement -/

section

variable (w : Surroundings) (cli : Cli) (command : ExecCommand) (platform : RemotePlatform)
  (cwd daemonCwd : Place)

/-- What goes out on the route through the daemon is what the direct route would send. -/
structure Agrees (sent : Sent) : Prop where
  command : sent.command = directCommand command platform
  authentication : ∃ direct, directAuthentication w cli = .ok direct ∧
    credentials daemonCwd sent.authentication = credentials cwd direct

/-- The command has one rendering, or is refused, on this platform. -/
def CommandAgrees : Prop :=
  platform = .unix ∨ command.asUser ≠ none ∨ ∀ spec, command.spec = .ok spec → spec.Portable

/-- Two configurations have the same password in store, or none and the same keys. -/
def Surroundings.SameSources (config config' : ConnectionConfig) : Prop :=
  w.keyring.storedPassword config' = w.keyring.storedPassword config ∧
    (w.keyring.storedPassword config = none →
      config'.identityFiles.map (keyPlace daemonCwd) = config.identityFiles.map (keyPlace cwd))

/-- What credentials are taken from is the same for both processes. -/
def CredentialsAgree : Prop :=
  cli.password = true ∨ cli.keyboardInteractive = true ∨
    match cli.identity with
    | some path => SamePlace daemonCwd cwd path
    | none => ∀ config config', w.connectionConfig cli = .ok config →
        w.resolveHost cli.host none none = .ok config' →
        w.SameSources cwd daemonCwd config config'

/-- A session in the pool was made with what the direct route would use, a new one is made with
it. -/
def AuthenticationAgrees : Option Pooled → Prop
  | some existing => ∃ direct, directAuthentication w cli = .ok direct ∧
      credentials daemonCwd existing.authentication = credentials cwd direct
  | none => CredentialsAgree w cli cwd daemonCwd

end

variable {w : Surroundings} {cli : Cli} {command : ExecCommand} {platform : RemotePlatform}
  {cwd daemonCwd : Place} {pooled pooledThen : Option Pooled} {request request' : ExecRequest} {sent : Sent}
theorem carried_eq_ok (h : carried request = .ok request') : request' = request := by
  obtain ⟨payload, hencode, h⟩ := bind_eq_ok.mp h
  rw [decodeClient_iff.mpr hencode, bind_ok] at h
  cases h
  rfl

/-- What a request that is served gets. -/
theorem served_eq_ok {answer : Option Sent} (h : served w platform pooled request = .ok answer) :
    ∃ config, w.resolveHost request.hostAlias none none = .ok config ∧
      answer = ((pooled.map Pooled.authentication).or
        (request.auth.map (·.intoAuthentication config.identityFiles))).map
          (⟨·, commandForUser request.command (remoteUser request.asUser) platform⟩) := by
  obtain ⟨acquired, hacquired, h⟩ := bind_eq_ok.mp h
  obtain rfl := Except.ok.inj h
  obtain ⟨config, hconfig, hacquired⟩ := bind_eq_ok.mp hacquired
  refine ⟨config, context_eq_ok.mp hconfig, ?_⟩
  cases pooled with
  | some existing =>
      obtain ⟨-, hacquired⟩ := check_bind_eq_ok.mp hacquired
      obtain rfl := Except.ok.inj hacquired
      rfl
  | none =>
      obtain rfl := Except.ok.inj hacquired
      rfl

/-- Nothing is lost of credentials that were resolved with the configuration of the daemon. -/
theorem intoAuthentication_authRequest {config : ConnectionConfig} {authentication : Authentication}
    (h : w.resolveAuthentication cli config = .ok authentication) :
    (authRequest authentication).intoAuthentication config.identityFiles = authentication := by
  cases authentication with
  | auto identityFiles passphrase =>
      unfold Surroundings.resolveAuthentication at h
      split at h
      · cases hprompt : w.prompt "SSH password: " <;> rw [hprompt] at h <;> cases h
      · split at h
        · cases hprompt : w.prompt "Keyboard-interactive response: " <;> rw [hprompt] at h <;> cases h
        · split at h
          · split at h
            · cases hprompt : w.prompt "Private key passphrase: " <;> rw [hprompt] at h <;> cases h
            · cases h
          · split at h
            · cases h
            · cases h
              rfl
  | _ => rfl

/-- What goes out on the route through the daemon. -/
structure Routed (w : Surroundings) (cli : Cli) (command : ExecCommand) (platform : RemotePlatform)
    (pooled : Option Pooled) (sent : Sent) : Prop where
  config : ∃ config, w.connectionConfig cli = .ok config
  command : ∃ spec rendered, command.spec = .ok spec ∧ spec.renderPosix = .ok rendered ∧
    sent.command = commandForUser rendered (remoteUser command.asUser) platform
  authentication : match pooled with
    | some existing => sent.authentication = existing.authentication
    | none => ∃ config, w.resolveHost cli.host none none = .ok config ∧
        w.resolveAuthentication cli config = .ok sent.authentication

theorem daemonRun_eq_ok (h : daemonRun w cli command platform pooled pooledThen = .ok sent) :
    Routed w cli command platform (pooled.or pooledThen) sent := by
  obtain ⟨config, hconfig, h⟩ := bind_eq_ok.mp h
  obtain ⟨spec, hspec, h⟩ := bind_eq_ok.mp h
  obtain ⟨rendered, hrendered, h⟩ := bind_eq_ok.mp h
  obtain ⟨first, hfirst, h⟩ := bind_eq_ok.mp h
  obtain ⟨answer, hanswer, h⟩ := bind_eq_ok.mp h
  cases carried_eq_ok hfirst
  obtain ⟨_, hfirstConfig, rfl⟩ := served_eq_ok hanswer
  cases pooled with
  | some existing =>
      cases h
      exact ⟨⟨config, hconfig⟩, ⟨spec, rendered, hspec, hrendered, rfl⟩, rfl⟩
  | none =>
      obtain ⟨daemonConfig, hdaemonConfig, h⟩ := bind_eq_ok.mp h
      obtain ⟨authentication, hauthentication, h⟩ := bind_eq_ok.mp h
      obtain ⟨second, hsecond, h⟩ := bind_eq_ok.mp h
      obtain ⟨answer, hanswer, h⟩ := bind_eq_ok.mp h
      cases carried_eq_ok hsecond
      obtain ⟨config', hconfig', rfl⟩ := served_eq_ok hanswer
      cases hdaemonConfig.symm.trans hconfig'
      cases pooledThen with
      | some existing =>
          cases h
          exact ⟨⟨config, hconfig⟩, ⟨spec, rendered, hspec, hrendered, rfl⟩, rfl⟩
      | none =>
          cases h
          refine ⟨⟨config, hconfig⟩, ⟨spec, rendered, hspec, hrendered, rfl⟩, daemonConfig,
            hdaemonConfig, ?_⟩
          exact hauthentication.trans
            (congrArg Except.ok (intoAuthentication_authRequest hauthentication).symm)

theorem command_agrees_iff (h : Routed w cli command platform pooled sent) :
    sent.command = directCommand command platform ↔ CommandAgrees command platform := by
  obtain ⟨spec, rendered, hspec, hrendered, hcommand⟩ := h.command
  have hvalid := (check_bind_eq_ok.mp hrendered).1
  rw [hcommand, directCommand, hspec, bind_ok]
  cases platform with
  | unix =>
      dsimp only
      rw [hrendered]
      exact ⟨fun _ ↦ .inl rfl, fun _ ↦ rfl⟩
  | windows =>
      obtain ⟨cmd, hcmd⟩ : ∃ cmd, spec.renderCmd = .ok cmd := by
        rw [RemoteCommandSpec.renderCmd, hvalid]
        exact ⟨_, rfl⟩
      dsimp only
      rw [hcmd, bind_ok]
      cases huser : command.asUser with
      | some user => exact ⟨fun _ ↦ .inr (.inl (by rw [huser]; exact Option.some_ne_none _)), fun _ ↦ rfl⟩
      | none =>
          have hportable := RemoteCommandSpec.renderPosix_eq_renderCmd_iff hvalid
          rw [hrendered, hcmd] at hportable
          refine hportable.trans ⟨fun hspecPortable ↦ .inr (.inr fun other hother ↦ ?_), ?_⟩
          · cases hspec.symm.trans hother
            exact hspecPortable
          · rintro (hunix | huser' | hspecPortable)
            · cases hunix
            · exact absurd huser huser'
            · exact hspecPortable spec hspec

/-! ### Where credentials come from -/

/-- What is typed has nothing to do with configurations and paths. -/
theorem resolveAuthentication_typed {config : ConnectionConfig} {authentication : Authentication}
    (htyped : cli.password = true ∨ cli.keyboardInteractive = true)
    (h : w.resolveAuthentication cli config = .ok authentication) :
    (∀ config', w.resolveAuthentication cli config' = .ok authentication) ∧
      ∀ cwd cwd', credentials cwd authentication = credentials cwd' authentication := by
  have hsame : ∀ config', w.resolveAuthentication cli config' =
      w.resolveAuthentication cli config := by
    intro config'
    unfold Surroundings.resolveAuthentication
    rcases htyped with htyped | htyped
    · rw [if_pos htyped, if_pos htyped]
    · rw [if_pos htyped, if_pos htyped]
  refine ⟨fun config' ↦ (hsame config').trans h, fun cwd cwd' ↦ ?_⟩
  rw [Surroundings.resolveAuthentication] at h
  split at h
  · obtain ⟨secret, -, rfl⟩ := map_eq_ok.mp h
    rfl
  · next hpassword =>
    rw [if_pos (htyped.resolve_left hpassword)] at h
    obtain ⟨secret, -, rfl⟩ := map_eq_ok.mp h
    rfl

/-- A key that is named is the one that is used. -/
theorem resolveAuthentication_identity {config : ConnectionConfig}
    {authentication : Authentication} {path : PathBuf}
    (htyped : ¬(cli.password = true ∨ cli.keyboardInteractive = true))
    (hidentity : cli.identity = some path)
    (h : w.resolveAuthentication cli config = .ok authentication) :
    (∀ config', w.resolveAuthentication cli config' = .ok authentication) ∧
      ∃ passphrase, authentication = .privateKey path passphrase := by
  obtain ⟨hpassword, hkeyboard⟩ := not_or.mp htyped
  have hresolve : ∀ config', w.resolveAuthentication cli config' =
      if cli.askKeyPassphrase then
        (w.prompt "Private key passphrase: ").map (.privateKey path <| some ·)
      else .ok (.privateKey path none) := by
    intro config'
    rw [Surroundings.resolveAuthentication, if_neg hpassword, if_neg hkeyboard, hidentity]
  refine ⟨fun config' ↦ (hresolve config').trans ((hresolve config).symm.trans h), ?_⟩
  rw [hresolve] at h
  split at h
  · obtain ⟨passphrase, -, rfl⟩ := map_eq_ok.mp h
    exact ⟨passphrase, rfl⟩
  · cases h
    exact ⟨none, rfl⟩

/-- What is used when nothing is named. -/
def Surroundings.configured (w : Surroundings) (config : ConnectionConfig) : Authentication :=
  match w.keyring.storedPassword config with
  | some password => .password password
  | none => .auto config.identityFiles none

theorem resolveAuthentication_configured
    (htyped : ¬(cli.password = true ∨ cli.keyboardInteractive = true))
    (hidentity : cli.identity = none) (config : ConnectionConfig) :
    w.resolveAuthentication cli config = .ok (w.configured config) := by
  obtain ⟨hpassword, hkeyboard⟩ := not_or.mp htyped
  rw [Surroundings.resolveAuthentication, if_neg hpassword, if_neg hkeyboard, hidentity,
    Surroundings.configured]
  dsimp only
  split <;> rfl

theorem credentials_configured_iff {config config' : ConnectionConfig} :
    credentials daemonCwd (w.configured config') = credentials cwd (w.configured config) ↔
      w.SameSources cwd daemonCwd config config' := by
  rw [Surroundings.SameSources, Surroundings.configured, Surroundings.configured]
  cases w.keyring.storedPassword config with
  | some password =>
      cases w.keyring.storedPassword config' with
      | some password' =>
          simp only [credentials, Credentials.password.injEq, Option.some.injEq, reduceCtorEq,
            false_implies, and_true]
      | none => exact iff_of_false Credentials.noConfusion fun h ↦ nomatch h.1
  | none =>
      cases w.keyring.storedPassword config' with
      | some password' => exact iff_of_false Credentials.noConfusion fun h ↦ nomatch h.1
      | none =>
          simp only [credentials, Credentials.auto.injEq, and_true, true_and, true_implies]

theorem exists_ok_iff {α : Type} {a : α} {p : α → Prop} :
    (∃ b, (Except.ok a : Result α) = .ok b ∧ p b) ↔ p a := by
  constructor
  · rintro ⟨_, ⟨⟩, h⟩
    exact h
  · exact fun h ↦ ⟨a, rfl, h⟩

/-- A key that is named is the same on both routes if its path leads to the same file. -/
theorem identity_agrees_iff {config config' : ConnectionConfig} {authentication : Authentication}
    {path : PathBuf} (htyped : ¬(cli.password = true ∨ cli.keyboardInteractive = true))
    (hidentity : cli.identity = some path)
    (h : w.resolveAuthentication cli config' = .ok authentication) :
    (∃ direct, w.resolveAuthentication cli config = .ok direct ∧
      credentials daemonCwd authentication = credentials cwd direct) ↔
    keyPlace daemonCwd path = keyPlace cwd path := by
  obtain ⟨hresolve, passphrase, rfl⟩ := resolveAuthentication_identity htyped hidentity h
  rw [hresolve config, exists_ok_iff, credentials, credentials, Credentials.privateKey.injEq,
    and_iff_left rfl]

/-- Where nothing is named, the two configurations have to lead to the same credentials. -/
theorem configured_agrees_iff {config config' : ConnectionConfig} {authentication : Authentication}
    (htyped : ¬(cli.password = true ∨ cli.keyboardInteractive = true))
    (hidentity : cli.identity = none)
    (h : w.resolveAuthentication cli config' = .ok authentication) :
    (∃ direct, w.resolveAuthentication cli config = .ok direct ∧
      credentials daemonCwd authentication = credentials cwd direct) ↔
    w.SameSources cwd daemonCwd config config' := by
  have hresolve := resolveAuthentication_configured (w := w) htyped hidentity
  rw [hresolve] at h ⊢
  obtain rfl := Except.ok.inj h
  rw [exists_ok_iff, credentials_configured_iff]

variable (cwd daemonCwd) in
theorem credentials_agree_iff {config config' : ConnectionConfig} {authentication : Authentication}
    (hconfig : w.connectionConfig cli = .ok config)
    (hconfig' : w.resolveHost cli.host none none = .ok config')
    (h : w.resolveAuthentication cli config' = .ok authentication) :
    (∃ direct, directAuthentication w cli = .ok direct ∧
      credentials daemonCwd authentication = credentials cwd direct) ↔
    CredentialsAgree w cli cwd daemonCwd := by
  have hdirect : directAuthentication w cli = w.resolveAuthentication cli config := by
    rw [directAuthentication, hconfig]
    rfl
  rw [hdirect, CredentialsAgree, ← or_assoc]
  by_cases htyped : cli.password = true ∨ cli.keyboardInteractive = true
  · obtain ⟨hresolve, hsame⟩ := resolveAuthentication_typed htyped h
    exact iff_of_true ⟨authentication, hresolve config, hsame _ _⟩ (.inl htyped)
  rw [or_iff_right htyped]
  cases hidentity : cli.identity with
  | some path => exact (identity_agrees_iff htyped hidentity h).trans keyPlace_eq_iff
  | none =>
      refine (configured_agrees_iff htyped hidentity h).trans ⟨fun hone c c' hc hc' ↦ ?_, ?_⟩
      · cases hconfig.symm.trans hc
        cases hconfig'.symm.trans hc'
        exact hone
      · exact fun hall ↦ hall config config' hconfig hconfig'

/-- The two routes agree on a command that the daemon serves exactly when the command has one
rendering on the platform, and what the session of the daemon was or is made with is what the
direct route would use. -/
theorem daemon_agrees_iff
    (h : tryRun w cli command platform pooled pooledThen = .ok (some sent)) :
    Agrees w cli command platform cwd daemonCwd sent ↔
      CommandAgrees command platform ∧
        AuthenticationAgrees w cli cwd daemonCwd (pooled.or pooledThen) := by
  have hrun : daemonRun w cli command platform pooled pooledThen = .ok sent := by
    unfold tryRun at h
    split at h
    · obtain ⟨_, hrun, heq⟩ := map_eq_ok.mp h
      obtain rfl := Option.some.inj heq
      exact hrun
    · cases h
  have hrouted := daemonRun_eq_ok hrun
  have hauthentication : (∃ direct, directAuthentication w cli = .ok direct ∧
      credentials daemonCwd sent.authentication = credentials cwd direct) ↔
        AuthenticationAgrees w cli cwd daemonCwd (pooled.or pooledThen) := by
    obtain ⟨config, hconfig⟩ := hrouted.config
    have hsent := hrouted.authentication
    cases hpooled : pooled.or pooledThen with
    | some existing =>
        rw [hpooled] at hsent
        dsimp only at hsent
        rw [hsent, AuthenticationAgrees]
    | none =>
        rw [hpooled] at hsent
        obtain ⟨config', hconfig', hresolved⟩ := hsent
        exact credentials_agree_iff cwd daemonCwd hconfig hconfig' hresolved
  rw [← command_agrees_iff hrouted, ← hauthentication]
  exact ⟨fun hagrees ↦ ⟨hagrees.command, hagrees.authentication⟩, fun hboth ↦ ⟨hboth.1, hboth.2⟩⟩

/-- A user whose OpenSSH configuration says nothing about any host. -/
def plainSurroundings : Surroundings where
  library _ := none
  openSsh host user port :=
    .ok { ConnectionConfig.new host (user.getD "deploy") with port := port.getD 22 }
  keyring _ := none
  prompt _ := bail "no terminal"

/-- `kssh host -i id_deploy exec`. -/
def keyCli (host : String) (identity : PathBuf) : Cli where
  host := host
  port := none
  user := none
  identity := some identity
  askKeyPassphrase := false
  password := false
  keyboardInteractive := false
  hostKey := none
  jump := none
  proxyCommand := none
  forwardAgent := false
  localForward := []
  remoteForward := []
  dynamicForward := []

theorem daemon_agrees_absolute :
    Agrees plainSurroundings (keyCli "web" (.ofString "/keys/id_deploy"))
      ⟨none, none, [], ["uname", "-a"]⟩ .windows [Text.utf8 "home"] []
      ⟨.privateKey (.ofString "/keys/id_deploy") none, .ok "uname -a"⟩ := by
  have hrun : tryRun plainSurroundings (keyCli "web" (.ofString "/keys/id_deploy"))
      ⟨none, none, [], ["uname", "-a"]⟩ .windows none none =
      .ok (some ⟨.privateKey (.ofString "/keys/id_deploy") none, .ok "uname -a"⟩) := by
    decide
  refine (daemon_agrees_iff hrun).mpr ⟨.inr (.inr fun spec hspec ↦ ?_), .inr (.inr (.inl ?_))⟩
  · cases (show (.ok ⟨"uname", ["-a"], [], none⟩ : Result RemoteCommandSpec) = .ok spec from hspec)
    exact ⟨rfl, rfl, by decide, by decide⟩
  · decide

/-- A session for `web` that was made with another key. -/
def otherKey : Pooled :=
  ⟨ConnectionConfig.new "web" "deploy", .privateKey (.ofString "/keys/id_old") none⟩

/-- A relative key is looked for where the daemon was started, words for `cmd.exe` get the quotes
of a POSIX shell, and a session in the pool is used whatever key is named. -/
theorem daemon_disagrees :
    (tryRun plainSurroundings (keyCli "web" (.ofString "id_deploy"))
        ⟨none, none, [], ["echo", "hello world"]⟩ .windows none none =
      .ok (some ⟨.privateKey (.ofString "id_deploy") none, .ok "echo \x27hello world\x27"⟩) ∧
    directCommand ⟨none, none, [], ["echo", "hello world"]⟩ .windows = .ok "echo \"hello world\"" ∧
    directAuthentication plainSurroundings (keyCli "web" (.ofString "id_deploy")) =
      .ok (.privateKey (.ofString "id_deploy") none) ∧
    credentials [] (.privateKey (.ofString "id_deploy") none) ≠
      credentials [Text.utf8 "home"] (.privateKey (.ofString "id_deploy") none) ∧
    ¬Agrees plainSurroundings (keyCli "web" (.ofString "id_deploy"))
      ⟨none, none, [], ["echo", "hello world"]⟩ .windows [Text.utf8 "home"] []
      ⟨.privateKey (.ofString "id_deploy") none, .ok "echo \x27hello world\x27"⟩) ∧
    tryRun plainSurroundings (keyCli "web" (.ofString "/keys/id_deploy"))
        ⟨none, none, [], ["uname"]⟩ .unix (some otherKey) none =
      .ok (some ⟨.privateKey (.ofString "/keys/id_old") none, .ok "uname"⟩) ∧
    ¬Agrees plainSurroundings (keyCli "web" (.ofString "/keys/id_deploy"))
      ⟨none, none, [], ["uname"]⟩ .unix [] []
      ⟨.privateKey (.ofString "/keys/id_old") none, .ok "uname"⟩ := by
  refine ⟨⟨by decide, by decide, by decide, by decide, fun h ↦ ?_⟩, by decide, fun h ↦ ?_⟩
  · exact absurd h.command (by decide)
  · obtain ⟨direct, hdirect, hsame⟩ := h.authentication
    obtain rfl : direct = .privateKey (.ofString "/keys/id_deploy") none :=
      (Except.ok.inj hdirect).symm
    exact absurd hsame (by decide)

end KaduoxSsh.Daemon
