import KaduoxSsh.Core.Authenticate
import KaduoxSsh.Core.ProxyCommand

/-!
# Connecting through jump hosts

`connect.rs` and the part of `client.rs` that connects: the sessions of a chain of jump hosts are
made one after the other, each through the one before, and the session with the host itself
comes last. The network, the servers, the provider of credentials and the listener for the
progress are the environment.

A session is told apart by the way it has been made. What the SSH library is configured with is
left out, except that it may fail to be read. A wait with a time limit is one for a reply that may
be missing.
-/

namespace KaduoxSsh.Core

open Result

open Asking (query ofResult)
open Interaction (timeout)

def MAX_JUMP_AUTH_ATTEMPTS : Nat := 5

/-- A session with a server: how it has been reached, and how its host key has been checked. -/
inductive SshSession where
  | direct (handler : ClientHandler)
  | proxied (command : String) (handler : ClientHandler)
  | through (previous : SshSession) (handler : ClientHandler)

inductive AuthenticationKind where
  | password
  | keyboardInteractive
  | privateKey
  | agent
  | auto
deriving DecidableEq, Repr

def authenticationKind : Authentication → AuthenticationKind
  | .password _ => .password
  | .keyboardInteractive _ => .keyboardInteractive
  | .privateKey _ _ => .privateKey
  | .agent => .agent
  | .auto _ _ => .auto

structure JumpAuthRequest where
  index : Nat
  total : Nat
  attempt : Nat
  jump : JumpHost
  previousFailed : Bool
deriving DecidableEq, Repr

inductive ConnectionProgress where
  | jumpConnecting (index total : Nat) (hostAlias host : String) (port : UInt16)
  | jumpConnected (index total : Nat) (hostAlias : String)
  | jumpAuthenticating (index total : Nat) (hostAlias : String) (attempt : Nat)
      (method : AuthenticationKind)
  | jumpAuthenticationFailed (index total : Nat) (hostAlias : String) (attempt : Nat)
  | jumpAuthenticated (index total : Nat) (hostAlias : String) (method : AuthenticationKind)
  | finalConnecting (hostAlias host : String) (port : UInt16)
  | finalAuthenticating (hostAlias user : String) (method : AuthenticationKind)
  | connected (hostAlias : String)
deriving DecidableEq, Repr

/-- The time limits of a connection, in nanoseconds. -/
structure Timeouts where
  connectTimeout : Nat
  channelOpenTimeout : Nat
  channelRequestTimeout : Nat
  authenticationTimeout : Nat
deriving DecidableEq, Repr

def asSecs (duration : Nat) : Nat := duration / 10 ^ 9

def Timeouts.validateTimeouts (timeouts : Timeouts) : Result Unit := do
  Result.bailIf (timeouts.connectTimeout = 0) "SSH connect timeout must be greater than zero"
  Result.bailIf (timeouts.channelOpenTimeout = 0)
    "SSH channel-open timeout must be greater than zero"
  Result.bailIf (timeouts.channelRequestTimeout = 0)
    "SSH channel request timeout must be greater than zero"
  Result.bailIf (timeouts.authenticationTimeout = 0)
    "SSH authentication timeout must be greater than zero"

/-! ## The environment -/

inductive ConnectQuestion where
  | emit (event : ConnectionProgress)
  /-- Read the configuration of the SSH library for a host. -/
  | sshConfig (handler : ClientHandler)
  | spawnProxyCommand (command : String)
  /-- Connect to a host and shake hands with its server. -/
  | connect (handler : ClientHandler)
  /-- Shake hands with the server at the other end of a command or of a tunnel. -/
  | connectStream (session : SshSession)
  | channelOpenDirectTcpip (session : SshSession) (host : String) (port : UInt16)
  | authentication (request : JumpAuthRequest)
  | authenticate (question : AuthQuestion SshSession)

/-- What is replied in time, if anything. -/
def ConnectQuestion.Reply : ConnectQuestion → Type
  | .emit _ => Unit
  | .sshConfig _ | .spawnProxyCommand _ => Result Unit
  | .connect _ | .connectStream _ | .channelOpenDirectTcpip _ _ _ => Option (Result Unit)
  | .authentication _ => Result (Option Authentication)
  | .authenticate question => Option question.Reply

abbrev Connecting (α : Type) := Asking ConnectQuestion ConnectQuestion.Reply α

/-- Wait for a reply, with what is said when it does not come and when it is a failure. -/
def waitFor (late failed : String) : Option (Result Unit) → Result Unit
  | none => context late (Result.bail "deadline has elapsed")
  | some result => result.context failed

def emitProgress (progress : Bool) (event : ConnectionProgress) : Connecting Unit :=
  if progress then query (.emit event) .ok else pure ()

def JumpHost.jumpHandler (jump : JumpHost) : ClientHandler where
  host := jump.host
  port := jump.port
  hostKeyPolicy := jump.hostKeyPolicy
  knownHostsFile := jump.knownHostsFile

def ConnectionConfig.handlerFor (config : ConnectionConfig) : ClientHandler where
  host := config.host
  port := config.port
  hostKeyPolicy := config.hostKeyPolicy
  knownHostsFile := config.knownHostsFile

/-- Authenticate within a time limit. -/
def authenticateInTime (late : String) (session : SshSession) (username : String)
    (authentication : Authentication) : Connecting Bool :=
  ExceptT.mk (timeout ConnectQuestion.authenticate (fun _ reply ↦ reply)
    (authenticate session username authentication).run >>= fun result ↦
      .done (match result with
        | some result => result
        | none => context late (Result.bail "deadline has elapsed")))

section

variable (config : ConnectionConfig) (timeouts : Timeouts) (progress : Bool)

/-! ## One jump host -/

/-- How errors begin that are about a hop. -/
def hopText (index total : Nat) (jump : JumpHost) : String :=
  s!"jump {index + 1}/{total} {jump.hostAlias} ({jump.host}:{jump.port.toNat}): "

/-- The session with a jump host, through that with the one before it. -/
def connectJump (index total : Nat) (jump : JumpHost) :
    Option SshSession → Connecting SshSession
  | some previous => do
      query (.channelOpenDirectTcpip previous jump.host jump.port) (waitFor
        (hopText index total jump ++
          s!"tunnel open timed out after {asSecs timeouts.channelOpenTimeout} seconds")
        (hopText index total jump ++ "failed to open tunnel"))
      query (.connectStream (.through previous jump.jumpHandler)) (waitFor
        (hopText index total jump ++
          s!"SSH handshake timed out after {asSecs timeouts.connectTimeout} seconds")
        (hopText index total jump ++ "SSH handshake failed"))
      return .through previous jump.jumpHandler
  | none => do
      query (.connect jump.jumpHandler) (waitFor
        (hopText index total jump ++
          s!"connection timed out after {asSecs timeouts.connectTimeout} seconds")
        (hopText index total jump ++ "connection failed"))
      return .direct jump.jumpHandler

/-- The attempts from one on, of which so many are left. -/
def authenticateJump (index total : Nat) (jump : JumpHost) (next : SshSession) :
    Nat → Nat → Bool → Connecting Unit
  | 0, _, _ => Asking.bail (hopText index total jump ++
      s!"authentication failed after {MAX_JUMP_AUTH_ATTEMPTS} attempts")
  | left + 1, attempt, previousFailed => do
      match (← query (.authentication ⟨index, total, attempt, jump, previousFailed⟩) id) with
      | none =>
          if previousFailed then
            Asking.bail (hopText index total jump ++
              "authentication failed; credential provider declined retry")
          else
            Asking.bail (hopText index total jump ++
              s!"authentication cancelled before attempt {attempt}")
      | some authentication =>
          let method := authenticationKind authentication
          emitProgress progress (.jumpAuthenticating index total jump.hostAlias attempt method)
          let accepted ← authenticateInTime
            (hopText index total jump ++ s!"authentication attempt {attempt} timed out after " ++
              s!"{asSecs timeouts.authenticationTimeout} seconds")
            next jump.username authentication
          if accepted then
            emitProgress progress (.jumpAuthenticated index total jump.hostAlias method)
          else
            emitProgress progress (.jumpAuthenticationFailed index total jump.hostAlias attempt)
            authenticateJump index total jump next left (attempt + 1) true

/-! ## The chain -/

/-- The sessions with the jump hosts from one on: that with the last of them, and before it those
that it depends on. -/
def connectJumps (total : Nat) :
    Nat → List SshSession → Option SshSession → List JumpHost →
      Connecting (List SshSession × Option SshSession)
  | _, keepalive, current, [] => pure (keepalive, current)
  | index, keepalive, current, jump :: jumps => do
      emitProgress progress
        (.jumpConnecting index total jump.hostAlias jump.host jump.port)
      query (.sshConfig jump.jumpHandler) id
      let next ← connectJump timeouts index total jump current
      emitProgress progress (.jumpConnected index total jump.hostAlias)
      authenticateJump timeouts progress index total jump next MAX_JUMP_AUTH_ATTEMPTS 1 false
      connectJumps total (index + 1) (keepalive ++ current.toList) (some next) jumps

def connectViaJumps : Connecting (SshSession × List SshSession) := do
  let (keepalive, current) ← connectJumps timeouts progress config.jumpHosts.length 0 [] none
    config.jumpHosts
  let last ← ofResult (ofOption "ProxyJump chain is empty" current)
  emitProgress progress (.finalConnecting config.hostAlias config.host config.port)
  query (.channelOpenDirectTcpip last config.host config.port) (waitFor
    (s!"final ProxyJump tunnel to {config.host}:{config.port.toNat} timed out after " ++
      s!"{asSecs timeouts.channelOpenTimeout} seconds")
    s!"failed to open final ProxyJump tunnel to {config.host}:{config.port.toNat}")
  query (.connectStream (.through last config.handlerFor)) (waitFor
    ("final SSH handshake through ProxyJump timed out after " ++
      s!"{asSecs timeouts.connectTimeout} seconds")
    "final SSH handshake through ProxyJump failed")
  return (.through last config.handlerFor, keepalive ++ [last])

/-! ## The connection -/

/-- The command that is started for a host (`ProxyCommandStream::spawn`). -/
def spawnProxyCommand (template : String) : Connecting String := do
  if Text.eqIgnoreAsciiCase template "none" then
    Asking.bail "ProxyCommand is disabled by configuration"
  else
    let expanded ← ofResult (expandProxyCommand template config)
    query (.spawnProxyCommand expanded) (context
      s!"failed to start ProxyCommand: {expanded}")
    return expanded

/-- The session with the host, and those with jump hosts that it depends on. -/
def connectRoute : Connecting (SshSession × List SshSession) :=
  if config.jumpHosts ≠ [] then connectViaJumps config timeouts progress
  else
    match config.proxyCommand with
    | some proxyCommand => do
        emitProgress progress (.finalConnecting config.hostAlias config.host config.port)
        let command ← spawnProxyCommand config proxyCommand
        query (.connectStream (.proxied command config.handlerFor)) (waitFor
          ("SSH handshake through ProxyCommand timed out after " ++
            s!"{asSecs timeouts.connectTimeout} seconds")
          "SSH handshake through ProxyCommand failed")
        return (.proxied command config.handlerFor, [])
    | none => do
        emitProgress progress (.finalConnecting config.hostAlias config.host config.port)
        query (.connect config.handlerFor) (waitFor
          (s!"SSH connection to {config.host}:{config.port.toNat} timed out after " ++
            s!"{asSecs timeouts.connectTimeout} seconds")
          s!"failed to connect to {config.host}:{config.port.toNat}")
        return (.direct config.handlerFor, [])

structure SshClient where
  session : SshSession
  jumpSessions : List SshSession
  config : ConnectionConfig

def connectWithJumpAuth (authentication : Authentication) : Connecting SshClient := do
  ofResult timeouts.validateTimeouts
  query (.sshConfig config.handlerFor) id
  let (session, jumpSessions) ← connectRoute config timeouts progress
  emitProgress progress
    (.finalAuthenticating config.hostAlias config.username (authenticationKind authentication))
  let authenticated ← authenticateInTime
    (s!"SSH authentication for user {config.username} timed out after " ++
      s!"{asSecs timeouts.authenticationTimeout} seconds")
    session config.username authentication
  if authenticated then
    emitProgress progress (.connected config.hostAlias)
    return { session, jumpSessions, config }
  else
    Asking.bail s!"SSH authentication failed for user {config.username}"

end

end KaduoxSsh.Core
