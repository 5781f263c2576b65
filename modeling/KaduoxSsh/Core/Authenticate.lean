import KaduoxSsh.Core.ConnectionManager
import KaduoxSsh.Lib.Interaction
import KaduoxSsh.Lib.UnixPath

/-!
# Authentication

`auth.rs`: how a client proves to a server who its user is. The server of the session, the SSH
agent, the files of the keys and the passphrases that are kept for them are the environment: what
is asked of them are questions, and anything may be replied. The sessions are those of the SSH
library, and nothing is known here but which one a message goes over.

Passwords and the answers of the keyboard-interactive method are sent to the server. Passphrases
open the files of keys and go nowhere else.
-/

namespace KaduoxSsh.Core

open Asking (query ofResult)

def MAX_KEYBOARD_INTERACTIVE_ROUNDS : Nat := 16

def MAX_KEYBOARD_INTERACTIVE_PROMPTS_PER_ROUND : Nat := 32

def MAX_KEYBOARD_INTERACTIVE_TOTAL_PROMPTS : Nat := 64

def DEFAULT_IDENTITY_NAMES : List String := ["id_ed25519", "id_ecdsa"]

/-! ## The environment -/

inductive MethodKind where
  | none
  | password
  | publicKey
  | hostBased
  | keyboardInteractive
deriving DecidableEq, Repr

/-- The methods that a server goes on to accept, in its order. -/
abbrev MethodSet := List MethodKind

inductive AuthResult where
  | success
  | failure (remainingMethods : MethodSet)
deriving DecidableEq, Repr

def AuthResult.isSuccess : AuthResult → Bool
  | .success => true
  | .failure _ => false

/-- A prompt of the server, without the wish to see what is typed. -/
structure Prompt where
  prompt : String
deriving DecidableEq, Repr

inductive KeyboardInteractiveAuthResponse where
  | success
  | failure (remainingMethods : MethodSet)
  | infoRequest (prompts : List Prompt)
deriving DecidableEq, Repr

/-- A key out of a file. -/
structure PrivateKey where
  rsa : Bool
  material : List UInt8
deriving DecidableEq, Repr

inductive AgentIdentity where
  | publicKey (key : List UInt8)
  | certificate (certificate : List UInt8)
deriving DecidableEq, Repr

/-- The digest of RSA signatures, as the library negotiates it. -/
inductive HashAlg where
  | sha256
  | sha512
deriving DecidableEq, Repr

/-- What is sent over a session. -/
inductive SessionRequest where
  | password (username secret : String)
  | keyboardInteractiveStart (username : String)
  | keyboardInteractiveRespond (responses : List String)
  | publickey (username : String) (key : PrivateKey)
  /-- Signed by the agent. -/
  | publickeyWith (username : String) (identity : AgentIdentity) (hash : Option HashAlg)
deriving DecidableEq, Repr

inductive AuthQuestion (Session : Type) where
  | request (session : Session) (request : SessionRequest)
  | bestSupportedRsaHash (session : Session)
  | connectSystemAgent
  | requestIdentities
  | tryExists (path : PathBuf)
  | loadSecretKey (path : PathBuf) (passphrase : Option String)
  | storedKeyPassphrase (path : PathBuf)
  | userHomeDir
deriving DecidableEq, Repr

/-- What is replied to a message. -/
def SessionRequest.Reply : SessionRequest → Type
  | .password _ _ | .publickey _ _ | .publickeyWith _ _ _ => Result AuthResult
  | .keyboardInteractiveStart _ | .keyboardInteractiveRespond _ =>
      Result KeyboardInteractiveAuthResponse

def AuthQuestion.Reply {Session : Type} : AuthQuestion Session → Type
  | .request _ message => message.Reply
  | .bestSupportedRsaHash _ => Result (Option (Option HashAlg))
  | .connectSystemAgent => Result Unit
  | .requestIdentities => Result (List AgentIdentity)
  | .tryExists _ => Result Bool
  | .loadSecretKey _ _ => Result PrivateKey
  | .storedKeyPassphrase _ => Option String
  | .userHomeDir => Option PathBuf

/-- A computation of a client that authenticates itself. -/
abbrev Authenticating (Session α : Type) :=
  Asking (AuthQuestion Session) AuthQuestion.Reply α

section

variable {Session : Type} (session : Session) (username : String)

/-- Let the server see a secret. -/
def authenticatePassword (secret : String) : Authenticating Session AuthResult :=
  query (.request session (.password username secret)) id

def authenticateKeyboardInteractiveStart :
    Authenticating Session KeyboardInteractiveAuthResponse :=
  query (.request session (.keyboardInteractiveStart username)) id

def authenticateKeyboardInteractiveRespond (responses : List String) :
    Authenticating Session KeyboardInteractiveAuthResponse :=
  query (.request session (.keyboardInteractiveRespond responses)) id

def authenticatePublickey (key : PrivateKey) : Authenticating Session AuthResult :=
  query (.request session (.publickey username key)) id

/-- Let the agent sign for an identity of its own. -/
def authenticatePublickeyWith (identity : AgentIdentity) (hash : Option HashAlg) :
    Authenticating Session AuthResult :=
  query (.request session (.publickeyWith username identity hash)) id

def loadSecretKey (path : PathBuf) (passphrase : Option String) :
    Authenticating Session PrivateKey := query (.loadSecretKey path passphrase) id

/-! ## The keyboard-interactive method -/

def validateKeyboardInteractiveRequest (rounds promptCount previousTotalPrompts : Nat) :
    Result Nat := do
  Result.bailIf (rounds > MAX_KEYBOARD_INTERACTIVE_ROUNDS)
    (s!"keyboard-interactive authentication exceeded the {MAX_KEYBOARD_INTERACTIVE_ROUNDS}" ++
      "-round safety limit")
  Result.bailIf (promptCount > MAX_KEYBOARD_INTERACTIVE_PROMPTS_PER_ROUND)
    (s!"keyboard-interactive authentication returned {promptCount} prompts in one round; " ++
      s!"limit is {MAX_KEYBOARD_INTERACTIVE_PROMPTS_PER_ROUND}")
  let totalPrompts ← Result.ofOption "keyboard-interactive prompt counter overflow"
    (if previousTotalPrompts + promptCount < 2 ^ 64 then some (previousTotalPrompts + promptCount)
      else none)
  Result.bailIf (totalPrompts > MAX_KEYBOARD_INTERACTIVE_TOTAL_PROMPTS)
    (s!"keyboard-interactive authentication exceeded the " ++
      s!"{MAX_KEYBOARD_INTERACTIVE_TOTAL_PROMPTS}-prompt safety limit")
  return totalPrompts

inductive KeyboardInteractiveOutcome where
  | success
  /-- The server refused the method or the credential. -/
  | rejected (remainingMethods : MethodSet)
deriving DecidableEq, Repr

def Prompt.response (secret : String) (prompt : Prompt) : String :=
  if prompt.prompt = "" then "" else secret

/-- The rounds after `MAX_KEYBOARD_INTERACTIVE_ROUNDS - left` of them. -/
def keyboardInteractiveRounds (secret : String) :
    Nat → Nat → KeyboardInteractiveAuthResponse → Authenticating Session KeyboardInteractiveOutcome
  | _, _, .success => pure .success
  | _, _, .failure remainingMethods => pure (.rejected remainingMethods)
  -- The first check of the next round fails.
  | 0, totalPrompts, .infoRequest prompts => do
      let _ ← ofResult (validateKeyboardInteractiveRequest (MAX_KEYBOARD_INTERACTIVE_ROUNDS + 1)
        prompts.length totalPrompts)
      Asking.bail ""
  | left + 1, totalPrompts, .infoRequest prompts => do
      let totalPrompts ← ofResult (validateKeyboardInteractiveRequest
        (MAX_KEYBOARD_INTERACTIVE_ROUNDS - left) prompts.length totalPrompts)
      let responses := prompts.map (Prompt.response secret)
      let response ← authenticateKeyboardInteractiveRespond session responses
      keyboardInteractiveRounds secret left totalPrompts response

def authenticateKeyboardInteractive (secret : String) :
    Authenticating Session KeyboardInteractiveOutcome := do
  let response ← authenticateKeyboardInteractiveStart session username
  keyboardInteractiveRounds session secret MAX_KEYBOARD_INTERACTIVE_ROUNDS 0 response

/-! ## Passwords -/

/-- The other method for a secret, when the server goes on with that one alone. -/
def retrySiblingPasswordMethod (secret : String) (rejected : MethodKind)
    (remainingMethods : MethodSet) : Authenticating Session Bool :=
  match rejected with
  | .password =>
      if .password ∈ remainingMethods ∨ .keyboardInteractive ∉ remainingMethods then pure false
      else do
        return (← authenticateKeyboardInteractive session username secret) = .success
  | .keyboardInteractive =>
      if .keyboardInteractive ∈ remainingMethods ∨ .password ∉ remainingMethods then pure false
      else do
        return (← authenticatePassword session username secret).isSuccess
  | _ => pure false

/-! ## Keys -/

/-- The passphrase that is kept for a file, if none was given. -/
def storedPassphrase (path : PathBuf) (passphrase : Option String) :
    Authenticating Session (Option String) :=
  if passphrase = none then query (.storedKeyPassphrase path) .ok else pure none

def loadIdentity (path : PathBuf) (passphrase : Option String) :
    Authenticating Session PrivateKey := do
  match (← (loadSecretKey path passphrase).outcome) with
  | .ok key => pure key
  | .error error =>
      match (← storedPassphrase path passphrase) with
      | some storedPassphrase =>
          (loadSecretKey path (some storedPassphrase)).context
            s!"failed to load private key {path.toStringLossy} with the stored passphrase"
      | none =>
          (ofResult (.error error)).context s!"failed to load private key {path.toStringLossy}"

def authenticatePrivateKey (path : PathBuf) (passphrase : Option String) :
    Authenticating Session Bool := do
  let key ← loadIdentity path passphrase
  if key.rsa then
    Asking.bail ("direct RSA private-key authentication is disabled because the current Russh " ++
      "RSA signer depends on RUSTSEC-2023-0071; use an SSH agent for RSA keys or migrate the " ++
      "key to Ed25519/ECDSA")
  else
    return (← authenticatePublickey session username key).isSuccess

/-- The identities of the agent, one after the other. -/
def tryIdentities (rsaHash : Option HashAlg) : List AgentIdentity → Authenticating Session Bool
  | [] => pure false
  | identity :: identities => do
      let result ← authenticatePublickeyWith session username identity rsaHash
      if result.isSuccess then pure true else tryIdentities rsaHash identities

def authenticateWithAgent : Authenticating Session Bool := do
  query (α := Unit) .connectSystemAgent id
  let identities : List AgentIdentity ← query .requestIdentities id
  if identities = [] then pure false
  else
    let rsaHash : Option (Option HashAlg) ← query (.bestSupportedRsaHash session) id
    tryIdentities session username (rsaHash.getD none) identities

def defaultIdentityCandidates (home : PathBuf) : List PathBuf :=
  DEFAULT_IDENTITY_NAMES.map fun name ↦
    (home.push (PathBuf.ofString ".ssh")).push (PathBuf.ofString name)

def identityCandidates (configured : List PathBuf) : Authenticating Session (List PathBuf) :=
  if configured ≠ [] then pure configured
  else do
    let home : Option PathBuf ← query .userHomeDir .ok
    return home.elim [] defaultIdentityCandidates

/-- The files of keys, one after the other, and the first failure with one of them. -/
def tryIdentityFiles (passphrase : Option String) :
    Option AnyError → List PathBuf → Authenticating Session Bool
  | none, [] => pure false
  | some error, [] => (ofResult (.error error)).context
      "automatic SSH authentication exhausted all available identity files"
  | firstIdentityError, path :: paths => do
      match (← (query (.tryExists path) id : Authenticating Session Bool).outcome) with
      | .ok false => tryIdentityFiles passphrase firstIdentityError paths
      | .error error =>
          let error := ⟨⟨s!"failed to inspect SSH identity {path.toStringLossy}", none⟩ ::
            error.chain⟩
          tryIdentityFiles passphrase (firstIdentityError.or (some error)) paths
      | .ok true =>
          match (← (authenticatePrivateKey session username path passphrase).outcome) with
          | .ok true => pure true
          | .ok false => tryIdentityFiles passphrase firstIdentityError paths
          | .error error =>
              tryIdentityFiles passphrase (firstIdentityError.or (some error)) paths

/-! ## All of it -/

def authenticate : Authentication → Authenticating Session Bool
  | .password secret => do
      match (← authenticatePassword session username secret) with
      | .success => pure true
      | .failure remainingMethods =>
          retrySiblingPasswordMethod session username secret .password remainingMethods
  | .keyboardInteractive secret => do
      match (← authenticateKeyboardInteractive session username secret) with
      | .success => pure true
      | .rejected remainingMethods =>
          retrySiblingPasswordMethod session username secret .keyboardInteractive remainingMethods
  | .privateKey path passphrase => authenticatePrivateKey session username path passphrase
  | .agent => authenticateWithAgent session username
  | .auto identityFiles passphrase => do
      let agent ← (authenticateWithAgent session username).outcome
      if agent.toOption = some true then pure true
      else
        tryIdentityFiles session username passphrase none (← identityCandidates identityFiles)

end

end KaduoxSsh.Core
