import KaduoxSsh.Hosts.Toml
import KaduoxSsh.Lib.Words

/-!
# Trust in the keys of a server

`host_trust.rs` and `check_server_key` of `handler.rs`: the marker lines of a
known_hosts file name the authorities whose certificates are trusted for a host and
the keys that are revoked for it. All other lines are for the look-up of plain keys,
which is not part of the program.

The record `Primitives` holds what comes from outside: how keys and host patterns
are read, the digests, the checks of a certificate that need its signature, and the
look-up of plain keys. A key stands here for a key without a comment: the texts that
are read hold none, and neither do certificates.
-/

namespace KaduoxSsh.Core

open Text Result
open Hosts (trim)
open Hosts.Toml (lines)

def MAX_KNOWN_HOSTS_BYTES : Nat := 8 * 1024 * 1024

inductive HostKeyPolicy where
  | strict
  | acceptNew
  | insecure
deriving DecidableEq, Repr

inductive HostKeyVerification where
  | known
  | learned
  | insecure
deriving DecidableEq, Repr

inductive Algorithm where
  | ed25519
  | ecdsa (curve : String)
  | other (name : String)
deriving DecidableEq, Repr

inductive CertType where
  | user
  | host
deriving DecidableEq, Repr

inductive HostPatterns where
  | patterns (patterns : List String)
  | hashedName (salt hash : List UInt8)
deriving DecidableEq, Repr

/-- A certificate; what only its validation reads is its body. -/
structure Certificate (Key Body : Type) where
  certType : CertType
  publicKey : Key
  signatureKey : Key
  validPrincipals : List String
  criticalOptions : List (String × String)
  body : Body

inductive PublicKeyOrCertificate (Key Body : Type) where
  | publicKey (key : Key)
  | certificate (certificate : Certificate Key Body)

/-- What the path of a known_hosts file leads to. -/
inductive KnownHostsFile where
  | absent
  | closed (error : AnyError)
  | broken (error : AnyError)
  | holds (bytes : List UInt8)

structure Primitives (Key Body Fingerprint : Type) where
  fromOpenssh : String → Result Key
  parsePatterns : String → Result HostPatterns
  algorithm : Key → Algorithm
  fingerprint : Key → Fingerprint
  /-- The code of a message under a key. -/
  hmacSha1 : List UInt8 → List UInt8 → List UInt8
  /-- The signature, the authority and the time window of a certificate. -/
  validate : Certificate Key Body → List Fingerprint → Result Unit
  checkKnownHosts : String → UInt16 → Key → KnownHostsFile → Result Bool
  learnKnownHosts : String → UInt16 → Key → PathBuf → Result Unit

/-! ## Wildcards -/

/-- Where the search for a match stands: the text since the last star begins at `starCandidate`. -/
structure WildcardSearch where
  patternIndex : Nat
  candidateIndex : Nat
  starIndex : Option Nat
  starCandidate : Nat
  le : starCandidate ≤ candidateIndex

/-- A byte without regard to the case of ASCII letters. -/
def lowerByte (b : UInt8) : UInt8 := if 65 ≤ b ∧ b ≤ 90 then b + 32 else b

/-- One number that decreases when the first of two does, or the second alone, which is bounded. -/
theorem lexicographic_lt {a a' b b' bound : Nat} (h : a' < a ∨ a' = a ∧ b' < b)
    (hbound : b' < bound) : a' * bound + b' < a * bound + b := by
  rcases h with h | ⟨rfl, h⟩
  · calc a' * bound + b' < (a' + 1) * bound := by
          rw [Nat.succ_mul]
          omega
      _ ≤ a * bound := Nat.mul_le_mul_right bound h
      _ ≤ a * bound + b := Nat.le_add_right _ _
  · omega

/-- How much of the pattern the text takes; none when the text is not matched. -/
def wildcardSearch (pattern candidate : List UInt8) (s : WildcardSearch) : Option Nat :=
  if hcandidate : s.candidateIndex < candidate.length then
    if hpattern : s.patternIndex < pattern.length then
      if pattern[s.patternIndex] = 63 ∨
          lowerByte pattern[s.patternIndex] = lowerByte candidate[s.candidateIndex] then
        wildcardSearch pattern candidate { s with
          patternIndex := s.patternIndex + 1
          candidateIndex := s.candidateIndex + 1
          le := Nat.le_succ_of_le s.le }
      else if pattern[s.patternIndex] = 42 then
        wildcardSearch pattern candidate { s with
          starIndex := some s.patternIndex
          patternIndex := s.patternIndex + 1
          starCandidate := s.candidateIndex
          le := Nat.le_refl _ }
      else
        match s.starIndex with
        | some star => wildcardSearch pattern candidate { s with
            patternIndex := star + 1
            starCandidate := s.starCandidate + 1
            candidateIndex := s.starCandidate + 1
            le := Nat.le_refl _ }
        | none => none
    else
      match s.starIndex with
      | some star => wildcardSearch pattern candidate { s with
          patternIndex := star + 1
          starCandidate := s.starCandidate + 1
          candidateIndex := s.starCandidate + 1
          le := Nat.le_refl _ }
      | none => none
  else some s.patternIndex
termination_by (candidate.length - s.starCandidate) * (pattern.length + candidate.length + 1) +
  ((pattern.length - s.patternIndex) + (candidate.length - s.candidateIndex))
decreasing_by
  all_goals
    have hle := s.le
    refine lexicographic_lt ?_ ?_ <;> omega

def wildcardMatch (pattern candidate : List UInt8) : Bool :=
  match wildcardSearch pattern candidate ⟨0, 0, none, 0, Nat.le_refl _⟩ with
  | some patternIndex => (pattern.drop patternIndex).all (· == 42)
  | none => false

/-! ## Host patterns -/

def knownHostsTarget (host : String) (port : UInt16) : String :=
  if port = 22 then host else s!"[{host}]:{port}"

/-- The patterns from the first one on, of which one has matched before. -/
def clearPatternsMatch (target : List UInt8) : List String → Bool → Result Bool
  | [], positiveMatch => .ok positiveMatch
  | pattern :: rest, positiveMatch =>
      if pattern = "" then Result.bail "known_hosts host pattern list contains an empty entry"
      else
        match stripPrefix pattern "!" with
        | some negated =>
            if negated = "" then Result.bail "known_hosts negated host pattern is empty"
            else if wildcardMatch (utf8 negated) target then .ok false
            else clearPatternsMatch target rest positiveMatch
        | none =>
            clearPatternsMatch target rest (positiveMatch || wildcardMatch (utf8 pattern) target)

def clearHostPatternsMatch (target : String) (patterns : List String) : Result Bool :=
  clearPatternsMatch (utf8 (toAsciiLowercase target)) patterns false

def hostPrincipalMatches (host principal : String) : Bool :=
  wildcardMatch (utf8 (toAsciiLowercase principal)) (utf8 (toAsciiLowercase host))

/-! ## The policy of a file -/

structure HostTrustPolicy (Key : Type) where
  trustedCertificateAuthorities : List Key
  revokedKeys : List Key

inductive Marker where
  | certAuthority
  | revoked
deriving DecidableEq, Repr

def Marker.text : Marker → String
  | .certAuthority => "@cert-authority"
  | .revoked => "@revoked"

def Marker.ofText (text : String) : Option Marker :=
  if text = "@cert-authority" then some .certAuthority
  else if text = "@revoked" then some .revoked
  else none

def splitAsciiWhitespace (line : List Char) : List String :=
  ((line.splitOnP fun c ↦ c ∈ [' ', '\t', '\n', '\x0c', '\r']).filter (· ≠ [])).map String.ofList

/-- A line that is neither empty, nor a comment, nor for plain keys. -/
def isMarkerLine (rawLine : List Char) : Bool := (trim rawLine).head? = some '@'

section

variable {Key Body Fingerprint : Type} [DecidableEq Key]
variable (primitives : Primitives Key Body Fingerprint)

def hashedHostMatches (target : String) (salt expectedHash : List UInt8) : Bool :=
  primitives.hmacSha1 salt (utf8 target) = expectedHash

def hostPatternsMatch (target : String) : HostPatterns → Result Bool
  | .patterns patterns => clearHostPatternsMatch target patterns
  | .hashedName salt hash => .ok (hashedHostMatches primitives target salt hash)

/-- The key that a marker line marks for the target, if it does. -/
def markerLine (target : String) (lineIndex : Nat) (rawLine : List Char) :
    Result (Option (Marker × Key)) :=
  if !isMarkerLine rawLine then .ok none
  else do
    let fields := splitAsciiWhitespace (trim rawLine)
    let name := fields[0]?.getD ""
    let marker ← ofOption
      (s!"unsupported known_hosts marker {debug name} on line {lineIndex + 1}; " ++
        "refusing ambiguous trust policy") (Marker.ofText name)
    let patternsText ← ofOption
      s!"known_hosts marker on line {lineIndex + 1} is missing host patterns" fields[1]?
    let patterns ← (primitives.parsePatterns patternsText).context
      s!"invalid known_hosts host pattern on marker line {lineIndex + 1}"
    let algorithm ← ofOption
      s!"known_hosts marker on line {lineIndex + 1} is missing a key algorithm" fields[2]?
    let encodedKey ← ofOption
      s!"known_hosts marker on line {lineIndex + 1} is missing key data" fields[3]?
    if !(← hostPatternsMatch primitives target patterns) then return none
    else do
      let key ← (primitives.fromOpenssh s!"{algorithm} {encodedKey}").context
        s!"invalid public key on known_hosts marker line {lineIndex + 1}"
      return some (marker, key)

namespace HostTrustPolicy

/-- The policy with one more key. -/
def push (policy : HostTrustPolicy Key) : Option (Marker × Key) → HostTrustPolicy Key
  | none => policy
  | some (.certAuthority, key) =>
      { policy with trustedCertificateAuthorities := policy.trustedCertificateAuthorities ++ [key] }
  | some (.revoked, key) => { policy with revokedKeys := policy.revokedKeys ++ [key] }

def parseLines (target : String) : Nat → List (List Char) → HostTrustPolicy Key →
    Result (HostTrustPolicy Key)
  | _, [], policy => .ok policy
  | lineIndex, rawLine :: rest, policy => do
      let entry ← markerLine primitives target lineIndex rawLine
      parseLines target (lineIndex + 1) rest (policy.push entry)

def dedupPublicKeys (keys : List Key) : List Key :=
  keys.foldl (fun unique key ↦ if key ∈ unique then unique else unique ++ [key]) []

def parse (host : String) (port : UInt16) (contents : String) : Result (HostTrustPolicy Key) := do
  let policy ← parseLines primitives (knownHostsTarget host port) 0 (lines contents.toList) ⟨[], []⟩
  return ⟨dedupPublicKeys policy.trustedCertificateAuthorities, dedupPublicKeys policy.revokedKeys⟩

def isRevoked (policy : HostTrustPolicy Key) (key : Key) : Bool :=
  policy.revokedKeys.any (· = key)

def isVerifiableCertificateAuthority (key : Key) : Bool :=
  match primitives.algorithm key with
  | .ed25519 | .ecdsa _ => true
  | .other _ => false

def verifyHostCertificate (policy : HostTrustPolicy Key) (host : String)
    (certificate : Certificate Key Body) : Result Unit := do
  Result.bailIf (certificate.certType ≠ .host)
    "server presented a user certificate where a host certificate is required"
  Result.bailIf (policy.isRevoked certificate.publicKey)
    "server host certificate public key is marked @revoked"
  Result.bailIf (policy.isRevoked certificate.signatureKey)
    "server host certificate signing CA is marked @revoked"
  Result.bailIf (!isVerifiableCertificateAuthority primitives certificate.signatureKey)
    ("server host certificate uses a CA algorithm that is not enabled by the current " ++
      "verifier")
  let caFingerprints := (policy.trustedCertificateAuthorities.filter
    (isVerifiableCertificateAuthority primitives)).map primitives.fingerprint
  Result.bailIf (caFingerprints.isEmpty)
    ("server presented a host certificate but no matching verifiable @cert-authority is " ++
      "trusted")
  (primitives.validate certificate caFingerprints).context
    "server host certificate signature, authority, or validity window is invalid"
  Result.bailIf (!certificate.criticalOptions.isEmpty)
    "server host certificate contains unsupported critical options"
  Result.bailIf (!certificate.validPrincipals.isEmpty &&
      !certificate.validPrincipals.any (hostPrincipalMatches host))
    s!"server host certificate does not authorize hostname {debug host}"

def readKnownHostsBounded (path : PathBuf) : KnownHostsFile → Result (Option String)
  | .absent => .ok none
  | .closed error => context
      s!"failed to open known_hosts file {path.toStringLossy}" (.error error)
  | .broken error => context
      s!"failed to read known_hosts file {path.toStringLossy}" (.error error)
  | .holds bytes => do
      let contents ← (ofOption "stream did not contain valid UTF-8"
        (fromUtf8 (bytes.take (MAX_KNOWN_HOSTS_BYTES + 1)))).context
          s!"failed to read known_hosts file {path.toStringLossy}"
      Result.bailIf (contents.utf8ByteSize > MAX_KNOWN_HOSTS_BYTES)
        (s!"known_hosts file {path.toStringLossy} exceeds the {MAX_KNOWN_HOSTS_BYTES}-byte " ++
          "safety limit")
      return some contents

def loadPath (host : String) (port : UInt16) (path : PathBuf) (file : KnownHostsFile) :
    Result (HostTrustPolicy Key) := do
  match ← readKnownHostsBounded path file with
  | none => return ⟨[], []⟩
  | some contents =>
      (parse primitives host port contents).context
        s!"failed to parse host trust markers in {path.toStringLossy}"

end HostTrustPolicy

/-! ## The decision -/

structure ClientHandler where
  host : String
  port : UInt16
  hostKeyPolicy : HostKeyPolicy
  knownHostsFile : Option PathBuf

structure ServerHostKeyInfo (Fingerprint : Type) where
  algorithm : Algorithm
  fingerprintSha256 : Fingerprint
  verification : HostKeyVerification
deriving DecidableEq

/-- The file system, as far as it is looked at. -/
structure Disk where
  homeDir : Option PathBuf
  file : PathBuf → KnownHostsFile

def defaultKnownHostsPath (disk : Disk) : Result PathBuf := do
  let home ← ofOption "failed to resolve home directory for known_hosts" disk.homeDir
  return ⟨home.bytes ++ utf8 "/.ssh/known_hosts"⟩

namespace ClientHandler

variable (handler : ClientHandler) (disk : Disk)

def knownHostsPath : Result PathBuf :=
  match handler.knownHostsFile with
  | some path => .ok path
  | none => defaultKnownHostsPath disk

def load : Result (HostTrustPolicy Key) := do
  let path ← handler.knownHostsPath disk
  HostTrustPolicy.loadPath primitives handler.host handler.port path (disk.file path)

/-- What is recorded of the key. -/
def recorded (key : Key) (verification : HostKeyVerification) :
    Option (ServerHostKeyInfo Fingerprint) :=
  some ⟨primitives.algorithm key, primitives.fingerprint key, verification⟩

/-- The look-up of a plain key, once it is known not to be revoked. -/
def checkPlainKey (publicKey : Key) : Result (Bool × Option (ServerHostKeyInfo Fingerprint)) := do
  let path ← handler.knownHostsPath disk
  let known ← primitives.checkKnownHosts handler.host handler.port publicKey (disk.file path)
  if known then return (true, recorded primitives publicKey .known)
  else if handler.hostKeyPolicy = .strict then return (false, none)
  else do
    primitives.learnKnownHosts handler.host handler.port publicKey path
    return (true, recorded primitives publicKey .learned)

/-- Whether the key is accepted, and what is recorded of it. -/
def checkServerKey (serverPublicKey : PublicKeyOrCertificate Key Body) :
    Result (Bool × Option (ServerHostKeyInfo Fingerprint)) :=
  match serverPublicKey with
  | .certificate certificate => do
      Result.bailIf (handler.hostKeyPolicy = .insecure)
        ("server unexpectedly presented a host certificate while certificate trust is disabled " ++
          "by insecure host-key policy")
      let trust ← (handler.load primitives disk).context
        s!"failed to load host certificate trust for {handler.host}"
      (trust.verifyHostCertificate primitives handler.host certificate).context
        s!"host certificate for {handler.host} was rejected"
      return (true, recorded primitives certificate.publicKey .known)
  | .publicKey publicKey => do
      let trust ← (handler.load primitives disk).context
        s!"failed to load host-key revocation policy for {handler.host}"
      Result.bailIf (trust.isRevoked publicKey)
        s!"server host key for {handler.host} is marked @revoked"
      if handler.hostKeyPolicy = .insecure then
        return (true, recorded primitives publicKey .insecure)
      else checkPlainKey primitives handler disk publicKey

end ClientHandler

end

end KaduoxSsh.Core
