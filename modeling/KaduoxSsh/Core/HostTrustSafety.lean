import KaduoxSsh.Core.HostTrust

/-!
# What a known_hosts file makes trusted

What a file says for a host is the set of the keys its lines mark (`Marked`), once
each of its lines can be read (`LineReads`). `Trusts` states from this alone when a
key or a certificate is trusted, and `accepts_iff` that `check_server_key` accepts it
exactly then. The order of the marker lines plays no part in it, and one more revoked
key can only take trust away (`host_trust_decision`).
-/

namespace KaduoxSsh.Core

open Text Result List
open Hosts (trim)
open Hosts.Toml (lines)

section

variable {Key Body Fingerprint : Type} (primitives : Primitives Key Body Fingerprint)

/-! ## Lines -/

/-- What a line says for the target: nothing, or the key that it marks. The key of a line for other
hosts is not looked at. -/
inductive LineReads (target : String) (rawLine : List Char) : Option (Marker × Key) → Prop
  | ordinary (hline : isMarkerLine rawLine = false) : LineReads target rawLine none
  | elsewhere {name patternsText algorithm encodedKey : String} {comment : List String}
      {marker : Marker} {patterns : HostPatterns} (hline : isMarkerLine rawLine = true)
      (hfields : splitAsciiWhitespace (trim rawLine) =
        name :: patternsText :: algorithm :: encodedKey :: comment)
      (hmarker : Marker.ofText name = some marker)
      (hpatterns : primitives.parsePatterns patternsText = .ok patterns)
      (hmatch : hostPatternsMatch primitives target patterns = .ok false) :
      LineReads target rawLine none
  | here {name patternsText algorithm encodedKey : String} {comment : List String}
      {marker : Marker} {patterns : HostPatterns} {key : Key}
      (hline : isMarkerLine rawLine = true)
      (hfields : splitAsciiWhitespace (trim rawLine) =
        name :: patternsText :: algorithm :: encodedKey :: comment)
      (hmarker : Marker.ofText name = some marker)
      (hpatterns : primitives.parsePatterns patternsText = .ok patterns)
      (hmatch : hostPatternsMatch primitives target patterns = .ok true)
      (hkey : primitives.fromOpenssh (algorithm ++ " " ++ encodedKey) = .ok key) :
      LineReads target rawLine (some (marker, key))

/-- Four fields and what follows them. -/
theorem fields_eq {fields : List String} {b c d : String} (h₁ : fields[1]? = some b)
    (h₂ : fields[2]? = some c) (h₃ : fields[3]? = some d) :
    ∃ comment, fields = fields[0]?.getD "" :: b :: c :: d :: comment := by
  match fields, h₁, h₂, h₃ with
  | a :: b :: c :: d :: comment, rfl, rfl, rfl => exact ⟨comment, rfl⟩

theorem markerLine_eq_ok {target : String} {lineIndex : Nat} {rawLine : List Char}
    {entry : Option (Marker × Key)} :
    markerLine primitives target lineIndex rawLine = .ok entry ↔
      LineReads primitives target rawLine entry := by
  unfold markerLine
  cases hline : isMarkerLine rawLine with
  | false =>
      constructor
      · intro h
        cases h
        exact .ordinary hline
      · intro h
        cases h with
        | ordinary => rfl
        | elsewhere hline' _ _ _ _ | here hline' _ _ _ _ _ => cases hline.symm.trans hline'
  | true =>
      simp only [Bool.not_true, Bool.false_eq_true, if_false, bind_eq_ok,
        ofOption_eq_ok, context_eq_ok]
      constructor
      · rintro ⟨marker, hmarker, patternsText, h₁, patterns, hpatterns, algorithm, h₂, encodedKey,
          h₃, matched, hmatch, h⟩
        obtain ⟨comment, hfields⟩ := fields_eq h₁ h₂ h₃
        cases matched with
        | false =>
            cases h
            exact .elsewhere hline hfields hmarker hpatterns hmatch
        | true =>
            obtain ⟨key, hkey, h⟩ := bind_eq_ok.mp h
            cases h
            exact .here hline hfields hmarker hpatterns hmatch (context_eq_ok.mp hkey)
      · intro h
        cases h with
        | ordinary hline' => cases hline.symm.trans hline'
        | elsewhere _ hfields hmarker hpatterns hmatch =>
            rw [hfields]
            exact ⟨_, hmarker, _, rfl, _, hpatterns, _, rfl, _, rfl, _, hmatch, rfl⟩
        | here _ hfields hmarker hpatterns hmatch hkey =>
            rw [hfields]
            refine ⟨_, hmarker, _, rfl, _, hpatterns, _, rfl, _, rfl, _, hmatch, ?_⟩
            exact bind_eq_ok.mpr ⟨_, context_eq_ok.mpr hkey, rfl⟩

/-- All lines can be read for the target. -/
def Readable (target contents : String) : Prop :=
  ∀ rawLine ∈ lines contents.toList, ∃ entry, LineReads primitives target rawLine entry

/-- A line marks the key for the target. -/
def Marked (target contents : String) (marker : Marker) (key : Key) : Prop :=
  ∃ rawLine ∈ lines contents.toList, LineReads primitives target rawLine (some (marker, key))

/-! ## The policy of a file -/

namespace HostTrustPolicy

/-- The keys of a policy under a marker. -/
def marked (policy : HostTrustPolicy Key) : Marker → List Key
  | .certAuthority => policy.trustedCertificateAuthorities
  | .revoked => policy.revokedKeys

variable {policy : HostTrustPolicy Key} {key : Key}

theorem mem_marked_push {entry : Option (Marker × Key)} {marker : Marker} :
    key ∈ (policy.push entry).marked marker ↔
      key ∈ policy.marked marker ∨ entry = some (marker, key) := by
  rcases entry with - | ⟨found, other⟩
  · simp [push]
  · cases found <;> cases marker <;> simp [push, marked, eq_comm]

theorem parseLines_eq_ok {target : String} {lineIndex : Nat} {rest : List (List Char)}
    {policy out : HostTrustPolicy Key}
    (h : parseLines primitives target lineIndex rest policy = .ok out) :
    (∀ rawLine ∈ rest, ∃ entry, LineReads primitives target rawLine entry) ∧
    ∀ marker key, key ∈ out.marked marker ↔ key ∈ policy.marked marker ∨
      ∃ rawLine ∈ rest, LineReads primitives target rawLine (some (marker, key)) := by
  induction rest generalizing lineIndex policy with
  | nil =>
      cases h
      simp
  | cons rawLine rest ih =>
      rw [parseLines, bind_eq_ok] at h
      obtain ⟨entry, hentry, h⟩ := h
      have hreads := (markerLine_eq_ok primitives).mp hentry
      obtain ⟨hrest, hmarked⟩ := ih h
      refine ⟨forall_mem_cons.mpr ⟨⟨entry, hreads⟩, hrest⟩, fun marker key ↦ ?_⟩
      have hline : entry = some (marker, key) ↔
          LineReads primitives target rawLine (some (marker, key)) := by
        constructor
        · rintro rfl
          exact hreads
        · intro hkey
          exact Except.ok.inj (hentry.symm.trans ((markerLine_eq_ok primitives).mpr hkey))
      rw [hmarked, mem_marked_push, hline, exists_mem_cons_iff, or_assoc]

theorem parseLines_isOk {target : String} {lineIndex : Nat} {rest : List (List Char)}
    (h : ∀ rawLine ∈ rest, ∃ entry, LineReads primitives target rawLine entry) :
    ∃ out, parseLines primitives target lineIndex rest policy = .ok out := by
  induction rest generalizing lineIndex policy with
  | nil => exact ⟨policy, rfl⟩
  | cons rawLine rest ih =>
      obtain ⟨⟨entry, hentry⟩, hrest⟩ := forall_mem_cons.mp h
      rw [parseLines, (markerLine_eq_ok primitives).mpr hentry]
      exact ih hrest

variable [DecidableEq Key] {host : String} {port : UInt16} {contents : String}

theorem mem_dedupPublicKeys {keys : List Key} : key ∈ dedupPublicKeys keys ↔ key ∈ keys := by
  suffices h : ∀ unique : List Key,
      key ∈ keys.foldl (fun unique key ↦ if key ∈ unique then unique else unique ++ [key]) unique ↔
        key ∈ unique ∨ key ∈ keys by
    simpa [dedupPublicKeys] using h []
  induction keys with
  | nil => simp
  | cons other keys ih =>
      intro unique
      rw [foldl_cons, ih]
      split <;> grind

theorem parse_marked (h : parse primitives host port contents = .ok policy) :
    Readable primitives (knownHostsTarget host port) contents ∧
    ∀ marker key, key ∈ policy.marked marker ↔
      Marked primitives (knownHostsTarget host port) contents marker key := by
  obtain ⟨parsed, hparsed, h⟩ := bind_eq_ok.mp h
  cases h
  obtain ⟨hreadable, hmarked⟩ := parseLines_eq_ok primitives hparsed
  refine ⟨hreadable, fun marker key ↦ ?_⟩
  have hdedup : ∀ policy : HostTrustPolicy Key,
      key ∈ (⟨dedupPublicKeys policy.trustedCertificateAuthorities,
        dedupPublicKeys policy.revokedKeys⟩ : HostTrustPolicy Key).marked marker ↔
      key ∈ policy.marked marker := fun policy ↦ by
    cases marker <;> exact mem_dedupPublicKeys
  rw [hdedup, hmarked, Marked]
  cases marker <;> simp [marked]

/-- A file is read exactly when each of its lines can be. -/
theorem parse_isOk :
    (∃ policy, parse primitives host port contents = .ok policy) ↔
      Readable primitives (knownHostsTarget host port) contents := by
  constructor
  · rintro ⟨policy, hpolicy⟩
    exact (parse_marked primitives hpolicy).1
  · intro hreadable
    obtain ⟨parsed, hparsed⟩ := parseLines_isOk primitives hreadable
    exact ⟨_, bind_eq_ok.mpr ⟨parsed, hparsed, rfl⟩⟩

theorem isRevoked_iff : policy.isRevoked key = true ↔ key ∈ policy.marked .revoked := by
  simp [isRevoked, marked]

theorem readKnownHostsBounded_holds {path : PathBuf} {found : Option String} :
    readKnownHostsBounded path (.holds (utf8 contents)) = .ok found ↔
      found = some contents ∧ contents.utf8ByteSize ≤ MAX_KNOWN_HOSTS_BYTES := by
  have hlength (text : String) : (utf8 text).length = text.utf8ByteSize := rfl
  simp only [readKnownHostsBounded, bind_eq_ok, context_eq_ok,
    ofOption_eq_ok, fromUtf8_eq_some_iff, bailIf_eq_ok, Nat.not_lt]
  constructor
  · rintro ⟨text, htext, ⟨⟩, hsize, hfound⟩
    cases hfound
    have htaken := congrArg List.length htext
    rw [hlength, length_take, hlength] at htaken
    have hall : contents.utf8ByteSize ≤ MAX_KNOWN_HOSTS_BYTES := by omega
    rw [take_of_length_le (by rw [hlength]; omega)] at htext
    have hsame := fromUtf8_eq_some_iff.mpr htext
    rw [fromUtf8_eq_some_iff.mpr rfl] at hsame
    exact ⟨hsame.symm, hall⟩
  · rintro ⟨rfl, hsize⟩
    refine ⟨contents, ?_, ⟨⟩, hsize, rfl⟩
    rw [take_of_length_le (by rw [hlength]; omega)]

/-- What is asked of a certificate for a host, where some keys are marked. -/
structure Certified (marked : Marker → Key → Prop) (signed current : Certificate Key Body → Prop)
    (host : String) (certificate : Certificate Key Body) : Prop where
  certType : certificate.certType = .host
  subject : ¬marked .revoked certificate.publicKey
  authority : ¬marked .revoked certificate.signatureKey
  verifiable : isVerifiableCertificateAuthority primitives certificate.signatureKey = true
  trusted : ∃ key, marked .certAuthority key ∧
    isVerifiableCertificateAuthority primitives key = true ∧
    primitives.fingerprint key = primitives.fingerprint certificate.signatureKey
  signed : signed certificate
  current : current certificate
  criticalOptions : certificate.criticalOptions = []
  principal : certificate.validPrincipals = [] ∨
    ∃ principal ∈ certificate.validPrincipals, hostPrincipalMatches host principal = true

/-- Validation looks at the signature, the time, and whether the authority is among those given. -/
def Validates (signed current : Certificate Key Body → Prop) : Prop :=
  ∀ certificate fingerprints, primitives.validate certificate fingerprints = .ok () ↔
    signed certificate ∧ current certificate ∧
      primitives.fingerprint certificate.signatureKey ∈ fingerprints

theorem verifyHostCertificate_eq_ok {signed current : Certificate Key Body → Prop}
    (hvalidates : Validates primitives signed current) {marked : Marker → Key → Prop}
    (hmarked : ∀ marker key, key ∈ policy.marked marker ↔ marked marker key)
    {certificate : Certificate Key Body} :
    policy.verifyHostCertificate primitives host certificate = .ok () ↔
      Certified primitives marked signed current host certificate := by
  have htrusted : primitives.fingerprint certificate.signatureKey ∈
        (policy.trustedCertificateAuthorities.filter
          (isVerifiableCertificateAuthority primitives)).map primitives.fingerprint ↔
      ∃ key, marked .certAuthority key ∧ isVerifiableCertificateAuthority primitives key = true ∧
        primitives.fingerprint key = primitives.fingerprint certificate.signatureKey := by
    rw [mem_map]
    refine exists_congr fun key ↦ ?_
    rw [mem_filter, ← hmarked, and_assoc]
    rfl
  have hvalidate (fingerprints : List Fingerprint) (u : Unit) :
      primitives.validate certificate fingerprints = .ok u ↔ signed certificate ∧
        current certificate ∧ primitives.fingerprint certificate.signatureKey ∈ fingerprints :=
    hvalidates certificate fingerprints
  simp only [verifyHostCertificate, bind_eq_ok, bailIf_eq_ok, context_eq_ok,
    hvalidate, htrusted, isRevoked_iff, hmarked]
  constructor
  · rintro ⟨-, htype, -, hsubject, -, hauthority, -, hverifiable, -, -, -, ⟨hsigned, hcurrent, hca⟩,
      -, hoptions, hprincipal⟩
    refine ⟨by simpa using htype, hsubject, hauthority, by simpa using hverifiable, hca, hsigned,
      hcurrent, by simpa using hoptions, ?_⟩
    by_contra hnone
    rw [not_or, not_exists] at hnone
    refine hprincipal ?_
    simp only [Bool.and_eq_true, Bool.not_eq_true', isEmpty_eq_false_iff,
      any_eq_false]
    exact ⟨hnone.1, fun principal hmem hmatch ↦ hnone.2 principal ⟨hmem, hmatch⟩⟩
  · intro h
    refine ⟨⟨⟩, by simpa using h.certType, ⟨⟩, h.subject, ⟨⟩, h.authority, ⟨⟩,
      by simpa using h.verifiable, ⟨⟩, ?_, ⟨⟩, ⟨h.signed, h.current, h.trusted⟩, ⟨⟩,
      by simpa using h.criticalOptions, ?_⟩
    · intro hempty
      have hmem := htrusted.mpr h.trusted
      rw [isEmpty_iff.mp hempty] at hmem
      cases hmem
    · intro hprincipal
      simp only [Bool.and_eq_true, Bool.not_eq_true', isEmpty_eq_false_iff,
        any_eq_false] at hprincipal
      rcases h.principal with hnil | ⟨principal, hmem, hmatch⟩
      · exact hprincipal.1 hnil
      · exact hprincipal.2 principal hmem hmatch

end HostTrustPolicy

/-! ## The decision -/

/-- A file system on which every path leads to one text. -/
def Disk.holding (homeDir : Option PathBuf) (contents : String) : Disk where
  homeDir := homeDir
  file _ := .holds (utf8 contents)

namespace ClientHandler

variable (handler : ClientHandler) (homeDir : Option PathBuf) (contents : String)

/-- The host as marker lines name it. -/
def target : String := knownHostsTarget handler.host handler.port

/-- The text is read for the host: it is found, it is not too long, and so are its lines. -/
structure Loads : Prop where
  path : ∃ path, handler.knownHostsPath (.holding homeDir contents) = .ok path
  size : contents.utf8ByteSize ≤ MAX_KNOWN_HOSTS_BYTES
  readable : Readable primitives handler.target contents

def Accepts [DecidableEq Key] (presented : PublicKeyOrCertificate Key Body) : Prop :=
  ∃ recorded, handler.checkServerKey primitives (.holding homeDir contents) presented =
    .ok (true, recorded)

/-- A plain key is known, or it may be learned and is. -/
def PlainTrusted (key : Key) : Prop :=
  ∃ path, handler.knownHostsPath (.holding homeDir contents) = .ok path ∧
    (primitives.checkKnownHosts handler.host handler.port key (.holds (utf8 contents)) = .ok true ∨
      handler.hostKeyPolicy ≠ .strict ∧
      primitives.checkKnownHosts handler.host handler.port key (.holds (utf8 contents)) =
        .ok false ∧
      primitives.learnKnownHosts handler.host handler.port key path = .ok ())

/-- What a text makes trusted for a host. -/
def Trusts (signed current : Certificate Key Body → Prop) :
    PublicKeyOrCertificate Key Body → Prop
  | .certificate certificate => handler.hostKeyPolicy ≠ .insecure ∧
      handler.Loads primitives homeDir contents ∧
      HostTrustPolicy.Certified primitives (Marked primitives handler.target contents) signed
        current handler.host certificate
  | .publicKey key => handler.Loads primitives homeDir contents ∧
      ¬Marked primitives handler.target contents .revoked key ∧
      (handler.hostKeyPolicy = .insecure ∨ handler.PlainTrusted primitives homeDir contents key)

variable {handler homeDir contents}

theorem load_eq_ok [DecidableEq Key] {policy : HostTrustPolicy Key}
    (h : handler.load primitives (.holding homeDir contents) = .ok policy) :
    handler.Loads primitives homeDir contents ∧ ∀ marker key, key ∈ policy.marked marker ↔
      Marked primitives handler.target contents marker key := by
  obtain ⟨path, hpath, h⟩ := bind_eq_ok.mp h
  obtain ⟨found, hfound, h⟩ := bind_eq_ok.mp h
  obtain ⟨rfl, hsize⟩ := HostTrustPolicy.readKnownHostsBounded_holds.mp hfound
  obtain ⟨hreadable, hmarked⟩ :=
    HostTrustPolicy.parse_marked primitives (context_eq_ok.mp h)
  exact ⟨⟨⟨path, hpath⟩, hsize, hreadable⟩, hmarked⟩

theorem load_isOk [DecidableEq Key] (h : handler.Loads primitives homeDir contents) :
    ∃ policy, handler.load primitives (.holding homeDir contents) = .ok policy := by
  obtain ⟨path, hpath⟩ := h.path
  obtain ⟨policy, hpolicy⟩ := (HostTrustPolicy.parse_isOk primitives).mpr h.readable
  refine ⟨policy, bind_eq_ok.mpr ⟨path, hpath, bind_eq_ok.mpr ⟨some contents, ?_, ?_⟩⟩⟩
  · exact HostTrustPolicy.readKnownHostsBounded_holds.mpr ⟨rfl, h.size⟩
  · exact context_eq_ok.mpr hpolicy

theorem checkPlainKey_iff {key : Key} :
    (∃ recorded, handler.checkPlainKey primitives (.holding homeDir contents) key =
      .ok (true, recorded)) ↔ handler.PlainTrusted primitives homeDir contents key := by
  constructor
  · rintro ⟨recorded, h⟩
    obtain ⟨path, hpath, h⟩ := bind_eq_ok.mp h
    obtain ⟨known, hknown, h⟩ := bind_eq_ok.mp h
    refine ⟨path, hpath, ?_⟩
    cases known with
    | true => exact .inl hknown
    | false =>
        rw [if_neg Bool.false_ne_true] at h
        split at h
        · cases h
        · next hstrict =>
            obtain ⟨u, hlearn, -⟩ := bind_eq_ok.mp h
            exact .inr ⟨hstrict, hknown, hlearn⟩
  · rintro ⟨path, hpath, hknown | ⟨hstrict, hknown, hlearn⟩⟩
    · refine ⟨_, bind_eq_ok.mpr ⟨path, hpath, bind_eq_ok.mpr ⟨true, hknown, rfl⟩⟩⟩
    · refine ⟨recorded primitives key .learned, bind_eq_ok.mpr ⟨path, hpath,
        bind_eq_ok.mpr ⟨false, hknown, ?_⟩⟩⟩
      rw [if_neg Bool.false_ne_true, if_neg hstrict]
      exact bind_eq_ok.mpr ⟨(), hlearn, rfl⟩

/-- A key or a certificate is accepted exactly when the text makes it trusted. -/
theorem accepts_iff [DecidableEq Key] {signed current : Certificate Key Body → Prop}
    (hvalidates : HostTrustPolicy.Validates primitives signed current)
    {presented : PublicKeyOrCertificate Key Body} :
    handler.Accepts primitives homeDir contents presented ↔
      handler.Trusts primitives homeDir contents signed current presented := by
  cases presented with
  | certificate certificate =>
      constructor
      · rintro ⟨recorded, h⟩
        obtain ⟨_, hpolicy, h⟩ := bind_eq_ok.mp h
        obtain ⟨trust, htrust, h⟩ := bind_eq_ok.mp h
        obtain ⟨u, hverify, -⟩ := bind_eq_ok.mp h
        obtain ⟨hloads, hmarked⟩ := load_eq_ok primitives (context_eq_ok.mp htrust)
        exact ⟨bailIf_eq_ok.mp hpolicy, hloads, (HostTrustPolicy.verifyHostCertificate_eq_ok
          primitives hvalidates hmarked).mp (context_eq_ok.mp hverify)⟩
      · rintro ⟨hpolicy, hloads, hcertified⟩
        obtain ⟨trust, htrust⟩ := load_isOk primitives hloads
        have hmarked := (load_eq_ok primitives htrust).2
        refine ⟨_, bind_eq_ok.mpr ⟨⟨⟩, bailIf_eq_ok.mpr hpolicy,
          bind_eq_ok.mpr ⟨trust, context_eq_ok.mpr htrust,
            bind_eq_ok.mpr ⟨(), context_eq_ok.mpr ?_, rfl⟩⟩⟩⟩
        exact (HostTrustPolicy.verifyHostCertificate_eq_ok primitives hvalidates hmarked).mpr
          hcertified
  | publicKey key =>
      constructor
      · rintro ⟨recorded, h⟩
        obtain ⟨trust, htrust, h⟩ := bind_eq_ok.mp h
        obtain ⟨_, hrevoked, h⟩ := bind_eq_ok.mp h
        obtain ⟨hloads, hmarked⟩ := load_eq_ok primitives (context_eq_ok.mp htrust)
        rw [bailIf_eq_ok, HostTrustPolicy.isRevoked_iff, hmarked] at hrevoked
        refine ⟨hloads, hrevoked, ?_⟩
        split at h
        · next hinsecure => exact .inl hinsecure
        · exact .inr ((checkPlainKey_iff primitives).mp ⟨recorded, h⟩)
      · rintro ⟨hloads, hrevoked, hplain⟩
        obtain ⟨trust, htrust⟩ := load_isOk primitives hloads
        have hmarked := (load_eq_ok primitives htrust).2
        rw [← hmarked, ← HostTrustPolicy.isRevoked_iff] at hrevoked
        by_cases hinsecure : handler.hostKeyPolicy = .insecure
        · refine ⟨_, bind_eq_ok.mpr ⟨trust, context_eq_ok.mpr htrust,
            bind_eq_ok.mpr ⟨⟨⟩, bailIf_eq_ok.mpr hrevoked, if_pos hinsecure⟩⟩⟩
        · obtain ⟨recorded, hchecked⟩ :=
            (checkPlainKey_iff primitives).mpr (hplain.resolve_left hinsecure)
          refine ⟨recorded, bind_eq_ok.mpr ⟨trust, context_eq_ok.mpr htrust,
            bind_eq_ok.mpr ⟨⟨⟩, bailIf_eq_ok.mpr hrevoked, ?_⟩⟩⟩
          rw [if_neg hinsecure]
          exact hchecked

end ClientHandler

/-- The look-up of plain keys passes over marker lines. -/
def IgnoresMarkers : Prop :=
  ∀ host port key contents contents',
    (lines contents.toList).filter (!isMarkerLine ·) =
      (lines contents'.toList).filter (!isMarkerLine ·) →
    ∀ known, primitives.checkKnownHosts host port key (.holds (utf8 contents)) = .ok known ↔
      primitives.checkKnownHosts host port key (.holds (utf8 contents')) = .ok known
/-- A marker line that makes the whole file unreadable for the target: its marker is unknown, a field
is missing, its patterns cannot be read, or it is for the target and its key cannot be read. -/
def Malformed (target : String) (rawLine : List Char) : Prop :=
  isMarkerLine rawLine = true ∧
  ∀ name patternsText algorithm encodedKey comment marker patterns matched,
    splitAsciiWhitespace (trim rawLine) =
      name :: patternsText :: algorithm :: encodedKey :: comment →
    Marker.ofText name = some marker → primitives.parsePatterns patternsText = .ok patterns →
    hostPatternsMatch primitives target patterns = .ok matched →
    matched = true ∧ ∀ key, primitives.fromOpenssh (algorithm ++ " " ++ encodedKey) ≠ .ok key

theorem Malformed.not_reads {target : String} {rawLine : List Char}
    (h : Malformed primitives target rawLine) (entry : Option (Marker × Key)) :
    ¬LineReads primitives target rawLine entry := by
  intro hreads
  cases hreads with
  | ordinary hline => cases hline.symm.trans h.1
  | elsewhere _ hfields hmarker hpatterns hmatch =>
      cases (h.2 _ _ _ _ _ _ _ _ hfields hmarker hpatterns hmatch).1
  | here _ hfields hmarker hpatterns hmatch hkey =>
      exact (h.2 _ _ _ _ _ _ _ _ hfields hmarker hpatterns hmatch).2 _ hkey

/-- A line under `@revoked` marks keys as nothing else. -/
theorem LineReads.revoked {target : String} {rawLine : List Char} {marker : Marker} {key : Key}
    (h : LineReads primitives target rawLine (some (marker, key)))
    (hhead : (splitAsciiWhitespace (trim rawLine)).head? = some "@revoked") : marker = .revoked := by
  cases h with
  | here _ hfields hmarker _ _ _ =>
      rw [hfields, List.head?_cons, Option.some.injEq] at hhead
      rw [hhead] at hmarker
      exact (Option.some.inj hmarker).symm

/-- The second text is at least as strict for a host: it is read only when the first is, revokes all
that the first does, and has no further authorities. Plain keys are known alike. -/
structure Stricter (target contents contents' : String) : Prop where
  size : contents'.utf8ByteSize ≤ MAX_KNOWN_HOSTS_BYTES →
    contents.utf8ByteSize ≤ MAX_KNOWN_HOSTS_BYTES
  readable : Readable primitives target contents' → Readable primitives target contents
  revoked : ∀ key, Marked primitives target contents .revoked key →
    Marked primitives target contents' .revoked key
  authorities : ∀ key, Marked primitives target contents' .certAuthority key →
    Marked primitives target contents .certAuthority key
  ordinary : (lines contents.toList).filter (!isMarkerLine ·) =
    (lines contents'.toList).filter (!isMarkerLine ·)

variable {primitives}

theorem Stricter.trusts {handler : ClientHandler} {homeDir : Option PathBuf}
    {contents contents' : String} {signed current : Certificate Key Body → Prop}
    {presented : PublicKeyOrCertificate Key Body}
    (h : Stricter primitives handler.target contents contents')
    (hlookup : IgnoresMarkers primitives)
    (htrusts : handler.Trusts primitives homeDir contents' signed current presented) :
    handler.Trusts primitives homeDir contents signed current presented := by
  have hloads (hloads : handler.Loads primitives homeDir contents') :
      handler.Loads primitives homeDir contents :=
    ⟨hloads.path, h.size hloads.size, h.readable hloads.readable⟩
  cases presented with
  | certificate certificate =>
      obtain ⟨hpolicy, hread, hcertified⟩ := htrusts
      obtain ⟨ca, hca, hverifiable, hfingerprint⟩ := hcertified.trusted
      exact ⟨hpolicy, hloads hread, { hcertified with
        subject := fun hrevoked ↦ hcertified.subject (h.revoked _ hrevoked)
        authority := fun hrevoked ↦ hcertified.authority (h.revoked _ hrevoked)
        trusted := ⟨ca, h.authorities ca hca, hverifiable, hfingerprint⟩ }⟩
  | publicKey key =>
      obtain ⟨hread, hrevoked, hplain⟩ := htrusts
      refine ⟨hloads hread, fun hmarked ↦ hrevoked (h.revoked _ hmarked), hplain.imp_right ?_⟩
      rintro ⟨path, hpath, hknown⟩
      have hsame := hlookup handler.host handler.port key contents contents' h.ordinary
      rw [← hsame, ← hsame] at hknown
      exact ⟨path, hpath, hknown⟩

/-- A text with one more line under `@revoked`. -/
theorem Stricter.of_revoked {target contents contents' : String} {before after : List (List Char)}
    {rawLine : List Char} (hcontents : lines contents.toList = before ++ after)
    (hcontents' : lines contents'.toList = before ++ rawLine :: after)
    (hsize : contents.utf8ByteSize ≤ contents'.utf8ByteSize) (hline : isMarkerLine rawLine = true)
    (hhead : (splitAsciiWhitespace (trim rawLine)).head? = some "@revoked") :
    Stricter primitives target contents contents' := by
  have hmem {line : List Char} : line ∈ lines contents'.toList ↔
      line = rawLine ∨ line ∈ lines contents.toList := by
    rw [hcontents, hcontents']
    simp only [mem_append, mem_cons]
    tauto
  refine ⟨hsize.trans, fun hreadable line hmember ↦ hreadable line (hmem.mpr (.inr hmember)),
    ?_, ?_, ?_⟩
  · rintro key ⟨line, hmember, hreads⟩
    exact ⟨line, hmem.mpr (.inr hmember), hreads⟩
  · rintro key ⟨line, hmember, hreads⟩
    rcases hmem.mp hmember with rfl | hmember
    · cases hreads.revoked primitives hhead
    · exact ⟨line, hmember, hreads⟩
  · rw [hcontents, hcontents', filter_append, filter_append,
      filter_cons_of_neg (by simp [hline])]

/-- A text with the marker lines in another order, and in other places between the other lines. -/
theorem Stricter.of_perm {target contents contents' : String}
    (hsize : contents.utf8ByteSize = contents'.utf8ByteSize)
    (hordinary : (lines contents.toList).filter (!isMarkerLine ·) =
      (lines contents'.toList).filter (!isMarkerLine ·))
    (hmarkers : ((lines contents.toList).filter isMarkerLine).Perm
      ((lines contents'.toList).filter isMarkerLine)) :
    Stricter primitives target contents contents' := by
  have hmem (line : List Char) : line ∈ lines contents.toList ↔ line ∈ lines contents'.toList := by
    cases hline : isMarkerLine line with
    | true => simpa [hline] using hmarkers.mem_iff (a := line)
    | false =>
        have hsame := congrArg (line ∈ ·) hordinary
        simpa [hline] using hsame
  refine ⟨fun h ↦ hsize ▸ h, fun hreadable line hline ↦ hreadable line ((hmem line).mp hline), ?_,
    ?_, hordinary⟩
  · rintro key ⟨line, hline, hreads⟩
    exact ⟨line, (hmem line).mp hline, hreads⟩
  · rintro key ⟨line, hline, hreads⟩
    exact ⟨line, (hmem line).mpr hline, hreads⟩

/-- The keys that a server presents. -/
def PublicKeyOrCertificate.keys : PublicKeyOrCertificate Key Body → List Key
  | .publicKey key => [key]
  | .certificate cert => [cert.publicKey, cert.signatureKey]

/-- For every text: a key under a matching `@revoked` line is not accepted, in no role; nothing is
accepted where a marker line is malformed; one more `@revoked` line makes nothing accepted; the order
of the marker lines does not matter; and a certificate is accepted exactly when it is certified by an
authority of the text, whatever is known of plain keys. -/
theorem host_trust_decision [DecidableEq Key] (primitives : Primitives Key Body Fingerprint)
    (signed current : Certificate Key Body → Prop)
    (hvalidates : HostTrustPolicy.Validates primitives signed current)
    (hlookup : IgnoresMarkers primitives) (handler : ClientHandler) (homeDir : Option PathBuf) :
    (∀ contents key presented, Marked primitives handler.target contents .revoked key →
      key ∈ presented.keys → ¬handler.Accepts primitives homeDir contents presented) ∧
    (∀ contents rawLine presented, rawLine ∈ lines contents.toList →
      Malformed primitives handler.target rawLine →
      ¬handler.Accepts primitives homeDir contents presented) ∧
    (∀ contents contents' before rawLine after presented,
      lines contents.toList = before ++ after → lines contents'.toList = before ++ rawLine :: after →
      contents.utf8ByteSize ≤ contents'.utf8ByteSize → isMarkerLine rawLine = true →
      (splitAsciiWhitespace (trim rawLine)).head? = some "@revoked" →
      handler.Accepts primitives homeDir contents' presented →
      handler.Accepts primitives homeDir contents presented) ∧
    (∀ contents contents' presented, contents.utf8ByteSize = contents'.utf8ByteSize →
      (lines contents.toList).filter (!isMarkerLine ·) =
        (lines contents'.toList).filter (!isMarkerLine ·) →
      ((lines contents.toList).filter isMarkerLine).Perm
        ((lines contents'.toList).filter isMarkerLine) →
      (handler.Accepts primitives homeDir contents presented ↔
        handler.Accepts primitives homeDir contents' presented)) ∧
    ∀ contents certificate, handler.Accepts primitives homeDir contents (.certificate certificate) ↔
      handler.hostKeyPolicy ≠ .insecure ∧ handler.Loads primitives homeDir contents ∧
      HostTrustPolicy.Certified primitives (Marked primitives handler.target contents) signed
        current handler.host certificate := by
  have hiff {contents : String} {presented : PublicKeyOrCertificate Key Body} :
      handler.Accepts primitives homeDir contents presented ↔
        handler.Trusts primitives homeDir contents signed current presented :=
    ClientHandler.accepts_iff primitives hvalidates
  refine ⟨fun contents key presented hmarked hkey haccepts ↦ ?_,
    fun contents rawLine presented hline hmalformed haccepts ↦ ?_,
    fun contents contents' before rawLine after presented hlines hlines' hsize hline hhead ↦ ?_,
    fun contents contents' presented hsize hordinary hmarkers ↦ ?_,
    fun contents certificate ↦ hiff⟩
  · cases presented with
    | publicKey plain =>
        rw [mem_singleton.mp hkey] at hmarked
        exact (hiff.mp haccepts).2.1 hmarked
    | certificate certificate =>
        obtain ⟨-, -, hcertified⟩ := hiff.mp haccepts
        rcases mem_pair.mp hkey with rfl | rfl
        · exact hcertified.subject hmarked
        · exact hcertified.authority hmarked
  · have hloads : handler.Loads primitives homeDir contents := by
      have htrusts := hiff.mp haccepts
      cases presented with
      | publicKey key => exact htrusts.1
      | certificate certificate => exact htrusts.2.1
    obtain ⟨entry, hreads⟩ := hloads.readable rawLine hline
    exact hmalformed.not_reads primitives entry hreads
  · rw [hiff, hiff]
    exact (Stricter.of_revoked hlines hlines' hsize hline hhead).trusts hlookup
  · rw [hiff, hiff]
    constructor
    · exact (Stricter.of_perm hsize.symm hordinary.symm hmarkers.symm).trusts hlookup
    · exact (Stricter.of_perm hsize hordinary hmarkers).trusts hlookup

end

/-- Keys that are their own texts, and no other lines than those of markers. -/
def textPrimitives : Primitives String Unit String where
  fromOpenssh text :=
    if startsWith text "ssh-ed25519 AAAA" then .ok text else Result.bail "Base64 encoding error"
  parsePatterns text := .ok (.patterns ((text.toList.splitOnP (· = ',')).map String.ofList))
  algorithm _ := .ed25519
  fingerprint key := key
  hmacSha1 _ _ := []
  validate certificate fingerprints :=
    Result.bailIf (certificate.signatureKey ∉ fingerprints) "certificate validation failed"
  checkKnownHosts _ _ _ _ := .ok false
  learnKnownHosts _ _ _ _ := .ok ()

def insecureHandler : ClientHandler where
  host := "db.example"
  port := 22
  hostKeyPolicy := .insecure
  knownHostsFile := some (PathBuf.ofString "/known_hosts")

theorem host_trust_decision_revoked :
    ¬insecureHandler.Accepts textPrimitives none
      "# keys\n@revoked *.example,!web.example ssh-ed25519 AAAA1 old\n"
      (.publicKey "ssh-ed25519 AAAA1") := by
  refine (host_trust_decision textPrimitives (fun _ ↦ True) (fun _ ↦ True) ?_ ?_ insecureHandler
    none).1 _ "ssh-ed25519 AAAA1" (.publicKey "ssh-ed25519 AAAA1") ?_ (mem_singleton_self _)
  · intro certificate fingerprints
    simp [textPrimitives]
  · intro host port key contents contents' _ known
    exact Iff.rfl
  · have hmarks : markerLine textPrimitives insecureHandler.target 1
        "@revoked *.example,!web.example ssh-ed25519 AAAA1 old".toList =
        .ok (some (.revoked, "ssh-ed25519 AAAA1")) := by decide +kernel
    exact ⟨_, by decide, (markerLine_eq_ok textPrimitives).mp hmarks⟩
/-- The key of a line that is not for the host is not looked at, so that the file is read although it
holds a line that is not well formed. -/
theorem malformed_line_elsewhere :
    ¬∀ contents rawLine algorithm encodedKey presented, rawLine ∈ lines contents.toList →
      splitAsciiWhitespace (trim rawLine) = ["@revoked", "other.example", algorithm, encodedKey] →
      (∀ key, textPrimitives.fromOpenssh (algorithm ++ " " ++ encodedKey) ≠ .ok key) →
      ¬insecureHandler.Accepts textPrimitives none contents presented := by
  intro h
  refine h "@revoked other.example ssh-ed25519 ?\n" "@revoked other.example ssh-ed25519 ?".toList
    "ssh-ed25519" "?" (.publicKey "ssh-ed25519 AAAA1") (by decide) (by decide) ?_
    ⟨some ⟨.ed25519, "ssh-ed25519 AAAA1", .insecure⟩, by decide +kernel⟩
  intro key hkey
  have hfails : textPrimitives.fromOpenssh "ssh-ed25519 ?" =
      Result.bail "Base64 encoding error" := by decide
  exact absurd (hfails.symm.trans hkey) (bail_ne_ok _ _)

end KaduoxSsh.Core
