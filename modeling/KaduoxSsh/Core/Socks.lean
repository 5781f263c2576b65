import KaduoxSsh.Lib.Codec
import KaduoxSsh.Lib.Exchange
import KaduoxSsh.Lib.Text

/-!
# The handshake of SOCKS5

`negotiate_socks5` of `forward.rs`: a greeting with the methods of the client, a reply to it, and
a request to connect to a host. The host of a target is a text, which for an address is the one
that the standard library displays.

A target is given exactly for a well-formed greeting and request, and no byte behind the request
is read. Every reply is a message of the protocol, also when the request is rejected.
-/

namespace KaduoxSsh.Core

open Exchange List

/-! ## The texts of addresses -/

/-- An address of IPv4 as it is displayed. -/
def ipv4Text (octets : List UInt8) : String :=
  ".".intercalate (octets.map fun octet ↦ toString octet.toNat)

/-- The numbers of two bytes each. -/
def segments : List UInt8 → List Nat
  | high :: low :: rest => (high.toNat * 256 + low.toNat) :: segments rest
  | _ => []

/-- Some segments in a row. -/
structure Span where
  start : Nat
  len : Nat
deriving DecidableEq, Repr

/-- The first of the longest runs of zeros, from the segment at `index` on. -/
def longestZeros (longest current : Span) (index : Nat) : List Nat → Span
  | [] => longest
  | segment :: rest =>
      if segment = 0 then
        let current : Span :=
          ⟨if current.len = 0 then index else current.start, current.len + 1⟩
        longestZeros (if current.len > longest.len then current else longest) current (index + 1)
          rest
      else longestZeros longest ⟨0, 0⟩ (index + 1) rest

/-- Segments in hexadecimal digits, with colons between them. -/
def hexSegments (segments : List Nat) : String :=
  ":".intercalate (segments.map fun segment ↦ String.ofList (Nat.toDigits 16 segment))

/-- An address of IPv6 as it is displayed: one that stands for an address of IPv4 ends as that one
is displayed, and the longest run of zeros is left out. -/
def ipv6Text (octets : List UInt8) : String :=
  if octets.take 12 = List.replicate 10 0 ++ [0xff, 0xff] then
    "::ffff:" ++ ipv4Text (octets.drop 12)
  else
    let zeros := longestZeros ⟨0, 0⟩ ⟨0, 0⟩ 0 (segments octets)
    if zeros.len > 1 then
      hexSegments ((segments octets).take zeros.start) ++ "::" ++
        hexSegments ((segments octets).drop (zeros.start + zeros.len))
    else hexSegments (segments octets)

example : ipv6Text [0x20, 1, 0xd, 0xb8, 0, 0, 0, 0, 0, 1, 0, 0, 0, 0, 0, 1] =
    "2001:db8::1:0:0:1" := by decide

/-! ## The handshake -/

def readU8 : Exchange UInt8 UInt8 := do
  let word ← readExact 1
  return word.headD 0

def readU16 : Exchange UInt8 UInt16 := do
  let word ← readExact 2
  return UInt16.ofNat (Codec.ofBigEndian word)

def bail {α : Type} (text : String) : Exchange UInt8 α := ofResult (Result.bail text)

def bailIf (c : Prop) [Decidable c] (text : String) : Exchange UInt8 Unit :=
  ofResult (Result.bailIf c text)

structure SocksTarget where
  host : String
  port : UInt16
deriving DecidableEq, Repr

/-- The methods of the client, and the reply to them. -/
def negotiateMethod : Exchange UInt8 Unit := do
  let version ← readU8
  bailIf (version ≠ 5) s!"unsupported SOCKS version {version}"
  let methodCount ← readU8
  bailIf (methodCount.toNat > 32) "too many SOCKS auth methods"
  let methods ← readExact methodCount.toNat
  if 0 ∉ methods then do
    writeAll [5, 0xff]
    bail "SOCKS client does not support no-auth mode"
  else writeAll [5, 0]

/-- The head of the request, which has to be one to connect. -/
def readCommand : Exchange UInt8 Unit := do
  let version ← readU8
  bailIf (version ≠ 5) "invalid SOCKS request version"
  let command ← readU8
  let reserved ← readU8
  bailIf (reserved ≠ 0) s!"invalid SOCKS reserved byte {reserved}"
  if command ≠ 1 then do
    writeAll [5, 7, 0, 1, 0, 0, 0, 0, 0, 0]
    bail "only SOCKS CONNECT is supported"
  else return ()

/-- The host of the request. -/
def readHost : Exchange UInt8 String := do
  let addressType ← readU8
  if addressType = 1 then do
    let octets ← readExact 4
    return ipv4Text octets
  else if addressType = 3 then do
    let len ← readU8
    bailIf (len.toNat = 0) "empty SOCKS domain"
    let bytes ← readExact len.toNat
    ofResult (Result.context "SOCKS domain is not UTF-8"
      (Result.ofOption "invalid utf-8 sequence" (Text.fromUtf8 bytes)))
  else if addressType = 4 then do
    let octets ← readExact 16
    return ipv6Text octets
  else do
    writeAll [5, 8, 0, 1, 0, 0, 0, 0, 0, 0]
    bail s!"unsupported SOCKS address type {addressType}"

def negotiateSocks5 : Exchange UInt8 SocksTarget := do
  negotiateMethod
  readCommand
  let host ← readHost
  let port ← readU16
  return ⟨host, port⟩

/-! ## Requests -/

/-- An address that is well formed. -/
inductive SocksAddress where
  | ipv4 (octets : List UInt8) (length : octets.length = 4)
  | domain (name : String) (nonempty : name ≠ "") (short : (Text.utf8 name).length ≤ 255)
  | ipv6 (octets : List UInt8) (length : octets.length = 16)

namespace SocksAddress

def bytes : SocksAddress → List UInt8
  | .ipv4 octets _ => 1 :: octets
  | .domain name _ _ => 3 :: UInt8.ofNat (Text.utf8 name).length :: Text.utf8 name
  | .ipv6 octets _ => 4 :: octets

/-- The text of an address, which for a domain is its name. -/
def host : SocksAddress → String
  | .ipv4 octets _ => ipv4Text octets
  | .domain name _ _ => name
  | .ipv6 octets _ => ipv6Text octets

end SocksAddress

/-- A greeting that offers to go without authentication, and a request to connect. -/
structure SocksRequest where
  methods : List UInt8
  few : methods.length ≤ 32
  noAuth : 0 ∈ methods
  address : SocksAddress
  port : UInt16

namespace SocksRequest

def greeting (request : SocksRequest) : List UInt8 :=
  5 :: UInt8.ofNat request.methods.length :: request.methods

def connect (request : SocksRequest) : List UInt8 :=
  [5, 1, 0] ++ (request.address.bytes ++ Codec.bigEndian 2 request.port.toNat)

def target (request : SocksRequest) : SocksTarget := ⟨request.address.host, request.port⟩

end SocksRequest

/-! ## What is read -/

theorem follows_readExact_bind {α : Type} {count : Nat} {f : List UInt8 → Exchange UInt8 α}
    {next : List UInt8 → Script UInt8 α} (hnext : ∀ front, Follows (f front) (next front)) :
    Follows (readExact count >>= f) fun word out a ↦
      ∃ front rest, word = front ++ rest ∧ front.length = count ∧ next front rest out a := by
  refine ((Follows.readExact count).bind hnext).congr fun word out a ↦ ?_
  constructor
  · rintro ⟨front, _, rest, _, _, rfl, rfl, ⟨hlength, rfl, rfl⟩, hscript⟩
    exact ⟨front, rest, rfl, hlength, hscript⟩
  · rintro ⟨front, rest, rfl, hlength, hscript⟩
    exact ⟨front, front, rest, [], out, rfl, rfl, ⟨hlength, rfl, rfl⟩, hscript⟩

theorem follows_readU8 : Follows readU8 fun word out b ↦ word = [b] ∧ out = [] := by
  refine (follows_readExact_bind fun front ↦ Follows.pure (front.headD 0)).congr ?_
  intro word out b
  constructor
  · rintro ⟨_, _, rfl, hlength, rfl, rfl, rfl⟩
    obtain ⟨b, rfl⟩ := length_eq_one_iff.mp hlength
    exact ⟨rfl, rfl⟩
  · rintro ⟨rfl, rfl⟩
    exact ⟨[b], [], rfl, rfl, rfl, rfl, rfl⟩

theorem follows_readU8_bind {α : Type} {f : UInt8 → Exchange UInt8 α}
    {next : UInt8 → Script UInt8 α} (hnext : ∀ b, Follows (f b) (next b)) :
    Follows (readU8 >>= f) fun word out a ↦ ∃ b rest, word = b :: rest ∧ next b rest out a := by
  refine (follows_readU8.bind hnext).congr fun word out a ↦ ?_
  constructor
  · rintro ⟨b, _, rest, _, _, rfl, rfl, ⟨rfl, rfl⟩, hscript⟩
    exact ⟨b, rest, rfl, hscript⟩
  · rintro ⟨b, rest, rfl, hscript⟩
    exact ⟨b, [b], rest, [], out, rfl, rfl, ⟨rfl, rfl⟩, hscript⟩

theorem follows_readU16 :
    Follows readU16 fun word out n ↦ word = Codec.bigEndian 2 n.toNat ∧ out = [] := by
  refine (follows_readExact_bind fun front ↦
    Follows.pure (UInt16.ofNat (Codec.ofBigEndian front))).congr ?_
  intro word out n
  constructor
  · rintro ⟨front, _, rfl, hlength, rfl, rfl, rfl⟩
    refine ⟨?_, rfl⟩
    have hlt : Codec.ofBigEndian front < 2 ^ 16 := by
      have hbytes := Codec.ofBigEndian_lt front
      rwa [hlength] at hbytes
    rw [append_nil, UInt16.toNat_ofNat', Nat.mod_eq_of_lt hlt, ← hlength,
      Codec.bigEndian_ofBigEndian]
  · rintro ⟨rfl, rfl⟩
    refine ⟨_, [], (append_nil _).symm, Codec.length_bigEndian _ _, rfl, rfl, ?_⟩
    rw [Codec.ofBigEndian_bigEndian n.toNat_lt, UInt16.ofNat_toNat]

theorem follows_bail {α : Type} (text : String) :
    Follows (bail text : Exchange UInt8 α) fun _ _ _ ↦ False :=
  (Follows.ofResult _).congr fun word out a ↦ by simp

/-- A check that is passed reads and writes nothing. -/
theorem follows_bailIf {α : Type} {c : Prop} [Decidable c] {text : String}
    {x : Exchange UInt8 α} {script : Script UInt8 α} (h : Follows x script) :
    Follows (bailIf c text >>= fun _ ↦ x) fun word out a ↦ ¬c ∧ script word out a := by
  refine ((Follows.ofResult _).bind fun _ ↦ h).congr ?_
  simp

/-- A reply in front of a failure leads to no value. -/
theorem follows_reject {α : Type} (message : List UInt8) (text : String) :
    Follows (writeAll message >>= fun _ ↦ (bail text : Exchange UInt8 α)) fun _ _ _ ↦ False := by
  refine ((Follows.writeAll message).bind fun _ ↦ follows_bail text).congr ?_
  simp

theorem follows_negotiateMethod : Follows negotiateMethod fun word out _ ↦ out = [5, 0] ∧
    ∃ methods, 0 ∈ methods ∧ methods.length ≤ 32 ∧
      word = 5 :: UInt8.ofNat methods.length :: methods := by
  refine (follows_readU8_bind fun version ↦ follows_bailIf (follows_readU8_bind fun count ↦
    follows_bailIf (follows_readExact_bind fun methods ↦
      (follows_reject _ _).ite (Follows.writeAll _)))).congr ?_
  intro word out a
  constructor
  · rintro ⟨version, _, rfl, hversion, count, _, rfl, hcount, methods, _, rfl, hlength,
      ⟨-, hreject⟩ | ⟨hnone, rfl, rfl⟩⟩
    · exact hreject.elim
    · refine ⟨rfl, methods, not_not.mp hnone, hlength ▸ Nat.not_lt.mp hcount, ?_⟩
      rw [hlength, UInt8.ofNat_toNat, not_not.mp hversion, append_nil]
  · rintro ⟨rfl, methods, hnone, hfew, rfl⟩
    have hlength : (UInt8.ofNat methods.length).toNat = methods.length :=
      UInt8.toNat_ofNat_of_lt' (Nat.lt_of_le_of_lt hfew (by decide))
    refine ⟨5, _, rfl, not_not.mpr rfl, _, _, rfl, ?_, methods, [], (append_nil _).symm,
      hlength.symm, .inr ⟨not_not.mpr hnone, rfl, rfl⟩⟩
    rw [hlength]
    exact Nat.not_lt.mpr hfew

theorem follows_readCommand :
    Follows readCommand fun word out _ ↦ word = [5, 1, 0] ∧ out = [] := by
  refine (follows_readU8_bind fun version ↦ follows_bailIf (follows_readU8_bind fun command ↦
    follows_readU8_bind fun reserved ↦ follows_bailIf
      ((follows_reject _ _).ite (Follows.pure ())))).congr ?_
  intro word out a
  constructor
  · rintro ⟨version, _, rfl, hversion, command, _, rfl, reserved, _, rfl, hreserved,
      ⟨-, hreject⟩ | ⟨hcommand, rfl, rfl, -⟩⟩
    · exact hreject.elim
    · rw [not_not.mp hversion, not_not.mp hcommand, not_not.mp hreserved]
      exact ⟨rfl, rfl⟩
  · rintro ⟨rfl, rfl⟩
    exact ⟨5, _, rfl, not_not.mpr rfl, 1, _, rfl, 0, _, rfl, not_not.mpr rfl,
      .inr ⟨not_not.mpr rfl, rfl, rfl, rfl⟩⟩

theorem follows_readHost : Follows readHost fun word out host ↦ out = [] ∧
    ∃ address : SocksAddress, word = address.bytes ∧ host = address.host := by
  refine (follows_readU8_bind fun addressType ↦
    (follows_readExact_bind fun octets ↦ Follows.pure (ipv4Text octets)).ite
    ((follows_readU8_bind fun len ↦ follows_bailIf
      (follows_readExact_bind fun bytes ↦ Follows.ofResult _)).ite
    ((follows_readExact_bind fun octets ↦ Follows.pure (ipv6Text octets)).ite
    (follows_reject _ _)))).congr ?_
  intro word out host
  constructor
  · rintro ⟨addressType, _, rfl, ⟨htype, octets, _, rfl, hlength, rfl, rfl, rfl⟩ |
      ⟨-, ⟨htype, len, _, rfl, hlen, bytes, _, rfl, hlength, rfl, rfl, hname⟩ |
      ⟨-, ⟨htype, octets, _, rfl, hlength, rfl, rfl, rfl⟩ | ⟨-, hreject⟩⟩⟩⟩
    · refine ⟨rfl, .ipv4 octets hlength, ?_, rfl⟩
      rw [htype, append_nil]
      rfl
    · rw [Result.context_eq_ok, Result.ofOption_eq_ok, Text.fromUtf8_eq_some_iff] at hname
      subst hname
      have hne : host ≠ "" := by
        rintro rfl
        exact hlen hlength.symm
      have hshort : (Text.utf8 host).length ≤ 255 := hlength ▸ Nat.le_of_lt_succ len.toNat_lt
      refine ⟨rfl, .domain host hne hshort, ?_, rfl⟩
      rw [SocksAddress.bytes, hlength, UInt8.ofNat_toNat, htype, append_nil]
    · refine ⟨rfl, .ipv6 octets hlength, ?_, rfl⟩
      rw [htype, append_nil]
      rfl
    · exact hreject.elim
  · rintro ⟨rfl, address, rfl, rfl⟩
    cases address with
    | ipv4 octets hlength =>
        exact ⟨1, _, rfl, .inl ⟨rfl, octets, [], (append_nil _).symm, hlength, rfl, rfl, rfl⟩⟩
    | domain name hne hshort =>
        have hlength : (UInt8.ofNat (Text.utf8 name).length).toNat = (Text.utf8 name).length :=
          UInt8.toNat_ofNat_of_lt' (Nat.lt_succ_of_le hshort)
        have hlen : ¬(UInt8.ofNat (Text.utf8 name).length).toNat = 0 := by
          rw [hlength]
          intro hzero
          have hempty := Text.fromUtf8_eq_some_iff.mpr (length_eq_zero_iff.mp hzero)
          exact hne (Option.some.inj (hempty.symm.trans (Text.fromUtf8_utf8 "")))
        refine ⟨3, _, rfl, .inr ⟨by decide, .inl ⟨rfl, _, _, rfl, hlen, Text.utf8 name, [],
          (append_nil _).symm, hlength.symm, rfl, rfl, ?_⟩⟩⟩
        rw [Text.fromUtf8_utf8]
        rfl
    | ipv6 octets hlength =>
        exact ⟨4, _, rfl, .inr ⟨by decide, .inr ⟨by decide, .inl ⟨rfl, octets, [],
          (append_nil _).symm, hlength, rfl, rfl, rfl⟩⟩⟩⟩

/-- The handshake reads a greeting and a request, replies to the greeting, and gives the target of
the request. -/
theorem follows_negotiateSocks5 : Follows negotiateSocks5 fun word out target ↦ out = [5, 0] ∧
    ∃ request : SocksRequest, word = request.greeting ++ request.connect ∧
      target = request.target := by
  refine (follows_negotiateMethod.bind fun _ ↦ follows_readCommand.bind fun _ ↦
    follows_readHost.bind fun host ↦ follows_readU16.bind fun port ↦ Follows.pure _).congr ?_
  intro word out target
  constructor
  · rintro ⟨_, _, _, _, _, rfl, rfl, ⟨rfl, methods, hnone, hfew, rfl⟩, _, _, _, _, _, rfl, rfl,
      ⟨rfl, rfl⟩, _, _, _, _, _, rfl, rfl, ⟨rfl, address, rfl, rfl⟩, port, _, _, _, _, rfl, rfl,
      ⟨rfl, rfl⟩, rfl, rfl, rfl⟩
    refine ⟨rfl, ⟨methods, hfew, hnone, address, port⟩, ?_, rfl⟩
    rw [append_nil]
    rfl
  · rintro ⟨rfl, request, rfl, rfl⟩
    refine ⟨(), request.greeting, request.connect, [5, 0], [], rfl, rfl, ⟨rfl, request.methods,
      request.noAuth, request.few, rfl⟩, (), [5, 1, 0], _, [], [], rfl, rfl, ⟨rfl, rfl⟩, _,
      request.address.bytes, Codec.bigEndian 2 request.port.toNat, [], [], rfl, rfl,
      ⟨rfl, request.address, rfl, rfl⟩, request.port, _, [], [], [], (append_nil _).symm, rfl,
      ⟨rfl, rfl⟩, rfl, rfl, rfl⟩

/-! ## What is written -/

/-- A reply to a greeting names a method. -/
def IsMethodReply (message : List UInt8) : Prop := ∃ method, message = [5, method]

/-- A reply to a request has a code, an address and a port. -/
def IsRequestReply (message : List UInt8) : Prop :=
  ∃ (code : UInt8) (address : SocksAddress) (port : UInt16), code ≤ 8 ∧
    message = [5, code, 0] ++ (address.bytes ++ Codec.bigEndian 2 port.toNat)

/-- The replies to a greeting and to the request behind it. -/
inductive AreReplies : List (List UInt8) → Prop where
  | none : AreReplies []
  | method {reply : List UInt8} : IsMethodReply reply → AreReplies [reply]
  | request {reply reply' : List UInt8} : IsMethodReply reply → IsRequestReply reply' →
      AreReplies [reply, reply']

/-- At most a reply to a request, and one only in front of a failure. -/
def Rejects {α : Type} (value : Option α) (told : List (List UInt8)) : Prop :=
  told = [] ∨ value = none ∧ ∃ reply, IsRequestReply reply ∧ told = [reply]

theorem isRequestReply_of_code {code : UInt8} (hcode : code ≤ 8) :
    IsRequestReply [5, code, 0, 1, 0, 0, 0, 0, 0, 0] :=
  ⟨code, .ipv4 [0, 0, 0, 0] rfl, 0, hcode, rfl⟩

section

variable {α γ : Type}

theorem tells_bail (text : String) :
    Tells (bail text : Exchange UInt8 α) fun value told ↦ value = none ∧ told = [] :=
  Tells.error _

theorem tells_reject (message : List UInt8) (text : String) :
    Tells (writeAll message >>= fun _ ↦ (bail text : Exchange UInt8 α))
      fun value told ↦ value = none ∧ told = [message] := by
  refine ((Tells.writeAll message).bind fun _ ↦ tells_bail text).mono ?_
  rintro value told (⟨rfl, rfl⟩ | ⟨_, _, _, rfl, rfl, rfl, rfl⟩)
  · exact ⟨rfl, rfl⟩
  · exact ⟨rfl, rfl⟩

theorem tells_readU8 : Tells readU8 fun _ told ↦ told = [] :=
  (Tells.readExact 1).quiet_bind (fun _ ↦ Tells.pure _) rfl

theorem tells_readU16 : Tells readU16 fun _ told ↦ told = [] :=
  (Tells.readExact 2).quiet_bind (fun _ ↦ Tells.pure _) rfl

/-- The greeting is replied to, unless something goes wrong before. -/
theorem tells_negotiateMethod : Tells negotiateMethod fun value told ↦
    value = none ∧ told = [] ∨ ∃ reply, IsMethodReply reply ∧ told = [reply] := by
  refine tells_readU8.quiet_bind (fun version ↦ (Tells.ofResult _).quiet_bind (fun _ ↦
    tells_readU8.quiet_bind (fun count ↦ (Tells.ofResult _).quiet_bind (fun _ ↦
    (Tells.readExact _).quiet_bind (fun methods ↦ Tells.ite ?_ ?_) ?_) ?_) ?_) ?_) ?_
  · exact (tells_reject _ _).mono fun _ _ ⟨_, htold⟩ ↦ .inr ⟨_, ⟨0xff, rfl⟩, htold⟩
  · exact (Tells.writeAll _).mono fun _ _ htold ↦ .inr ⟨_, ⟨0, rfl⟩, htold⟩
  all_goals exact .inl ⟨rfl, rfl⟩

/-- A rejection ends what is done, so that none follows another. -/
theorem rejects_bind {x : Exchange UInt8 α} {f : α → Exchange UInt8 γ} (h : Tells x Rejects)
    (hnext : ∀ a, Tells (f a) Rejects) : Tells (x >>= f) Rejects := by
  refine (h.bind hnext).mono ?_
  rintro value told (⟨rfl, htold⟩ | ⟨a, _, told₂, rfl, rfl | ⟨hnone, -⟩, htold⟩)
  · exact htold.imp_right fun hreply ↦ ⟨rfl, hreply.2⟩
  · exact htold
  · cases hnone

theorem rejects_of_quiet {x : Exchange UInt8 α} (h : Tells x fun _ told ↦ told = []) :
    Tells x Rejects := h.mono fun _ _ ↦ .inl

theorem rejects_reply {message : List UInt8} {text : String} (h : IsRequestReply message) :
    Tells (writeAll message >>= fun _ ↦ (bail text : Exchange UInt8 α)) Rejects :=
  (tells_reject message text).mono fun _ _ ⟨hnone, htold⟩ ↦ .inr ⟨hnone, message, h, htold⟩

end

theorem rejects_readCommand : Tells readCommand Rejects := by
  refine rejects_bind (rejects_of_quiet tells_readU8) fun version ↦
    rejects_bind (rejects_of_quiet (Tells.ofResult _)) fun _ ↦
    rejects_bind (rejects_of_quiet tells_readU8) fun command ↦
    rejects_bind (rejects_of_quiet tells_readU8) fun reserved ↦
    rejects_bind (rejects_of_quiet (Tells.ofResult _)) fun _ ↦ Tells.ite ?_ ?_
  · exact rejects_reply (isRequestReply_of_code (by decide))
  · exact rejects_of_quiet (Tells.pure ())

theorem rejects_readHost : Tells readHost Rejects := by
  refine rejects_bind (rejects_of_quiet tells_readU8) fun addressType ↦
    Tells.ite ?_ (Tells.ite ?_ (Tells.ite ?_ ?_))
  · exact rejects_of_quiet ((Tells.readExact 4).quiet_bind (fun _ ↦ Tells.pure _) rfl)
  · exact rejects_bind (rejects_of_quiet tells_readU8) fun len ↦
      rejects_bind (rejects_of_quiet (Tells.ofResult _)) fun _ ↦
      rejects_bind (rejects_of_quiet (Tells.readExact _)) fun bytes ↦
      rejects_of_quiet (Tells.ofResult _)
  · exact rejects_of_quiet ((Tells.readExact 16).quiet_bind (fun _ ↦ Tells.pure _) rfl)
  · exact rejects_reply (isRequestReply_of_code (by decide))

/-- What the handshake writes are replies, however it ends. -/
theorem tells_negotiateSocks5 : Tells negotiateSocks5 fun _ told ↦ AreReplies told := by
  have hrest : Tells (readCommand >>= fun _ ↦ readHost >>= fun host ↦ readU16 >>= fun port ↦
      (pure ⟨host, port⟩ : Exchange UInt8 SocksTarget)) Rejects :=
    rejects_bind rejects_readCommand fun _ ↦ rejects_bind rejects_readHost fun host ↦
      rejects_bind (rejects_of_quiet tells_readU16) fun port ↦ rejects_of_quiet (Tells.pure _)
  refine (tells_negotiateMethod.bind fun _ ↦ hrest).mono ?_
  rintro value told (⟨-, ⟨-, rfl⟩ | ⟨reply, hreply, rfl⟩⟩ |
    ⟨_, _, told₂, rfl, ⟨hnone, -⟩ | ⟨reply, hreply, rfl⟩, rfl | ⟨-, reply', hreply', rfl⟩⟩)
  · exact .none
  · exact .method hreply
  · cases hnone
  · cases hnone
  · exact .method hreply
  · exact .request hreply hreply'

/-- The handshake gives a target exactly for a greeting that offers to go without authentication
and a request to connect, of which it reads no byte too many. All that it writes are replies. -/
theorem negotiateSocks5_exact (connection : Duplex UInt8) :
    (∀ target rest,
      (∃ connection', negotiateSocks5 connection = (some (.ok target), connection') ∧
        connection'.reader.symbols = rest) ↔
      connection.writer.Takes 2 ∧ ∃ request : SocksRequest,
        connection.reader.symbols = request.greeting ++ request.connect ++ rest ∧
          target = request.target) ∧
    ∃ replies, AreReplies replies ∧
      (negotiateSocks5 connection).2.writer =
        (connection.writer.writeAll replies.flatten).2 := by
  constructor
  · intro target rest
    constructor
    · rintro ⟨connection', hrun, rfl⟩
      obtain ⟨word, out, ⟨rfl, request, rfl, rfl⟩, hsymbols, htakes, -⟩ :=
        follows_negotiateSocks5.sound _ _ _ hrun
      exact ⟨htakes, request, hsymbols, rfl⟩
    · rintro ⟨htakes, request, hsymbols, rfl⟩
      obtain ⟨connection', hrun, hrest, -⟩ :=
        follows_negotiateSocks5.complete _ _ _ _ _ ⟨rfl, request, rfl, rfl⟩ hsymbols htakes
      exact ⟨connection', hrun, hrest⟩
  · obtain ⟨replies, hreplies, hwriter, -⟩ := tells_negotiateSocks5 connection
    exact ⟨replies, hreplies, hwriter⟩

end KaduoxSsh.Core
