import KaduoxSsh.Daemon.Protocol
import KaduoxSsh.Hosts.Model

/-!
# Names of stored hosts in frames

The host library counts the characters of a label, the protocol counts the bytes
of an alias, and both stop at 128. A frame that names a stored host can be sent
when the name has that many bytes (`stored_alias_travels_iff`). The aliases of
OpenSSH are in ASCII, where the two counts agree.
-/

namespace KaduoxSsh.Daemon

open Text Hosts

/-- A client can send the frame, and the server reads the same frame. -/
def ClientFrame.Travels (frame : ClientFrame) : Prop :=
  ∃ payload, encodeClient frame = .ok payload ∧ decodeClient payload = .ok frame

/-- The server can send the frame, and a client reads the same frame. -/
def ServerFrame.Travels (frame : ServerFrame) : Prop :=
  ∃ payload, encodeServer frame = .ok payload ∧ decodeServer payload = .ok frame

theorem ClientFrame.travels_iff {frame : ClientFrame} :
    frame.Travels ↔ ∃ payload, encodeClient frame = .ok payload :=
  exists_congr fun _ ↦ and_iff_left_of_imp decodeClient_iff.mpr

theorem ServerFrame.travels_iff {frame : ServerFrame} :
    frame.Travels ↔ ∃ payload, encodeServer frame = .ok payload :=
  exists_congr fun _ ↦ and_iff_left_of_imp decodeServer_iff.mpr

/-! ## Frames that name a host -/

/-- The frames of a client that name a host, with every other field within its limit. -/
inductive ClientNames (hostAlias : String) : ClientFrame → Prop
  | disconnect : ClientNames hostAlias (.disconnect hostAlias)
  | exec {auth : Option AuthRequest} {command : String} {asUser : Option String}
      (hauth : ∃ word, putAuth auth = .ok word) (hcommand : Fits command MAX_COMMAND_BYTES)
      (huser : ∀ user, asUser = some user → Fits user MAX_ALIAS_BYTES) :
      ClientNames hostAlias (.exec hostAlias auth command asUser)
  | shell {auth : Option AuthRequest} {term : String} {columns rows : UInt32}
      {asUser : Option String} (hauth : ∃ word, putAuth auth = .ok word) (hterm : Fits term 256)
      (huser : ∀ user, asUser = some user → Fits user MAX_ALIAS_BYTES) :
      ClientNames hostAlias (.shell hostAlias auth term columns rows asUser)

/-- The challenge for a hop of a jump chain, with every other field within its limit. -/
inductive ServerNames (hostAlias : String) : ServerFrame → Prop
  | jumpAuthChallenge {index total attempt : UInt64} {host : String} {port : UInt16}
      {previousFailed : Bool} (hindex : index.toNat < 2 ^ 32) (htotal : total.toNat < 2 ^ 32)
      (hattempt : attempt.toNat < 2 ^ 32) (hhost : Fits host 4096) :
      ServerNames hostAlias
        (.jumpAuthChallenge index total attempt hostAlias host port previousFailed)

/-- Every frame that names the host can be sent and read back. -/
structure AliasTravels (hostAlias : String) : Prop where
  client : ∀ frame, ClientNames hostAlias frame → frame.Travels
  server : ∀ frame, ServerNames hostAlias frame → frame.Travels

variable {hostAlias : String}

theorem ClientNames.travels_iff {frame : ClientFrame} (h : ClientNames hostAlias frame) :
    frame.Travels ↔ Fits hostAlias MAX_ALIAS_BYTES := by
  rw [ClientFrame.travels_iff, ← exists_putString (by decide)]
  cases h with
  | disconnect =>
      constructor
      · rintro ⟨payload, h⟩
        obtain ⟨word, hword, -⟩ := Result.bind_eq_ok.mp h
        exact ⟨word, hword⟩
      · rintro ⟨word, hword⟩
        exact ⟨_, Result.bind_eq_ok.mpr ⟨word, hword, rfl⟩⟩
  | exec hauth hcommand huser =>
      obtain ⟨wauth, hauth⟩ := hauth
      obtain ⟨wcommand, hcommand⟩ := (exists_putString (by decide)).mpr hcommand
      obtain ⟨wuser, huser⟩ := exists_putOptionalString (by decide) huser
      constructor
      · rintro ⟨payload, h⟩
        obtain ⟨word, hword, -⟩ := Result.bind_eq_ok.mp h
        exact ⟨word, hword⟩
      · rintro ⟨word, hword⟩
        exact ⟨_, by simp [encodeClient, hword, hauth, hcommand, huser]; rfl⟩
  | shell hauth hterm huser =>
      obtain ⟨wauth, hauth⟩ := hauth
      obtain ⟨wterm, hterm⟩ := (exists_putString (by decide)).mpr hterm
      obtain ⟨wuser, huser⟩ := exists_putOptionalString (by decide) huser
      constructor
      · rintro ⟨payload, h⟩
        obtain ⟨word, hword, -⟩ := Result.bind_eq_ok.mp h
        exact ⟨word, hword⟩
      · rintro ⟨word, hword⟩
        exact ⟨_, by simp [encodeClient, hword, hauth, hterm, huser]; rfl⟩

theorem ServerNames.travels_iff {frame : ServerFrame} (h : ServerNames hostAlias frame) :
    frame.Travels ↔ Fits hostAlias MAX_ALIAS_BYTES := by
  rw [ServerFrame.travels_iff, ← exists_putString (by decide)]
  cases h with
  | jumpAuthChallenge hindex htotal hattempt hhost =>
      obtain ⟨windex, hindex⟩ := exists_putUsizeU32 "jump index" hindex
      obtain ⟨wtotal, htotal⟩ := exists_putUsizeU32 "jump count" htotal
      obtain ⟨wattempt, hattempt⟩ := exists_putUsizeU32 "jump auth attempt" hattempt
      obtain ⟨whost, hhost⟩ := (exists_putString (by decide)).mpr hhost
      constructor
      · rintro ⟨payload, h⟩
        simp only [encodeServer, Result.bind_eq_ok] at h
        obtain ⟨-, -, -, -, -, -, word, hword, -⟩ := h
        exact ⟨word, hword⟩
      · rintro ⟨word, hword⟩
        exact ⟨_, by simp [encodeServer, hindex, htotal, hattempt, hword, hhost]; rfl⟩

theorem aliasTravels_iff : AliasTravels hostAlias ↔ Fits hostAlias MAX_ALIAS_BYTES := by
  constructor
  · intro h
    exact ClientNames.disconnect.travels_iff.mp (h.client _ .disconnect)
  · intro h
    exact ⟨fun _ hnames ↦ hnames.travels_iff.mpr h, fun _ hnames ↦ hnames.travels_iff.mpr h⟩

/-! ## Names the host library accepts -/

theorem fits_of_validateName {value field : String} (h : validateName value field = .ok ()) :
    Fits value MAX_ALIAS_BYTES := by
  rw [validateName, Result.ite_bail_eq_ok, not_or, Nat.not_lt] at h
  exact h.1.2

/-- A hop by its name in the OpenSSH configuration, or by a name within the limit of the
protocol. -/
def HopFits : JumpHop → Prop
  | .openSshAlias _ => True
  | hop => Fits hop.displayName MAX_ALIAS_BYTES

section

variable [Unicode]

/-- An accepted host, and an accepted hop of a chain, is named by frames that can be sent exactly
when its name has at most 128 bytes; for an alias of OpenSSH the checks see to that. -/
theorem stored_alias_travels_iff :
    (∀ host : HostRecord, host.validate = .ok () →
      (AliasTravels host.hostAlias ↔ Fits host.hostAlias MAX_ALIAS_BYTES)) ∧
    ∀ hop : JumpHop, hop.validate = .ok () → (AliasTravels hop.displayName ↔ HopFits hop) := by
  refine ⟨fun _ _ ↦ aliasTravels_iff, fun hop h ↦ ?_⟩
  cases hop with
  | host hostAlias => exact aliasTravels_iff
  | openSshAlias hostAlias =>
      have hfits : Fits hostAlias MAX_ALIAS_BYTES := fits_of_validateName h
      exact iff_of_true (aliasTravels_iff.mpr hfits) trivial
  | inline jump => exact aliasTravels_iff

end

/-- An accepted name in ASCII travels, and so does a hop that is an alias of OpenSSH. -/
theorem stored_alias_travels_ascii :
    AliasTravels "build-01" ∧ AliasTravels (JumpHop.openSshAlias "bastion").displayName := by
  have hhost : @HostRecord.validate asciiLetters (.new "build-01" "10.0.0.1" "root") = .ok () := by
    decide
  have hhop : @JumpHop.validate asciiLetters (.openSshAlias "bastion") = .ok () := by
    decide
  have hfits : (utf8 "build-01").length ≤ MAX_ALIAS_BYTES := by decide
  exact ⟨((@stored_alias_travels_iff asciiLetters).1 _ hhost).mpr hfits,
    ((@stored_alias_travels_iff asciiLetters).2 _ hhop).mpr trivial⟩

theorem isControl_of_ideograph (c : Char)
    (h : (c.isAlphanum || (0x4e00 ≤ c.val && c.val ≤ 0x9fff)) = true) : isControl c = false := by
  rw [Bool.or_eq_true] at h
  rcases h with halnum | hideograph
  · exact asciiLetters.isControl_of_isAlphanumeric c halnum
  · simp [UInt32.le_iff_toNat_le] at hideograph
    simp [isControl, UInt32.le_iff_toNat_le, UInt32.lt_iff_toNat_lt]
    omega

/-- The letters and digits of ASCII and the unified ideographs, which are letters of Unicode. -/
@[reducible] def ideographs : Unicode where
  isAlphanumeric c := c.isAlphanum || (0x4e00 ≤ c.val && c.val ≤ 0x9fff)
  isControl_of_isAlphanumeric := isControl_of_ideograph

/-- Forty-three ideographs, of three bytes each. -/
def longLabel : String := String.ofList (List.replicate 43 '机')

/-- A host and a hop the library accepts, and that no frame can name. -/
theorem long_label_not_sent :
    @HostRecord.validate ideographs (.new longLabel "10.0.0.1" "root") = .ok () ∧
      @JumpHop.validate ideographs (.host longLabel) = .ok () ∧
      ¬(ClientFrame.disconnect longLabel).Travels ∧
      ¬(ClientFrame.exec longLabel none "uptime" none).Travels ∧
      ¬(ClientFrame.shell longLabel none "xterm" 80 24 none).Travels ∧
      ¬(ServerFrame.jumpAuthChallenge 0 1 1 longLabel "10.0.0.1" 22 false).Travels := by
  have hlong : ¬Fits longLabel MAX_ALIAS_BYTES := by
    unfold Fits
    decide +kernel
  have hnone : ∃ word, putAuth none = .ok word := ⟨_, rfl⟩
  have huser : ∀ user, (none : Option String) = some user → Fits user MAX_ALIAS_BYTES := nofun
  refine ⟨by decide +kernel, by decide +kernel, ?_, ?_, ?_, ?_⟩
  · rwa [ClientNames.disconnect.travels_iff]
  · have hcommand : Fits "uptime" MAX_COMMAND_BYTES := by
      unfold Fits
      decide
    rwa [(ClientNames.exec hnone hcommand huser).travels_iff]
  · have hterm : Fits "xterm" 256 := by
      unfold Fits
      decide
    rwa [(ClientNames.shell hnone hterm huser).travels_iff]
  · have hhost : Fits "10.0.0.1" 4096 := by
      unfold Fits
      decide
    rwa [(ServerNames.jumpAuthChallenge (by decide) (by decide) (by decide) hhost).travels_iff]

end KaduoxSsh.Daemon
