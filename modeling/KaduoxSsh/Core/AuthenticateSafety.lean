import KaduoxSsh.Core.Authenticate

/-!
# What is sent for a credential

The protocol of an authentication: what may be asked for a credential, after what has been asked
and replied before. A secret goes to the server of the session only, as a password or as the
answer to a prompt of it, and a passphrase opens files that the credential names. Nothing is asked
any more when the server has accepted, and that is what the result tells (`authenticate_meets`).
-/

namespace KaduoxSsh.Core

open Interaction List

variable {Session : Type}

abbrev AuthEvent (Session : Type) := Event (@AuthQuestion.Reply Session)

/-- What has been asked and replied so far. -/
abbrev AuthHistory (Session : Type) := List (AuthEvent Session)

namespace Authentication

/-- The secret that the server is to see. -/
def secret? : Authentication → Option String
  | .password secret | .keyboardInteractive secret => some secret
  | _ => none

/-- The passphrase that files are to be opened with. -/
def passphrase? : Authentication → Option String
  | .privateKey _ passphrase | .auto _ passphrase => passphrase
  | _ => none

def UsesAgent : Authentication → Prop
  | .agent | .auto _ _ => True
  | _ => False

/-- A file that is to be read for a credential. -/
def Names (history : AuthHistory Session) (path : PathBuf) : Authentication → Prop
  | .privateKey named _ => path = named
  | .auto identityFiles _ => path ∈ identityFiles ∨ identityFiles = [] ∧
      ∃ home, ⟨.userHomeDir, some home⟩ ∈ history ∧ path ∈ defaultIdentityCandidates home
  | _ => False

end Authentication

/-- The reply of the server to a credential. -/
def authResult? : AuthEvent Session → Option AuthResult
  | ⟨.request _ (.password _ _), reply⟩ | ⟨.request _ (.publickey _ _), reply⟩
  | ⟨.request _ (.publickeyWith _ _ _), reply⟩ => Except.toOption reply
  | _ => none

/-- The reply of the server in the keyboard-interactive method. -/
def interactive? : AuthEvent Session → Option KeyboardInteractiveAuthResponse
  | ⟨.request _ (.keyboardInteractiveStart _), reply⟩
  | ⟨.request _ (.keyboardInteractiveRespond _), reply⟩ => Except.toOption reply
  | _ => none

/-- The server accepts the user. -/
def Accepts (e : AuthEvent Session) : Prop :=
  authResult? e = some .success ∨ interactive? e = some .success

namespace AuthHistory

variable (history : AuthHistory Session)

def Accepted : Prop := ∃ e ∈ history, Accepts e

/-- The last reply is a round of prompts. -/
def Prompted (prompts : List Prompt) : Prop :=
  history.getLast?.bind interactive? = some (.infoRequest prompts)

def Loaded (path : PathBuf) (key : PrivateKey) : Prop :=
  ∃ passphrase, ⟨.loadSecretKey path passphrase, Except.ok key⟩ ∈ history

def LoadFailed (path : PathBuf) : Prop :=
  ∃ error, ⟨.loadSecretKey path none, Except.error error⟩ ∈ history

/-- The agent has an identity. -/
def Offered (identity : AgentIdentity) : Prop :=
  ∃ identities, ⟨.requestIdentities, Except.ok identities⟩ ∈ history ∧ identity ∈ identities

end AuthHistory

/-- What may be asked for a credential. -/
inductive Permitted (session : Session) (username : String) (credential : Authentication)
    (history : AuthHistory Session) : AuthQuestion Session → Prop
  | password {secret : String} (hsecret : credential.secret? = some secret) :
      Permitted session username credential history (.request session (.password username secret))
  | start {secret : String} (hsecret : credential.secret? = some secret) :
      Permitted session username credential history
        (.request session (.keyboardInteractiveStart username))
  /-- The secret answers the prompts that have a text. -/
  | respond {secret : String} {prompts : List Prompt} (hsecret : credential.secret? = some secret)
      (hprompted : history.Prompted prompts) :
      Permitted session username credential history
        (.request session (.keyboardInteractiveRespond (prompts.map (Prompt.response secret))))
  | publickey {path : PathBuf} {key : PrivateKey} (hnames : credential.Names history path)
      (hloaded : history.Loaded path key) (hrsa : key.rsa = false) :
      Permitted session username credential history (.request session (.publickey username key))
  | publickeyWith {identity : AgentIdentity} {hash : Option HashAlg} (hagent : credential.UsesAgent)
      (hoffered : history.Offered identity) :
      Permitted session username credential history
        (.request session (.publickeyWith username identity hash))
  | bestSupportedRsaHash (hagent : credential.UsesAgent) :
      Permitted session username credential history (.bestSupportedRsaHash session)
  | connectSystemAgent (hagent : credential.UsesAgent) :
      Permitted session username credential history .connectSystemAgent
  | requestIdentities (hagent : credential.UsesAgent) :
      Permitted session username credential history .requestIdentities
  | tryExists {path : PathBuf} (hnames : credential.Names history path) :
      Permitted session username credential history (.tryExists path)
  | loadSecretKey {path : PathBuf} (hnames : credential.Names history path) :
      Permitted session username credential history
        (.loadSecretKey path credential.passphrase?)
  | storedKeyPassphrase {path : PathBuf} (hnames : credential.Names history path)
      (hnone : credential.passphrase? = none) (hfailed : history.LoadFailed path) :
      Permitted session username credential history (.storedKeyPassphrase path)
  /-- The passphrase that is kept for a file opens that file. -/
  | loadStored {path : PathBuf} {stored : String} (hnames : credential.Names history path)
      (hnone : credential.passphrase? = none)
      (hstored : ⟨.storedKeyPassphrase path, some stored⟩ ∈ history) :
      Permitted session username credential history (.loadSecretKey path (some stored))
  | userHomeDir {passphrase : Option String} (hauto : credential = .auto [] passphrase) :
      Permitted session username credential history .userHomeDir

/-- The protocol of an authentication. -/
def authProtocol (session : Session) (username : String) (credential : Authentication) :
    Monitor (@AuthQuestion.Reply Session) (AuthHistory Session) :=
  .ofHistory fun (history : AuthHistory Session) q ↦
    Permitted session username credential history q ∧ ¬history.Accepted

theorem AuthResult.isSuccess_iff (result : AuthResult) :
    result.isSuccess = true ↔ result = .success := by
  cases result with
  | success => exact iff_of_true rfl rfl
  | failure remainingMethods => exact iff_of_false Bool.false_ne_true AuthResult.noConfusion

section

variable {session : Session} {username : String} {credential : Authentication}
  {history : AuthHistory Session} {e : AuthEvent Session} {path : PathBuf}
  {passphrase : Option String} {pre : AuthHistory Session → Prop} {secret : String}
  {q : AuthQuestion Session} {paths : List PathBuf}

namespace AuthHistory

theorem accepted_concat : Accepted (history ++ [e]) ↔ history.Accepted ∨ Accepts e := by
  simp only [Accepted, mem_append, mem_singleton, or_and_right, exists_or,
    exists_eq_left]

theorem not_accepted_nil : ¬Accepted ([] : AuthHistory Session) := by
  rintro ⟨e, he, -⟩
  exact not_mem_nil he

end AuthHistory

/-- The server has not accepted the user. -/
def Quiet (history : AuthHistory Session) : Prop := ¬history.Accepted

/-- The result tells whether the server has accepted the user. -/
def Told (result : Bool) (history : AuthHistory Session) : Prop :=
  result = true ↔ history.Accepted

theorem Quiet.concat (h : Quiet history) (he : ¬Accepts e) : Quiet (history ++ [e]) := by
  rw [Quiet, AuthHistory.accepted_concat]
  exact not_or_intro h he

theorem Quiet.told (h : Quiet history) : Told false history :=
  iff_of_false Bool.false_ne_true h

theorem Authentication.Names.concat (h : credential.Names history path) :
    credential.Names (history ++ [e]) path := by
  cases credential with
  | auto identityFiles passphrase =>
      refine h.imp_right (And.imp_right ?_)
      rintro ⟨home, hhome, hpath⟩
      exact ⟨home, mem_append_left _ hhome, hpath⟩
  | _ => exact h

/-! ## Questions -/

/-- A question that is no message to the server is not accepted. -/
theorem not_accepts (hresult : authResult? e = none) (hinteractive : interactive? e = none) :
    ¬Accepts e := by
  rintro (h | h)
  · cases hresult.symm.trans h
  · cases hinteractive.symm.trans h

/-- A question that the server does not reply to with its consent. -/
theorem meets_ask {α : Type} {read : q.Reply → Result α} {pre failed : AuthHistory Session → Prop}
    {post : α → AuthHistory Session → Prop}
    (hpre : ∀ h, pre h → Quiet h ∧ Permitted session username credential h q)
    (hquiet : ∀ reply, ¬Accepts ⟨q, reply⟩)
    (hok : ∀ h reply a, pre h → read reply = .ok a → Quiet (h ++ [⟨q, reply⟩]) → post a (h ++ [⟨q, reply⟩]))
    (herror : ∀ h reply e, pre h → read reply = .error e → Quiet (h ++ [⟨q, reply⟩]) → failed (h ++ [⟨q, reply⟩])) :
    (Asking.query q read).Meets (authProtocol session username credential) pre post failed :=
  .query (fun h hh ↦ (hpre h hh).symm)
    (fun h reply a hh ha ↦ hok h reply a hh ha ((hpre h hh).1.concat (hquiet reply)))
    fun h reply e hh he ↦ herror h reply e hh he ((hpre h hh).1.concat (hquiet reply))

/-- A question whose reply says whether the server has accepted the user. -/
theorem meets_asked {α : Type} {read : q.Reply → Result α} {success : α}
    {post : α → AuthHistory Session → Prop}
    (hpre : ∀ h, pre h → Quiet h ∧ Permitted session username credential h q)
    (haccepts : ∀ reply, Accepts ⟨q, reply⟩ ↔ read reply = .ok success)
    (hpost : ∀ h reply a, read reply = .ok a →
      (a = success ↔ AuthHistory.Accepted (h ++ [⟨q, reply⟩])) → post a (h ++ [⟨q, reply⟩])) :
    (Asking.query q read).Meets (authProtocol session username credential) pre post Quiet := by
  refine .query (fun h hh ↦ (hpre h hh).symm) (fun h reply a hh ha ↦ hpost h reply a ha ?_)
    fun h reply e hh he ↦ ?_
  · rw [AuthHistory.accepted_concat, haccepts, ha, or_iff_right (hpre h hh).1, Except.ok.injEq]
  · refine (hpre h hh).1.concat ?_
    rw [haccepts, he]
    rintro ⟨⟩

/-- A credential that the server decides on at once. -/
theorem meets_authResult {read : q.Reply → Result AuthResult}
    (hpre : ∀ h, pre h → Quiet h ∧ Permitted session username credential h q)
    (hresult : ∀ reply, authResult? ⟨q, reply⟩ = (read reply).toOption)
    (hinteractive : ∀ reply, interactive? ⟨q, reply⟩ = none) :
    (Asking.query q read).Meets (authProtocol session username credential) pre
      (fun a h ↦ Told a.isSuccess h) Quiet := by
  refine meets_asked hpre (fun reply ↦ ?_) fun h reply a _ haccepted ↦
    a.isSuccess_iff.trans haccepted
  rw [Accepts, hresult, hinteractive, Result.toOption_eq_some,
    or_iff_left (Option.some_ne_none _).symm]

/-! ## Secrets -/

/-- A round of the keyboard-interactive method is over. -/
def Answered (response : KeyboardInteractiveAuthResponse) (history : AuthHistory Session) : Prop :=
  (response = .success ↔ history.Accepted) ∧
    ∀ prompts, response = .infoRequest prompts → history.Prompted prompts

theorem meets_interactive {read : q.Reply → Result KeyboardInteractiveAuthResponse}
    (hpre : ∀ h, pre h → Quiet h ∧ Permitted session username credential h q)
    (hresult : ∀ reply, authResult? ⟨q, reply⟩ = none)
    (hinteractive : ∀ reply, interactive? ⟨q, reply⟩ = (read reply).toOption) :
    (Asking.query q read).Meets (authProtocol session username credential) pre Answered Quiet := by
  refine meets_asked hpre (fun reply ↦ ?_) fun h reply a ha haccepted ↦ ⟨haccepted, ?_⟩
  · rw [Accepts, hresult, hinteractive, Result.toOption_eq_some,
      or_iff_right (Option.some_ne_none _).symm]
  · rintro prompts rfl
    show AuthHistory.Prompted (h ++ [⟨q, reply⟩]) prompts
    rw [AuthHistory.Prompted, List.getLast?_concat, Option.bind_some, hinteractive, ha]
    rfl

theorem Answered.quiet {prompts : List Prompt} (h : Answered (.infoRequest prompts) history) :
    Quiet history := fun haccepted ↦
  KeyboardInteractiveAuthResponse.noConfusion (h.1.mpr haccepted)

theorem meets_keyboardInteractiveRounds (hsecret : credential.secret? = some secret)
    {left totalPrompts : Nat} {response : KeyboardInteractiveAuthResponse} :
    (keyboardInteractiveRounds session secret left totalPrompts response).Meets
      (authProtocol session username credential) (Answered response)
      (fun outcome h ↦ outcome = .success ↔ h.Accepted) Quiet := by
  induction left generalizing totalPrompts response with
  | zero =>
      cases response with
      | success => exact .pure fun h hh ↦ iff_of_true rfl (hh.1.mp rfl)
      | failure remainingMethods =>
          refine .pure fun h hh ↦ iff_of_false KeyboardInteractiveOutcome.noConfusion ?_
          exact fun haccepted ↦ KeyboardInteractiveAuthResponse.noConfusion (hh.1.mpr haccepted)
      | infoRequest prompts =>
          exact (Asking.Meets.ofResult (fun _ _ _ hh ↦ hh) fun _ _ _ hh ↦ hh.quiet).bind
            fun _ ↦ .bail fun _ hh ↦ hh.quiet
  | succ left ih =>
      cases response with
      | success => exact .pure fun h hh ↦ iff_of_true rfl (hh.1.mp rfl)
      | failure remainingMethods =>
          refine .pure fun h hh ↦ iff_of_false KeyboardInteractiveOutcome.noConfusion ?_
          exact fun haccepted ↦ KeyboardInteractiveAuthResponse.noConfusion (hh.1.mpr haccepted)
      | infoRequest prompts =>
          refine (Asking.Meets.ofResult (fun _ _ _ hh ↦ hh) fun _ _ _ hh ↦ hh.quiet).bind
            fun total ↦ ?_
          have hrespond : (authenticateKeyboardInteractiveRespond session
              (prompts.map (Prompt.response secret))).Meets
              (authProtocol session username credential)
              (Answered (.infoRequest prompts)) Answered Quiet :=
            meets_interactive (fun _ hh ↦ ⟨hh.quiet, .respond hsecret (hh.2 prompts rfl)⟩)
              (fun _ ↦ rfl) fun _ ↦ rfl
          exact hrespond.bind fun _ ↦ ih

theorem meets_authenticateKeyboardInteractive (hsecret : credential.secret? = some secret) :
    (authenticateKeyboardInteractive session username secret).Meets
      (authProtocol session username credential) Quiet
      (fun outcome h ↦ outcome = .success ↔ h.Accepted) Quiet := by
  have hstart : (authenticateKeyboardInteractiveStart session username).Meets
      (authProtocol session username credential) Quiet Answered Quiet :=
    meets_interactive (fun _ hh ↦ ⟨hh, .start hsecret⟩) (fun _ ↦ rfl) fun _ ↦ rfl
  exact hstart.bind fun _ ↦ meets_keyboardInteractiveRounds hsecret

theorem meets_authenticatePassword (hsecret : credential.secret? = some secret) :
    (authenticatePassword session username secret).Meets
      (authProtocol session username credential) Quiet (fun result ↦ Told result.isSuccess)
      Quiet :=
  meets_authResult (fun _ hh ↦ ⟨hh, .password hsecret⟩) (fun _ ↦ rfl) fun _ ↦ rfl

theorem meets_retrySiblingPasswordMethod (hsecret : credential.secret? = some secret)
    {rejected : MethodKind} {remainingMethods : MethodSet} :
    (retrySiblingPasswordMethod session username secret rejected remainingMethods).Meets
      (authProtocol session username credential) Quiet Told Quiet := by
  have hnone : (pure false : Authenticating Session Bool).Meets
      (authProtocol session username credential) Quiet Told Quiet := .pure fun _ hh ↦ hh.told
  cases rejected with
  | password =>
      rw [retrySiblingPasswordMethod]
      split
      · exact hnone
      · refine (meets_authenticateKeyboardInteractive hsecret).bind fun outcome ↦ .pure ?_
        intro h hh
        exact decide_eq_true_iff.trans hh
  | keyboardInteractive =>
      rw [retrySiblingPasswordMethod]
      split
      · exact hnone
      · exact (meets_authenticatePassword hsecret).bind fun _ ↦ .pure fun _ ↦ id
  | _ => exact hnone

/-! ## Keys -/

/-- A file is to be read. -/
def Reads (credential : Authentication) (path : PathBuf) (history : AuthHistory Session) : Prop :=
  Quiet history ∧ credential.Names history path

theorem meets_loadSecretKey
    (hpre : ∀ h, pre h → Reads credential path h ∧ Permitted session username credential h (.loadSecretKey path passphrase)) :
    (loadSecretKey path passphrase).Meets (authProtocol session username credential) pre
      (fun key h ↦ Reads credential path h ∧ h.Loaded path key)
      fun h ↦ Reads credential path h ∧
        ∃ error, ⟨.loadSecretKey path passphrase, Except.error error⟩ ∈ h := by
  refine meets_ask (fun h hh ↦ ⟨(hpre h hh).1.1, (hpre h hh).2⟩) (fun _ ↦ not_accepts rfl rfl) ?_ ?_
  · rintro h reply key hh rfl hquiet
    exact ⟨⟨hquiet, (hpre h hh).1.2.concat⟩, passphrase,
      mem_append_right _ mem_cons_self⟩
  · rintro h reply error hh rfl hquiet
    exact ⟨⟨hquiet, (hpre h hh).1.2.concat⟩, error, mem_append_right _ mem_cons_self⟩

/-- A passphrase is kept for a file that did not open without one. -/
theorem meets_storedPassphrase (hpassphrase : credential.passphrase? = passphrase) :
    (storedPassphrase path passphrase).Meets (authProtocol session username credential)
      (fun h ↦ Reads credential path h ∧
        ∃ error, ⟨.loadSecretKey path passphrase, Except.error error⟩ ∈ h)
      (fun stored h ↦ Reads credential path h ∧ ∀ known, stored = some known →
        credential.passphrase? = none ∧ ⟨.storedKeyPassphrase path, some known⟩ ∈ h)
      Quiet := by
  rw [storedPassphrase]
  split
  · next hnone =>
    subst hnone
    refine meets_ask (fun _ hh ↦ ⟨hh.1.1, .storedKeyPassphrase hh.1.2 hpassphrase hh.2⟩)
      (fun _ ↦ not_accepts rfl rfl) ?_ fun _ _ _ _ _ hquiet ↦ hquiet
    rintro h reply stored hh heq hquiet
    refine ⟨⟨hquiet, hh.1.2.concat⟩, ?_⟩
    rintro known rfl
    cases heq
    exact ⟨hpassphrase, mem_append_right _ mem_cons_self⟩
  · refine .pure fun _ hh ↦ ⟨hh.1, ?_⟩
    rintro known ⟨⟩

theorem meets_loadIdentity (hpassphrase : credential.passphrase? = passphrase) :
    (loadIdentity path passphrase).Meets (authProtocol session username credential)
      (Reads credential path) (fun key h ↦ Reads credential path h ∧ h.Loaded path key) Quiet := by
  have hgiven : (loadSecretKey path passphrase).Meets (authProtocol session username credential)
      (Reads credential path) (fun key h ↦ Reads credential path h ∧ h.Loaded path key)
      (fun h ↦ Reads credential path h ∧
        ∃ error, ⟨.loadSecretKey path passphrase, Except.error error⟩ ∈ h) :=
    meets_loadSecretKey fun _ hh ↦ ⟨hh, hpassphrase ▸ .loadSecretKey hh.2⟩
  refine hgiven.outcome.bind fun result ↦ ?_
  cases result with
  | ok key => exact .pure fun _ hh ↦ hh
  | error error =>
      refine (meets_storedPassphrase hpassphrase).bind fun stored ↦ ?_
      cases stored with
      | none => exact .context (.ofResult (fun _ h ↦ by cases h) fun _ _ _ hh ↦ hh.1.1)
      | some stored =>
          refine .context ((meets_loadSecretKey fun _ hh ↦ ⟨hh.1, ?_⟩).mono (fun _ ↦ id)
            (fun _ _ ↦ id) fun _ hh ↦ hh.1.1)
          obtain ⟨hnone, hstored⟩ := hh.2 stored rfl
          exact .loadStored hh.1.2 hnone hstored

theorem meets_authenticatePrivateKey (hpassphrase : credential.passphrase? = passphrase) :
    (authenticatePrivateKey session username path passphrase).Meets
      (authProtocol session username credential) (Reads credential path) Told Quiet := by
  refine (meets_loadIdentity hpassphrase).bind fun key ↦ ?_
  split
  · exact .bail fun _ hh ↦ hh.1.1
  · next hrsa =>
    have hpublickey : (authenticatePublickey session username key).Meets
        (authProtocol session username credential)
        (fun h ↦ Reads credential path h ∧ h.Loaded path key)
        (fun result ↦ Told result.isSuccess) Quiet :=
      meets_authResult
        (fun _ hh ↦ ⟨hh.1.1, .publickey hh.1.2 hh.2 (Bool.eq_false_iff.mpr hrsa)⟩)
        (fun _ ↦ rfl) fun _ ↦ rfl
    exact hpublickey.bind fun _ ↦ .pure fun _ ↦ id

/-! ## The agent -/

theorem AuthHistory.Offered.concat {identity : AgentIdentity} (h : history.Offered identity) :
    AuthHistory.Offered (history ++ [e]) identity := by
  obtain ⟨identities, hmem, hidentity⟩ := h
  exact ⟨identities, mem_append_left _ hmem, hidentity⟩

theorem meets_tryIdentities {hash : Option HashAlg} {identities : List AgentIdentity}
    (hagent : credential.UsesAgent) :
    (tryIdentities session username hash identities).Meets
      (authProtocol session username credential)
      (fun h ↦ Quiet h ∧ ∀ identity ∈ identities, h.Offered identity) Told Quiet := by
  induction identities with
  | nil => exact .pure fun _ hh ↦ hh.1.told
  | cons identity identities ih =>
      have hidentity : (authenticatePublickeyWith session username identity hash).Meets
          (authProtocol session username credential)
          (fun h ↦ (Quiet h ∧ h.Offered identity) ∧ ∀ other ∈ identities, h.Offered other)
          (fun result h ↦ Told result.isSuccess h ∧ ∀ other ∈ identities, h.Offered other)
          (fun h ↦ Quiet h ∧ ∀ other ∈ identities, h.Offered other) :=
        (meets_authResult (fun _ hh ↦ ⟨hh.1, .publickeyWith hagent hh.2⟩) (fun _ ↦ rfl)
          fun _ ↦ rfl).frame fun _ _ hh other hother ↦ (hh other hother).concat
      refine (hidentity.mono (fun h hh ↦ ?_) (fun _ _ ↦ id) fun _ hh ↦ hh.1).bind fun result ↦ ?_
      · obtain ⟨hfirst, hrest⟩ := forall_mem_cons.mp hh.2
        exact ⟨⟨hh.1, hfirst⟩, hrest⟩
      · split
        · next hsuccess =>
          exact .pure fun _ hh ↦ iff_of_true rfl (hh.1.mp hsuccess)
        · next hfailure =>
          refine ih.mono (fun _ hh ↦ ?_) (fun _ _ ↦ id) fun _ ↦ id
          exact ⟨fun haccepted ↦ hfailure (hh.1.mpr haccepted), hh.2⟩

theorem meets_authenticateWithAgent (hagent : credential.UsesAgent) :
    (authenticateWithAgent session username).Meets (authProtocol session username credential)
      Quiet Told Quiet := by
  have hconnect : (Asking.query .connectSystemAgent id : Authenticating Session Unit).Meets
      (authProtocol session username credential) Quiet (fun _ ↦ Quiet) Quiet :=
    meets_ask (fun _ hh ↦ ⟨hh, .connectSystemAgent hagent⟩) (fun _ ↦ not_accepts rfl rfl)
      (fun _ _ _ _ _ hquiet ↦ hquiet) fun _ _ _ _ _ hquiet ↦ hquiet
  have hidentities : (Asking.query .requestIdentities id :
      Authenticating Session (List AgentIdentity)).Meets
      (authProtocol session username credential) Quiet
      (fun identities h ↦ Quiet h ∧ ∀ identity ∈ identities, h.Offered identity) Quiet := by
    refine meets_ask (fun _ hh ↦ ⟨hh, .requestIdentities hagent⟩) (fun _ ↦ not_accepts rfl rfl) ?_
      fun _ _ _ _ _ hquiet ↦ hquiet
    rintro h reply identities - rfl hquiet
    exact ⟨hquiet, fun identity hidentity ↦
      ⟨identities, mem_append_right _ mem_cons_self, hidentity⟩⟩
  have hhash : ∀ identities : List AgentIdentity,
      (Asking.query (.bestSupportedRsaHash session) id :
        Authenticating Session (Option (Option HashAlg))).Meets
      (authProtocol session username credential)
      (fun h ↦ Quiet h ∧ ∀ identity ∈ identities, h.Offered identity)
      (fun _ h ↦ Quiet h ∧ ∀ identity ∈ identities, h.Offered identity) Quiet := by
    refine fun identities ↦ meets_ask (fun _ hh ↦ ⟨hh.1, .bestSupportedRsaHash hagent⟩)
      (fun _ ↦ not_accepts rfl rfl) ?_ fun _ _ _ _ _ hquiet ↦ hquiet
    rintro h reply hash hh - hquiet
    exact ⟨hquiet, fun identity hidentity ↦ (hh.2 identity hidentity).concat⟩
  refine hconnect.bind fun _ ↦ hidentities.bind fun identities ↦ ?_
  split
  · exact .pure fun _ hh ↦ hh.1.told
  · exact (hhash identities).bind fun hash ↦ meets_tryIdentities hagent

/-! ## Files of keys -/

/-- Files are to be read one after the other. -/
def ReadsAll (credential : Authentication) (paths : List PathBuf)
    (history : AuthHistory Session) : Prop :=
  Quiet history ∧ ∀ path ∈ paths, credential.Names history path

theorem ReadsAll.rest (h : ReadsAll credential (path :: paths) history) :
    ReadsAll credential paths history :=
  ⟨h.1, fun other hother ↦ h.2 other (mem_cons_of_mem _ hother)⟩

theorem meets_tryExists :
    (Asking.query (.tryExists path) id : Authenticating Session Bool).Meets
      (authProtocol session username credential) (ReadsAll credential (path :: paths))
      (fun _ ↦ ReadsAll credential (path :: paths)) (ReadsAll credential (path :: paths)) :=
  meets_ask (fun _ hh ↦ ⟨hh.1, .tryExists (hh.2 path mem_cons_self)⟩)
    (fun _ ↦ not_accepts rfl rfl)
    (fun _ _ _ hh _ hquiet ↦ ⟨hquiet, fun other hother ↦ (hh.2 other hother).concat⟩)
    fun _ _ _ hh _ hquiet ↦ ⟨hquiet, fun other hother ↦ (hh.2 other hother).concat⟩

theorem meets_tryIdentityFiles (hpassphrase : credential.passphrase? = passphrase)
    {firstIdentityError : Option AnyError} :
    (tryIdentityFiles session username passphrase firstIdentityError paths).Meets
      (authProtocol session username credential) (ReadsAll credential paths) Told Quiet := by
  induction paths generalizing firstIdentityError with
  | nil =>
      cases firstIdentityError with
      | none => exact .pure fun _ hh ↦ hh.1.told
      | some error => exact .context (.ofResult (fun _ h ↦ by cases h) fun _ _ _ hh ↦ hh.1)
  | cons path paths ih =>
      have hkey : (authenticatePrivateKey session username path passphrase).Meets
          (authProtocol session username credential)
          (fun h ↦ Reads credential path h ∧ ∀ other ∈ paths, credential.Names h other)
          (fun result h ↦ Told result h ∧ ∀ other ∈ paths, credential.Names h other)
          (ReadsAll credential paths) :=
        (meets_authenticatePrivateKey hpassphrase).frame
          fun _ _ hh other hother ↦ (hh other hother).concat
      rw [tryIdentityFiles]
      refine meets_tryExists.outcome.bind fun there ↦ ?_
      cases there with
      | error error => exact ih.mono (fun _ hh ↦ hh.rest) (fun _ _ ↦ id) fun _ ↦ id
      | ok there =>
          cases there with
          | false => exact ih.mono (fun _ hh ↦ hh.rest) (fun _ _ ↦ id) fun _ ↦ id
          | true =>
              refine (hkey.outcome.mono (fun h hh ↦ ?_) (fun _ _ ↦ id) fun _ ↦ id).bind
                fun result ↦ ?_
              · exact ⟨⟨hh.1, hh.2 path mem_cons_self⟩, hh.rest.2⟩
              · cases result with
                | error error => exact ih
                | ok accepted =>
                    cases accepted with
                    | true => exact .pure fun _ hh ↦ hh.1
                    | false =>
                        refine ih.mono (fun _ hh ↦ ⟨?_, hh.2⟩) (fun _ _ ↦ id) fun _ ↦ id
                        exact fun haccepted ↦ Bool.false_ne_true (hh.1.mpr haccepted)

theorem meets_identityCandidates {identityFiles : List PathBuf}
    (hauto : credential = .auto identityFiles passphrase) :
    (identityCandidates identityFiles).Meets (authProtocol session username credential) Quiet
      (fun paths ↦ ReadsAll credential paths) Quiet := by
  subst hauto
  rw [identityCandidates]
  split
  · exact .pure fun _ hh ↦ ⟨hh, fun _ hpath ↦ .inl hpath⟩
  · next hempty =>
    obtain rfl := not_not.mp hempty
    have hhome : (Asking.query .userHomeDir Except.ok :
        Authenticating Session (Option PathBuf)).Meets
        (authProtocol session username (.auto [] passphrase)) Quiet
        (fun home h ↦ Quiet h ∧ ⟨.userHomeDir, home⟩ ∈ h) Quiet := by
      refine meets_ask (fun _ hh ↦ ⟨hh, .userHomeDir rfl⟩) (fun _ ↦ not_accepts rfl rfl) ?_
        fun _ _ _ _ _ hquiet ↦ hquiet
      rintro h reply home - ⟨⟩ hquiet
      exact ⟨hquiet, mem_append_right _ mem_cons_self⟩
    refine hhome.bind fun home ↦ .pure fun h hh ↦ ⟨hh.1, fun path hpath ↦ ?_⟩
    cases home with
    | none => exact absurd hpath not_mem_nil
    | some home => exact .inr ⟨rfl, home, hh.2, hpath⟩

/-! ## All of it -/

theorem authenticate_meets :
    (authenticate session username credential).Meets (authProtocol session username credential)
      Quiet Told Quiet := by
  cases credential with
  | password secret =>
      refine (meets_authenticatePassword rfl).bind fun result ↦ ?_
      cases result with
      | success => exact .pure fun _ ↦ id
      | failure remainingMethods =>
          refine (meets_retrySiblingPasswordMethod rfl).mono (fun _ hh ↦ ?_) (fun _ _ ↦ id)
            fun _ ↦ id
          exact fun haccepted ↦ Bool.false_ne_true (hh.mpr haccepted)
  | keyboardInteractive secret =>
      refine (meets_authenticateKeyboardInteractive rfl).bind fun outcome ↦ ?_
      cases outcome with
      | success => exact .pure fun _ hh ↦ iff_of_true rfl (hh.mp rfl)
      | rejected remainingMethods =>
          refine (meets_retrySiblingPasswordMethod rfl).mono (fun _ hh ↦ ?_) (fun _ _ ↦ id)
            fun _ ↦ id
          exact fun haccepted ↦ KeyboardInteractiveOutcome.noConfusion (hh.mpr haccepted)
  | privateKey path passphrase =>
      exact (meets_authenticatePrivateKey rfl).mono (fun _ hh ↦ ⟨hh, rfl⟩) (fun _ _ ↦ id)
        fun _ ↦ id
  | agent => exact meets_authenticateWithAgent True.intro
  | auto identityFiles passphrase =>
      have hagent : (Authentication.auto identityFiles passphrase).UsesAgent := True.intro
      refine (meets_authenticateWithAgent hagent).outcome.bind fun result ↦ ?_
      have hfiles : ((identityCandidates identityFiles : Authenticating Session _) >>= fun paths ↦
          tryIdentityFiles session username passphrase none paths).Meets
          (authProtocol session username (.auto identityFiles passphrase)) Quiet Told Quiet :=
        (meets_identityCandidates rfl).bind fun _ ↦ meets_tryIdentityFiles rfl
      split
      · next haccepted =>
        obtain rfl := Result.toOption_eq_some.mp haccepted
        exact .pure fun _ ↦ id
      · next hrefused =>
        refine hfiles.mono (fun h hh ↦ ?_) (fun _ _ ↦ id) fun _ ↦ id
        cases result with
        | error error => exact hh
        | ok accepted =>
            refine fun haccepted ↦ hrefused ?_
            rw [Result.toOption_eq_some, show accepted = true from hh.mpr haccepted]

/-- Whatever the server, the agent and the files reply, each question is one that the credential
permits at that point, and none comes after the consent of the server, which is what the result
tells. -/
theorem authenticate_confined
    {rest : Interaction (AuthQuestion Session) AuthQuestion.Reply (Result Bool)}
    (hruns : Runs (authenticate session username credential).run history rest) :
    (∀ before e after, history = before ++ e :: after →
        Permitted session username credential before e.question ∧
          ¬AuthHistory.Accepted before) ∧
      (∀ q next, rest = .ask q next →
        Permitted session username credential history q ∧ ¬history.Accepted) ∧
      (∀ accepted, rest = .done (.ok accepted) → (accepted = true ↔ history.Accepted)) ∧
      ∀ error, rest = .done (.error error) → ¬history.Accepted := by
  have hkeeps : (authenticate session username credential).run.Keeps
      (authProtocol session username credential) [] (Asking.ending Told Quiet) :=
    authenticate_meets [] AuthHistory.not_accepted_nil
  have hafter : ∀ events, (authProtocol session username credential).after [] events = events :=
    Monitor.after_ofHistory []
  refine ⟨?_, ?_, ?_, ?_⟩
  · intro before e after heq
    exact (hkeeps.obeys hruns).ofHistory heq
  · rintro q next rfl
    have hallows := hkeeps.allows hruns
    rwa [hafter] at hallows
  · rintro accepted rfl
    have htold := hkeeps.result hruns
    rwa [hafter] at htold
  · rintro error rfl
    have hquiet := hkeeps.result hruns
    rwa [hafter] at hquiet

/-- A server that refuses the password, asks for it by a prompt, and has one without a text. -/
def promptedRun : AuthHistory Unit :=
  [⟨.request () (.password "root" "s"), Except.ok (.failure [.keyboardInteractive])⟩,
    ⟨.request () (.keyboardInteractiveStart "root"),
      Except.ok (.infoRequest [⟨"Password: "⟩, ⟨""⟩])⟩,
    ⟨.request () (.keyboardInteractiveRespond ["s", ""]), Except.ok .success⟩]

theorem promptedRun_runs :
    Runs (authenticate () "root" (.password "s")).run promptedRun (.done (.ok true)) :=
  .next (.next (.next (.start _)))

theorem authenticate_confined_prompted :
    Runs (authenticate () "root" (.password "s")).run promptedRun (.done (.ok true)) ∧
      promptedRun.Accepted :=
  ⟨promptedRun_runs, ((authenticate_confined promptedRun_runs).2.2.1 true rfl).mp rfl⟩

end

end KaduoxSsh.Core
