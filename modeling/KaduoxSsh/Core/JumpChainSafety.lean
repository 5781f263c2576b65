import KaduoxSsh.Core.AuthenticateSafety
import KaduoxSsh.Core.JumpChain

/-!
# One hop after the other

The protocol of a connection: one server is reached, then it has to accept the user, and only then
is the next one reached, through the session with it. Each server sees what its own credential
permits, and no other credential. `connectWithJumpAuth_staged` says that a connection keeps to
that in any environment, and what there is when it has succeeded.
-/

namespace KaduoxSsh.Core

open Interaction List

abbrev ConnectEvent := Event ConnectQuestion.Reply

instance (e : AuthEvent SshSession) : Decidable (Accepts e) :=
  inferInstanceAs (Decidable (_ ∨ _))

/-- The server that is reached after so many sessions, and how its key is checked. -/
def ConnectionConfig.handlerAt (config : ConnectionConfig) (index : Nat) : ClientHandler :=
  config.jumpHosts[index]?.elim config.handlerFor JumpHost.jumpHandler

def ConnectionConfig.usernameAt (config : ConnectionConfig) (index : Nat) : String :=
  config.jumpHosts[index]?.elim config.username JumpHost.username

/-! ## The protocol -/

inductive StagePhase where
  /-- No server is at hand that has not accepted the user. -/
  | idle
  /-- There is a way to the next server. -/
  | reached (session : SshSession)
  /-- The next server has proved who it is. -/
  | up (session : SshSession)
  /-- A credential is tried, the one of this attempt. -/
  | trying (session : SshSession) (attempt : Nat) (authentication : Authentication)
      (tried : AuthHistory SshSession)
  | ended

/-- How far a connection is: the sessions whose servers have accepted the user, and what goes on
with the next one. -/
structure Stage where
  sessions : List SshSession
  phase : StagePhase

section

variable (config : ConnectionConfig) (final : Authentication)

namespace Stage

variable (s : Stage)

/-- The server has proved who it is. That of the host itself is to see the credential at once. -/
def arrive (session : SshSession) : Stage where
  sessions := s.sessions
  phase := if s.sessions.length < config.jumpHosts.length then .up session
    else .trying session 1 final []

/-- There is a credential for the server at hand. -/
def offer (attempt : Nat) (authentication : Authentication) : Stage :=
  match s.phase with
  | .up session | .trying session _ _ _ => ⟨s.sessions, .trying session attempt authentication []⟩
  | _ => ⟨s.sessions, .ended⟩

def learn (e : AuthEvent SshSession) : Stage :=
  match s.phase with
  | .trying session attempt authentication tried =>
      if Accepts e then ⟨s.sessions ++ [session], .idle⟩
      else ⟨s.sessions, .trying session attempt authentication (tried ++ [e])⟩
  | _ => ⟨s.sessions, .ended⟩

def next : ConnectEvent → Stage
  | ⟨.emit _, _⟩ => s
  | ⟨.sshConfig _, .ok _⟩ => s
  | ⟨.spawnProxyCommand command, .ok _⟩ =>
      ⟨s.sessions, .reached (.proxied command config.handlerFor)⟩
  | ⟨.channelOpenDirectTcpip previous _ _, some (.ok _)⟩ =>
      ⟨s.sessions, .reached (.through previous (config.handlerAt s.sessions.length))⟩
  | ⟨.connect handler, some (.ok _)⟩ => s.arrive config final (.direct handler)
  | ⟨.connectStream session, some (.ok _)⟩ => s.arrive config final session
  | ⟨.authentication request, .ok (some authentication)⟩ => s.offer request.attempt authentication
  | ⟨.authenticate q, some reply⟩ => s.learn ⟨q, reply⟩
  | _ => ⟨s.sessions, .ended⟩

/-- What may be asked. -/
inductive Allows : ConnectQuestion → Prop
  | emit (event : ConnectionProgress) : Allows (.emit event)
  | sshConfig (handler : ClientHandler) : Allows (.sshConfig handler)
  | connect (hphase : s.phase = .idle) (hfirst : s.sessions = [])
      (hdirect : config.jumpHosts = [] → config.proxyCommand = none) :
      Allows (.connect (config.handlerAt 0))
  | spawnProxyCommand {template command : String} (hphase : s.phase = .idle)
      (hfirst : s.sessions = []) (hjumps : config.jumpHosts = [])
      (hproxy : config.proxyCommand = some template)
      (hcommand : expandProxyCommand template config = .ok command) :
      Allows (.spawnProxyCommand command)
  /-- The way to the next server goes through the session with the last one. -/
  | channelOpenDirectTcpip {previous : SshSession} (hphase : s.phase = .idle)
      (hnext : s.sessions.length ≤ config.jumpHosts.length)
      (hlast : s.sessions.getLast? = some previous) :
      Allows (.channelOpenDirectTcpip previous (config.handlerAt s.sessions.length).host
        (config.handlerAt s.sessions.length).port)
  | connectStream {session : SshSession} (hphase : s.phase = .reached session) :
      Allows (.connectStream session)
  | authentication {session : SshSession} {jump : JumpHost} (hphase : s.phase = .up session)
      (hjump : config.jumpHosts[s.sessions.length]? = some jump) :
      Allows (.authentication ⟨s.sessions.length, config.jumpHosts.length, 1, jump, false⟩)
  /-- Another credential, when the server has not accepted the one before. -/
  | authenticationAgain {session : SshSession} {jump : JumpHost} {attempt : Nat}
      {authentication : Authentication} {tried : AuthHistory SshSession}
      (hphase : s.phase = .trying session attempt authentication tried) (hquiet : Quiet tried)
      (hjump : config.jumpHosts[s.sessions.length]? = some jump)
      (hattempt : attempt < MAX_JUMP_AUTH_ATTEMPTS) :
      Allows (.authentication
        ⟨s.sessions.length, config.jumpHosts.length, attempt + 1, jump, true⟩)
  | authenticate {session : SshSession} {attempt : Nat} {authentication : Authentication}
      {tried : AuthHistory SshSession} {q : AuthQuestion SshSession}
      (hphase : s.phase = .trying session attempt authentication tried) (hquiet : Quiet tried)
      (hpermitted : Permitted session (config.usernameAt s.sessions.length) authentication tried
        q) : Allows (.authenticate q)

end Stage

def connectProtocol : Monitor ConnectQuestion.Reply Stage where
  allows s q := s.Allows config q
  next s e := s.next config final e

variable {config final} {timeouts : Timeouts} {progress : Bool} {sessions : List SshSession}
  {session : SshSession} {jump : JumpHost} {authentication : Authentication}
  {reply : Option (Result Unit)} {tried : AuthHistory SshSession} {attempt : Nat}
  {previousFailed : Bool}

/-! ## Steps -/

theorem staged_emitProgress {event : ConnectionProgress} {pre failed : Stage → Prop} :
    (emitProgress progress event).Meets (connectProtocol config final) pre (fun _ ↦ pre)
      failed := by
  rw [emitProgress]
  split
  · refine .query (fun _ _ ↦ .emit event) (fun _ _ _ hs _ ↦ hs) fun _ _ _ _ heq ↦ ?_
    cases heq
  · exact .pure fun _ ↦ id

theorem staged_sshConfig {handler : ClientHandler} {pre : Stage → Prop} :
    (Asking.query (.sshConfig handler) id : Connecting Unit).Meets (connectProtocol config final)
      pre (fun _ ↦ pre) fun _ ↦ True := by
  refine .query (fun _ _ ↦ .sshConfig handler) (fun s reply a hs heq ↦ ?_) fun _ _ _ _ _ ↦ trivial
  obtain rfl : reply = Except.ok a := heq
  exact hs

theorem waitFor_eq_ok {late failed : String} (h : waitFor late failed reply = .ok ()) :
    reply = some (.ok ()) := by
  cases reply with
  | none => cases h
  | some result =>
      cases result with
      | error e => cases h
      | ok a => rfl

/-- A question that leads from one stage to another one, unless it fails. -/
theorem staged_query {q : ConnectQuestion} {read : q.Reply → Result Unit} {s t : Stage}
    (hallows : s.Allows config q)
    (hnext : ∀ reply, read reply = .ok () → s.next config final ⟨q, reply⟩ = t) :
    (Asking.query q read).Meets (connectProtocol config final) (· = s) (fun _ ↦ (· = t))
      fun _ ↦ True := by
  refine .query (fun _ hs ↦ hs ▸ hallows) (fun _ reply a hs heq ↦ ?_) fun _ _ _ _ _ ↦ trivial
  subst hs
  exact hnext reply heq

theorem next_connect {handler : ClientHandler} {s : Stage} (h : reply = some (.ok ())) :
    s.next config final ⟨.connect handler, reply⟩ = s.arrive config final (.direct handler) := by
  subst h
  rfl

theorem next_connectStream {s : Stage} (h : reply = some (.ok ())) :
    s.next config final ⟨.connectStream session, reply⟩ = s.arrive config final session := by
  subst h
  rfl

theorem next_channelOpenDirectTcpip {host : String} {port : UInt16} {s : Stage}
    (h : reply = some (.ok ())) :
    s.next config final ⟨.channelOpenDirectTcpip session host port, reply⟩ =
      ⟨s.sessions, .reached (.through session (config.handlerAt s.sessions.length))⟩ := by
  subst h
  rfl

theorem staged_connectJump {index total : Nat}
    (hjump : config.jumpHosts[sessions.length]? = some jump) :
    (connectJump timeouts index total jump sessions.getLast?).Meets (connectProtocol config final)
      (· = ⟨sessions, .idle⟩) (fun session ↦ (· = ⟨sessions, .up session⟩)) fun _ ↦ True := by
  have hless : sessions.length < config.jumpHosts.length :=
    (List.getElem?_eq_some_iff.mp hjump).1
  have hhandler : config.handlerAt sessions.length = jump.jumpHandler := by
    rw [ConnectionConfig.handlerAt, hjump, Option.elim_some]
  have harrive : ∀ (phase : StagePhase) (session : SshSession),
      (Stage.mk sessions phase).arrive config final session = ⟨sessions, .up session⟩ :=
    fun _ _ ↦ congrArg (Stage.mk sessions) (if_pos hless)
  cases hlast : sessions.getLast? with
  | none =>
      obtain rfl := List.getLast?_eq_none_iff.mp hlast
      refine (staged_query (hhandler ▸ .connect rfl rfl ?_) fun reply heq ↦
        (next_connect (waitFor_eq_ok heq)).trans (harrive _ _)).bind fun _ ↦ .pure fun _ ↦ id
      intro hempty
      rw [hempty] at hjump
      cases hjump
  | some previous =>
      have htunnel : (Stage.mk sessions .idle).Allows config
          (.channelOpenDirectTcpip previous jump.host jump.port) := by
        have hallows : (Stage.mk sessions .idle).Allows config (.channelOpenDirectTcpip previous
          (config.handlerAt sessions.length).host (config.handlerAt sessions.length).port) :=
          .channelOpenDirectTcpip rfl hless.le hlast
        rwa [hhandler] at hallows
      refine (staged_query htunnel fun reply heq ↦
        next_channelOpenDirectTcpip (waitFor_eq_ok heq)).bind fun _ ↦ ?_
      rw [hhandler]
      exact (staged_query (.connectStream rfl) fun reply heq ↦
        (next_connectStream (waitFor_eq_ok heq)).trans (harrive _ _)).bind
          fun _ ↦ .pure fun _ ↦ id

theorem learn_trying {e : AuthEvent SshSession} :
    (Stage.mk sessions (.trying session attempt authentication tried)).learn e =
      if Accepts e then ⟨sessions ++ [session], .idle⟩
      else ⟨sessions, .trying session attempt authentication (tried ++ [e])⟩ := rfl

/-! ## Authentication -/

/-- The server has accepted the user, or a credential has been tried without that. -/
def Decided (sessions : List SshSession) (session : SshSession) (attempt : Nat)
    (authentication : Authentication) : Bool → Stage → Prop
  | true, s => s = ⟨sessions ++ [session], .idle⟩
  | false, s => ∃ tried, Quiet tried ∧
      s = ⟨sessions, .trying session attempt authentication tried⟩

/-- What the stage has to do with what has been asked for a credential. -/
def Follows (sessions : List SshSession) (session : SshSession) (attempt : Nat)
    (authentication : Authentication) (tried : AuthHistory SshSession) (s : Stage) : Prop :=
  Quiet tried ∧ s = ⟨sessions, .trying session attempt authentication tried⟩ ∨
    tried.Accepted ∧ s = ⟨sessions ++ [session], .idle⟩

theorem Follows.next {s : Stage} {q : AuthQuestion SshSession} {reply : q.Reply}
    (h : Follows sessions session attempt authentication tried s) (hquiet : Quiet tried) :
    Follows sessions session attempt authentication (tried ++ [⟨q, reply⟩])
      (s.learn ⟨q, reply⟩) := by
  rcases h with ⟨-, rfl⟩ | ⟨haccepted, -⟩
  · rw [learn_trying]
    split
    · next haccepts => exact .inr ⟨AuthHistory.accepted_concat.mpr (.inr haccepts), rfl⟩
    · next hrefuses => exact .inl ⟨hquiet.concat hrefuses, rfl⟩
  · exact absurd haccepted hquiet

theorem Follows.decided {s : Stage} {accepted : Bool}
    (h : Follows sessions session attempt authentication tried s) (htold : Told accepted tried) :
    Decided sessions session attempt authentication accepted s := by
  cases accepted with
  | true =>
      rcases h with ⟨hquiet, -⟩ | ⟨-, rfl⟩
      · exact absurd (htold.mp rfl) hquiet
      · rfl
  | false =>
      rcases h with ⟨hquiet, rfl⟩ | ⟨haccepted, -⟩
      · exact ⟨tried, hquiet, rfl⟩
      · exact absurd (htold.mpr haccepted) Bool.false_ne_true

theorem staged_authenticateInTime {late username : String}
    (husername : config.usernameAt sessions.length = username) :
    (authenticateInTime late session username authentication).Meets (connectProtocol config final)
      (· = ⟨sessions, .trying session attempt authentication []⟩)
      (Decided sessions session attempt authentication) fun _ ↦ True := by
  rintro s rfl
  have hkeeps : (authenticate session username authentication).run.Keeps
      (authProtocol session username authentication) [] (Asking.ending Told Quiet) :=
    authenticate_meets [] AuthHistory.not_accepted_nil
  have hstart : Follows sessions session attempt authentication []
      ⟨sessions, .trying session attempt authentication []⟩ :=
    .inl ⟨AuthHistory.not_accepted_nil, rfl⟩
  refine keeps_bind.mpr (hkeeps.timeout hstart ?_ ?_ ?_ ?_)
  · rintro tried t q hfollows ⟨hpermitted, hquiet⟩
    rcases hfollows with ⟨-, rfl⟩ | ⟨haccepted, -⟩
    · exact .authenticate rfl hquiet (husername ▸ hpermitted)
    · exact absurd haccepted hquiet
  · rintro tried t q reply known hfollows ⟨-, hquiet⟩ rfl
    exact hfollows.next hquiet
  · rintro tried t q reply - - rfl
    trivial
  · rintro (error | accepted) tried t hfollows htold
    · trivial
    · exact hfollows.decided htold

/-- So many credentials have been tried on a session, and none accepted. -/
inductive Waiting (sessions : List SshSession) (session : SshSession) : Nat → Bool → Stage → Prop
  | first : Waiting sessions session 0 false ⟨sessions, .up session⟩
  | again {made : Nat} {authentication : Authentication} {tried : AuthHistory SshSession}
      (hquiet : Quiet tried) : Waiting sessions session (made + 1) true
        ⟨sessions, .trying session (made + 1) authentication tried⟩

theorem Waiting.allows {made : Nat} {s : Stage}
    (h : Waiting sessions session made previousFailed s)
    (hjump : config.jumpHosts[sessions.length]? = some jump)
    (hmade : made < MAX_JUMP_AUTH_ATTEMPTS) :
    s.Allows config (.authentication
      ⟨sessions.length, config.jumpHosts.length, made + 1, jump, previousFailed⟩) := by
  cases h with
  | first => exact .authentication rfl hjump
  | again hquiet => exact .authenticationAgain rfl hquiet hjump hmade

theorem Waiting.offer {made attempt : Nat} {s : Stage}
    (h : Waiting sessions session made previousFailed s) :
    s.offer attempt authentication =
      ⟨sessions, .trying session attempt authentication []⟩ := by
  cases h with
  | first => rfl
  | again hquiet => rfl

theorem staged_authenticateJump {made left : Nat}
    (hjump : config.jumpHosts[sessions.length]? = some jump)
    (hleft : left + made = MAX_JUMP_AUTH_ATTEMPTS) :
    (authenticateJump timeouts progress sessions.length config.jumpHosts.length jump session left
      (made + 1) previousFailed).Meets (connectProtocol config final)
      (Waiting sessions session made previousFailed)
      (fun _ ↦ (· = ⟨sessions ++ [session], .idle⟩)) fun _ ↦ True := by
  have husername : config.usernameAt sessions.length = jump.username := by
    rw [ConnectionConfig.usernameAt, hjump, Option.elim_some]
  induction left generalizing made previousFailed with
  | zero => exact .bail fun _ _ ↦ trivial
  | succ left ih =>
      rw [authenticateJump]
      have hrequest : (Asking.query (.authentication
          ⟨sessions.length, config.jumpHosts.length, made + 1, jump, previousFailed⟩) id :
          Connecting (Option Authentication)).Meets (connectProtocol config final)
          (Waiting sessions session made previousFailed)
          (fun offered s ↦ ∀ authentication, offered = some authentication →
            s = ⟨sessions, .trying session (made + 1) authentication []⟩) fun _ ↦ True := by
        refine .query (fun s hs ↦ hs.allows hjump (by omega)) (fun s reply offered hs heq ↦ ?_)
          fun _ _ _ _ _ ↦ trivial
        rintro authentication rfl
        obtain rfl : reply = Except.ok (some authentication) := heq
        exact hs.offer
      refine hrequest.bind fun offered ↦ ?_
      cases offered with
      | none =>
          dsimp only
          split
          · exact .bail fun _ _ ↦ trivial
          · exact .bail fun _ _ ↦ trivial
      | some authentication =>
          refine staged_emitProgress.bind fun _ ↦ ?_
          refine ((staged_authenticateInTime husername).mono (fun s hs ↦ hs authentication rfl)
            (fun _ _ ↦ id) fun _ ↦ id).bind fun accepted ↦ ?_
          cases accepted with
          | true => exact staged_emitProgress
          | false =>
              refine staged_emitProgress.bind fun _ ↦ (ih (by omega)).mono ?_ (fun _ _ ↦ id)
                fun _ ↦ id
              rintro s ⟨tried, hquiet, rfl⟩
              exact .again hquiet

/-! ## The chain -/

theorem dropLast_append_getLast? (l : List SshSession) :
    l.dropLast ++ l.getLast?.toList = l := by
  cases h : l.getLast? with
  | none =>
      obtain rfl := List.getLast?_eq_none_iff.mp h
      rfl
  | some last => exact List.dropLast_append_getLast? last h

theorem staged_connectJumps {jumps : List JumpHost}
    (hjumps : config.jumpHosts.drop sessions.length = jumps)
    (hsessions : sessions.length ≤ config.jumpHosts.length) :
    (connectJumps timeouts progress config.jumpHosts.length sessions.length sessions.dropLast
      sessions.getLast? jumps).Meets (connectProtocol config final) (· = ⟨sessions, .idle⟩)
      (fun result s ↦ ∃ sessions, s = ⟨sessions, .idle⟩ ∧
        sessions.length = config.jumpHosts.length ∧
          result = (sessions.dropLast, sessions.getLast?)) fun _ ↦ True := by
  induction jumps generalizing sessions with
  | nil =>
      refine .pure fun s hs ↦ ⟨sessions, hs, ?_, rfl⟩
      exact Nat.le_antisymm hsessions (drop_eq_nil_iff.mp hjumps)
  | cons jump jumps ih =>
      have hjump : config.jumpHosts[sessions.length]? = some jump := by
        rw [← Nat.add_zero sessions.length, ← List.getElem?_drop, hjumps, List.getElem?_cons_zero]
      have hrest : config.jumpHosts.drop (sessions.length + 1) = jumps := by
        rw [drop_add_one_eq_tail_drop, hjumps, tail_cons]
      refine staged_emitProgress.bind fun _ ↦ staged_sshConfig.bind fun _ ↦
        (staged_connectJump hjump).bind fun next ↦ staged_emitProgress.bind fun _ ↦ ?_
      refine ((staged_authenticateJump hjump (Nat.add_zero _)).mono (fun s hs ↦ ?_)
        (fun _ _ ↦ id) fun _ ↦ id).bind fun _ ↦ ?_
      · exact hs ▸ .first
      · have hlength : (sessions ++ [next]).length = sessions.length + 1 := length_append
        have hnext := @ih (sessions ++ [next]) (hlength ▸ hrest)
          (hlength ▸ (List.getElem?_eq_some_iff.mp hjump).1)
        rw [dropLast_append_getLast?]
        rwa [hlength, dropLast_concat, List.getLast?_concat] at hnext

/-- The session with the host itself is at hand, and the sessions on the way to it are given. -/
def Arrived (config : ConnectionConfig) (final : Authentication)
    (result : SshSession × List SshSession) (s : Stage) : Prop :=
  s = ⟨result.2, .trying result.1 1 final []⟩ ∧ result.2.length = config.jumpHosts.length

theorem arrive_final {phase : StagePhase} (hlength : sessions.length = config.jumpHosts.length) :
    (Stage.mk sessions phase).arrive config final session =
      ⟨sessions, .trying session 1 final []⟩ :=
  congrArg (Stage.mk sessions) (if_neg (Nat.not_lt.mpr hlength.ge))

theorem handlerAt_final (hlength : sessions.length = config.jumpHosts.length) :
    config.handlerAt sessions.length = config.handlerFor := by
  rw [ConnectionConfig.handlerAt, List.getElem?_eq_none hlength.ge, Option.elim_none]

theorem staged_connectViaJumps :
    (connectViaJumps config timeouts progress).Meets (connectProtocol config final)
      (· = ⟨[], .idle⟩) (Arrived config final) fun _ ↦ True := by
  have hjumps : (connectJumps timeouts progress config.jumpHosts.length 0 [] none
      config.jumpHosts).Meets (connectProtocol config final) (· = ⟨[], .idle⟩)
      (fun result s ↦ ∃ sessions, s = ⟨sessions, .idle⟩ ∧
        sessions.length = config.jumpHosts.length ∧
          result = (sessions.dropLast, sessions.getLast?)) fun _ ↦ True :=
    @staged_connectJumps config final timeouts progress [] _ rfl (Nat.zero_le _)
  refine hjumps.bind fun result ↦ .of_each ?_
  rintro s ⟨sessions, rfl, hlength, rfl⟩
  have hhandler : config.handlerAt sessions.length = config.handlerFor := handlerAt_final hlength
  dsimp only
  cases hlast : sessions.getLast? with
  | none =>
      have hnone : (Asking.ofResult (Result.ofOption "ProxyJump chain is empty" none) :
          Connecting SshSession).Meets (connectProtocol config final) (· = ⟨sessions, .idle⟩)
          (fun _ _ ↦ False) fun _ ↦ True :=
        .ofResult (fun _ heq ↦ by cases heq) fun _ _ _ _ ↦ trivial
      exact hnone.bind fun _ _ hs ↦ hs.elim
  | some last =>
      have hsome : (Asking.ofResult (Result.ofOption "ProxyJump chain is empty" (some last)) :
          Connecting SshSession).Meets (connectProtocol config final) (· = ⟨sessions, .idle⟩)
          (fun found s ↦ found = last ∧ s = ⟨sessions, .idle⟩) fun _ ↦ True :=
        .ofResult (fun _ heq _ hs ↦ by cases heq; exact ⟨rfl, hs⟩) fun _ _ _ _ ↦ trivial
      refine hsome.bind fun found ↦ Asking.Meets.of_fact fun hfound ↦ ?_
      subst hfound
      have htunnel : (Stage.mk sessions .idle).Allows config
          (.channelOpenDirectTcpip found config.host config.port) := by
        have hallows : (Stage.mk sessions .idle).Allows config (.channelOpenDirectTcpip found
          (config.handlerAt sessions.length).host (config.handlerAt sessions.length).port) :=
          .channelOpenDirectTcpip rfl hlength.le hlast
        rwa [hhandler] at hallows
      refine staged_emitProgress.bind fun _ ↦ (staged_query htunnel fun reply heq ↦
        next_channelOpenDirectTcpip (waitFor_eq_ok heq)).bind fun _ ↦ ?_
      rw [hhandler]
      refine (staged_query (.connectStream rfl) fun reply heq ↦
        (next_connectStream (waitFor_eq_ok heq)).trans (arrive_final hlength)).bind
          fun _ ↦ .pure fun s hs ↦ ?_
      rw [Arrived, List.dropLast_append_getLast? found hlast]
      exact ⟨hs, hlength⟩

theorem staged_spawnProxyCommand {template : String} (hjumps : config.jumpHosts = [])
    (hproxy : config.proxyCommand = some template) :
    (spawnProxyCommand config template).Meets (connectProtocol config final) (· = ⟨[], .idle⟩)
      (fun command ↦ (· = ⟨[], .reached (.proxied command config.handlerFor)⟩))
      fun _ ↦ True := by
  rw [spawnProxyCommand]
  split
  · exact .bail fun _ _ ↦ trivial
  · have hexpand : (Asking.ofResult (expandProxyCommand template config) :
        Connecting String).Meets (connectProtocol config final) (· = ⟨[], .idle⟩)
        (fun command s ↦ expandProxyCommand template config = .ok command ∧ s = ⟨[], .idle⟩)
        fun _ ↦ True :=
      .ofResult (fun _ hcommand _ hs ↦ ⟨hcommand, hs⟩) fun _ _ _ _ ↦ trivial
    refine hexpand.bind fun command ↦ Asking.Meets.of_fact fun hcommand ↦ ?_
    refine (staged_query (.spawnProxyCommand rfl rfl hjumps hproxy hcommand)
      fun reply heq ↦ ?_).bind fun _ ↦ .pure fun _ ↦ id
    obtain rfl : reply = Except.ok () := Result.context_eq_ok.mp heq
    rfl

theorem staged_connectRoute :
    (connectRoute config timeouts progress).Meets (connectProtocol config final)
      (· = ⟨[], .idle⟩) (Arrived config final) fun _ ↦ True := by
  rw [connectRoute]
  split
  · exact staged_connectViaJumps
  · next hempty =>
    have hjumps : config.jumpHosts = [] := not_not.mp hempty
    have hlength : ([] : List SshSession).length = config.jumpHosts.length := by
      rw [hjumps]
      rfl
    split
    · next proxyCommand hproxy =>
      refine staged_emitProgress.bind fun _ ↦ (staged_spawnProxyCommand hjumps hproxy).bind
        fun command ↦ ?_
      exact (staged_query (.connectStream rfl) fun reply heq ↦
        (next_connectStream (waitFor_eq_ok heq)).trans (arrive_final hlength)).bind
          fun _ ↦ .pure fun s hs ↦ ⟨hs, hlength⟩
    · next hdirect =>
      have hconnect : (Stage.mk [] .idle).Allows config (.connect config.handlerFor) := by
        have hallows : (Stage.mk [] .idle).Allows config (.connect (config.handlerAt 0)) :=
          .connect rfl rfl fun _ ↦ hdirect
        rwa [show config.handlerAt 0 = _ from handlerAt_final hlength] at hallows
      exact staged_emitProgress.bind fun _ ↦ (staged_query hconnect fun reply heq ↦
        (next_connect (waitFor_eq_ok heq)).trans (arrive_final hlength)).bind
          fun _ ↦ .pure fun s hs ↦ ⟨hs, hlength⟩

/-! ## The connection -/

theorem staged_connectWithJumpAuth :
    (connectWithJumpAuth config timeouts progress final).Meets (connectProtocol config final)
      (· = ⟨[], .idle⟩) (fun client s ↦
        s = ⟨client.jumpSessions ++ [client.session], .idle⟩ ∧
          client.jumpSessions.length = config.jumpHosts.length ∧ client.config = config)
      fun _ ↦ True := by
  have hvalid : (Asking.ofResult timeouts.validateTimeouts : Connecting Unit).Meets
      (connectProtocol config final) (· = ⟨[], .idle⟩) (fun _ ↦ (· = ⟨[], .idle⟩)) fun _ ↦ True :=
    .ofResult (fun _ _ _ ↦ id) fun _ _ _ _ ↦ trivial
  refine hvalid.bind fun _ ↦ staged_sshConfig.bind fun _ ↦ staged_connectRoute.bind fun result ↦ ?_
  refine staged_emitProgress.bind fun _ ↦ .of_each ?_
  rintro s ⟨rfl, hlength⟩
  have husername : config.usernameAt result.2.length = config.username := by
    rw [ConnectionConfig.usernameAt, List.getElem?_eq_none hlength.ge, Option.elim_none]
  refine (staged_authenticateInTime husername).bind fun accepted ↦ ?_
  cases accepted with
  | true =>
      refine staged_emitProgress.bind fun _ ↦ .pure fun s hs ↦ ?_
      exact ⟨hs, hlength, rfl⟩
  | false => exact .bail fun _ _ ↦ trivial

/-- In any environment, a connection keeps to the protocol. When it succeeds, the server of each
of its sessions has accepted the user, those of the jump hosts in their order. -/
theorem connectWithJumpAuth_staged {events : List ConnectEvent}
    {rest : Interaction ConnectQuestion ConnectQuestion.Reply (Result SshClient)}
    (hruns : Runs (connectWithJumpAuth config timeouts progress final).run events rest) :
    (connectProtocol config final).Obeys ⟨[], .idle⟩ events ∧
      (∀ q next, rest = .ask q next →
        ((connectProtocol config final).after ⟨[], .idle⟩ events).Allows config q) ∧
      ∀ client, rest = .done (.ok client) →
        (connectProtocol config final).after ⟨[], .idle⟩ events =
            ⟨client.jumpSessions ++ [client.session], .idle⟩ ∧
          client.jumpSessions.length = config.jumpHosts.length ∧ client.config = config := by
  have hkeeps : (connectWithJumpAuth config timeouts progress final).run.Keeps
      (connectProtocol config final) ⟨[], .idle⟩ _ := staged_connectWithJumpAuth _ rfl
  refine ⟨hkeeps.obeys hruns, ?_, ?_⟩
  · rintro q next rfl
    exact hkeeps.allows hruns
  · rintro client rfl
    exact hkeeps.result hruns

/-- A host behind one jump host. -/
def jumpConfig : ConnectionConfig :=
  { ConnectionConfig.new "h" "root" with jumpHosts := [⟨"j", "j", 22, "me", [], .strict, none⟩] }

def jumpSession : SshSession := .direct (jumpConfig.handlerAt 0)

def hostSession : SshSession := .through jumpSession jumpConfig.handlerFor

/-- The server of the jump host refuses the first of two passwords. -/
def beforeTunnel : List ConnectEvent :=
  [⟨.sshConfig jumpConfig.handlerFor, Except.ok ()⟩,
    ⟨.sshConfig (jumpConfig.handlerAt 0), Except.ok ()⟩,
    ⟨.connect (jumpConfig.handlerAt 0), some (.ok ())⟩,
    ⟨.authentication ⟨0, 1, 1, ⟨"j", "j", 22, "me", [], .strict, none⟩, false⟩,
      Except.ok (some (.password "a"))⟩,
    ⟨.authenticate (.request jumpSession (.password "me" "a")),
      some (Except.ok (.failure [.password]))⟩,
    ⟨.authentication ⟨0, 1, 2, ⟨"j", "j", 22, "me", [], .strict, none⟩, true⟩,
      Except.ok (some (.password "b"))⟩,
    ⟨.authenticate (.request jumpSession (.password "me" "b")), some (Except.ok .success)⟩]

def fromTunnel : List ConnectEvent :=
  [⟨.channelOpenDirectTcpip jumpSession "h" 22, some (.ok ())⟩,
    ⟨.connectStream hostSession, some (.ok ())⟩,
    ⟨.authenticate (.request hostSession (.password "root" "s")), some (Except.ok .success)⟩]

theorem beforeTunnel_runs :
    Runs (connectWithJumpAuth jumpConfig ⟨1, 1, 1, 1⟩ false (.password "s")).run
      (beforeTunnel ++ fromTunnel) (.done (.ok ⟨hostSession, [jumpSession], jumpConfig⟩)) :=
  .next (.next (.next (.next (.next (.next (.next (.next (.next (.next (.start _))))))))))

theorem connectWithJumpAuth_staged_jump :
    Runs (connectWithJumpAuth jumpConfig ⟨1, 1, 1, 1⟩ false (.password "s")).run
        (beforeTunnel ++ fromTunnel) (.done (.ok ⟨hostSession, [jumpSession], jumpConfig⟩)) ∧
      (connectProtocol jumpConfig (.password "s")).after ⟨[], .idle⟩ (beforeTunnel ++ fromTunnel) =
        ⟨[jumpSession, hostSession], .idle⟩ :=
  ⟨beforeTunnel_runs, ((connectWithJumpAuth_staged beforeTunnel_runs).2.2 _ rfl).1⟩

end

end KaduoxSsh.Core
