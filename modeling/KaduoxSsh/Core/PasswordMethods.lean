import KaduoxSsh.Core.AuthenticateSafety

/-!
# How often a secret is tried

A password counts at most twice: once in the method that was asked for and, when the server
refuses that method and goes on with the other one for passwords, once in that one. In the
keyboard-interactive method a server that goes on with its prompts is given up after some rounds,
so that the secret is not typed more often than the limits say (`authenticate_sparing`).
-/

namespace KaduoxSsh.Core

open Interaction List

variable {Session : Type}

/-- The method that a message begins. -/
def beginsMethod? : AuthQuestion Session → Option MethodKind
  | .request _ (.password _ _) => some .password
  | .request _ (.keyboardInteractiveStart _) => some .keyboardInteractive
  | _ => none

/-- The answers that a message gives to the prompts of one round. -/
def answers? : AuthQuestion Session → Option (List String)
  | .request _ (.keyboardInteractiveRespond responses) => some responses
  | _ => none

/-- The methods that the server goes on with after a refusal. -/
def refusal? : AuthEvent Session → Option MethodSet
  | ⟨.request _ (.password _ _), .ok (.failure remainingMethods)⟩ => some remainingMethods
  | ⟨.request _ (.keyboardInteractiveStart _), .ok (.failure remainingMethods)⟩
  | ⟨.request _ (.keyboardInteractiveRespond _), .ok (.failure remainingMethods)⟩ =>
      some remainingMethods
  | _ => none

def Authentication.method? : Authentication → Option MethodKind
  | .password _ => some .password
  | .keyboardInteractive _ => some .keyboardInteractive
  | _ => none

/-- The other method that a secret can be used in. -/
def MethodKind.sibling : MethodKind → MethodKind
  | .password => .keyboardInteractive
  | .keyboardInteractive => .password
  | other => other

namespace AuthHistory

variable (history : AuthHistory Session)

def tries (method : MethodKind) : Nat :=
  history.countP fun e ↦ beginsMethod? e.question = some method

/-- The rounds of prompts that have been answered. -/
def rounds : List (List String) := history.filterMap fun e ↦ answers? e.question

def refused? : Option MethodSet := history.getLast?.bind refusal?

end AuthHistory

/-- What may be asked for a secret. -/
inductive Sparing (credential : Authentication) (history : AuthHistory Session) :
    AuthQuestion Session → Prop
  | first {q : AuthQuestion Session} {method : MethodKind}
      (hmethod : credential.method? = some method) (hq : beginsMethod? q = some method)
      (hnone : history = []) : Sparing credential history q
  /-- The server goes on with the other method only. -/
  | second {q : AuthQuestion Session} {method : MethodKind} {remainingMethods : MethodSet}
      (hmethod : credential.method? = some method) (hq : beginsMethod? q = some method.sibling)
      (huntried : history.tries method.sibling = 0)
      (hrefused : history.refused? = some remainingMethods) (hgone : method ∉ remainingMethods)
      (hleft : method.sibling ∈ remainingMethods) : Sparing credential history q
  | respond {session : Session} {responses : List String}
      (hrounds : history.rounds.length < MAX_KEYBOARD_INTERACTIVE_ROUNDS)
      (hprompts : responses.length ≤ MAX_KEYBOARD_INTERACTIVE_PROMPTS_PER_ROUND)
      (htotal : history.rounds.flatten.length + responses.length ≤
        MAX_KEYBOARD_INTERACTIVE_TOTAL_PROMPTS) :
      Sparing credential history (.request session (.keyboardInteractiveRespond responses))

/-- The protocol for a secret. -/
def secretProtocol (Session : Type) (credential : Authentication) :
    Monitor (@AuthQuestion.Reply Session) (AuthHistory Session) :=
  .ofHistory (Sparing credential)

section

variable {session : Session} {username secret : String} {credential : Authentication}
  {history : AuthHistory Session} {e : AuthEvent Session} {method : MethodKind}

theorem AuthHistory.tries_concat : AuthHistory.tries (history ++ [e]) method =
    history.tries method + if beginsMethod? e.question = some method then 1 else 0 := by
  simp only [tries, countP_append, countP_singleton, decide_eq_true_eq]

theorem AuthHistory.rounds_concat : AuthHistory.rounds (history ++ [e]) =
    history.rounds ++ (answers? e.question).toList := by
  rw [rounds, filterMap_append]
  refine congrArg (history.rounds ++ ·) ?_
  cases h : answers? e.question with
  | none => exact filterMap_cons_none h
  | some responses => exact filterMap_cons_some h

theorem AuthHistory.refused?_concat : AuthHistory.refused? (history ++ [e]) = refusal? e := by
  rw [refused?, List.getLast?_concat, Option.bind_some]

/-! ## The requests of the keyboard-interactive method -/

theorem validateKeyboardInteractiveRequest_eq_ok {rounds promptCount previous total : Nat}
    (h : validateKeyboardInteractiveRequest rounds promptCount previous = .ok total) :
    promptCount ≤ MAX_KEYBOARD_INTERACTIVE_PROMPTS_PER_ROUND ∧ total = previous + promptCount ∧
      total ≤ MAX_KEYBOARD_INTERACTIVE_TOTAL_PROMPTS := by
  obtain ⟨_, -, h⟩ := Result.bind_eq_ok.mp h
  obtain ⟨_, hprompts, h⟩ := Result.bind_eq_ok.mp h
  obtain ⟨sum, hsum, h⟩ := Result.bind_eq_ok.mp h
  obtain ⟨_, htotal, h⟩ := Result.bind_eq_ok.mp h
  obtain ⟨-, heq⟩ := Option.ite_none_right_eq_some.mp (Result.ofOption_eq_ok.mp hsum)
  rw [Result.bailIf_eq_ok, Nat.not_lt] at hprompts htotal
  cases h
  exact ⟨hprompts, (Option.some.inj heq).symm, htotal⟩

/-- A round is to be answered, or the method has come to its end. -/
structure InRound (passwords left total : Nat) (response : KeyboardInteractiveAuthResponse)
    (history : AuthHistory Session) : Prop where
  passwords : history.tries .password = passwords
  rounds : history.rounds.length + left = MAX_KEYBOARD_INTERACTIVE_ROUNDS
  total : history.rounds.flatten.length = total
  refused : ∀ remainingMethods, response = .failure remainingMethods →
    history.refused? = some remainingMethods

/-- The keyboard-interactive method has come to its end. -/
def InteractiveOver (passwords : Nat) (outcome : KeyboardInteractiveOutcome)
    (history : AuthHistory Session) : Prop :=
  history.tries .password = passwords ∧ ∀ remainingMethods, outcome = .rejected remainingMethods →
    history.refused? = some remainingMethods

theorem refusal?_respond {responses : List String} {reply : Result KeyboardInteractiveAuthResponse}
    {remainingMethods : MethodSet} (h : reply = .ok (.failure remainingMethods)) :
    refusal? (⟨.request session (.keyboardInteractiveRespond responses), reply⟩ :
      AuthEvent Session) = some remainingMethods := by
  subst h
  rfl

theorem sparing_keyboardInteractiveRounds {passwords left total : Nat}
    {response : KeyboardInteractiveAuthResponse} :
    (keyboardInteractiveRounds session secret left total response).Meets
      (secretProtocol Session credential) (InRound passwords left total response)
      (InteractiveOver passwords) fun _ ↦ True := by
  induction left generalizing total response with
  | zero =>
      cases response with
      | success => exact .pure fun h hh ↦ ⟨hh.passwords, fun _ heq ↦ by cases heq⟩
      | failure remainingMethods =>
          refine .pure fun h hh ↦ ⟨hh.passwords, ?_⟩
          rintro _ ⟨⟩
          exact hh.refused _ rfl
      | infoRequest prompts =>
          exact (Asking.Meets.ofResult (fun _ _ _ hh ↦ hh) fun _ _ _ _ ↦ trivial).bind
            fun _ ↦ .bail fun _ _ ↦ trivial
  | succ left ih =>
      cases response with
      | success => exact .pure fun h hh ↦ ⟨hh.passwords, fun _ heq ↦ by cases heq⟩
      | failure remainingMethods =>
          refine .pure fun h hh ↦ ⟨hh.passwords, ?_⟩
          rintro _ ⟨⟩
          exact hh.refused _ rfl
      | infoRequest prompts =>
          have hvalid : (Asking.ofResult (validateKeyboardInteractiveRequest
              (MAX_KEYBOARD_INTERACTIVE_ROUNDS - left) prompts.length total) :
              Authenticating Session Nat).Meets (secretProtocol Session credential)
              (InRound passwords (left + 1) total (.infoRequest prompts))
              (fun sum h ↦ (prompts.length ≤ MAX_KEYBOARD_INTERACTIVE_PROMPTS_PER_ROUND ∧
                sum = total + prompts.length ∧ sum ≤ MAX_KEYBOARD_INTERACTIVE_TOTAL_PROMPTS) ∧
                InRound passwords (left + 1) total (.infoRequest prompts) h) fun _ ↦ True :=
            .ofResult (fun _ hsum _ hh ↦ ⟨validateKeyboardInteractiveRequest_eq_ok hsum, hh⟩)
              fun _ _ _ _ ↦ trivial
          refine hvalid.bind fun sum ↦ Asking.Meets.of_fact fun hsum ↦ ?_
          obtain ⟨hprompts, rfl, htotal⟩ := hsum
          have hlength : (prompts.map (Prompt.response secret)).length = prompts.length :=
            length_map _
          have hrespond : (authenticateKeyboardInteractiveRespond session
              (prompts.map (Prompt.response secret))).Meets (secretProtocol Session credential)
              (InRound passwords (left + 1) total (.infoRequest prompts))
              (InRound passwords left (total + prompts.length)) fun _ ↦ True := by
            refine .query (fun h hh ↦ .respond ?_ ?_ ?_)
              (fun h reply response hh heq ↦ ⟨?_, ?_, ?_, ?_⟩) fun _ _ _ _ _ ↦ trivial
            · have := hh.rounds
              omega
            · exact hlength.trans_le hprompts
            · rw [hh.total, hlength]
              exact htotal
            · exact AuthHistory.tries_concat.trans hh.passwords
            · have := hh.rounds
              show (AuthHistory.rounds (h ++ [_])).length + left = _
              rw [AuthHistory.rounds_concat, length_append]
              simp only [answers?, Option.toList_some, length_singleton]
              omega
            · show (AuthHistory.rounds (h ++ [_])).flatten.length = _
              rw [AuthHistory.rounds_concat, flatten_append, length_append, hh.total]
              simp only [answers?, Option.toList_some, flatten_cons, flatten_nil,
                append_nil, hlength]
            · rintro remainingMethods rfl
              exact AuthHistory.refused?_concat.trans (refusal?_respond heq)
          exact hrespond.bind fun _ ↦ ih

theorem sparing_authenticateKeyboardInteractive {passwords : Nat}
    {pre : AuthHistory Session → Prop}
    (hpre : ∀ h, pre h → Sparing credential h
      (.request session (.keyboardInteractiveStart username)) ∧
        h.tries .password = passwords ∧ h.rounds = []) :
    (authenticateKeyboardInteractive session username secret).Meets
      (secretProtocol Session credential) pre (InteractiveOver passwords) fun _ ↦ True := by
  have hstart : (authenticateKeyboardInteractiveStart session username).Meets
      (secretProtocol Session credential) pre
      (InRound passwords MAX_KEYBOARD_INTERACTIVE_ROUNDS 0) fun _ ↦ True := by
    refine .query (fun h hh ↦ (hpre h hh).1) (fun h reply response hh heq ↦ ?_)
      fun _ _ _ _ _ ↦ trivial
    obtain ⟨-, hpasswords, hrounds⟩ := hpre h hh
    have hnone : AuthHistory.rounds (h ++ [⟨_, reply⟩]) = [] :=
      AuthHistory.rounds_concat.trans (congrArg (· ++ []) hrounds)
    refine ⟨AuthHistory.tries_concat.trans hpasswords, ?_, ?_, ?_⟩
    · show (AuthHistory.rounds (h ++ [_])).length + _ = _
      rw [hnone]
      rfl
    · show (AuthHistory.rounds (h ++ [_])).flatten.length = _
      rw [hnone]
      rfl
    · rintro remainingMethods rfl
      refine AuthHistory.refused?_concat.trans ?_
      obtain rfl : reply = Except.ok (.failure remainingMethods) := heq
      rfl
  exact hstart.bind fun _ ↦ sparing_keyboardInteractiveRounds

/-! ## Both methods -/

/-- The secret has been sent as a password, and in no other way. -/
structure Sent (result : AuthResult) (history : AuthHistory Session) : Prop where
  password : history.tries .password = 1
  interactive : history.tries .keyboardInteractive = 0
  rounds : history.rounds = []
  refused : ∀ remainingMethods, result = .failure remainingMethods →
    history.refused? = some remainingMethods

/-- The first message is the password. -/
theorem sparing_first (hmethod : credential.method? = some .password) :
    (authenticatePassword session username secret).Meets (secretProtocol Session credential)
      (· = []) Sent fun _ ↦ True := by
  refine .query (fun h hh ↦ .first hmethod rfl hh) (fun h reply result hh heq ↦ ?_)
    fun _ _ _ _ _ ↦ trivial
  subst hh
  refine ⟨rfl, rfl, rfl, ?_⟩
  rintro remainingMethods rfl
  obtain rfl : reply = Except.ok (.failure remainingMethods) := heq
  rfl

theorem authenticate_sparing_meets (hsecret : credential.secret? = some secret) :
    (authenticate session username credential).Meets (secretProtocol Session credential) (· = [])
      (fun _ _ ↦ True) fun _ ↦ True := by
  cases credential with
  | password secret =>
      refine (sparing_first rfl).bind fun result ↦ ?_
      cases result with
      | success => exact .pure fun _ _ ↦ trivial
      | failure remainingMethods =>
          dsimp only
          rw [retrySiblingPasswordMethod]
          split
          · exact .pure fun _ _ ↦ trivial
          · next hmethods =>
            obtain ⟨hgone, hleft⟩ := not_or.mp hmethods
            refine (sparing_authenticateKeyboardInteractive fun h hh ↦
              ⟨?_, hh.password, hh.rounds⟩).bind fun _ ↦ .pure fun _ _ ↦ trivial
            exact .second rfl rfl hh.interactive (hh.refused _ rfl) hgone (not_not.mp hleft)
  | keyboardInteractive secret =>
      have hinteractive : (authenticateKeyboardInteractive session username secret).Meets
          (secretProtocol Session (.keyboardInteractive secret)) (· = []) (InteractiveOver 0)
          fun _ ↦ True := by
        refine sparing_authenticateKeyboardInteractive fun h hh ↦ ?_
        subst hh
        exact ⟨.first rfl rfl rfl, rfl, rfl⟩
      refine hinteractive.bind fun outcome ↦ ?_
      cases outcome with
      | success => exact .pure fun _ _ ↦ trivial
      | rejected remainingMethods =>
          dsimp only
          rw [retrySiblingPasswordMethod]
          split
          · exact .pure fun _ _ ↦ trivial
          · next hmethods =>
            obtain ⟨hgone, hleft⟩ := not_or.mp hmethods
            have hpassword : (authenticatePassword session username secret).Meets
                (secretProtocol Session (.keyboardInteractive secret))
                (InteractiveOver 0 (.rejected remainingMethods)) (fun _ _ ↦ True)
                fun _ ↦ True :=
              .query (fun h hh ↦ .second rfl rfl hh.1 (hh.2 _ rfl) hgone (not_not.mp hleft))
                (fun _ _ _ _ _ ↦ trivial) fun _ _ _ _ _ ↦ trivial
            exact hpassword.bind fun _ ↦ .pure fun _ _ ↦ trivial
  | privateKey path passphrase => cases hsecret
  | agent => cases hsecret
  | auto identityFiles passphrase => cases hsecret

/-! ## What that comes to -/

/-- How much of a secret is sent at most. -/
structure Spared (history : AuthHistory Session) : Prop where
  password : history.tries .password ≤ 1
  interactive : history.tries .keyboardInteractive ≤ 1
  rounds : history.rounds.length ≤ MAX_KEYBOARD_INTERACTIVE_ROUNDS
  prompts : ∀ responses ∈ history.rounds,
    responses.length ≤ MAX_KEYBOARD_INTERACTIVE_PROMPTS_PER_ROUND
  total : history.rounds.flatten.length ≤ MAX_KEYBOARD_INTERACTIVE_TOTAL_PROMPTS

theorem answers?_eq_none {q : AuthQuestion Session} (h : beginsMethod? q = some method) :
    answers? q = none := by
  cases q with
  | request session request =>
      cases request with
      | keyboardInteractiveRespond responses => cases h
      | _ => rfl
  | _ => rfl

theorem Spared.begin (h : Spared history) (hmethod : beginsMethod? e.question = some method)
    (huntried : history.tries method = 0) : Spared (history ++ [e]) := by
  have hrounds : AuthHistory.rounds (history ++ [e]) = history.rounds := by
    rw [AuthHistory.rounds_concat, answers?_eq_none hmethod]
    exact append_nil _
  have htries : ∀ other, history.tries other ≤ 1 →
      AuthHistory.tries (history ++ [e]) other ≤ 1 := by
    intro other hother
    rw [AuthHistory.tries_concat]
    split
    · next heq =>
      obtain rfl := Option.some.inj (hmethod.symm.trans heq)
      rw [huntried]
    · exact hother
  refine ⟨htries _ h.password, htries _ h.interactive, ?_, ?_, ?_⟩
  · exact hrounds ▸ h.rounds
  · exact hrounds ▸ h.prompts
  · exact hrounds ▸ h.total

theorem Spared.concat (h : Spared history) (hsparing : Sparing credential history e.question) :
    Spared (history ++ [e]) := by
  obtain ⟨q, reply⟩ := e
  cases hsparing with
  | first hmethod hq hnone =>
      subst hnone
      exact h.begin hq rfl
  | second hmethod hq huntried hrefused hgone hleft => exact h.begin hq huntried
  | @respond session responses hrounds hprompts htotal =>
      have hnext : AuthHistory.rounds
          (history ++ [⟨.request session (.keyboardInteractiveRespond responses), reply⟩]) =
          history.rounds ++ [responses] := AuthHistory.rounds_concat
      refine ⟨?_, ?_, ?_, ?_, ?_⟩
      · rw [AuthHistory.tries_concat]
        exact h.password
      · rw [AuthHistory.tries_concat]
        exact h.interactive
      · rw [hnext, length_append]
        exact hrounds
      · rw [hnext]
        intro other hother
        rcases mem_append.mp hother with hother | hother
        · exact h.prompts other hother
        · rw [mem_singleton.mp hother]
          exact hprompts
      · rw [hnext, flatten_append, length_append, flatten_singleton]
        exact htotal

/-- Whatever the server replies, a secret is tried in one method and, when the server has refused
that method and goes on with the other one alone, in that one too, each once, and it answers a
limited number of prompts. -/
theorem authenticate_sparing (hsecret : credential.secret? = some secret)
    {rest : Interaction (AuthQuestion Session) AuthQuestion.Reply (Result Bool)}
    (hruns : Runs (authenticate session username credential).run history rest) :
    (∀ before e after, history = before ++ e :: after → Sparing credential before e.question) ∧
      Spared history := by
  have hobeys : (secretProtocol Session credential).Obeys [] history :=
    (authenticate_sparing_meets hsecret [] rfl).obeys hruns
  refine ⟨fun before e after heq ↦ hobeys.ofHistory heq, ?_⟩
  have hstart : Spared ([] : AuthHistory Session) :=
    ⟨Nat.zero_le _, Nat.zero_le _, Nat.zero_le _, fun _ h ↦ absurd h not_mem_nil,
      Nat.zero_le _⟩
  have hspared : Spared ((secretProtocol Session credential).after [] history) :=
    hobeys.invariant hstart fun _ _ hh hsparing ↦ hh.concat hsparing
  rwa [secretProtocol, Monitor.after_ofHistory] at hspared

theorem authenticate_sparing_prompted :
    (Authentication.password "s").secret? = some "s" ∧
      Runs (authenticate () "root" (.password "s")).run promptedRun (.done (.ok true)) ∧
      Spared promptedRun :=
  ⟨rfl, promptedRun_runs, (authenticate_sparing rfl promptedRun_runs).2⟩

end

end KaduoxSsh.Core
