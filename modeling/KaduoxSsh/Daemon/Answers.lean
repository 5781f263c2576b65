import KaduoxSsh.Daemon.Server

/-!
# How a connection ends

A client knows that its request is settled by a frame that ends the exchange. The
handlers send one in most ways they can end, and in the others drop the stream
without a word: `Outcomes.Answers` lists what has to go well for the last frame to
be a terminal one, and `terminal_frame_iff` says that nothing else has to.

The client's end of the stream may fail at any byte. What is said of a connection
is said unless that happened.
-/

namespace KaduoxSsh.Daemon

open Text Result List

/-- The frames after which the server says nothing more. -/
def ServerFrame.terminal : ServerFrame → Bool
  | .ok | .error _ | .authRequired | .exit _ | .status .. => true
  | .stdout _ | .stderr _ | .cache _ | .jumpAuthChallenge .. => false

/-! ## A connection to a client -/

structure Conversation where
  writer : Writer UInt8
  /-- The frames that went out whole. -/
  sent : List ServerFrame
  /-- Whether the stream failed to take a frame. -/
  broken : Bool

/-- A frame with no encoding fails before a byte of it is written. -/
def deliver (frame : ServerFrame) (conversation : Conversation) : Result Unit × Conversation :=
  match (writeServerFrame frame).run conversation.writer with
  | (.ok (), writer) =>
      (.ok (), { conversation with writer, sent := conversation.sent ++ [frame] })
  | (.error e, writer) =>
      (.error e, { conversation with
        writer, broken := conversation.broken || (encodeServer frame).isOk })

/-- A connection whose first frame has been read, at its end. -/
def serve (outcomes : Outcomes) (frame : ClientFrame) (writer : Writer UInt8) : Conversation :=
  ((handleConnection outcomes (.ok (some frame))).run.run deliver ⟨writer, [], false⟩).2

/-- The last frame is a terminal one. -/
def EndsTerminal (sent : List ServerFrame) : Prop :=
  ∃ frame, sent.getLast? = some frame ∧ frame.terminal = true

/-- The client got a terminal frame as the last one, or could not be written to. -/
def Conversation.Answered (conversation : Conversation) : Prop :=
  conversation.broken = true ∨ EndsTerminal conversation.sent

/-! ## What is sent when the client takes everything -/

/-- The outcome of sending a frame to a client that takes everything. -/
def reply (frame : ServerFrame) : Result Unit := (encodeServer frame).map fun _ ↦ ()

def heard (frame : ServerFrame) : List ServerFrame :=
  if (encodeServer frame).isOk then [frame] else []

def Encodes (frame : ServerFrame) : Prop := ∃ payload, encodeServer frame = .ok payload

variable {frame : ServerFrame} {payload : List UInt8}

theorem Encodes.reply (h : Encodes frame) : reply frame = .ok () := by
  obtain ⟨payload, hpayload⟩ := h
  rw [Daemon.reply, hpayload]
  rfl

theorem Encodes.heard (h : Encodes frame) : heard frame = [frame] := by
  obtain ⟨payload, hpayload⟩ := h
  rw [Daemon.heard, hpayload]
  rfl

theorem not_encodes (h : ¬Encodes frame) : (∃ e, reply frame = .error e) ∧ heard frame = [] := by
  cases hencode : encodeServer frame with
  | ok payload => exact absurd ⟨payload, hencode⟩ h
  | error e =>
      rw [reply, heard, hencode]
      exact ⟨⟨e, rfl⟩, rfl⟩

theorem writeServerFrame_error {e : AnyError} (h : encodeServer frame = .error e)
    (writer : Writer UInt8) : (writeServerFrame frame).run writer = (.error e, writer) := by
  rw [writeServerFrame, h]
  rfl

theorem writeServerFrame_run (h : encodeServer frame = .ok payload) (writer : Writer UInt8) :
    (writeServerFrame frame).run writer = (writePayload payload).run writer := by
  rw [writeServerFrame, h]
  rfl

/-- A frame goes out as to a client that takes everything, or the stream is found broken. -/
theorem deliver_step (frame : ServerFrame) (conversation : Conversation) :
    (deliver frame conversation).2.broken = true ∨
      (deliver frame conversation).1 = reply frame ∧
        (deliver frame conversation).2.sent = conversation.sent ++ heard frame := by
  cases hencode : encodeServer frame with
  | error e =>
      right
      rw [deliver, writeServerFrame_error hencode, reply, heard, hencode]
      exact ⟨rfl, (append_nil _).symm⟩
  | ok payload =>
      rw [deliver, reply, heard, hencode]
      rcases (writeServerFrame frame).run conversation.writer with ⟨e | _, writer⟩
      · left
        exact Bool.or_true _
      · right
        exact ⟨rfl, rfl⟩

theorem deliver_broken (frame : ServerFrame) (conversation : Conversation)
    (h : conversation.broken = true) : (deliver frame conversation).2.broken = true := by
  rw [deliver]
  rcases (writeServerFrame frame).run conversation.writer with ⟨e | _, writer⟩
  · show (conversation.broken || _) = true
    rw [h, Bool.true_or]
  · exact h

/-- The client takes every byte. -/
structure Conversation.Open (conversation : Conversation) : Prop where
  limit : conversation.writer.limit = none
  flushFault : conversation.writer.flushFault = none
  whole : conversation.broken = false

theorem deliver_open (frame : ServerFrame) (conversation : Conversation)
    (h : conversation.Open) : (deliver frame conversation).2.Open := by
  cases hencode : encodeServer frame with
  | error e =>
      rw [deliver, writeServerFrame_error hencode, hencode]
      exact ⟨h.limit, h.flushFault, by simp [h.whole, isOk]⟩
  | ok payload =>
      have hadm : Admissible payload := length_encodeServer hencode
      have htakes : conversation.writer.Takes (framed payload).length := by
        intro room kind hlimit
        rw [h.limit] at hlimit
        cases hlimit
      rw [deliver, writeServerFrame_run hencode, writePayload_of_takes hadm htakes, h.flushFault]
      refine ⟨?_, h.flushFault, h.whole⟩
      show Option.map _ conversation.writer.limit = none
      rw [h.limit]
      rfl

/-- The result of a computation and the frames it sends, when the client takes everything. -/
def said {α : Type} (x : Serving α) : Result α × List ServerFrame :=
  ((x.run.transcript reply).1, (x.run.transcript reply).2.flatMap heard)

/-- A request is answered whatever the client takes exactly when it is answered to a client that
takes everything. -/
theorem answered_iff_said (outcomes : Outcomes) (frame : ClientFrame) :
    (∀ writer, (serve outcomes frame writer).Answered) ↔
      EndsTerminal (said (handleConnection outcomes (.ok (some frame)))).2 := by
  let x := (handleConnection outcomes (.ok (some frame))).run
  have hrun (writer : Writer UInt8) := Dialogue.run_or_transcript
    deliver_broken deliver_step x
    ⟨writer, [], false⟩
  constructor
  · intro h
    have hopen : (serve outcomes frame ⟨[], none, none⟩).Open :=
      Dialogue.run_invariant deliver_open x ⟨rfl, rfl, rfl⟩
    rcases hrun ⟨[], none, none⟩ with hbroken | ⟨-, hsent⟩
    · exact absurd (hopen.whole.symm.trans hbroken) Bool.false_ne_true
    · rcases h ⟨[], none, none⟩ with hbroken | hends
      · exact absurd (hopen.whole.symm.trans hbroken) Bool.false_ne_true
      · rwa [serve, hsent] at hends
  · intro h writer
    rcases hrun writer with hbroken | ⟨-, hsent⟩
    · exact .inl hbroken
    · right
      rwa [serve, hsent]

section

variable {α β : Type}

@[simp] theorem said_ofResult (x : Result α) : said (Serving.ofResult x) = (x, []) := rfl

@[simp] theorem said_sendFrame (frame : ServerFrame) :
    said (sendFrame frame) = (reply frame, heard frame) := by
  show (reply frame, heard frame ++ []) = _
  rw [append_nil]

theorem said_lift (x : Dialogue ServerFrame (Result Unit) α) :
    said (ExceptT.lift x) = (.ok (x.transcript reply).1, (x.transcript reply).2.flatMap heard) := by
  show (((Except.ok <$> x).transcript reply).1, ((Except.ok <$> x).transcript reply).2.flatMap heard)
    = _
  have hmap : (Except.ok <$> x : Dialogue ServerFrame (Result Unit) (Result α)) =
      x >>= fun a ↦ pure (.ok a) := rfl
  rw [hmap, Dialogue.transcript_bind]
  simp

/-- After a failure nothing more is sent. -/
theorem said_bind_error {x : Serving α} {e : AnyError} {sent : List ServerFrame}
    (h : said x = (.error e, sent)) (f : α → Serving β) : said (x >>= f) = (.error e, sent) := by
  obtain ⟨hresult, hsent⟩ := Prod.mk.inj h
  show (((x.run >>= ExceptT.bindCont f).transcript reply).1,
    ((x.run >>= ExceptT.bindCont f).transcript reply).2.flatMap heard) = _
  rw [Dialogue.transcript_bind, hresult]
  show (_, ((x.run.transcript reply).2 ++ []).flatMap heard) = _
  rw [append_nil, hsent]
  rfl

/-- The frames of a sequence are those of its stages. -/
theorem said_bind_ok {x : Serving α} {a : α} {sent : List ServerFrame}
    (h : said x = (.ok a, sent)) (f : α → Serving β) :
    said (x >>= f) = ((said (f a)).1, sent ++ (said (f a)).2) := by
  obtain ⟨hresult, hsent⟩ := Prod.mk.inj h
  show (((x.run >>= ExceptT.bindCont f).transcript reply).1,
    ((x.run >>= ExceptT.bindCont f).transcript reply).2.flatMap heard) = _
  rw [Dialogue.transcript_bind, hresult, flatMap_append, hsent]
  rfl

theorem said_ofResult_ok_bind (a : α) (f : α → Serving β) :
    said (Serving.ofResult (.ok a) >>= f) = said (f a) :=
  said_bind_ok (said_ofResult _) f

theorem said_ofResult_error_bind (e : AnyError) (f : α → Serving β) :
    said (Serving.ofResult (.error e) >>= f) = (.error e, []) :=
  said_bind_error (said_ofResult _) f

end

/-! ## Frames that do not end the exchange -/

/-- None of the frames is a terminal one. -/
def Unfinished (sent : List ServerFrame) : Prop := ∀ frame ∈ sent, frame.terminal = false

theorem unfinished_nil : Unfinished [] := nofun

theorem Unfinished.append {first second : List ServerFrame} (hfirst : Unfinished first)
    (hsecond : Unfinished second) : Unfinished (first ++ second) := by
  intro frame hmem
  rcases mem_append.mp hmem with hmem | hmem
  · exact hfirst frame hmem
  · exact hsecond frame hmem

theorem unfinished_heard (h : frame.terminal = false) : Unfinished (heard frame) := by
  intro other hmem
  rw [heard] at hmem
  split at hmem
  · rwa [mem_singleton.mp hmem]
  · cases hmem

theorem Unfinished.not_endsTerminal {sent : List ServerFrame} (h : Unfinished sent) :
    ¬EndsTerminal sent := by
  rintro ⟨frame, hlast, hterminal⟩
  have hmem : frame ∈ sent := mem_of_getLast? hlast
  exact absurd ((h frame hmem).symm.trans hterminal) Bool.false_ne_true

theorem endsTerminal_concat (sent : List ServerFrame) (frame : ServerFrame) :
    EndsTerminal (sent ++ [frame]) ↔ frame.terminal = true := by
  rw [EndsTerminal, List.getLast?_concat]
  simp

/-- Frames after the last terminal one. -/
theorem endsTerminal_append {sent more : List ServerFrame} (h : Unfinished more) :
    EndsTerminal (sent ++ more) ↔ EndsTerminal sent ∧ more = [] := by
  rcases eq_nil_or_concat more with rfl | ⟨init, frame, rfl⟩
  · rw [append_nil]
    exact (and_iff_left rfl).symm
  · rw [concat_eq_append] at *
    have hframe : frame.terminal = false := h frame (mem_append_right _ mem_cons_self)
    rw [← append_assoc, endsTerminal_concat, hframe]
    simp

/-- A terminal frame after frames that are not: all hangs on whether it can be encoded. -/
theorem endsTerminal_heard {sent : List ServerFrame} (hsent : Unfinished sent)
    (h : frame.terminal = true) : EndsTerminal (sent ++ heard frame) ↔ Encodes frame := by
  constructor
  · intro hends
    by_contra hencodes
    rw [(not_encodes hencodes).2, append_nil] at hends
    exact hsent.not_endsTerminal hends
  · intro hencodes
    rwa [hencodes.heard, endsTerminal_concat]

/-! ## Which frames can be encoded -/

theorem encodes_error_iff {message : String} :
    Encodes (.error message) ↔ Fits message MAX_COMMAND_BYTES := by
  rw [← exists_putString (by decide)]
  constructor
  · rintro ⟨payload, h⟩
    obtain ⟨word, hword, -⟩ := bind_eq_ok.mp h
    exact ⟨word, hword⟩
  · rintro ⟨word, hword⟩
    exact ⟨_, bind_eq_ok.mpr ⟨word, hword, rfl⟩⟩

theorem encodes_exit (status : Option UInt32) : Encodes (.exit status) := by
  cases status with
  | none => exact ⟨_, rfl⟩
  | some status => exact ⟨_, rfl⟩

/-- The pieces of output are within the limit of a frame. -/
theorem encodes_output (stderr : Bool) (chunk : OutputChunk) :
    Encodes (if stderr then .stderr chunk.val else .stdout chunk.val) := by
  have hlt : chunk.val.length < 2 ^ 32 := lt_of_le_of_lt chunk.property.2 (by decide)
  have hput : putBytes chunk.val OUTPUT_CHUNK_BYTES =
      .ok (putU32 (UInt32.ofNat chunk.val.length) ++ chunk.val) :=
    putBytes_eq_ok.mpr ⟨chunk.property.2, _, UInt32.toNat_ofNat_of_lt hlt, rfl⟩
  cases stderr with
  | true => exact ⟨_, bind_eq_ok.mpr ⟨_, hput, rfl⟩⟩
  | false => exact ⟨_, bind_eq_ok.mpr ⟨_, hput, rfl⟩⟩

/-! ## What has to go well -/

/-- The message of a failed command or shell is within the limit of a frame. -/
def MessageFits : Result (Option UInt32) → Prop
  | .ok _ => True
  | .error error => Fits error.alternate MAX_COMMAND_BYTES

/-- The client can be asked for credentials, and sends some. -/
def JumpRound.Answered (round : JumpRound) : Prop :=
  round.request.attempt = 1 ∨ Encodes round.request.challenge ∧
    ∃ auth, round.reply = .ok (some (.jumpAuthResponse (some auth)))

namespace Outcomes

variable (outcomes : Outcomes)

/-- The store, the resolution of the alias, the configuration of a pooled connection, and a new
connection where one is made. -/
structure Acquires (auth : Option AuthRequest) : Prop where
  storeOpened : outcomes.storeOpened = .ok ()
  resolved : outcomes.resolved = .ok ()
  pooled : outcomes.pooled ≠ some false
  connected : outcomes.pooled = none → auth ≠ none →
    (∀ round ∈ outcomes.jumps, round.Answered) ∧ outcomes.connected = .ok ()

/-- There is no connection in the pool and no credentials came with the request. -/
def WantsAuth (auth : Option AuthRequest) : Prop := outcomes.pooled = none ∧ auth = none

/-- The steps of a shell, up to the one that ends it. -/
def ShellAnswers : List ShellStep → Prop
  | [] => ∃ result, outcomes.shellJoined = .ok result ∧ outcomes.outputJoined = .ok () ∧
      MessageFits result
  | .output _ :: steps => ShellAnswers steps
  | .received (.error _) _ :: _ => False
  | .received (.ok none) _ :: _ => False
  | .received (.ok (some frame)) piped :: steps =>
      match frame with
      | .input _ | .eof => piped = .ok () ∧ ShellAnswers steps
      | .resize _ _ => ShellAnswers steps
      | _ => outcomes.remaining = []

/-- What has to go well for a request to be answered. -/
def Answers : ClientFrame → Prop
  | .disconnect _ => ∃ removed, outcomes.removed = .ok removed
  | .exec _ auth _ _ => outcomes.Acquires auth ∧ (¬outcomes.WantsAuth auth →
      outcomes.stdoutJoined = .ok () ∧ outcomes.stderrJoined = .ok () ∧
        MessageFits outcomes.executed)
  | .shell _ auth _ _ _ _ => outcomes.Acquires auth ∧
      (¬outcomes.WantsAuth auth → outcomes.ShellAnswers outcomes.steps)
  | _ => True

end Outcomes

/-! ## The handlers, when the client takes everything -/

theorem encodes_resultFrame {result : Result (Option UInt32)} :
    Encodes (resultFrame result) ↔ MessageFits result := by
  cases result with
  | ok status => exact iff_of_true (encodes_exit status) trivial
  | error error => exact encodes_error_iff

theorem terminal_resultFrame (result : Result (Option UInt32)) :
    (resultFrame result).terminal = true := by
  cases result <;> rfl

theorem said_sendFrame_ok (h : Encodes frame) : said (sendFrame frame) = (.ok (), [frame]) := by
  rw [said_sendFrame, h.reply, h.heard]

theorem authentication_said (round : JumpRound) :
    Unfinished (said (authentication round)).2 ∧
      ((∃ auth, (said (authentication round)).1 = .ok (some auth)) ↔ round.Answered) := by
  rw [authentication, JumpRound.Answered]
  by_cases hfirst : round.request.attempt = 1
  · rw [if_pos hfirst]
    exact ⟨unfinished_nil, iff_of_true ⟨_, rfl⟩ (.inl hfirst)⟩
  rw [if_neg hfirst]
  by_cases hencodes : Encodes round.request.challenge
  · rw [said_bind_ok (said_sendFrame_ok hencodes)]
    have hquiet : Unfinished [round.request.challenge] := by
      rintro _ (_ | ⟨_, ⟨⟩⟩)
      rfl
    simp only [hfirst, hencodes, false_or, true_and]
    rcases round.reply with e | _ | frame
    · exact ⟨hquiet, iff_of_false nofun nofun⟩
    · exact ⟨hquiet, iff_of_false nofun nofun⟩
    · cases frame with
      | jumpAuthResponse auth =>
          refine ⟨hquiet, ?_⟩
          show (∃ a, Except.ok auth = .ok (some a)) ↔ _
          simp
      | _ => exact ⟨hquiet, iff_of_false nofun nofun⟩
  · obtain ⟨⟨e, hreply⟩, hheard⟩ := not_encodes hencodes
    have hsend : said (sendFrame round.request.challenge) = (.error e, []) := by
      rw [said_sendFrame, hreply, hheard]
    rw [said_bind_error hsend]
    refine ⟨unfinished_nil, iff_of_false nofun ?_⟩
    rintro (h | ⟨h, -⟩)
    · exact hfirst h
    · exact hencodes h

/-- A jump host gets its credentials, or the connection is given up. -/
theorem authenticateJump_said (round : JumpRound) :
    Unfinished (said (authenticateJump round)).2 ∧
      ((said (authenticateJump round)).1 = .ok () ↔ round.Answered) := by
  obtain ⟨hquiet, hanswered⟩ := authentication_said round
  rw [authenticateJump]
  rcases hsaid : said (authentication round) with ⟨e | _ | auth, sent⟩
  · rw [hsaid] at hquiet hanswered
    rw [said_bind_error hsaid, ← hanswered]
    exact ⟨hquiet, iff_of_false nofun nofun⟩
  · rw [hsaid] at hquiet hanswered
    rw [said_bind_ok hsaid, ← hanswered]
    dsimp only
    split
    · exact ⟨hquiet.append unfinished_nil, iff_of_false nofun nofun⟩
    · exact ⟨hquiet.append unfinished_nil, iff_of_false nofun nofun⟩
  · rw [hsaid] at hquiet hanswered
    rw [said_bind_ok hsaid, ← hanswered]
    exact ⟨hquiet.append unfinished_nil, iff_of_true rfl ⟨auth, rfl⟩⟩

theorem authenticateJumps_said (rounds : List JumpRound) :
    Unfinished (said (authenticateJumps rounds)).2 ∧
      ((said (authenticateJumps rounds)).1 = .ok () ↔ ∀ round ∈ rounds, round.Answered) := by
  induction rounds with
  | nil => exact ⟨unfinished_nil, iff_of_true rfl nofun⟩
  | cons round rounds ih =>
      obtain ⟨hquiet, hanswered⟩ := authenticateJump_said round
      rw [authenticateJumps, forall_mem_cons, ← hanswered]
      rcases hsaid : said (authenticateJump round) with ⟨e | _, sent⟩
      · rw [hsaid] at hquiet
        rw [said_bind_error hsaid]
        exact ⟨hquiet, iff_of_false nofun fun h ↦ nomatch h.1⟩
      · rw [hsaid] at hquiet
        rw [said_bind_ok hsaid]
        exact ⟨hquiet.append ih.1, by simpa using ih.2⟩

theorem recordStoreUse_eq (recorded : Option (Result Unit)) : recordStoreUse recorded = .ok () := by
  rcases recorded with _ | e | _ <;> rfl

/-- How `acquireClient` ends. -/
structure AcquireSpec (outcomes : Outcomes) (auth : Option AuthRequest)
    (said : Result (Option Bool) × List ServerFrame) : Prop where
  unfinished : Unfinished said.2
  fails : ¬outcomes.Acquires auth → ∃ e, said.1 = .error e
  asks : outcomes.Acquires auth → outcomes.WantsAuth auth → said.1 = .ok none
  gives : outcomes.Acquires auth → ¬outcomes.WantsAuth auth → ∃ reused, said.1 = .ok (some reused)

section

variable {outcomes : Outcomes} {auth : Option AuthRequest} {sent : List ServerFrame}

theorem AcquireSpec.error {e : AnyError} (hsent : Unfinished sent)
    (h : ¬outcomes.Acquires auth) : AcquireSpec outcomes auth (.error e, sent) where
  unfinished := hsent
  fails _ := ⟨e, rfl⟩
  asks hacquires := absurd hacquires h
  gives hacquires := absurd hacquires h

theorem AcquireSpec.ok {reused : Bool} (hsent : Unfinished sent)
    (hacquires : outcomes.Acquires auth) (hwants : ¬outcomes.WantsAuth auth) :
    AcquireSpec outcomes auth (.ok (some reused), sent) where
  unfinished := hsent
  fails h := absurd hacquires h
  asks _ h := absurd h hwants
  gives _ _ := ⟨reused, rfl⟩

end

/-- A new connection. -/
theorem connect_said {outcomes : Outcomes} {credentials : AuthRequest} {message : String}
    (hstore : outcomes.storeOpened = .ok ()) (hresolved : outcomes.resolved = .ok ())
    (hpooled : outcomes.pooled = none) :
    AcquireSpec outcomes (some credentials) (said (authenticateJumps outcomes.jumps >>= fun _ ↦
      Serving.ofResult (outcomes.connected.context message) >>= fun _ ↦
        Serving.ofResult (recordStoreUse outcomes.recorded) >>= fun _ ↦
          (return some false : Serving (Option Bool)))) := by
  obtain ⟨hquiet, hanswered⟩ := authenticateJumps_said outcomes.jumps
  have hcredentials : some credentials ≠ none := Option.some_ne_none credentials
  rcases hsaid : said (authenticateJumps outcomes.jumps) with ⟨e | _, sent⟩
  · rw [hsaid] at hquiet hanswered
    rw [said_bind_error hsaid]
    refine .error hquiet fun hacquires ↦ ?_
    cases hanswered.mpr (hacquires.connected hpooled hcredentials).1
  rw [hsaid] at hquiet hanswered
  rw [said_bind_ok hsaid]
  rcases hconnected : outcomes.connected with e | _
  · rw [context, said_ofResult_error_bind]
    refine .error (hquiet.append unfinished_nil) fun hacquires ↦ ?_
    cases hconnected.symm.trans (hacquires.connected hpooled hcredentials).2
  · rw [context, said_ofResult_ok_bind, recordStoreUse_eq, said_ofResult_ok_bind]
    refine .ok (hquiet.append unfinished_nil) ?_ fun h ↦ hcredentials h.2
    exact ⟨hstore, hresolved, hpooled ▸ (Option.some_ne_none _).symm,
      fun _ _ ↦ ⟨hanswered.mp rfl, hconnected⟩⟩

theorem acquireClient_said (outcomes : Outcomes) (hostAlias : String)
    (auth : Option AuthRequest) :
    AcquireSpec outcomes auth (said (acquireClient outcomes hostAlias auth)) := by
  unfold acquireClient
  rcases hstore : outcomes.storeOpened with e | _
  · rw [said_ofResult_error_bind]
    refine .error unfinished_nil fun h ↦ ?_
    cases hstore.symm.trans h.storeOpened
  rw [said_ofResult_ok_bind]
  rcases hresolved : outcomes.resolved with e | _
  · rw [context, said_ofResult_error_bind]
    refine .error unfinished_nil fun h ↦ ?_
    cases hresolved.symm.trans h.resolved
  rw [context, said_ofResult_ok_bind]
  rcases hpooled : outcomes.pooled with _ | _ | _
  · cases auth with
    | none =>
        refine ⟨unfinished_nil, fun h ↦ ?_, fun _ _ ↦ rfl, fun _ h ↦ absurd ⟨hpooled, rfl⟩ h⟩
        exact absurd ⟨hstore, hresolved, hpooled ▸ (Option.some_ne_none _).symm,
          fun _ h ↦ absurd rfl h⟩ h
    | some credentials => exact connect_said hstore hresolved hpooled
  · exact .error unfinished_nil fun h ↦ h.pooled hpooled
  · rw [recordStoreUse_eq]
    refine .ok unfinished_nil ⟨hstore, hresolved, fun h ↦ ?_, fun h ↦ ?_⟩ fun h ↦ ?_
    · cases hpooled.symm.trans h
    · cases hpooled.symm.trans h
    · cases hpooled.symm.trans h.1

/-! ### Output -/

theorem Unfinished.heard {frames : List ServerFrame} (h : Unfinished frames) :
    Unfinished (frames.flatMap heard) := by
  intro frame hmem
  obtain ⟨source, hsource, hheard⟩ := mem_flatMap.mp hmem
  exact unfinished_heard (h source hsource) frame hheard

theorem forwardOutput_transcript (stderr : Bool) (chunk : OutputChunk) :
    (forwardOutput stderr chunk (.ok ())).transcript reply =
      (.ok (), [if stderr then .stderr chunk.val else .stdout chunk.val]) := by
  rw [forwardOutput, Dialogue.transcript_tell, (encodes_output stderr chunk).reply]

theorem unfinished_output (stderr : Bool) (chunk : OutputChunk) :
    Unfinished [if stderr then .stderr chunk.val else .stdout chunk.val] := by
  intro frame hmem
  rw [mem_singleton.mp hmem]
  cases stderr <;> rfl

theorem forwardPrinted_transcript (printed : List (Bool × OutputChunk)) :
    ∃ frames, Unfinished frames ∧
      (forwardPrinted printed (.ok (), .ok ())).transcript reply = ((.ok (), .ok ()), frames) := by
  induction printed with
  | nil => exact ⟨[], unfinished_nil, rfl⟩
  | cons piece printed ih =>
      obtain ⟨stderr, chunk⟩ := piece
      obtain ⟨frames, hframes, htranscript⟩ := ih
      refine ⟨_, (unfinished_output stderr chunk).append hframes, ?_⟩
      cases stderr with
      | true =>
          rw [forwardPrinted, Dialogue.transcript_bind, forwardOutput_transcript, htranscript]
      | false =>
          rw [forwardPrinted, Dialogue.transcript_bind, forwardOutput_transcript, htranscript]

theorem forwardRemaining_transcript (remaining : List OutputChunk) :
    (forwardRemaining remaining (.ok ())).transcript reply =
      (.ok (), remaining.map fun chunk ↦ .stdout chunk.val) := by
  induction remaining with
  | nil => rfl
  | cons chunk remaining ih =>
      rw [forwardRemaining, Dialogue.transcript_bind, forwardOutput_transcript, ih]
      rfl

theorem heard_remaining (remaining : List OutputChunk) :
    (remaining.map fun chunk ↦ ServerFrame.stdout chunk.val).flatMap heard =
      remaining.map fun chunk ↦ .stdout chunk.val := by
  induction remaining with
  | nil => rfl
  | cons chunk remaining ih =>
      have hencodes : Encodes (.stdout chunk.val) := encodes_output false chunk
      rw [map_cons, flatMap_cons, ih, hencodes.heard]
      rfl

theorem unfinished_remaining (remaining : List OutputChunk) :
    Unfinished (remaining.map fun chunk ↦ .stdout chunk.val) := by
  intro frame hmem
  obtain ⟨chunk, -, rfl⟩ := mem_map.mp hmem
  rfl

/-! ### The loop of a shell -/

/-- The frame for a client that sends anything but input to a shell. -/
def invalidControl : ServerFrame := .error "invalid control frame during daemon shell"

theorem encodes_invalidControl : Encodes invalidControl :=
  encodes_error_iff.mpr (by unfold Fits; decide)

/-- How the loop ends: with the end of the shell, without a word, or with the refusal of a
frame. -/
inductive LoopSpec (outcomes : Outcomes) (steps : List ShellStep) :
    (ShellExit × Result Unit) × List ServerFrame → Prop
  | finished {result : Result (Option UInt32)} {sent : List ServerFrame} (hsent : Unfinished sent)
      (h : outcomes.ShellAnswers steps ↔ outcomes.outputJoined = .ok () ∧ MessageFits result) :
      LoopSpec outcomes steps ((.finished result, .ok ()), sent)
  | silent {result : Result Unit} {sent : List ServerFrame} (hsent : Unfinished sent)
      (h : ¬outcomes.ShellAnswers steps) :
      LoopSpec outcomes steps ((.returned result, .ok ()), sent)
  | refused {result : Result Unit} {sent : List ServerFrame} (hsent : Unfinished sent)
      (h : outcomes.ShellAnswers steps ↔ outcomes.remaining = []) :
      LoopSpec outcomes steps ((.returned result, .ok ()), sent ++ [invalidControl])

/-- A step that does not end the loop. -/
theorem LoopSpec.cons {outcomes : Outcomes} {step : ShellStep} {steps : List ShellStep}
    {exit : ShellExit × Result Unit} {sent frames : List ServerFrame}
    (h : LoopSpec outcomes steps (exit, sent)) (hframes : Unfinished frames)
    (hstep : outcomes.ShellAnswers (step :: steps) ↔ outcomes.ShellAnswers steps) :
    LoopSpec outcomes (step :: steps) (exit, frames ++ sent) := by
  cases h with
  | finished hsent h => exact .finished (hframes.append hsent) (hstep.trans h)
  | silent hsent h => exact .silent (hframes.append hsent) (hstep.not.mpr h)
  | refused hsent h =>
      rw [← append_assoc]
      exact .refused (hframes.append hsent) (hstep.trans h)

theorem shellLoop_spec (outcomes : Outcomes) (steps : List ShellStep) :
    LoopSpec outcomes steps
      ((shellLoop outcomes.shellJoined steps (.ok ())).transcript reply) := by
  induction steps with
  | nil =>
      unfold shellLoop
      rcases hjoined : outcomes.shellJoined with e | result
      · refine .silent unfinished_nil ?_
        rintro ⟨result, hresult, -⟩
        exact nomatch hjoined.symm.trans hresult
      · refine .finished unfinished_nil ?_
        rw [Outcomes.ShellAnswers, hjoined]
        simp
  | cons step steps ih =>
      rcases step with chunk | ⟨e | _ | frame, piped⟩
      · rw [shellLoop, Dialogue.transcript_bind, forwardOutput_transcript]
        exact ih.cons (unfinished_output false chunk) Iff.rfl
      · exact .silent unfinished_nil id
      · exact .silent unfinished_nil id
      · cases frame with
        | input _ | eof =>
            rcases piped with e | _
            · exact .silent unfinished_nil fun h ↦ nomatch h.1
            · exact ih.cons unfinished_nil (and_iff_right rfl)
        | resize columns rows => exact ih.cons unfinished_nil Iff.rfl
        | _ =>
            show LoopSpec outcomes _
              ((.returned (reply invalidControl), .ok ()), [] ++ [invalidControl])
            exact .refused unfinished_nil Iff.rfl

/-! ## When a request is answered -/

section

variable {outcomes : Outcomes} {hostAlias : String} {auth : Option AuthRequest}

/-- A step that may fail before the rest. -/
theorem check_said {x : Result Unit} {y : Serving Unit} {sent : List ServerFrame} {P : Prop}
    (hsent : Unfinished sent) (h : EndsTerminal (sent ++ (said y).2) ↔ P) :
    EndsTerminal (sent ++ (said (Serving.ofResult x >>= fun _ ↦ y)).2) ↔ x = .ok () ∧ P := by
  rcases x with e | _
  · rw [said_ofResult_error_bind]
    exact iff_of_false (hsent.append unfinished_nil).not_endsTerminal fun h ↦ nomatch h.1
  · rw [said_ofResult_ok_bind, h]
    exact (and_iff_right rfl).symm

theorem resultFrame_said {sent : List ServerFrame} (hsent : Unfinished sent)
    (result : Result (Option UInt32)) :
    EndsTerminal (sent ++ (said (sendFrame (resultFrame result))).2) ↔ MessageFits result := by
  rw [said_sendFrame, endsTerminal_heard hsent (terminal_resultFrame result), encodes_resultFrame]

/-- A request for a connection: what follows decides once there is one. -/
theorem acquired_said {f : Option Bool → Serving Unit} {P : Prop}
    (hnone : f none = sendFrame .authRequired)
    (hsome : ∀ reused sent, Unfinished sent →
      (EndsTerminal (sent ++ (said (f (some reused))).2) ↔ P)) :
    EndsTerminal (said (acquireClient outcomes hostAlias auth >>= f)).2 ↔
      outcomes.Acquires auth ∧ (¬outcomes.WantsAuth auth → P) := by
  obtain ⟨hquiet, hfails, hasks, hgives⟩ := acquireClient_said outcomes hostAlias auth
  rcases hsaid : said (acquireClient outcomes hostAlias auth) with ⟨result, sent⟩
  rw [hsaid] at hquiet hfails hasks hgives
  by_cases hacquires : outcomes.Acquires auth
  swap
  · obtain ⟨e, rfl⟩ := hfails hacquires
    rw [said_bind_error hsaid]
    exact iff_of_false hquiet.not_endsTerminal fun h ↦ hacquires h.1
  by_cases hwants : outcomes.WantsAuth auth
  · obtain rfl : result = _ := hasks hacquires hwants
    rw [said_bind_ok hsaid, hnone, said_sendFrame]
    have hencodes : Encodes .authRequired := ⟨_, rfl⟩
    refine iff_of_true ?_ ⟨hacquires, fun h ↦ absurd hwants h⟩
    exact (endsTerminal_heard hquiet rfl).mpr hencodes
  · obtain ⟨reused, rfl⟩ := hgives hacquires hwants
    rw [said_bind_ok hsaid, hsome reused sent hquiet]
    exact ⟨fun h ↦ ⟨hacquires, fun _ ↦ h⟩, fun h ↦ h.2 hwants⟩

theorem unfinished_cache (reused : Bool) : Unfinished [.cache reused] := by
  rintro _ (_ | ⟨_, ⟨⟩⟩)
  rfl

theorem said_cache (reused : Bool) : said (sendFrame (.cache reused)) = (.ok (), [.cache reused]) :=
  said_sendFrame_ok ⟨_, rfl⟩

theorem handleExec_said :
    EndsTerminal (said (handleExec outcomes hostAlias auth)).2 ↔
      outcomes.Acquires auth ∧ (¬outcomes.WantsAuth auth →
        outcomes.stdoutJoined = .ok () ∧ outcomes.stderrJoined = .ok () ∧
          MessageFits outcomes.executed) := by
  unfold handleExec
  refine acquired_said rfl fun reused sent hsent ↦ ?_
  obtain ⟨frames, hframes, htranscript⟩ := forwardPrinted_transcript outcomes.printed
  have hlift := said_lift (forwardPrinted outcomes.printed (.ok (), .ok ()))
  rw [htranscript] at hlift
  dsimp only
  rw [said_bind_ok (said_cache reused), said_bind_ok hlift]
  simp only [← append_assoc]
  have hquiet := (hsent.append (unfinished_cache reused)).append hframes.heard
  have hlast := resultFrame_said hquiet outcomes.executed
  have hstderr := check_said (x := outcomes.stderrJoined.context "daemon stderr bridge task failed")
    hquiet (check_said (x := .ok ()) hquiet hlast)
  refine (check_said hquiet (check_said hquiet hstderr)).trans ?_
  simp only [context_eq_ok, true_and]

theorem handleShell_said :
    EndsTerminal (said (handleShell outcomes hostAlias auth)).2 ↔
      outcomes.Acquires auth ∧
        (¬outcomes.WantsAuth auth → outcomes.ShellAnswers outcomes.steps) := by
  unfold handleShell
  refine acquired_said rfl fun reused sent hsent ↦ ?_
  have hopened := hsent.append (unfinished_cache reused)
  have hrest := unfinished_remaining outcomes.remaining
  have hloop := said_lift (shellLoop outcomes.shellJoined outcomes.steps (.ok ()))
  have hremaining := said_lift (forwardRemaining outcomes.remaining (.ok ()))
  rw [forwardRemaining_transcript, heard_remaining] at hremaining
  dsimp only
  rw [said_bind_ok (said_cache reused)]
  cases hspec : (shellLoop outcomes.shellJoined outcomes.steps (.ok ())).transcript reply with
  | mk exit frames =>
  have hloopSpec := shellLoop_spec outcomes outcomes.steps
  rw [hspec] at hloop hloopSpec
  cases hloopSpec with
  | finished hframes h =>
      rw [said_bind_ok hloop, said_bind_ok hremaining]
      simp only [← append_assoc]
      have hquiet := (hopened.append hframes.heard).append hrest
      refine (check_said hquiet (check_said hquiet (resultFrame_said hquiet _))).trans ?_
      simp only [context_eq_ok, true_and, h]
  | silent hframes h =>
      rw [said_bind_ok hloop, said_bind_ok hremaining, said_ofResult]
      simp only [← append_assoc, append_nil]
      exact iff_of_false ((hopened.append hframes.heard).append hrest).not_endsTerminal h
  | refused hframes h =>
      rw [said_bind_ok hloop, said_bind_ok hremaining, said_ofResult, flatMap_append,
        flatMap_singleton, encodes_invalidControl.heard]
      simp only [← append_assoc, append_nil]
      rw [endsTerminal_append hrest, endsTerminal_concat, map_eq_nil_iff, h]
      exact and_iff_right rfl

end

/-! ### The message for a connection that is not pooled -/

/-- The alias in a request is short enough to be quoted in the reply. -/
theorem encodes_notPooled {hostAlias : String}
    (h : decodeClient payload = .ok (.disconnect hostAlias)) :
    Encodes (.error s!"no cached connection named {debug hostAlias}") := by
  obtain ⟨word, hword, -⟩ := bind_eq_ok.mp (decodeClient_iff.mp h)
  have hfits : (utf8 hostAlias).length ≤ MAX_ALIAS_BYTES := (putBytes_eq_ok.mp hword).1
  have hchars := length_toList_le hostAlias
  have hquoted := length_debug_le hostAlias
  have hbytes := length_utf8_ofList_le (s!"no cached connection named {debug hostAlias}").toList
  rw [String.ofList_toList] at hbytes
  have htext : (s!"no cached connection named {debug hostAlias}").toList =
      "no cached connection named ".toList ++ (debug hostAlias).toList := by
    simp [toString]
  have hlength : "no cached connection named ".toList.length = 27 := by decide
  rw [htext, length_append, hlength] at hbytes
  rw [encodes_error_iff, Fits]
  simp only [MAX_ALIAS_BYTES, MAX_COMMAND_BYTES] at *
  omega

/-- Whatever the client takes of what it is sent, the last frame of its connection is a terminal
one, exactly when no step fails that the handlers pass over in silence. -/
theorem terminal_frame_iff {frame : ClientFrame} (hdecoded : decodeClient payload = .ok frame)
    (outcomes : Outcomes) :
    (∀ writer, (serve outcomes frame writer).Answered) ↔ outcomes.Answers frame := by
  have hspoken {reply : ServerFrame} (hterminal : reply.terminal = true) (hencodes : Encodes reply) :
      EndsTerminal (said (sendFrame reply)).2 := by
    rw [said_sendFrame]
    exact (endsTerminal_heard unfinished_nil hterminal).mpr hencodes
  rw [answered_iff_said, handleConnection, said_ofResult_ok_bind]
  cases frame with
  | disconnect hostAlias =>
      unfold handleRequest Outcomes.Answers
      rcases outcomes.removed with e | _ | _
      · rw [said_ofResult_error_bind]
        exact iff_of_false unfinished_nil.not_endsTerminal nofun
      · rw [said_ofResult_ok_bind]
        exact iff_of_true (hspoken rfl (encodes_notPooled hdecoded)) ⟨_, rfl⟩
      · rw [said_ofResult_ok_bind]
        exact iff_of_true (hspoken rfl ⟨_, rfl⟩) ⟨_, rfl⟩
  | exec hostAlias auth command asUser => exact handleExec_said
  | shell hostAlias auth term columns rows asUser => exact handleShell_said
  | ping | status | shutdown => exact iff_of_true (hspoken rfl ⟨_, rfl⟩) trivial
  | input _ | resize _ _ | eof | jumpAuthResponse _ =>
      refine iff_of_true (hspoken rfl ?_) trivial
      exact encodes_error_iff.mpr (by unfold Fits; decide)

/-- Everything goes well, over a connection that is in the pool. -/
def smoothOutcomes : Outcomes where
  totalConnections := 1
  inUseConnections := 1
  activeLeases := 0
  maxConnections := 64
  availableCapacity := 63
  removed := .ok true
  storeOpened := .ok ()
  resolved := .ok ()
  pooled := some true
  recorded := none
  jumps := []
  connected := .ok ()
  printed := [(false, ⟨[104, 105], by decide⟩)]
  stdoutJoined := .ok ()
  stderrJoined := .ok ()
  executed := .ok (some 0)
  steps := []
  shellJoined := .ok (.ok none)
  remaining := []
  outputJoined := .ok ()

/-- The request to run `id` on the host `web`. -/
def runId : ClientFrame := .exec "web" none "id" none

def runIdPayload : List UInt8 :=
  [TAG_EXEC, 0, 0, 0, 3, 119, 101, 98, 0, 0, 0, 0, 2, 105, 100, 0]

theorem terminal_frame_smooth :
    decodeClient runIdPayload = .ok runId ∧
      ∀ writer, (serve smoothOutcomes runId writer).Answered := by
  have hdecoded : decodeClient runIdPayload = .ok runId := by decide
  refine ⟨hdecoded, (terminal_frame_iff hdecoded smoothOutcomes).mpr ?_⟩
  exact ⟨⟨rfl, rfl, nofun, nofun⟩, fun _ ↦ ⟨rfl, rfl, trivial⟩⟩

/-- The host is not in the library: the client hears nothing, and the stream took all there
was. -/
theorem unresolved_alias_silent :
    decodeClient runIdPayload = .ok runId ∧
      (serve { smoothOutcomes with resolved := bail "unknown host" } runId
        ⟨[], none, none⟩).sent = [] ∧
      ¬(serve { smoothOutcomes with resolved := bail "unknown host" } runId
        ⟨[], none, none⟩).Answered := by
  refine ⟨by decide, rfl, ?_⟩
  rintro (hbroken | ⟨frame, hlast, -⟩)
  · cases hbroken
  · cases hlast

end KaduoxSsh.Daemon
