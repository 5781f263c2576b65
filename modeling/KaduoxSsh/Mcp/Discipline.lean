import KaduoxSsh.Mcp.Server

/-!
# Requests and responses

Every request that has an id is to be answered once and with that id, no
notification is to be answered, and a malformed line is to do no harm. What a line
is, JSON-RPC says of the JSON that it is as a text.

The server decides by the method alone whether it answers: the two methods of
notifications are never answered, and all others always, with the id `null` when
there is none. It looks at no version and takes an array of the members as well, so
that it carries out what is no request. A line that is too long or no text ends the
session, and one whose tool never returns is the last. `disciplined_iff` says that
nothing else goes wrong.
-/

namespace KaduoxSsh.Mcp

open Text Lines List Option
open Hosts (trim)

/-! ## What a line is -/

/-- How long a line is without its line end. -/
def contentLength (line : List UInt8) : Nat :=
  if line.getLast? = some newline then line.length - 1 else line.length

/-- Whether a line is short enough and text. -/
def Readable (line : List UInt8) : Prop :=
  contentLength line < MAX_LINE_BYTES ∧ (fromUtf8 line).isSome = true

instance : DecidablePred Readable := fun _ ↦ inferInstanceAs (Decidable (_ ∧ _))

/-- What a line is, by the JSON that it is as a text. -/
def lineMessage (json : String → Option Value) (line : List UInt8) : Message :=
  if MAX_LINE_BYTES ≤ contentLength line then .malformed
  else
    match (fromUtf8 line).bind json with
    | some value => value.message
    | none => .malformed

/-- An error response. -/
def IsError (response : Value) : Prop := (response.get "error").isSome = true

/-- The response is the one that a message asks for. -/
def Fits (response : Option Value) : Message → Prop
  | .request id _ => ∃ value, response = some value ∧ value.get "id" = some id
  | .notification _ => response = none
  | .malformed => ∀ value, response = some value → IsError value

/-! ## What the server takes it for -/

/-- The methods that are never answered. -/
def isNotificationMethod (method : String) : Bool :=
  method == "notifications/initialized" || method == "notifications/cancelled"

/-- A request that is answered with a result. -/
def hasResult (request : RpcRequest) : Bool :=
  request.method == "initialize" || request.method == "ping" || request.method == "tools/list" ||
    request.method == "tools/call" && (request.params.bind CallToolParams.fromValue).isSome

namespace Runtime

variable {σ : Type} (runtime : Runtime σ)

/-- The JSON of a text, as the server reads it: without white space around it. -/
def valueOf (text : String) : Option Value :=
  let raw := String.ofList (trim text.toList)
  if raw = "" then none else runtime.parse raw
def requestOf (text : String) : Option RpcRequest := (runtime.valueOf text).bind RpcRequest.fromValue
/-- The tool that a request calls, with its arguments. -/
def callOf (request : RpcRequest) : Option (Tool × Value) :=
  if request.method = "tools/call" then
    (request.params.bind CallToolParams.fromValue).bind fun call ↦
      (runtime.tool call.name).map (·, call.arguments.getD (.object []))
  else none

/-- The tools that the lines call return, each in the state that those before it have left. -/
def CallsReturn : List (List UInt8) → σ → Prop
  | [], _ => True
  | line :: rest, s =>
      match ((fromUtf8 line).bind runtime.requestOf).bind runtime.callOf with
      | none => CallsReturn rest s
      | some (tool, arguments) => ∃ result s',
          runtime.perform tool arguments s = some (result, s') ∧ CallsReturn rest s'

/-- The lines are read as the JSON that they are. -/
def ReadsLines (json : String → Option Value) (bytes : List UInt8) : Prop :=
  ∀ line ∈ lines newline bytes, ∀ text, fromUtf8 line = some text →
    runtime.valueOf text = json text

/-- The session takes up each line of the input in turn, to the end, and responds as it should. -/
def Disciplined (json : String → Option Value) (bytes : List UInt8) (s : σ) : Prop :=
  (runtime.run bytes s).2 = .eof ∧
    (runtime.run bytes s).1.map Exchange.line = lines newline bytes ∧
    ∀ exchange ∈ (runtime.run bytes s).1,
      Fits exchange.response (lineMessage json exchange.line)

/-- A line that the server can read, whose method says whether it is a notification, and that is not
answered with a result when it is no message. -/
def Proper (json : String → Option Value) (line : List UInt8) : Prop :=
  Readable line ∧
    match lineMessage json line with
    | .request _ method => isNotificationMethod method = false
    | .notification method => isNotificationMethod method = true
    | .malformed => ∀ request, (fromUtf8 line).bind runtime.requestOf = some request →
        hasResult request = false

end Runtime

/-! ## Messages and requests -/

namespace Value

variable {name : String} {members : List (String × Value)}

theorem member_eq : member name members = ((Value.object members).get name).getD .null := by
  rw [member, get]
  cases members.find? fun entry ↦ entry.1 == name <;> rfl

theorem toOption_getD (id : Value) : id.toOption.getD .null = id := by
  cases id <;> rfl

/-- A member that is there once is read. -/
theorem fields_of_nodup (h : (members.map Prod.fst).Nodup) (names : List String) :
    (Value.object members).fields names =
      some (names.map fun name ↦ ((Value.object members).get name).getD .null) := by
  have honce : ∀ name ∈ names, (members.filter fun entry ↦ entry.1 == name).length ≤ 1 := by
    intro name _
    have hcount := nodup_iff_count_le_one.mp h name
    rwa [List.count, countP_map, countP_eq_length_filter] at hcount
  rw [fields, if_pos (all_eq_true.mpr fun name hname ↦ decide_eq_true (honce name hname))]
  simp only [member_eq]

end Value

theorem lineMessage_of_readable {json : String → Option Value} {line : List UInt8} {text : String}
    (hreadable : Readable line) (htext : fromUtf8 line = some text) :
    lineMessage json line = (json text).elim .malformed Value.message := by
  rw [lineMessage, if_neg (Nat.not_le_of_lt hreadable.1), htext, bind_some]
  cases json text <;> rfl

/-- The request that the server reads from a message. -/
def Message.asRequest (params : Option Value) : Message → Option RpcRequest
  | .request id method => some ⟨id.toOption, method, params⟩
  | .notification method => some ⟨none, method, params⟩
  | .malformed => none

theorem fromValue_of_message {value : Value} (h : value.message ≠ .malformed) :
    ∃ params, RpcRequest.fromValue value = value.message.asRequest params := by
  unfold Value.message at h ⊢
  split at h
  · rename_i members
    dsimp only at h ⊢
    split at h
    · rename_i hobject
      rw [if_pos hobject]
      have hfields := Value.fields_of_nodup hobject.1 ["id", "method", "params"]
      refine ⟨(((Value.object members).get "params").getD .null).toOption, ?_⟩
      rw [RpcRequest.fromValue, hfields]
      split at h
      · rename_i method hmethod hid
        simp only [hmethod, hid, map_cons, map_nil, getD_some, getD_none]
        rfl
      · rename_i method id hmethod hid
        simp only [hmethod, hid, map_cons, map_nil, getD_some]
        split at h
        · rename_i hisId
          simp only [if_pos hisId]
          rfl
        · exact absurd rfl h
      · exact absurd rfl h
    · exact absurd rfl h
  · exact absurd rfl h

namespace Runtime

variable {σ : Type} {runtime : Runtime σ} {s s' : σ} {request : RpcRequest}
  {response : Option Value} {json : String → Option Value} {line : List UInt8} {text : String}
  {bytes : List UInt8}

/-! ## The response to a line -/

theorem hasResult_of_callOf_some {tool : Tool} {arguments : Value}
    (h : runtime.callOf request = some (tool, arguments)) :
    request.method = "tools/call" ∧ hasResult request = true := by
  unfold callOf at h
  split at h
  · rename_i hmethod
    obtain ⟨call, hcall, -⟩ := bind_eq_some_iff.mp h
    refine ⟨hmethod, ?_⟩
    rw [hasResult, hmethod, hcall]
    rfl
  · exact nomatch h

/-- A request that calls a tool waits for it. -/
theorem handle_of_callOf_some {tool : Tool} {arguments : Value}
    (h : runtime.callOf request = some (tool, arguments)) :
    runtime.handle request s = (runtime.perform tool arguments s).map fun done ↦
      (some (rpcResult request.id (runtime.toolResponse done.1)), done.2) := by
  obtain ⟨id, method, params⟩ := request
  obtain ⟨rfl, -⟩ := hasResult_of_callOf_some h
  rw [callOf, if_pos rfl] at h
  obtain ⟨call, hbind, hmap⟩ := bind_eq_some_iff.mp h
  obtain ⟨params, rfl, hcall⟩ := bind_eq_some_iff.mp hbind
  obtain ⟨_, htool, hpair⟩ := map_eq_some_iff.mp hmap
  obtain ⟨rfl, rfl⟩ := Prod.mk.inj hpair
  simp only [handle, hcall, callTool, htool, Option.map_map]
  rfl

/-- A request that calls no tool is dealt with at once. A method of notifications is not answered,
all others are, with the id of the request. -/
theorem handle_of_callOf_none (h : runtime.callOf request = none) :
    ∃ response, runtime.handle request s = some (response, s) ∧
      (isNotificationMethod request.method = true ∧ hasResult request = false ∧ response = none ∨
        isNotificationMethod request.method = false ∧ hasResult request = true ∧
          (∃ result, response = some (rpcResult request.id result)) ∨
        isNotificationMethod request.method = false ∧ hasResult request = false ∧
          ∃ code message, response = some (rpcError request.id code message)) := by
  obtain ⟨id, method, params⟩ := request
  rw [handle]
  dsimp only at h ⊢
  split_ifs with hinit hnotification hping hlist hcall
  · subst hinit
    exact ⟨_, rfl, .inr (.inl ⟨rfl, rfl, _, rfl⟩)⟩
  · refine ⟨_, rfl, .inl ⟨?_, ?_, rfl⟩⟩
    · rcases hnotification with rfl | rfl <;> rfl
    · rcases hnotification with rfl | rfl <;> rfl
  · subst hping
    exact ⟨_, rfl, .inr (.inl ⟨rfl, rfl, _, rfl⟩)⟩
  · subst hlist
    exact ⟨_, rfl, .inr (.inl ⟨rfl, rfl, _, rfl⟩)⟩
  · subst hcall
    cases params with
    | none => exact ⟨_, rfl, .inr (.inr ⟨rfl, rfl, _, _, rfl⟩)⟩
    | some params =>
        dsimp only
        cases hparams : CallToolParams.fromValue params with
        | none =>
            refine ⟨_, rfl, .inr (.inr ⟨rfl, ?_, _, _, rfl⟩)⟩
            rw [hasResult, bind_some, hparams]
            rfl
        | some call =>
            rw [callOf, if_pos rfl, bind_some, hparams, bind_some,
              map_eq_none_iff] at h
            dsimp only
            rw [callTool, h]
            refine ⟨_, rfl, .inr (.inl ⟨rfl, ?_, _, rfl⟩)⟩
            rw [hasResult, bind_some, hparams]
            rfl
  · rw [not_or] at hnotification
    refine ⟨_, rfl, .inr (.inr ⟨?_, ?_, _, _, rfl⟩)⟩
    · rw [isNotificationMethod, beq_false_of_ne hnotification.1, beq_false_of_ne hnotification.2]
      rfl
    · rw [hasResult, beq_false_of_ne hinit, beq_false_of_ne hping, beq_false_of_ne hlist,
        beq_false_of_ne hcall]
      rfl

theorem isError_rpcError (id : Option Value) (code : Int) (message : String) :
    IsError (rpcError id code message) := rfl

theorem not_isError_rpcResult (id : Option Value) (result : Value) :
    ¬IsError (rpcResult id result) :=
  Bool.false_ne_true

/-- A method of notifications is not answered, all others are, with the id of the request. -/
theorem handle_eq_some (h : runtime.handle request s = some (response, s')) :
    isNotificationMethod request.method = true ∧ hasResult request = false ∧ response = none ∨
      isNotificationMethod request.method = false ∧ ∃ value, response = some value ∧
        value.get "id" = some (request.id.getD .null) ∧
        (IsError value ↔ hasResult request = false) := by
  cases hcall : runtime.callOf request with
  | some call =>
      obtain ⟨hmethod, hresult⟩ := hasResult_of_callOf_some hcall
      rw [handle_of_callOf_some hcall, map_eq_some_iff] at h
      obtain ⟨done, -, hdone⟩ := h
      obtain ⟨rfl, -⟩ := Prod.mk.inj hdone
      refine .inr ⟨by rw [hmethod]; rfl, _, rfl, get_id_rpcResult _ _, ?_⟩
      exact iff_of_false (not_isError_rpcResult _ _) (by rw [hresult]; exact Bool.noConfusion)
  | none =>
      obtain ⟨response', hhandle, hcases⟩ := handle_of_callOf_none (s := s) hcall
      obtain ⟨rfl, -⟩ := Prod.mk.inj (Option.some.inj (hhandle.symm.trans h))
      rcases hcases with hnone | ⟨hmethod, hresult, result, rfl⟩ | ⟨hmethod, hresult, code, message, rfl⟩
      · exact .inl hnone
      · refine .inr ⟨hmethod, _, rfl, get_id_rpcResult _ _, ?_⟩
        exact iff_of_false (not_isError_rpcResult _ _) (by rw [hresult]; exact Bool.noConfusion)
      · exact .inr ⟨hmethod, _, rfl, get_id_rpcError _ _ _, iff_of_true (isError_rpcError _ _ _) hresult⟩
theorem respond_of_request (h : runtime.requestOf text = some request) :
    runtime.respond text s = runtime.handle request s := by
  unfold requestOf valueOf at h
  dsimp only at h
  unfold respond fromStr
  dsimp only
  split at h
  · exact nomatch h
  · rename_i hblank
    rw [if_neg hblank, h]

theorem respond_of_none (h : runtime.requestOf text = none) :
    ∃ response, runtime.respond text s = some (response, s) ∧
      ∀ value, response = some value → IsError value := by
  unfold requestOf valueOf at h
  dsimp only at h
  unfold respond fromStr
  dsimp only
  split at h
  · rename_i hblank
    rw [if_pos hblank]
    exact ⟨none, rfl, fun _ h ↦ nomatch h⟩
  · rename_i hblank
    rw [if_neg hblank, h]
    refine ⟨_, rfl, ?_⟩
    rintro _ ⟨⟩
    exact isError_rpcError _ _ _

theorem requestOf_of_message (hreadable : Readable line) (htext : fromUtf8 line = some text)
    (hread : runtime.valueOf text = json text) (h : lineMessage json line ≠ .malformed) :
    ∃ params, runtime.requestOf text = (lineMessage json line).asRequest params := by
  rw [lineMessage_of_readable hreadable htext] at h ⊢
  rw [requestOf, hread]
  cases hvalue : json text with
  | none =>
      rw [hvalue] at h
      exact absurd rfl h
  | some value =>
      rw [hvalue] at h
      exact fromValue_of_message h

/-- The response to a line fits it exactly if the line is proper. -/
theorem fits_iff (hreadable : Readable line) (htext : fromUtf8 line = some text)
    (hread : runtime.valueOf text = json text)
    (hrespond : runtime.respond text s = some (response, s')) :
    Fits response (lineMessage json line) ↔ runtime.Proper json line := by
  have hmessage := requestOf_of_message hreadable htext hread
  rw [Proper, and_iff_right hreadable, htext, bind_some]
  cases hline : lineMessage json line with
  | malformed =>
      cases hrequest : runtime.requestOf text with
      | none =>
          obtain ⟨response', hresponse', herror⟩ := respond_of_none (s := s) hrequest
          obtain ⟨rfl, -⟩ := Prod.mk.inj (Option.some.inj (hresponse'.symm.trans hrespond))
          exact iff_of_true herror fun _ h ↦ nomatch h
      | some request =>
          rw [respond_of_request hrequest] at hrespond
          have hcases := handle_eq_some hrespond
          simp only [Fits, Option.some.injEq, forall_eq']
          rcases hcases with ⟨-, hresult, rfl⟩ | ⟨-, value, rfl, -, herror⟩
          · exact iff_of_true (fun _ h ↦ nomatch h) hresult
          · rw [← herror]
            simp only [Option.some.injEq, forall_eq']
  | request id method =>
      rw [hline] at hmessage
      obtain ⟨params, hrequest⟩ := hmessage Message.noConfusion
      rw [respond_of_request hrequest] at hrespond
      rcases handle_eq_some hrespond with ⟨hmethod, -, rfl⟩ | ⟨hmethod, value, rfl, hid, -⟩
      · exact iff_of_false (fun ⟨_, h, _⟩ ↦ nomatch h) (Bool.not_eq_false _ ▸ hmethod)
      · rw [Value.toOption_getD] at hid
        exact iff_of_true ⟨value, rfl, hid⟩ hmethod
  | notification method =>
      rw [hline] at hmessage
      obtain ⟨params, hrequest⟩ := hmessage Message.noConfusion
      rw [respond_of_request hrequest] at hrespond
      rcases handle_eq_some hrespond with ⟨hmethod, -, rfl⟩ | ⟨hmethod, value, rfl, -, -⟩
      · exact iff_of_true rfl hmethod
      · exact iff_of_false (fun h ↦ nomatch h) (Bool.not_eq_true _ ▸ hmethod)

/-- The tool that a line calls returns exactly if there is a response. -/
theorem callsReturn_cons {rest : List (List UInt8)} (htext : fromUtf8 line = some text) :
    runtime.CallsReturn (line :: rest) s ↔
      ∃ response s', runtime.respond text s = some (response, s') ∧ runtime.CallsReturn rest s' := by
  rw [CallsReturn, htext, bind_some]
  cases hrequest : runtime.requestOf text with
  | none =>
      obtain ⟨response, hresponse, -⟩ := respond_of_none (s := s) hrequest
      simp only [hresponse, bind_none, Option.some.injEq, Prod.mk.injEq]
      exact ⟨fun h ↦ ⟨_, _, ⟨rfl, rfl⟩, h⟩, fun ⟨_, _, ⟨_, hs⟩, h⟩ ↦ hs ▸ h⟩
  | some request =>
      rw [respond_of_request hrequest, bind_some]
      cases hcall : runtime.callOf request with
      | none =>
          obtain ⟨response, hresponse, -⟩ := handle_of_callOf_none (s := s) hcall
          simp only [hresponse, Option.some.injEq, Prod.mk.injEq]
          exact ⟨fun h ↦ ⟨_, _, ⟨rfl, rfl⟩, h⟩, fun ⟨_, _, ⟨_, hs⟩, h⟩ ↦ hs ▸ h⟩
      | some call =>
          obtain ⟨tool, arguments⟩ := call
          simp only [handle_of_callOf_some hcall, map_eq_some_iff, Prod.mk.injEq]
          constructor
          · rintro ⟨result, s', hperform, hreturn⟩
            exact ⟨_, s', ⟨_, hperform, rfl, rfl⟩, hreturn⟩
          · rintro ⟨_, _, ⟨⟨result, s'⟩, hperform, -, rfl⟩, hreturn⟩
            exact ⟨result, s', hperform, hreturn⟩

/-! ## A round -/

/-- A round responds to a line that is readable. -/
theorem rounds_of_readable (fuel : Nat) (hne : bytes ≠ [])
    (hreadable : Readable (takeLine newline bytes))
    (htext : fromUtf8 (takeLine newline bytes) = some text) :
    runtime.rounds (fuel + 1) bytes s =
      match runtime.respond text s with
      | none => ([], .stalled)
      | some (response, s') =>
          (⟨takeLine newline bytes, response⟩ ::
              (runtime.rounds fuel (bytes.drop (takeLine newline bytes).length) s').1,
            (runtime.rounds fuel (bytes.drop (takeLine newline bytes).length) s').2) := by
  have hlength := hreadable.1
  have hread : readLine bytes = takeLine newline bytes := by
    apply takeLine_take
    unfold contentLength at hlength
    split at hlength
    · omega
    · omega
  rw [rounds, hread]
  dsimp only
  rw [if_neg (takeLine_ne_nil _ hne), htext]
  dsimp only
  have hcontinues : ¬((takeLine newline bytes).getLast? ≠ some newline ∧
      MAX_LINE_BYTES ≤ (takeLine newline bytes).length) := by
    rintro ⟨hend, hlong⟩
    rw [contentLength, if_neg hend] at hlength
    omega
  refine (if_neg hcontinues).trans ?_
  cases runtime.respond text s <;> rfl

/-- A round ends the session at a line that is not. -/
theorem rounds_of_not_readable {fuel : Nat} (hne : bytes ≠ [])
    (hreadable : ¬Readable (takeLine newline bytes)) :
    (runtime.rounds (fuel + 1) bytes s).2 ≠ .eof := by
  have hline : takeLine newline (bytes.take MAX_LINE_BYTES) ≠ [] := by
    apply takeLine_ne_nil
    rw [ne_eq, take_eq_nil_iff, not_or]
    exact ⟨by decide, hne⟩
  rw [rounds, readLine]
  dsimp only
  rw [if_neg hline]
  cases htext : fromUtf8 (takeLine newline (bytes.take MAX_LINE_BYTES)) with
  | none => exact Ending.noConfusion
  | some text =>
      dsimp only
      rw [if_pos]
      · exact Ending.noConfusion
      rcases Nat.lt_or_ge MAX_LINE_BYTES (takeLine newline bytes).length with hlong | hshort
      · -- The reader stops inside the line.
        obtain ⟨htake, hnewline⟩ := takeLine_take_of_lt newline hlong
        have hlength := length_takeLine_le newline bytes
        rw [htake]
        refine ⟨fun hlast ↦ hnewline (mem_of_getLast? hlast), ?_⟩
        rw [length_take]
        omega
      · rw [takeLine_take newline hshort] at htext ⊢
        by_contra hend
        apply hreadable
        refine ⟨?_, htext ▸ rfl⟩
        have hpos := length_pos_of_ne_nil (takeLine_ne_nil newline hne)
        unfold contentLength
        split
        · omega
        · rename_i hlast
          exact Nat.lt_of_not_le fun hle ↦ hend ⟨hlast, hle⟩

/-! ## The session -/

theorem rounds_disciplined_iff {fuel : Nat} (hfuel : bytes.length < fuel)
    (hread : runtime.ReadsLines json bytes) :
    ((runtime.rounds fuel bytes s).2 = .eof ∧
        (runtime.rounds fuel bytes s).1.map Exchange.line = lines newline bytes ∧
        ∀ exchange ∈ (runtime.rounds fuel bytes s).1,
          Fits exchange.response (lineMessage json exchange.line)) ↔
      (∀ line ∈ lines newline bytes, runtime.Proper json line) ∧
        runtime.CallsReturn (lines newline bytes) s := by
  induction fuel generalizing bytes s with
  | zero => exact absurd hfuel (Nat.not_lt_zero _)
  | succ fuel ih =>
      cases bytes with
      | nil =>
          refine iff_of_true ⟨rfl, rfl, ?_⟩ ⟨?_, trivial⟩
          · intro exchange hmem
            cases hmem
          · intro line hmem
            cases hmem
      | cons b rest =>
          have hne : b :: rest ≠ [] := cons_ne_nil _ _
          rw [ReadsLines, lines_cons, forall_mem_cons] at hread
          rw [lines_cons, forall_mem_cons]
          by_cases hreadable : Readable (takeLine newline (b :: rest))
          · obtain ⟨text, htext⟩ := isSome_iff_exists.mp hreadable.2
            have hpos := length_pos_of_ne_nil (takeLine_ne_nil newline hne)
            rw [rounds_of_readable fuel hne hreadable htext, callsReturn_cons htext]
            cases hrespond : runtime.respond text s with
            | none =>
                refine iff_of_false (fun h ↦ nomatch h.1) ?_
                rintro ⟨-, _, _, h, -⟩
                exact nomatch h
            | some responded =>
                obtain ⟨response, s'⟩ := responded
                have hlength : ((b :: rest).drop (takeLine newline (b :: rest)).length).length <
                    fuel := by
                  rw [length_cons] at hfuel
                  rw [length_drop, length_cons]
                  omega
                have hrest := ih (s := s') hlength hread.2
                simp only [Option.some.injEq, Prod.mk.injEq, map_cons, forall_mem_cons,
                  cons_inj_right]
                rw [fits_iff hreadable htext (hread.1 text htext) hrespond]
                constructor
                · rintro ⟨heof, hlines, hfits, hrestFits⟩
                  obtain ⟨hproper, hreturn⟩ := hrest.mp ⟨heof, hlines, hrestFits⟩
                  exact ⟨⟨hfits, hproper⟩, _, _, ⟨rfl, rfl⟩, hreturn⟩
                · rintro ⟨⟨hfits, hproper⟩, _, _, ⟨rfl, rfl⟩, hreturn⟩
                  obtain ⟨heof, hlines, hrestFits⟩ := hrest.mpr ⟨hproper, hreturn⟩
                  exact ⟨heof, hlines, hfits, hrestFits⟩
          · refine iff_of_false (fun h ↦ rounds_of_not_readable hne hreadable h.1) ?_
            exact fun h ↦ hreadable h.1.1.1

/-- A session is disciplined exactly if each line is short enough and text, each request has a
method other than those of notifications, each notification has one of these, what is neither is not
carried out, and each tool that is called returns. -/
theorem disciplined_iff (runtime : Runtime σ) (json : String → Option Value) (bytes : List UInt8)
    (s : σ) (hread : runtime.ReadsLines json bytes) :
    runtime.Disciplined json bytes s ↔
      (∀ line ∈ lines newline bytes, runtime.Proper json line) ∧
        runtime.CallsReturn (lines newline bytes) s :=
  rounds_disciplined_iff (Nat.lt_succ_self _) hread

end Runtime

/-! ## A small server -/

/-- The text of a `ping` with an id. -/
def pingRequest : String := "\x7b\"jsonrpc\":\"2.0\",\"id\":7,\"method\":\"ping\"\x7d"

/-- The text of a `ping` without an id. -/
def pingNotification : String := "\x7b\"jsonrpc\":\"2.0\",\"method\":\"ping\"\x7d"

/-- The text of a call. -/
def hostsRequest : String :=
  "\x7b\"jsonrpc\":\"2.0\",\"id\":\"a\",\"method\":\"tools/call\"," ++
    "\"params\":\x7b\"name\":\"kssh_list_hosts\"\x7d\x7d"

/-- A server that knows the texts of a few messages, and counts its calls. -/
def pingRuntime : Runtime Nat where
  parse text :=
    if text = pingRequest then
      some (.object [("jsonrpc", .string "2.0"), ("id", .number "7"), ("method", .string "ping")])
    else if text = pingNotification then
      some (.object [("jsonrpc", .string "2.0"), ("method", .string "ping")])
    else if text = hostsRequest then
      some (.object [("jsonrpc", .string "2.0"), ("id", .string "a"),
        ("method", .string "tools/call"), ("params", .object [("name", .string "kssh_list_hosts")])])
    else none
  invalidText _ := ""
  invalidParams _ := ""
  pretty _ := ""
  execEnabled := false
  mutationsEnabled := false
  perform _ _ calls := some (.ok (.array []), calls + 1)

/-- A session of a call, a line that is no message, and a `ping`. -/
theorem disciplined_calls :
    pingRuntime.Disciplined pingRuntime.valueOf
      (utf8 (hostsRequest ++ "\noops\n" ++ pingRequest)) 0 := by
  have hlines : lines newline (utf8 (hostsRequest ++ "\noops\n" ++ pingRequest)) =
      [utf8 (hostsRequest ++ "\n"), utf8 "oops\n", utf8 pingRequest] := by
    decide +kernel
  have hcall : pingRuntime.Proper pingRuntime.valueOf (utf8 (hostsRequest ++ "\n")) := by
    have hmessage : lineMessage pingRuntime.valueOf (utf8 (hostsRequest ++ "\n")) =
        .request (.string "a") "tools/call" := rfl
    rw [Runtime.Proper, hmessage]
    decide +kernel
  have hoops : pingRuntime.Proper pingRuntime.valueOf (utf8 "oops\n") :=
    ⟨by decide +kernel, fun _ h ↦ nomatch h⟩
  have hping : pingRuntime.Proper pingRuntime.valueOf (utf8 pingRequest) := by
    have hmessage : lineMessage pingRuntime.valueOf (utf8 pingRequest) =
        .request (.number "7") "ping" := rfl
    rw [Runtime.Proper, hmessage]
    decide +kernel
  refine (Runtime.disciplined_iff _ _ _ _ fun _ _ _ _ ↦ rfl).mpr ?_
  rw [hlines]
  exact ⟨by simp only [forall_mem_cons, hcall, hoops, hping, not_mem_nil,
    false_implies, implies_true, and_self], _, 1, rfl, trivial⟩

/-- A notification whose method is that of a request is answered. -/
theorem ping_notification_answered :
    ¬pingRuntime.Disciplined pingRuntime.valueOf (utf8 (pingNotification ++ "\n")) 0 := by
  rw [Runtime.Disciplined, Runtime.run, Runtime.rounds_disciplined_iff (Nat.lt_succ_self _)
    fun _ _ _ _ ↦ rfl]
  rintro ⟨hproper, -⟩
  have hline : utf8 (pingNotification ++ "\n") ∈ lines newline (utf8 (pingNotification ++ "\n")) := by
    decide
  have hmessage : lineMessage pingRuntime.valueOf (utf8 (pingNotification ++ "\n")) =
      .notification "ping" := rfl
  have hmethod := (hproper _ hline).2
  rw [hmessage] at hmethod
  exact absurd hmethod (by decide)

end KaduoxSsh.Mcp
