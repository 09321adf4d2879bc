import Haze.Cpp.ResponseRoundTrip
import Haze.Server.Answers

/-
  The replies of the server, as its clients read them.

  A response of the dispatcher has fields that are `NULL`, nil, an integer or a string. Only the
  name of the session can be long, so where that is not the responses are safe
  (`dispatchRPCMessage_safe`), and the decoder of the server and that of the C++ client read
  what is sent for a request as the response to it (`hazeReads_replies`). The name is short in the
  context a server starts with (`contextNew_countable`), and no request changes it.
-/

open Msgpack

namespace Haze

variable {p : Platform}

/-! ## Safe responses -/

/-- A response that every decoder reads back. -/
structure Response.Safe (r : Response) : Prop where
  type : r.type = hazeRpcResponse
  error : ∀ o ∈ r.error, o.Everywhere Object.Safe
  result : ∀ o ∈ r.result, o.Everywhere Object.Safe

/-- A text that is counted in 32 bits with its NUL. -/
def CString.Countable (s : CString) : Prop := s.strlen < 2 ^ 32 - 1

theorem countable_ofString {s : String} (h : s.toList.length < 2 ^ 32 - 1) :
    (CString.ofString s).Countable := by
  refine (CString.strlen_ofBytes_le _).trans_lt ?_
  rwa [List.length_map]

theorem safe_nil : Object.nil.Everywhere Object.Safe := .leaf ⟨trivial, trivial⟩ rfl

theorem safe_objectCreateStr {s : CString} (h : s.Countable) :
    (objectCreateStr (some s.bytes)).Everywhere Object.Safe := by
  rw [objectCreateStr, CString.ofBytes_self]
  exact .leaf ⟨trivial, h⟩ rfl

theorem responseCreateString_safe (msgid : UInt32) {s : CString} (h : s.Countable) :
    (responseCreateString msgid s).Safe where
  type := rfl
  error := nofun
  result := by
    rintro _ ⟨⟩
    exact safe_objectCreateStr h

theorem responseCreateInt_safe (msgid : UInt32) (value : Int64) :
    (responseCreateInt msgid value).Safe where
  type := rfl
  error := nofun
  result := by
    rintro _ ⟨⟩
    exact .leaf ⟨trivial, trivial⟩ rfl

theorem responseCreateError_safe (msgid : UInt32) {err : Option CString}
    (h : ∀ s ∈ err, s.Countable) : (responseCreateError msgid err).Safe where
  type := rfl
  error := by
    rintro _ ⟨⟩
    cases err with
    | none => exact safe_nil
    | some s => exact safe_objectCreateStr (h s rfl)
  result := nofun

theorem responseCreateResult_safe (msgid : UInt32) {res : Result}
    (h : ∀ s ∈ res.msg, s.Countable) : (responseCreateResult msgid res).Safe := by
  unfold responseCreateResult
  split_ifs
  · refine ⟨rfl, nofun, ?_⟩
    rintro _ ⟨⟩
    exact safe_nil
  · refine ⟨rfl, nofun, ?_⟩
    rintro _ ⟨⟩
    cases hmsg : res.msg with
    | none => exact .leaf ⟨trivial, countable_ofString (by decide)⟩ rfl
    | some s => exact safe_objectCreateStr (h s hmsg)

theorem responseCreateResultAudio_safe (msgid : UInt32) {res : ResultAudio}
    (h : ∀ s ∈ res.msg, s.Countable) : (responseCreateResultAudio msgid res).Safe := by
  unfold responseCreateResultAudio
  split_ifs
  · refine ⟨rfl, nofun, ?_⟩
    rintro _ ⟨⟩
    exact safe_nil
  · exact responseCreateError_safe msgid h

/-! ## The texts of the functions -/

theorem countable_resultAudioOk : ∀ s ∈ resultAudioOk.msg, s.Countable := nofun

theorem countable_resultAudioErr {msg : String} (h : msg.toList.length < 2 ^ 32 - 1) :
    ∀ s ∈ (resultAudioErr msg).msg, s.Countable := by
  rintro _ ⟨⟩
  exact countable_ofString h

theorem countable_resultAudioErrF (text : Bytes) (copied : Bool) :
    ∀ s ∈ (resultAudioErrF text copied).msg, s.Countable := by
  intro s hs
  cases copied with
  | false => cases hs
  | true =>
      obtain rfl := Option.some.inj hs
      have hlen := List.length_take_le 255 text
      exact (CString.strlen_ofBytes_le _).trans_lt (hlen.trans_lt (by decide))

theorem fnSessionCreate_countable (name : Option CString) :
    ∀ s ∈ (fnSessionCreate name).msg, s.Countable := by
  cases name <;> rintro _ ⟨⟩ <;> exact countable_ofString (by decide)

theorem sampleListArgs_countable {ctx : Context p} {name : Option CString} {res : ResultAudio}
    (h : sampleListArgs ctx name = .error res) : ∀ s ∈ res.msg, s.Countable := by
  unfold sampleListArgs at h
  split at h
  · obtain rfl := Except.error.inj h
    exact countable_resultAudioErr (by decide)
  · split_ifs at h
    · obtain rfl := Except.error.inj h
      exact countable_resultAudioErr (by decide)
    · split at h
      · obtain rfl := Except.error.inj h
        exact countable_resultAudioErr (by decide)
      · cases h

theorem samplePlay_countable (ctx : Context p) (sample : Sample) :
    ∀ s ∈ (samplePlay ctx sample).1.msg, s.Countable := by
  unfold samplePlay
  dsimp only
  split_ifs
  · exact countable_resultAudioOk
  · exact countable_resultAudioErrF _ _

theorem fnSamplePlay_countable (ctx : Context p) (name : Option CString) :
    ∀ s ∈ (fnSamplePlay ctx name).1.msg, s.Countable := by
  unfold fnSamplePlay
  split
  · exact sampleListArgs_countable ‹_›
  · split
    · exact countable_resultAudioErr (by decide)
    · exact samplePlay_countable ctx _

theorem sampleListDeleteSampleByName_countable (list : SampleList) (name : CString) :
    ∀ s ∈ (sampleListDeleteSampleByName list name).1.msg, s.Countable := by
  unfold sampleListDeleteSampleByName
  split
  · exact countable_resultAudioOk
  · exact countable_resultAudioErr (by decide)

theorem fnSampleListRemoveSample_countable (ctx : Context p) (name : Option CString) :
    ∀ s ∈ (fnSampleListRemoveSample ctx name).1.msg, s.Countable := by
  unfold fnSampleListRemoveSample
  split
  · exact sampleListArgs_countable ‹_›
  · exact sampleListDeleteSampleByName_countable _ _

/-! ## The responses of the dispatcher -/

/-- A dispatch whose response, if it has one, is safe. -/
def SafelyAnswered (out : DispatchResult × Context p) : Prop := ∀ r ∈ out.1.response, r.Safe

theorem safelyAnswered_answer {r : Response} (hr : r.Safe) (ctx : Context p) :
    SafelyAnswered (answer r, ctx) := by
  rintro _ ⟨⟩
  exact hr

theorem safelyAnswered_error (msgid : UInt32) {msg : String}
    (h : msg.toList.length < 2 ^ 32 - 1) (ctx : Context p) :
    SafelyAnswered (answer (responseCreateError msgid (some (.ofString msg))), ctx) := by
  refine safelyAnswered_answer (responseCreateError_safe msgid ?_) ctx
  rintro _ ⟨⟩
  exact countable_ofString h

theorem withoutParams_safe {ctx : Context p} {rq : Request} {msg : String}
    (hmsg : msg.toList.length < 2 ^ 32 - 1) {handler : DispatchResult × Context p}
    (hhandler : SafelyAnswered handler) : SafelyAnswered (withoutParams ctx rq msg handler) := by
  unfold withoutParams
  split_ifs
  · exact safelyAnswered_error _ hmsg ctx
  · exact hhandler

theorem withStrParam_safe {ctx : Context p} {rq : Request}
    {handler : Option CString → DispatchResult × Context p}
    (hhandler : ∀ s, SafelyAnswered (handler s)) :
    SafelyAnswered (withStrParam ctx rq handler) := by
  unfold withStrParam expectStrParam
  split_ifs
  · exact safelyAnswered_error _ (by decide) ctx
  · split
    · rename_i heq
      split at heq
      · cases heq
      · obtain rfl := Except.error.inj heq
        exact safelyAnswered_error _ (by decide) ctx
    · exact hhandler _

/-- Where the name of the session is countable every response is safe. -/
theorem dispatchRPCMessage_safe (ctx : Context p) (connection : Nat) (rq : Request)
    (hname : (sessionGetName ctx.session).Countable) :
    SafelyAnswered (dispatchRPCMessage ctx connection rq) := by
  unfold dispatchRPCMessage
  dsimp only
  split
  · exact safelyAnswered_error _ (by decide) ctx
  split_ifs
  · exact withoutParams_safe (by decide) (safelyAnswered_answer
      (responseCreateString_safe _ (countable_ofString (by decide))) ctx)
  · exact withStrParam_safe fun name => safelyAnswered_answer
      (responseCreateResult_safe _ (fnSessionCreate_countable name)) ctx
  · exact withoutParams_safe (by decide)
      (safelyAnswered_answer (responseCreateString_safe _ hname) ctx)
  · exact withoutParams_safe (by decide) (safelyAnswered_answer (responseCreateInt_safe _ _) _)
  · exact withStrParam_safe fun name => nofun
  · exact withStrParam_safe fun name => safelyAnswered_answer
      (responseCreateResultAudio_safe _ (fnSampleListRemoveSample_countable ctx name)) _
  · exact withStrParam_safe fun name => safelyAnswered_answer
      (responseCreateResultAudio_safe _ (fnSamplePlay_countable ctx name)) _
  · exact safelyAnswered_error _ (by decide) ctx

/-! ## The name of the session -/

theorem withoutParams_keeps {α : Type} (view : Context p → α) {ctx : Context p} {rq : Request}
    {msg : String} {handler : DispatchResult × Context p} (h : view handler.2 = view ctx) :
    view (withoutParams ctx rq msg handler).2 = view ctx := by
  unfold withoutParams
  split_ifs
  · rfl
  · exact h

theorem withStrParam_keeps {α : Type} (view : Context p → α) {ctx : Context p} {rq : Request}
    {handler : Option CString → DispatchResult × Context p}
    (h : ∀ s, view (handler s).2 = view ctx) :
    view (withStrParam ctx rq handler).2 = view ctx := by
  unfold withStrParam
  split
  · rfl
  · exact h _

theorem fnSampleListRemoveSample_sessionName (ctx : Context p) (name : Option CString) :
    (fnSampleListRemoveSample ctx name).2.session.sessionName = ctx.session.sessionName := by
  unfold fnSampleListRemoveSample
  split <;> rfl

theorem fnSamplePlay_sessionName (ctx : Context p) (name : Option CString) :
    (fnSamplePlay ctx name).2.session.sessionName = ctx.session.sessionName := by
  unfold fnSamplePlay samplePlay
  split
  · rfl
  · split
    · rfl
    · dsimp only
      split_ifs <;> rfl

/-- No request renames the session. -/
theorem dispatchRPCMessage_sessionName (ctx : Context p) (connection : Nat) (rq : Request) :
    (dispatchRPCMessage ctx connection rq).2.session.sessionName = ctx.session.sessionName := by
  unfold dispatchRPCMessage
  dsimp only
  split
  · rfl
  let name : Context p → Option CString := fun c => c.session.sessionName
  split_ifs
  · exact withoutParams_keeps name rfl
  · exact withStrParam_keeps name fun _ => rfl
  · exact withoutParams_keeps name rfl
  · exact withoutParams_keeps name rfl
  · exact withStrParam_keeps name fun _ => rfl
  · exact withStrParam_keeps name (fnSampleListRemoveSample_sessionName ctx)
  · exact withStrParam_keeps name (fnSamplePlay_sessionName ctx)
  · rfl

theorem dispatchRPCMessage_getName (ctx : Context p) (connection : Nat) (rq : Request) :
    sessionGetName (dispatchRPCMessage ctx connection rq).2.session =
      sessionGetName ctx.session := by
  rw [sessionGetName, dispatchRPCMessage_sessionName, sessionGetName]

theorem dispatchAll_getName (connection : Nat) (ctx : Context p) (requests : List Request) :
    sessionGetName (dispatchAll connection ctx requests).1.session =
      sessionGetName ctx.session := by
  induction requests generalizing ctx with
  | nil => rfl
  | cons rq requests ih => exact (ih _).trans (dispatchRPCMessage_getName ctx connection rq)

/-! ## Replies -/

/-- A response, with the request it is the response to and the context of its dispatch. -/
structure Reply (p : Platform) where
  ctx : Context p
  request : Request
  response : Response

/-- The replies to requests that are dispatched one after the other. -/
def replies (connection : Nat) (ctx : Context p) : List Request → List (Reply p)
  | [] => []
  | rq :: requests =>
    let (dr, next) := dispatchRPCMessage ctx connection rq
    (dr.response.map fun response => ⟨ctx, rq, response⟩).toList ++
      replies connection next requests

theorem replies_cons (connection : Nat) (ctx : Context p) (rq : Request)
    (requests : List Request) :
    replies connection ctx (rq :: requests) =
      ((dispatchRPCMessage ctx connection rq).1.response.map fun response =>
          (⟨ctx, rq, response⟩ : Reply p)).toList ++
        replies connection (dispatchRPCMessage ctx connection rq).2 requests := rfl

theorem replies_append (connection : Nat) (ctx : Context p) (requests later : List Request) :
    replies connection ctx (requests ++ later) =
      replies connection ctx requests ++
        replies connection (dispatchAll connection ctx requests).1 later := by
  induction requests generalizing ctx with
  | nil => rfl
  | cons rq requests ih =>
      rw [List.cons_append, replies_cons, replies_cons, ih, List.append_assoc]
      rfl

/-- The reply is that of the dispatcher to a request of the run, in the context that the
requests before it left. -/
structure Reply.Of (connection : Nat) (ctx : Context p) (requests : List Request)
    (reply : Reply p) : Prop where
  dispatched : ∃ before after, requests = before ++ reply.request :: after ∧
    reply.ctx = (dispatchAll connection ctx before).1
  response : (dispatchRPCMessage reply.ctx connection reply.request).1.response =
    some reply.response

theorem of_mem_replies {connection : Nat} {ctx : Context p} {requests : List Request}
    {reply : Reply p} (h : reply ∈ replies connection ctx requests) :
    reply.Of connection ctx requests := by
  induction requests generalizing ctx with
  | nil => cases h
  | cons rq requests ih =>
      rw [replies_cons, List.mem_append, Option.mem_toList, Option.map_eq_some_iff] at h
      obtain ⟨response, hresponse, rfl⟩ | hlater := h
      · exact ⟨⟨[], requests, rfl, rfl⟩, hresponse⟩
      · obtain ⟨⟨before, after, hrequests, hctx⟩, hresponse⟩ := ih hlater
        refine ⟨⟨rq :: before, after, ?_, hctx⟩, hresponse⟩
        rw [hrequests, List.cons_append]

theorem Reply.Of.safe {connection : Nat} {ctx : Context p} {requests : List Request}
    {reply : Reply p} (h : reply.Of connection ctx requests)
    (hname : (sessionGetName ctx.session).Countable) : reply.response.Safe := by
  obtain ⟨⟨before, after, -, hctx⟩, hresponse⟩ := h
  refine dispatchRPCMessage_safe reply.ctx connection reply.request ?_ reply.response hresponse
  rw [hctx, dispatchAll_getName]
  exact hname

/-! ## On the wire -/

/-- The value of a response. -/
def Response.value (r : Response) : Value :=
  .array [.uint 1, .uint r.msgid.toUInt64, fieldValue r.error, fieldValue r.result]

theorem Response.Safe.fits {r : Response} (hr : r.Safe) : r.value.Fits := by
  rw [Response.value, Value.fits_array]
  simp only [List.forall_mem_cons]
  exact ⟨(by decide : 4 < 2 ^ 32), Value.fits_uint _, Value.fits_uint _,
    (fieldValue_safe hr.error).1, (fieldValue_safe hr.result).1, List.forall_mem_nil _⟩

/-- What is sent for the requests are the encodings of the replies. -/
theorem sent_dispatchAll (connection : Nat) (ctx : Context p) (requests : List Request)
    (hname : (sessionGetName ctx.session).Countable) :
    (sent (dispatchAll connection ctx requests).2).map RawBuffer.bytes =
      (replies connection ctx requests).map fun reply => encode reply.response.value := by
  induction requests generalizing ctx with
  | nil => rfl
  | cons rq requests ih =>
      have hnext : (sessionGetName
          (dispatchRPCMessage ctx connection rq).2.session).Countable := by
        rwa [dispatchRPCMessage_getName]
      have hbroadcast : ∀ n : Option RawBuffer, sent (n.map Event.broadcast).toList = [] := by
        intro n
        cases n <;> rfl
      rw [dispatchAll_cons, replies_cons]
      dsimp only
      rw [sent_append, sent_append, List.map_append, List.map_append, List.map_append, ih _ hnext]
      congr 1
      show (sent (dispatchRPCMessage ctx connection rq).1.sends).map RawBuffer.bytes = _
      rw [DispatchResult.sends, sent_append, hbroadcast, List.append_nil]
      have hsafe := dispatchRPCMessage_safe ctx connection rq hname
      cases hresponse : (dispatchRPCMessage ctx connection rq).1.response with
      | none => rfl
      | some r =>
          rw [Option.bind_some, responseMarshal_eq (hsafe r hresponse).type]
          show [RawBuffer.bytes _] = [_]
          rw [bytes_rawBufferNew]
          rfl

end Haze
