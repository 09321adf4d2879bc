import Haze.Proto.ResponseRoundTrip
import Haze.Server.ReadLoop
import Haze.Server.Stream

/-
  One answer for each request.

  A dispatch ends in a response that carries the msgid of the request, or in one job more on
  the request queue (`dispatchRPCMessage_answer`), and a run of reads is its requests
  dispatched one after the other (`hazeReads_serves`). So the responses sent and the jobs
  queued answer the requests one for one, in order, whatever they are. What is queued are the
  imports of one path, as 32 bits count the parameters, which is right for every request that
  is read (`dispatch_answers`).
-/

open Msgpack

namespace Haze

variable {p : Platform}

/-! ## Answers -/

/-- What a request is answered with. -/
inductive Answer where
  | response (response : Response)
  | job (job : Job)

def Answer.msgid : Answer → UInt32
  | .response r => r.msgid
  | .job j => j.msgid

def Answer.toResponse : Answer → Option Response
  | .response r => some r
  | .job _ => none

def Answer.toJob : Answer → Option Job
  | .response _ => none
  | .job j => some j

/-- A dispatch gives the answer and no other. -/
def Answer.Given (ctx : Context p) (out : DispatchResult × Context p) : Answer → Prop
  | .response r => out.1.response = some r ∧ p.jobs out.2.requests = p.jobs ctx.requests
  | .job j => out.1.response = none ∧ p.jobs out.2.requests = p.jobs ctx.requests ++ [j]

/-- The job that an import of a path is queued as. -/
def importJob (connection : Nat) (rq : Request) (path : Option CString) : Job :=
  { msgid := rq.msgid, connection := connection, type := .samplelistAdd, payload := path }

/-- The request gets a response and queues no job. -/
def Responded (ctx : Context p) (rq : Request) (out : DispatchResult × Context p) : Prop :=
  ∃ response, response.msgid = rq.msgid ∧ (Answer.response response).Given ctx out

theorem responded_answer {ctx ctx' : Context p} {rq : Request} {response : Response}
    (hmsgid : response.msgid = rq.msgid) (hrequests : ctx'.requests = ctx.requests) :
    Responded ctx rq (answer response, ctx') :=
  ⟨response, hmsgid, rfl, congrArg p.jobs hrequests⟩

theorem withoutParams_responded {ctx : Context p} {rq : Request} (msg : String)
    {handler : DispatchResult × Context p} (hhandler : Responded ctx rq handler) :
    Responded ctx rq (withoutParams ctx rq msg handler) := by
  unfold withoutParams
  split_ifs
  · exact responded_answer rfl rfl
  · exact hhandler

theorem withStrParam_responded {ctx : Context p} {rq : Request}
    {handler : Option CString → DispatchResult × Context p}
    (hhandler : ∀ s, expectStrParam rq = .ok s → Responded ctx rq (handler s)) :
    Responded ctx rq (withStrParam ctx rq handler) := by
  unfold withStrParam
  split
  · exact responded_answer rfl rfl
  · exact hhandler _ ‹_›

theorem samplePlay_requests (ctx : Context p) (sample : Sample) :
    (samplePlay ctx sample).2.requests = ctx.requests := by
  unfold samplePlay
  dsimp only
  split_ifs <;> rfl

theorem fnSampleListRemoveSample_requests (ctx : Context p) (name : Option CString) :
    (fnSampleListRemoveSample ctx name).2.requests = ctx.requests := by
  unfold fnSampleListRemoveSample
  split <;> rfl

theorem fnSamplePlay_requests (ctx : Context p) (name : Option CString) :
    (fnSamplePlay ctx name).2.requests = ctx.requests := by
  unfold fnSamplePlay
  split
  · rfl
  · split
    · rfl
    · exact samplePlay_requests ctx _

/-! ## One dispatch -/

/-- Every method but the import is responded to. -/
theorem dispatchRPCMessage_responded (ctx : Context p) (connection : Nat) {rq : Request}
    (hmethod : rq.method ≠ some (.ofString "samplelist/import")) :
    Responded ctx rq (dispatchRPCMessage ctx connection rq) := by
  unfold dispatchRPCMessage
  cases hname : rq.method with
  | none => exact responded_answer rfl rfl
  | some method =>
      have himport : method ≠ .ofString "samplelist/import" := fun h =>
        hmethod (hname.trans (congrArg some h))
      dsimp only
      rw [if_neg himport]
      split_ifs
      · exact withoutParams_responded _ (responded_answer rfl rfl)
      · exact withStrParam_responded fun name _ =>
          responded_answer (responseCreateResult_msgid _ _) rfl
      · exact withoutParams_responded _ (responded_answer rfl rfl)
      · exact withoutParams_responded _ (responded_answer rfl rfl)
      · exact withStrParam_responded fun name _ => responded_answer
          (responseCreateResultAudio_msgid _ _) (fnSampleListRemoveSample_requests ctx name)
      · exact withStrParam_responded fun name _ => responded_answer
          (responseCreateResultAudio_msgid _ _) (fnSamplePlay_requests ctx name)
      · exact responded_answer rfl rfl

theorem dispatchRPCMessage_ping (ctx : Context p) (connection : Nat)
    {rq : Request} (hmethod : rq.method = some (.ofString "test/ping"))
    (hparams : rq.parameters = []) :
    dispatchRPCMessage ctx connection rq =
      (answer (responseCreateString rq.msgid (.ofString "pong!")), ctx) := by
  unfold dispatchRPCMessage
  rw [hmethod]
  dsimp only
  rw [if_pos rfl, withoutParams, if_neg]
  rw [requestParamCount, hparams]
  decide

theorem dispatchRPCMessage_import (ctx : Context p) (connection : Nat) {rq : Request}
    (hmethod : rq.method = some (.ofString "samplelist/import")) :
    dispatchRPCMessage ctx connection rq = withStrParam ctx rq fun path =>
      ({ response := none, notification := none },
        { ctx with requests := p.jobQueuePush ctx.requests (importJob connection rq path) }) := by
  unfold dispatchRPCMessage
  rw [hmethod]
  dsimp only
  rw [if_neg (by decide), if_neg (by decide), if_neg (by decide), if_neg (by decide), if_pos rfl]
  rfl

/-- The request is an import of the one path. -/
def Request.Imports (rq : Request) (path : Option CString) : Prop :=
  rq.method = some (.ofString "samplelist/import") ∧ rq.parameters = [.str path]

/-- The request is an import, its count of parameters is 1, and the first is the path. -/
def Request.CountsAsImport (rq : Request) (path : Option CString) : Prop :=
  rq.method = some (.ofString "samplelist/import") ∧ requestParamCount rq = 1 ∧
    requestParamGet rq 0 = some (.str path)

/-- The request is responded to if it is no import of a path, and queued if it is one. -/
def AnsweredOnce (connection : Nat) (ctx : Context p) (rq : Request)
    (imports : Option CString → Prop) : Prop :=
  (Responded ctx rq (dispatchRPCMessage ctx connection rq) ∧ ¬∃ path, imports path) ∨
    ∃ path, imports path ∧
      (Answer.job (importJob connection rq path)).Given ctx (dispatchRPCMessage ctx connection rq)

/-- Whatever the request is, it is responded to or queued. -/
theorem dispatchRPCMessage_answer (happ : p.Appends) (connection : Nat) (ctx : Context p)
    (rq : Request) : AnsweredOnce connection ctx rq rq.CountsAsImport := by
  by_cases hmethod : rq.method = some (.ofString "samplelist/import")
  · unfold AnsweredOnce
    rw [dispatchRPCMessage_import ctx connection hmethod]
    unfold withStrParam
    cases hstr : expectStrParam rq with
    | error msg =>
        left
        refine ⟨responded_answer rfl rfl, ?_⟩
        rintro ⟨path, -, hparam⟩
        rw [expectStrParam_eq_ok_iff.mpr hparam] at hstr
        cases hstr
    | ok path =>
        exact .inr ⟨path, ⟨hmethod, expectStrParam_eq_ok_iff.mp hstr⟩, rfl, happ _ _⟩
  · refine .inl ⟨dispatchRPCMessage_responded ctx connection hmethod, ?_⟩
    rintro ⟨path, himport, -⟩
    exact hmethod himport

theorem countsAsImport_iff {rq : Request} (hlen : rq.parameters.length ≤ 2 ^ 32)
    {path : Option CString} : rq.CountsAsImport path ↔ rq.Imports path :=
  and_congr_right fun _ => Request.oneStr_iff hlen

/-- How many jobs the request is queued as. -/
def Request.jobs (rq : Request) : Nat :=
  if rq.method = some (.ofString "samplelist/import") ∧ (expectStrParam rq).toBool then 1 else 0

theorem Request.jobs_of_counts {rq : Request} {path : Option CString}
    (h : rq.CountsAsImport path) : rq.jobs = 1 := by
  unfold jobs
  rw [expectStrParam_eq_ok_iff.mpr h.2, if_pos ⟨h.1, rfl⟩]

theorem Request.jobs_of_not_counts {rq : Request} (h : ¬∃ path, rq.CountsAsImport path) :
    rq.jobs = 0 := by
  unfold jobs
  refine if_neg ?_
  rintro ⟨hmethod, hstr⟩
  cases hparam : expectStrParam rq with
  | error msg => simp [hparam, Except.toBool] at hstr
  | ok path => exact h ⟨path, hmethod, expectStrParam_eq_ok_iff.mp hparam⟩

/-- A dispatch queues the jobs of its request. -/
theorem dispatchRPCMessage_jobs (happ : p.Appends) (connection : Nat) (ctx : Context p)
    (rq : Request) :
    (p.jobs (dispatchRPCMessage ctx connection rq).2.requests).length =
      (p.jobs ctx.requests).length + rq.jobs := by
  obtain ⟨⟨response, -, -, hjobs⟩, hnot⟩ | ⟨path, hcounts, -, hjobs⟩ :=
    dispatchRPCMessage_answer happ connection ctx rq
  · rw [hjobs, Request.jobs_of_not_counts hnot, Nat.add_zero]
  · rw [hjobs, Request.jobs_of_counts hcounts, List.length_append, List.length_singleton]

theorem AnsweredOnce.imports {connection : Nat} {ctx : Context p} {rq : Request}
    (h : AnsweredOnce connection ctx rq rq.CountsAsImport)
    (hlen : rq.parameters.length ≤ 2 ^ 32) : AnsweredOnce connection ctx rq rq.Imports := by
  have hsame : rq.CountsAsImport = rq.Imports := funext fun path =>
    propext (countsAsImport_iff hlen)
  rwa [hsame] at h

/-! ## Runs -/

/-- A run is some requests dispatched one after the other, before the connection is
closed. Each has as many parameters as 32 bits can count. -/
def Serves (connection : Nat) (ctx : Context p) (out : Context p × List Event) : Prop :=
  ∃ requests : List Request, ∃ closing, (∀ rq ∈ requests, rq.parameters.length < 2 ^ 32) ∧
    (∀ e ∈ closing, Event.isClose e = true) ∧
      out = ((dispatchAll connection ctx requests).1,
        (dispatchAll connection ctx requests).2 ++ closing)

theorem serves_closing (connection : Nat) (ctx : Context p) {closing : List Event}
    (hclosing : ∀ e ∈ closing, Event.isClose e = true) : Serves connection ctx (ctx, closing) :=
  ⟨[], closing, List.forall_mem_nil _, hclosing, rfl⟩

theorem Serves.cons {connection : Nat} {ctx : Context p} {rq : Request}
    {out : Context p × List Event} (hlen : rq.parameters.length < 2 ^ 32)
    (h : Serves connection (dispatchRPCMessage ctx connection rq).2 out) :
    Serves connection ctx
      (out.1, [.dispatch rq] ++ (dispatchRPCMessage ctx connection rq).1.sends ++ out.2) := by
  obtain ⟨requests, closing, hlens, hclosing, rfl⟩ := h
  refine ⟨rq :: requests, closing, List.forall_mem_cons.mpr ⟨hlen, hlens⟩, hclosing, ?_⟩
  rw [dispatchAll_cons]
  dsimp only
  rw [List.append_assoc _ (dispatchAll _ _ _).2]

theorem Serves.close {connection : Nat} {ctx : Context p} {out : Context p × List Event}
    (h : Serves connection ctx out) {closing : List Event}
    (hclosing : ∀ e ∈ closing, Event.isClose e = true) :
    Serves connection ctx (out.1, out.2 ++ closing) := by
  obtain ⟨requests, closing', hlens, hclosing', rfl⟩ := h
  refine ⟨requests, closing' ++ closing, hlens,
    List.forall_mem_append.mpr ⟨hclosing', hclosing⟩, ?_⟩
  dsimp only
  rw [List.append_assoc]

theorem Serves.append {connection : Nat} {ctx : Context p} {out later : Context p × List Event}
    (h : Serves connection ctx out) (hopen : out.2.any Event.isClose = false)
    (hlater : Serves connection out.1 later) :
    Serves connection ctx (later.1, out.2 ++ later.2) := by
  obtain ⟨requests, closing, hlens, hclosing, rfl⟩ := h
  obtain ⟨requests', closing', hlens', hclosing', rfl⟩ := hlater
  have hnil : closing = [] := by
    rw [List.any_append, Bool.or_eq_false_iff] at hopen
    exact List.eq_nil_iff_forall_not_mem.mpr fun e he =>
      List.any_eq_false.mp hopen.2 e he (hclosing e he)
  refine ⟨requests ++ requests', closing', List.forall_mem_append.mpr ⟨hlens, hlens'⟩,
    hclosing', ?_⟩
  rw [dispatchAll_append, hnil]
  dsimp only
  rw [List.append_nil, List.append_assoc]

theorem hazeReadLoop_serves (connection : Nat) (ctx : Context p) (buffer : Bytes) :
    Serves connection ctx
      ((hazeReadLoop connection ctx buffer).1, (hazeReadLoop connection ctx buffer).2.2) := by
  have hclose : ∀ e ∈ [Event.close], Event.isClose e = true := List.forall_mem_singleton.mpr rfl
  induction hn : buffer.length using Nat.strong_induction_on generalizing ctx buffer with
  | _ n ih =>
      rcases eq_or_ne buffer [] with rfl | hbuf
      · rw [hazeReadLoop_nil]
        exact serves_closing connection ctx (List.forall_mem_nil _)
      have hstep := hazeReadLoop_step connection ctx hbuf rfl
      cases hread : requestUnmarshal buffer with
      | mk request len =>
          cases request with
          | none =>
              rw [serverDispatch_none connection ctx hread, if_pos rfl] at hstep
              rw [hstep]
              exact serves_closing connection ctx hclose
          | some rq =>
              rw [serverDispatch_some connection ctx hread] at hstep
              dsimp only at hstep
              rw [if_neg Bool.noConfusion] at hstep
              rw [hstep]
              have hcount := requestUnmarshal_length_lt hread
              split_ifs with hlen
              · exact Serves.cons hcount (serves_closing connection _ hclose)
              · have hpos := List.length_pos_iff.mpr hbuf
                have hlt : (buffer.drop len).length < n := by
                  rw [List.length_drop]
                  omega
                exact Serves.cons hcount (ih _ hlt _ _ rfl)

theorem hazeOnRead_serves (connection : Nat) (ctx : Context p) (conn : HazeConn) (read : Read) :
    Serves connection ctx
      ((hazeOnRead connection ctx conn read).1, (hazeOnRead connection ctx conn read).2.2) := by
  match read with
  | .failed => exact serves_closing connection ctx (List.forall_mem_singleton.mpr rfl)
  | .data [] => exact serves_closing connection ctx (List.forall_mem_nil _)
  | .data (b :: bs) =>
      refine (hazeReadLoop_serves connection ctx (conn.buffer ++ b :: bs)).close ?_
      split_ifs
      · exact List.forall_mem_singleton.mpr rfl
      · exact List.forall_mem_nil _

/-- A connection that is open after a read was not closed in it. -/
theorem hazeOnRead_any_isClose (connection : Nat) (ctx : Context p) {conn : HazeConn} {read : Read}
    (hopen : (hazeOnRead connection ctx conn read).2.1.closed = false) :
    (hazeOnRead connection ctx conn read).2.2.any Event.isClose = false := by
  match read with
  | .failed => exact absurd hopen Bool.noConfusion
  | .data [] => rfl
  | .data (b :: bs) => exact (Bool.or_eq_false_iff.mp hopen).2

/-- A run of reads is its requests, one after the other. -/
theorem hazeReads_serves (connection : Nat) (ctx : Context p) (conn : HazeConn)
    (reads : List Read) :
    Serves connection ctx
      ((hazeReads connection ctx conn reads).1, (hazeReads connection ctx conn reads).2.2) := by
  induction reads generalizing ctx conn with
  | nil => exact serves_closing connection ctx (List.forall_mem_nil _)
  | cons read reads ih =>
      by_cases hclosed : conn.closed = true
      · rw [hazeReads_of_closed connection ctx hclosed]
        exact serves_closing connection ctx (List.forall_mem_nil _)
      rw [hazeReads_cons connection ctx (Bool.eq_false_iff.mpr hclosed)]
      have hread := hazeOnRead_serves connection ctx conn read
      by_cases hend : (hazeOnRead connection ctx conn read).2.1.closed = true
      · dsimp only
        rw [hazeReads_of_closed connection _ hend, List.append_nil]
        exact hread
      · exact hread.append (hazeOnRead_any_isClose connection ctx (Bool.eq_false_iff.mpr hend))
          (ih _ _)

/-! ## The account of a run -/

/-- The responses sent and the jobs queued are answers to the requests, one to each and in
order. -/
def Accounts (ctx : Context p) (out : Context p × List Event) : Prop :=
  ∃ answers : List Answer,
    answers.map Answer.msgid = (dispatched out.2).map Request.msgid ∧
      (answers.filterMap Answer.toResponse).map responseMarshal = (sent out.2).map some ∧
        p.jobs out.1.requests = p.jobs ctx.requests ++ answers.filterMap Answer.toJob

theorem sent_append (es fs : List Event) : sent (es ++ fs) = sent es ++ sent fs :=
  List.filterMap_append

/-- A view of the events that does not see a close sees nothing of the closing. -/
theorem filterMap_closing {α : Type} {view : Event → Option α} (hview : view .close = none)
    {closing : List Event} (hclosing : ∀ e ∈ closing, Event.isClose e = true) :
    closing.filterMap view = [] := by
  refine List.filterMap_eq_nil_iff.mpr fun e he => ?_
  have hclose := hclosing e he
  cases e with
  | close => exact hview
  | _ => cases hclose

/-- Every response can be marshalled. -/
theorem exists_responseMarshal (r : Response) : ∃ data, responseMarshal r = some data := by
  rw [responseMarshal, responseMarshalWriter]
  simp [objectMarshalMPackPtr_eq, mpackWriterInitGrowable, mpackWriterDestroy, Writer.put]

/-- What is sent for a request is its response, if that is the answer. -/
theorem Answer.Given.sent {ctx : Context p} {out : DispatchResult × Context p} {a : Answer}
    (h : a.Given ctx out) :
    a.toResponse.toList.map responseMarshal = (Haze.sent out.1.sends).map some := by
  have hbroadcast : ∀ n : Option RawBuffer, Haze.sent (n.map Event.broadcast).toList = [] := by
    intro n
    cases n <;> rfl
  unfold DispatchResult.sends
  rw [sent_append, hbroadcast, List.append_nil]
  cases a with
  | response r =>
      obtain ⟨data, hdata⟩ := exists_responseMarshal r
      rw [h.1, Option.bind_some, hdata]
      show [responseMarshal r] = [some data]
      rw [hdata]
  | job j =>
      rw [h.1]
      rfl

theorem exists_answer (happ : p.Appends) (ctx : Context p) (connection : Nat) (rq : Request) :
    ∃ a : Answer, a.Given ctx (dispatchRPCMessage ctx connection rq) ∧ a.msgid = rq.msgid := by
  rcases dispatchRPCMessage_answer happ connection ctx rq with
    ⟨⟨response, hmsgid, hgiven⟩, -⟩ | ⟨path, -, hgiven⟩
  · exact ⟨.response response, hgiven, hmsgid⟩
  · exact ⟨.job _, hgiven, rfl⟩

theorem dispatchAll_accounts (happ : p.Appends) (connection : Nat) (ctx : Context p)
    (requests : List Request) : Accounts ctx (dispatchAll connection ctx requests) := by
  induction requests generalizing ctx with
  | nil => exact ⟨[], rfl, rfl, (List.append_nil _).symm⟩
  | cons rq requests ih =>
      obtain ⟨a, hgiven, hmsgid⟩ := exists_answer happ ctx connection rq
      obtain ⟨answers, hmsgids, hsent, hjobs⟩ := ih (dispatchRPCMessage ctx connection rq).2
      refine ⟨a :: answers, ?_, ?_, ?_⟩
      · rw [dispatched_dispatchAll] at hmsgids ⊢
        rw [List.map_cons, List.map_cons, hmsgid, hmsgids]
      · have hcons : (a :: answers).filterMap Answer.toResponse =
            a.toResponse.toList ++ answers.filterMap Answer.toResponse := by
          cases a <;> rfl
        rw [hcons, List.map_append, hsent, hgiven.sent, ← List.map_append, dispatchAll_cons]
        dsimp only
        rw [sent_append, sent_append]
        rfl
      · rw [dispatchAll_cons]
        dsimp only
        rw [hjobs]
        cases a with
        | response r => exact congrArg (· ++ answers.filterMap Answer.toJob) hgiven.2
        | job j =>
            rw [hgiven.2, List.append_assoc]
            rfl

theorem Serves.accounts (happ : p.Appends) {connection : Nat} {ctx : Context p}
    {out : Context p × List Event} (h : Serves connection ctx out) :
    Accounts ctx out ∧ ∀ rq ∈ dispatched out.2, rq.parameters.length < 2 ^ 32 := by
  obtain ⟨requests, closing, hlens, hclosing, rfl⟩ := h
  obtain ⟨answers, hmsgids, hsent, hjobs⟩ := dispatchAll_accounts happ connection ctx requests
  have hrequests : dispatched ((dispatchAll connection ctx requests).2 ++ closing) = requests := by
    have hnone : dispatched closing = [] := filterMap_closing rfl hclosing
    rw [dispatched_append, hnone, List.append_nil, dispatched_dispatchAll]
  refine ⟨⟨answers, ?_, ?_, hjobs⟩, ?_⟩
  · rw [hrequests, hmsgids, dispatched_dispatchAll]
  · have hnone : sent closing = [] := filterMap_closing rfl hclosing
    rw [sent_append, hnone, List.append_nil]
    exact hsent
  · rw [hrequests]
    exact hlens

/-- Every request is answered once, as its method and the count of its parameters say; the count
is right up to `2 ^ 32` of them. In a run of reads, where no request has as many, the answers are
one to each request and in order. -/
theorem dispatch_answers (happ : p.Appends) (connection : Nat) (ctx : Context p) :
    (∀ rq, AnsweredOnce connection ctx rq rq.CountsAsImport) ∧
      (∀ rq, rq.parameters.length ≤ 2 ^ 32 → AnsweredOnce connection ctx rq rq.Imports) ∧
        ∀ conn reads,
          let out := hazeReads connection ctx conn reads
          Accounts ctx (out.1, out.2.2) ∧
            ∀ rq ∈ dispatched out.2.2, rq.parameters.length < 2 ^ 32 :=
  ⟨dispatchRPCMessage_answer happ connection ctx,
    fun rq => (dispatchRPCMessage_answer happ connection ctx rq).imports,
    fun conn reads => (hazeReads_serves connection ctx conn reads).accounts happ⟩

/-- An import of one path is queued. -/
theorem dispatch_answers_import :
    let rq : Request := ⟨0, 7, some (.ofString "samplelist/import"),
      [.str (some (.ofString "kick.wav"))]⟩
    AnsweredOnce 0 stillContext rq rq.Imports :=
  (dispatch_answers (p := stillPlatform) (fun _ _ => rfl) 0 stillContext).2.1 _ (by decide)

/-- An import of `2 ^ 32 + 1` paths is queued as well. -/
theorem dispatch_answers_many :
    ¬∀ p : Platform, p.Appends → ∀ (connection : Nat) (ctx : Context p),
      (∀ rq, AnsweredOnce connection ctx rq rq.Imports) ∧
        ∀ conn reads,
          let out := hazeReads connection ctx conn reads
          Accounts ctx (out.1, out.2.2) := by
  intro hall
  have happ : stillPlatform.Appends := fun _ _ => rfl
  have hmany : ∃ rq : Request, rq.parameters.length = 2 ^ 32 + 1 ∧
      ∃ path, rq.CountsAsImport path := by
    refine ⟨⟨0, 7, some (.ofString "samplelist/import"),
      List.replicate (2 ^ 32 + 1) (.str (some (.ofString "kick.wav")))⟩,
      List.length_replicate, some (.ofString "kick.wav"), rfl, ?_, ?_⟩
    · rw [requestParamCount, List.length_replicate]
      decide
    · rw [requestParamGet_zero]
      exact List.head?_replicate
  obtain ⟨rq, hlen, path, himport⟩ := hmany
  rcases (hall stillPlatform happ 0 stillContext).1 rq with
    ⟨⟨response, -, hresponse, -⟩, -⟩ | ⟨path', ⟨-, hone⟩, -⟩
  · -- there is no response, for it was queued
    rcases dispatchRPCMessage_answer happ 0 stillContext rq with ⟨-, hnone⟩ | ⟨_, -, hqueued, -⟩
    · exact hnone ⟨path, himport⟩
    · rw [hqueued] at hresponse
      cases hresponse
  · rw [hone, List.length_singleton] at hlen
    exact absurd hlen (by decide)

end Haze
