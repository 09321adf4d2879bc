import Haze.Proto.Notification
import Haze.Proto.Request
import Haze.Proto.Response
import Haze.Session.Session

/-
  The RPC dispatcher: `DispatchRPCMessage` and the functions behind its methods.

  What the repository calls and does not define is a `Platform`: the clock, the sound
  device and the job queue, over a state of the world that every call may change. A
  request is handed to one handler by the name of its method; the handler answers with a
  response or, for `samplelist/import`, with a job on the request queue.
-/

open Msgpack

namespace Haze

/-! ## The context -/

inductive JobType where
  | samplelistAdd
  | samplelistRemove
  deriving DecidableEq, Repr

/-- `Job`. A connection is known by its number, and the payload is a path. -/
structure Job where
  msgid : UInt32
  connection : Nat
  type : JobType
  payload : Option CString
  deriving DecidableEq

/-- What is called and not defined here: `time`, `ma_sound_start`, whose result is whether
it succeeded, the `malloc` of `ResultAudioStrdup`, whose result is whether there was memory,
and `JobQueuePush` with the jobs a queue holds. -/
structure Platform where
  World : Type
  JobQueue : Type
  time : World → Int64 × World
  maSoundStart : World → Sample → Bool × World
  resultAudioStrdup : World → Bool × World
  jobQueuePush : JobQueue → Job → JobQueue
  jobs : JobQueue → List Job

/-- A push appends the job. -/
def Platform.Appends (p : Platform) : Prop :=
  ∀ q job, p.jobs (p.jobQueuePush q job) = p.jobs q ++ [job]

/-- A platform whose clock stands still, on which every sound starts and every text finds
memory. -/
def stillPlatform : Platform where
  World := Unit
  JobQueue := List Job
  time _ := (0, ())
  maSoundStart _ _ := (true, ())
  resultAudioStrdup _ := (true, ())
  jobQueuePush q job := q ++ [job]
  jobs q := q

/-- The part of a `Context` that a dispatch reads and writes. Its session is there: the
dispatcher reads the sample list of the session before anything else. -/
structure Context (p : Platform) where
  session : Session
  requests : p.JobQueue
  world : p.World

/-- A session without a name and without samples. -/
def stillContext : Context stillPlatform where
  session := { sessionName := none, createdAt := 0, sampleList := some [] }
  requests := []
  world := ()

variable {p : Platform}

/-! ## The context of a new server -/

def sessionGetWorkingTime (ctx : Context p) : Int64 × Context p :=
  let (now, world) := p.time ctx.world
  (now - ctx.session.createdAt, { ctx with world := world })

/-- There is a session, so none is created. -/
def fnSessionCreate (sessionName : Option CString) : Result :=
  match sessionName with
  | none => resultErr "Invalid session name."
  | some _ => resultErr "Session already started!"

def samplePlay (ctx : Context p) (sample : Sample) : ResultAudio × Context p :=
  let (started, world) := p.maSoundStart ctx.world sample
  if started then (resultAudioOk, { ctx with world := world })
  else
    let (copied, world) := p.resultAudioStrdup world
    (resultAudioErrF (quoted "failed to play sample '" sample.sampleName) copied,
      { ctx with world := world })

/-- A name that is there and not empty, and the sample list of the session. -/
def sampleListArgs (ctx : Context p) (sampleName : Option CString) :
    Except ResultAudio (CString × SampleList) :=
  match sampleName with
  | none => .error (resultAudioErr "Invalid sample name.")
  | some name =>
    if name.bytes = [] then .error (resultAudioErr "Invalid sample name.")
    else
      match ctx.session.sampleList with
      | none => .error (resultAudioErr "No sample list.")
      | some list => .ok (name, list)

def fnSampleListRemoveSample (ctx : Context p) (sampleName : Option CString) :
    ResultAudio × Context p :=
  match sampleListArgs ctx sampleName with
  | .error res => (res, ctx)
  | .ok (name, list) =>
    let (res, list) := sampleListDeleteSampleByName list name
    (res, { ctx with session := { ctx.session with sampleList := some list } })

def fnSamplePlay (ctx : Context p) (sampleName : Option CString) : ResultAudio × Context p :=
  match sampleListArgs ctx sampleName with
  | .error res => (res, ctx)
  | .ok (name, list) =>
    match sampleListGetSampleByName list name with
    | none => (resultAudioErr "Sample not found.", ctx)
    | some sample => samplePlay ctx sample

/-! ## The dispatcher -/

/-- `DispatchResult`. -/
structure DispatchResult where
  response : Option Response
  notification : Option Notification

def answer (response : Response) : DispatchResult :=
  { response := some response, notification := none }

/-- The one string parameter of a request, or the text of the error. -/
def expectStrParam (rq : Request) : Except String (Option CString) :=
  if requestParamCount rq ≠ 1 then .error "Expected 1 parameter."
  else
    match requestParamGet rq 0 with
    | some (.str s) => .ok s
    | _ => .error "Expected a string."

/-- The count of the parameters is 1, and the first is the string. -/
def Request.OneStr (rq : Request) (s : Option CString) : Prop :=
  requestParamCount rq = 1 ∧ requestParamGet rq 0 = some (.str s)

theorem requestParamGet_zero (rq : Request) : requestParamGet rq 0 = rq.parameters.head? :=
  List.head?_eq_getElem?.symm

theorem Request.oneStr_of_eq {rq : Request} {s : Option CString}
    (hparams : rq.parameters = [.str s]) : rq.OneStr s := by
  refine ⟨?_, ?_⟩
  · rw [requestParamCount, hparams]
    rfl
  · rw [requestParamGet_zero, hparams, List.head?_cons]

/-- The count is right up to `2 ^ 32` parameters, where it is 0. -/
theorem Request.oneStr_iff {rq : Request} (hlen : rq.parameters.length ≤ 2 ^ 32)
    {s : Option CString} : rq.OneStr s ↔ rq.parameters = [.str s] := by
  refine ⟨fun h => ?_, Request.oneStr_of_eq⟩
  obtain ⟨hcount, hget⟩ := h
  have hone : rq.parameters.length = 1 := by
    have hnat := congrArg UInt32.toNat hcount
    rw [requestParamCount, UInt32.toNat_ofNat', UInt32.toNat_one] at hnat
    omega
  obtain ⟨o, ho⟩ := List.length_eq_one_iff.mp hone
  rw [requestParamGet_zero, ho, List.head?_cons] at hget
  rw [ho, Option.some.inj hget]

theorem expectStrParam_eq_ok_iff {rq : Request} {s : Option CString} :
    expectStrParam rq = .ok s ↔ rq.OneStr s := by
  unfold expectStrParam Request.OneStr
  split_ifs with hone
  · exact iff_of_false id fun h => hone h.1
  · split
    · rename_i t hget
      rw [hget]
      constructor
      · rintro ⟨⟩
        exact ⟨not_not.mp hone, rfl⟩
      · rintro ⟨-, ⟨⟩⟩
        rfl
    · rename_i hnone
      refine iff_of_false ?_ fun h => hnone _ h.2
      intro h
      cases h

/-- A method with one string parameter. -/
def withStrParam (ctx : Context p) (rq : Request)
    (handler : Option CString → DispatchResult × Context p) : DispatchResult × Context p :=
  match expectStrParam rq with
  | .error msg => (answer (responseCreateError rq.msgid (some (.ofString msg))), ctx)
  | .ok s => handler s

/-- A method without parameters. -/
def withoutParams (ctx : Context p) (rq : Request) (msg : String)
    (handler : DispatchResult × Context p) : DispatchResult × Context p :=
  if requestParamCount rq ≠ 0 then
    (answer (responseCreateError rq.msgid (some (.ofString msg))), ctx)
  else handler

/-- The context and the request are there. The method `samplelist/get_sample` stands
behind the last return and is never reached. -/
def dispatchRPCMessage (ctx : Context p) (connection : Nat) (rq : Request) :
    DispatchResult × Context p :=
  let msgid := rq.msgid
  match rq.method with
  | none => (answer (responseCreateError msgid (some (.ofString "Method not specified."))), ctx)
  | some method =>
    if method = .ofString "test/ping" then
      withoutParams ctx rq "Pong, but those arguments weren't necessary."
        (answer (responseCreateString msgid (.ofString "pong!")), ctx)
    else if method = .ofString "session/create" then
      withStrParam ctx rq fun name =>
        (answer (responseCreateResult msgid (fnSessionCreate name)), ctx)
    else if method = .ofString "session/get_name" then
      withoutParams ctx rq "Expected 0 parameters."
        (answer (responseCreateString msgid (sessionGetName ctx.session)), ctx)
    else if method = .ofString "session/get_working_time" then
      withoutParams ctx rq "Expected 0 parameters."
        (let (time, ctx) := sessionGetWorkingTime ctx
        (answer (responseCreateInt msgid time), ctx))
    else if method = .ofString "samplelist/import" then
      withStrParam ctx rq fun path =>
        let job := { msgid := msgid, connection := connection, type := .samplelistAdd,
                     payload := path }
        ({ response := none, notification := none },
          { ctx with requests := p.jobQueuePush ctx.requests job })
    else if method = .ofString "samplelist/remove" then
      withStrParam ctx rq fun name =>
        let (res, ctx) := fnSampleListRemoveSample ctx name
        (answer (responseCreateResultAudio msgid res), ctx)
    else if method = .ofString "samplelist/play" then
      withStrParam ctx rq fun name =>
        let (res, ctx) := fnSamplePlay ctx name
        (answer (responseCreateResultAudio msgid res), ctx)
    else (answer (responseCreateError msgid (some (.ofString "Method not found."))), ctx)

end Haze
