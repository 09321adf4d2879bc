import Haze.Msgpack.Canonical
import Haze.Transition.Run

/-
  The msgpack-rpc client of hazectl: `Client.Call`, `Client.readLoop` and `SendRequest`.

  Any number of calls run beside one read loop. `Step` has one constructor for each of
  their atomic steps: what happens under the mutex is one step, and so is one write of a
  whole payload, one `Decode`, one send on a channel and one receive. A channel is the
  channel of the call that made it, so `pending` holds the numbers of calls.

  What `msgpack.Marshal` returns is the parameter `marshal`. When the server answers, what
  it answers and when a write or a `Decode` fails is free.
-/

open Msgpack Transition

namespace Haze.Hazectl

/-! ## Data -/

/-- An error, by its text. -/
abbrev GoError := Bytes

def text (s : String) : Bytes := s.toUTF8.data.toList

/-- `msgpackrpc.Response`. -/
structure Response where
  msgType : UInt32
  msgId : UInt32
  error : Value
  result : Value

/-- A channel that has room for one response. -/
structure Channel where
  buffer : Option Response
  closed : Bool

def Channel.make : Channel := { buffer := none, closed := false }

/-- Where a `Call` stands: it has its number and its channel, is registered, has `left + 1`
writes of its payload to do, has failed and will remove its entry, waits on its channel,
or has returned. -/
inductive CallState where
  | numbered
  | registered
  | writing (payload : Bytes) (left : Nat)
  | failing (err : GoError)
  | waiting
  | returned (out : Except GoError Value)

structure Call where
  method : Bytes
  params : List Value
  msgID : UInt32
  respChan : Channel
  state : CallState

/-- Where the read loop stands: in `Decode`, behind it with a response of type 1, behind
the lookup with a response for a call's channel, behind a failed `Decode`, or done. A send
on a closed channel and a second close panic. -/
inductive ReadLoop where
  | decoding
  | decoded (resp : Response)
  | sending (i : Nat) (resp : Response)
  | failed
  | exited
  | panicked

/-- `Client`, with the calls that were made on it and, for each write, the call and the
bytes it wrote. -/
structure Client where
  seq : UInt32
  pending : AList fun _ : UInt32 => Nat
  calls : List Call
  loop : ReadLoop
  conn : List (Nat × Bytes)

def newClient : Client :=
  { seq := 0, pending := ∅, calls := [], loop := .decoding, conn := [] }

/-! ## The calls -/

/-- Without parameters the array is empty, not nil. -/
def newCall (msgID : UInt32) (method : Bytes) (params : Option (List Value)) : Call :=
  { method := method, params := params.getD [], msgID := msgID, respChan := .make
    state := .numbered }

def Call.reqPayload (call : Call) : Value :=
  .array [.int 0, .uint call.msgID.toUInt64, .str call.method, .array call.params]

/-- The payload is written three times: once by `conn.Write`, twice by `encoder.Encode`. -/
def marshalled (marshal : Value → Except GoError Bytes) (call : Call) : CallState :=
  match marshal call.reqPayload with
  | .ok payload => .writing payload 2
  | .error err => .failing (text "erro ao converter requisição: " ++ err)

/-- Behind a write that succeeded. -/
def written (payload : Bytes) : Nat → CallState
  | 0 => .waiting
  | left + 1 => .writing payload left

/-- The error of a failed write: the first one is the one by `conn.Write`. -/
def writeError (left : Nat) (err : GoError) : GoError :=
  if left = 2 then text "erro ao enviar requisição pela rede: " ++ err
  else text "erro ao enviar requisição: " ++ err

def Client.setCall (c : Client) (i : Nat) (call : Call) : Client :=
  { c with calls := c.calls.set i call }

/-! ## The read loop -/

/-- The entry of the response's number is deleted if there is one. -/
def Client.lookup (c : Client) (resp : Response) : Client :=
  { c with
    pending := c.pending.erase resp.msgId
    loop := match c.pending.lookup resp.msgId with
      | some i => .sending i resp
      | none => .decoding }

/-- `close` on each channel; `none` if one of them is closed already. -/
def closeChannels : List Nat → List Call → Option (List Call)
  | [], calls => some calls
  | i :: is, calls =>
    match calls[i]? with
    | none => closeChannels is calls
    | some call =>
      if call.respChan.closed then none
      else closeChannels is (calls.set i
        { call with respChan := { call.respChan with closed := true } })

def Client.closeAll (c : Client) : Client :=
  match closeChannels (c.pending.entries.map Sigma.snd) c.calls with
  | none => { c with loop := .panicked }
  | some calls => { c with calls := calls, pending := ∅, loop := .exited }

/-! ## Steps -/

/-- The label of a step. The steps under the mutex that write or delete the entry of a
number show what entry they found. -/
inductive Action where
  | call (method : Bytes) (params : Option (List Value))
  | register (i : Nat) (found : Option Nat)
  | marshal (i : Nat)
  | write (i : Nat)
  | writeFails (i : Nat) (n : Nat) (err : GoError)
  | remove (i : Nat) (found : Option Nat)
  | receive (i : Nat) (resp : Option Response)
  | decode (resp : Response)
  | lookup
  | send (i : Nat) (resp : Response)
  | decodeFails
  | closeAll

inductive Step (marshal : Value → Except GoError Bytes) (c : Client) : Action → Client → Prop where
  | call (method : Bytes) (params : Option (List Value)) :
      Step marshal c (.call method params)
        { c with seq := c.seq + 1, calls := c.calls ++ [newCall (c.seq + 1) method params] }
  | register {i : Nat} {call : Call} (hcall : c.calls[i]? = some call)
      (hstate : call.state = .numbered) :
      Step marshal c (.register i (c.pending.lookup call.msgID))
        { c.setCall i { call with state := .registered } with
          pending := c.pending.insert call.msgID i }
  | marshal {i : Nat} {call : Call} (hcall : c.calls[i]? = some call)
      (hstate : call.state = .registered) :
      Step marshal c (.marshal i) (c.setCall i { call with state := marshalled marshal call })
  | write {i left : Nat} {call : Call} {payload : Bytes} (hcall : c.calls[i]? = some call)
      (hstate : call.state = .writing payload left) :
      Step marshal c (.write i)
        { c.setCall i { call with state := written payload left } with
          conn := c.conn ++ [(i, payload)] }
  | writeFails {i left : Nat} {call : Call} {payload : Bytes} (n : Nat) (err : GoError)
      (hcall : c.calls[i]? = some call) (hstate : call.state = .writing payload left) :
      Step marshal c (.writeFails i n err)
        { c.setCall i { call with state := .failing (writeError left err) } with
          conn := c.conn ++ [(i, payload.take n)] }
  | remove {i : Nat} {call : Call} {err : GoError} (hcall : c.calls[i]? = some call)
      (hstate : call.state = .failing err) :
      Step marshal c (.remove i (c.pending.lookup call.msgID))
        { c.setCall i { call with state := .returned (.error err) } with
          pending := c.pending.erase call.msgID }
  | receive {i : Nat} {call : Call} {resp : Response} (hcall : c.calls[i]? = some call)
      (hstate : call.state = .waiting) (hbuffer : call.respChan.buffer = some resp) :
      Step marshal c (.receive i (some resp)) (c.setCall i { call with
        state := .returned (.ok resp.result)
        respChan := { call.respChan with buffer := none } })
  | receiveClosed {i : Nat} {call : Call} (hcall : c.calls[i]? = some call)
      (hstate : call.state = .waiting) (hbuffer : call.respChan.buffer = none)
      (hclosed : call.respChan.closed) :
      Step marshal c (.receive i none) (c.setCall i { call with
        state := .returned (.error (text "conexão encerrada abruptamente pelo servidor")) })
  | decode (resp : Response) (hloop : c.loop = .decoding) :
      Step marshal c (.decode resp)
        { c with loop := if resp.msgType = 1 then .decoded resp else .decoding }
  | lookup {resp : Response} (hloop : c.loop = .decoded resp) :
      Step marshal c .lookup (c.lookup resp)
  | send {i : Nat} {call : Call} {resp : Response} (hloop : c.loop = .sending i resp)
      (hcall : c.calls[i]? = some call) (hopen : call.respChan.closed = false)
      (hroom : call.respChan.buffer = none) :
      Step marshal c (.send i resp)
        { c.setCall i { call with respChan := { call.respChan with buffer := some resp } } with
          loop := .decoding }
  | sendClosed {i : Nat} {call : Call} {resp : Response} (hloop : c.loop = .sending i resp)
      (hcall : c.calls[i]? = some call) (hclosed : call.respChan.closed) :
      Step marshal c (.send i resp) { c with loop := .panicked }
  | decodeFails (hloop : c.loop = .decoding) :
      Step marshal c .decodeFails { c with loop := .failed }
  | closeAll (hloop : c.loop = .failed) : Step marshal c .closeAll c.closeAll

/-- The actions lead from a new client to `c`. -/
abbrev ClientRun (marshal : Value → Except GoError Bytes) (acts : List Action) (c : Client) :
    Prop :=
  Run (Step marshal) newClient acts c

/-- A `marshal` that writes the canonical encoding. -/
def encodeOk (v : Value) : Except GoError Bytes := .ok (encode v)

/-! ## A request -/

/-- `msgpackrpc.Request`. -/
structure Request where
  msgType : UInt32
  msgId : UInt32
  func : Bytes
  params : Option (List Value)

def responseInit (msgId : UInt32) (err result : Value) : Response :=
  { msgType := 1, msgId := msgId, error := err, result := result }

/-- `SendRequest`, from what `net.Dial` returns and what the call of `req.Func` with
`req.Params` returns. -/
def sendRequest (address : Bytes) (port : Int) (req : Request) (dial : Except GoError Unit)
    (called : Except GoError Value) : Except GoError Response :=
  let target := address ++ text ":" ++ text (toString port)
  match dial with
  | .error err => .error (text "fail to connect to server " ++ target ++ text ": " ++ err)
  | .ok () =>
    match called with
    | .error err => .error (text "fail to execute '" ++ req.func ++ text "': " ++ err)
    | .ok result => .ok (responseInit req.msgId .nil result)

end Haze.Hazectl
