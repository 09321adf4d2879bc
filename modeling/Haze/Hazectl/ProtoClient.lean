import Haze.Hazectl.Client
import Haze.Server.Stream

/-
  The one-shot client of hazectl: `proto.Request`, `proto.Response` and `proto.SendRequest`.

  `SendRequest` writes the length of the request in four bytes and then the request. The
  server reads requests without a length. What `msgpack.Marshal` and `msgpack.Unmarshal`
  return are the parameters `marshal` and `unmarshal`.
-/

open Msgpack

namespace Haze.Hazectl.Proto

/-! ## Requests and responses -/

/-- A value of the type `any`, with its dynamic type where a type assertion asks for it. -/
inductive Any where
  | uint8 (n : UInt8)
  | uint32 (n : UInt32)
  | other (v : Value)

/-- `proto.Request`. -/
structure Request where
  msgType : UInt8
  msgId : UInt32
  method : Bytes
  params : Option (List Value)

def Request.init (msgId : UInt32) (method : Bytes) (params : Option (List Value)) : Request :=
  { msgType := 0, msgId := msgId, method := method, params := params }

/-- The four elements. A nil slice is nil. -/
def Request.elements (r : Request) : Value :=
  .array [.uint r.msgType.toUInt64, .uint r.msgId.toUInt64, .str r.method,
    (r.params.map Value.array).getD .nil]

def Request.marshal (marshal : Value → Except GoError Bytes) (r : Request) :
    Except GoError Bytes :=
  marshal r.elements

/-- `proto.Response`. -/
structure Response where
  msgType : UInt8
  msgId : UInt32
  error : Any
  result : Any

def Response.unmarshal (unmarshal : Bytes → Except GoError (List Any)) (data : Bytes) :
    Except GoError Response := do
  let raw ← unmarshal data
  match raw with
  | [msgType, msgId, error, result] =>
    match msgType with
    | .uint8 msgType =>
      match msgId with
      | .uint32 msgId =>
        .ok { msgType := msgType, msgId := msgId, error := error, result := result }
      | _ => .error (text "invalid message id")
    | _ => .error (text "invalid message type")
  | _ => .error (text "invalid response: expected 4 elements, got " ++ text (toString raw.length))

/-! ## SendRequest -/

/-- What the network does to a call: what `net.Dial` and the two writes return, a write
that fails after so many bytes, and what the other side sends until a read fails. -/
structure Network where
  dial : Except GoError Unit
  writeSize : Except (Nat × GoError) Unit
  writeData : Except (Nat × GoError) Unit
  reply : Bytes
  readError : GoError

/-- The connection is made and both writes succeed. -/
def Network.Writes (net : Network) : Prop :=
  net.dial = .ok () ∧ net.writeSize = .ok () ∧ net.writeData = .ok ()

/-- `conn.Write`: the bytes that were written and the error. -/
def write (outcome : Except (Nat × GoError) Unit) (data : Bytes) : Bytes × Option GoError :=
  match outcome with
  | .ok () => (data, none)
  | .error (n, err) => (data.take n, some err)

/-- `io.ReadFull` of `n` bytes: the bytes and what is left of the reply. -/
def readFull (net : Network) (reply : Bytes) (n : Nat) : Except GoError (Bytes × Bytes) :=
  if n ≤ reply.length then .ok (reply.take n, reply.drop n)
  else if net.readError = text "EOF" ∧ reply ≠ [] then .error (text "unexpected EOF")
  else .error net.readError

/-- The length in four bytes, as `uint32`. -/
def sizePrefix (data : Bytes) : Bytes := beBytes 4 (data.length % 2 ^ 32)

/-- Behind the writes. -/
def readResponse (unmarshal : Bytes → Except GoError (List Any)) (net : Network) :
    Except GoError Response := do
  let (size, reply) ← readFull net net.reply 4
  let responseSize := beNat size
  if 16 * 1024 * 1024 < responseSize then
    .error (text "response too large: " ++ text (toString responseSize) ++ text " bytes")
  else
    let (responseData, _) ← readFull net reply responseSize
    Response.unmarshal unmarshal responseData

/-- `SendRequest`: the bytes written to the connection and what is returned. -/
def sendRequest (marshal : Value → Except GoError Bytes)
    (unmarshal : Bytes → Except GoError (List Any)) (net : Network) (req : Request) :
    Bytes × Except GoError Response :=
  match net.dial with
  | .error err => ([], .error err)
  | .ok () =>
    match req.marshal marshal with
    | .error err => ([], .error err)
    | .ok data =>
      match write net.writeSize (sizePrefix data) with
      | (size, some err) => (size, .error err)
      | (size, none) =>
        match write net.writeData data with
        | (data, some err) => (size ++ data, .error err)
        | (data, none) => (size ++ data, readResponse unmarshal net)

theorem sendRequest_written {marshal : Value → Except GoError Bytes}
    {unmarshal : Bytes → Except GoError (List Any)} {net : Network} {req : Request}
    (hnet : net.Writes) :
    (sendRequest marshal unmarshal net req).1 =
      match req.marshal marshal with
      | .error _ => []
      | .ok data => sizePrefix data ++ data := by
  obtain ⟨hdial, hsize, hdata⟩ := hnet
  unfold sendRequest write
  rw [hdial, hsize, hdata]
  cases req.marshal marshal with
  | error err => rfl
  | ok data => rfl

/-- The first byte of a length below 2^31 is a positive fixint. -/
theorem sizePrefix_head {data : Bytes} (hdata : data.length < 2 ^ 31) (rest : Bytes) :
    ∀ b ∈ (sizePrefix data ++ rest).head?, b ≤ 0x7f := by
  intro b hb
  have hfirst : UInt8.ofNat (data.length % 2 ^ 32 / 256 / 256 / 256) = b := Option.some.inj hb
  rw [← hfirst, UInt8.le_iff_toNat_le, UInt8.toNat_ofNat']
  show data.length % 2 ^ 32 / 256 / 256 / 256 % 2 ^ 8 ≤ 127
  omega

/-! ## The server's side -/

/-- The server's request has the client's type, number and method, and parameters that
come out as the client's. -/
def Same (req : Request) (request : Haze.Request) : Prop :=
  request.type.toNat = req.msgType.toNat ∧ request.msgid = req.msgId ∧
    request.method.map CString.bytes = some req.method ∧
    request.parameters.map (fun o => o.wireValue.norm) = (req.params.getD []).map Value.norm

variable {p : Platform}

/-- One request was dispatched, it is the client's, and the connection is open. -/
def Agreed (req : Request) (out : Context p × HazeConn × List Event) : Prop :=
  (∃ request, dispatched out.2.2 = [request] ∧ Same req request) ∧ out.2.1.closed = false

/-- `marshal` writes an encoding of the request. -/
def Request.Encoded (marshal : Value → Except GoError Bytes) (req : Request) : Prop :=
  ∃ (v : Value) (data : Bytes), req.marshal marshal = .ok data ∧ v.norm = req.elements.norm ∧
    Encodes v data

/-- Whatever is sent and however the reads cut it, the server does not dispatch the
request and keep the connection open: it takes the length for a request. -/
theorem sendRequest_never_agreed (marshal : Value → Except GoError Bytes)
    (unmarshal : Bytes → Except GoError (List Any)) {net : Network} (hnet : net.Writes)
    (req : Request) (connection : Nat) (ctx : Context p) {limit : Nat} (hlimit : limit < 2 ^ 31)
    {reads : List Read} (hreads : Delivers limit (sendRequest marshal unmarshal net req).1 reads) :
    ¬Agreed req (hazeReads connection ctx hazeConnNew reads) := by
  intro hagreed
  obtain ⟨⟨request, hone, -⟩, hopen⟩ := hagreed
  rw [sendRequest_written hnet] at hreads
  refine hazeReads_fixuint connection ctx hreads ?_ hopen (by rw [hone]; rfl)
  cases req.marshal marshal with
  | error err => intro _ b hb; cases hb
  | ok data =>
      intro hlen
      dsimp only at hlen ⊢
      rw [List.length_append] at hlen
      apply sizePrefix_head
      omega

/-- A network on which every write succeeds and nothing comes back. -/
def silent : Network :=
  { dial := .ok (), writeSize := .ok (), writeData := .ok (), reply := [],
    readError := text "EOF" }

/-- A ping, read whole. -/
theorem sendRequest_never_agreed_ping :
    ¬Agreed (Request.init 1 (text "test/ping") (some []))
      (hazeReads 0 stillContext hazeConnNew [.data
        (sendRequest encodeOk (fun _ => .ok []) silent
          (Request.init 1 (text "test/ping") (some []))).1]) :=
  sendRequest_never_agreed encodeOk _ ⟨rfl, rfl, rfl⟩ _ 0 stillContext (by decide : 65536 < 2 ^ 31)
    ⟨[_], List.flatten_singleton, by decide, rfl⟩

/-- The same ping. The server reads the length and closes the connection. -/
theorem sendRequest_disagreed :
    ¬∀ (marshal : Value → Except GoError Bytes) (unmarshal : Bytes → Except GoError (List Any))
      (net : Network) (req : Request) (reads : List Read), req.msgType = 0 →
      req.Encoded marshal → (∀ params ∈ req.params, ∀ v ∈ params, v.scalar) → net.Writes →
      Delivers 65536 (sendRequest marshal unmarshal net req).1 reads →
      Agreed req (hazeReads 0 stillContext hazeConnNew reads) := by
  intro hall
  have hencoded : (Request.init 1 (text "test/ping") (some [])).Encoded encodeOk := by
    refine ⟨Value.norm _, _, rfl, Value.norm_norm _, encodes_encode ?_⟩
    rw [Request.elements, Value.fits_array]
    refine ⟨by decide, fun v hv => ?_⟩
    fin_cases hv
    · exact Value.fits_uint _
    · exact Value.fits_uint _
    · exact Value.fits_of_scalar rfl (by decide)
    · exact Value.fits_array.mpr ⟨by decide, fun v hv => absurd hv List.not_mem_nil⟩
  have hagreed := hall encodeOk (fun _ => .ok []) silent _ [.data _] rfl hencoded
    (fun params hparams v hv => by
      obtain rfl := Option.some.inj hparams
      cases hv)
    ⟨rfl, rfl, rfl⟩ ⟨[_], List.flatten_singleton, by decide, rfl⟩
  have hclosed := hazeOnRead_fixuint 0 stillContext (by decide : (0 : UInt8) ≤ 0x7f)
    ((sendRequest encodeOk (fun _ => .ok []) silent
      (Request.init 1 (text "test/ping") (some []))).1.drop 1)
  exact absurd (hclosed.symm.trans hagreed.2) Bool.noConfusion

end Haze.Hazectl.Proto
