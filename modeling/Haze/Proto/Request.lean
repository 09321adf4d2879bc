import Haze.Mpack.Expect
import Haze.Proto.Marshal

/-
  Requests: `RequestMarshal` and `RequestUnmarshal`.

  A request is `[0, msgid, method, params]`. The unmarshaller is split where the source
  stops failing: `requestUnmarshalHeader` is everything up to the header of the params,
  with its `goto fail` exits as `none`, and `requestUnmarshalParams` is the parameter
  loop, which always ends in a request. `requestUnmarshal` puts them together and leaves
  the number of consumed bytes in `b->len`.
-/

open Msgpack

namespace Haze

structure Request where
  type : HazeServerRPCType
  msgid : UInt32
  method : Option CString
  parameters : List Object

def requestNew : Request :=
  { type := hazeRpcRequest, msgid := 0, method := some (.ofBytes []), parameters := [] }

def requestParamCount (r : Request) : UInt32 := .ofNat r.parameters.length

def requestParamGet (r : Request) (index : UInt32) : Option Object := r.parameters[index.toNat]?

/-- The string up to its first NUL is duplicated. -/
def requestSetMethod (request : Request) (method : Bytes) : Request :=
  { request with method := some (.ofBytes method) }

/-- Appends at the end, refuses an index in use, and fills a gap with nils. -/
def requestParamAppend (rq : Request) (param : Object) (ind : UInt32) : Bool × Request :=
  let len := rq.parameters.length
  if ind.toNat = len then
    (true, { rq with parameters := objectArrayAppend rq.parameters param })
  else if ind.toNat < len then (false, rq)
  else
    let filled := (objectArrayAppend · .nil)^[ind.toNat - len] rq.parameters
    (true, { rq with parameters := objectArrayAppend filled param })

/-! ## Marshalling -/

/-- The writes before the parameters. -/
def requestMarshalHeader (request : Request) : Writer :=
  let w := mpackWriterInitGrowable
  let w := mpackStartArray w 4
  let w := mpackWriteUint w request.type.toUInt64
  let w := mpackWriteUint w request.msgid.toUInt64
  let w := match request.method with
    | some method => mpackWriteStr w method.bytes (.ofNat method.strlen)
    | none => mpackWriteNil w
  mpackStartArray w (requestParamCount request)

/-- The writes of a request, with the loop over its first `param_count` parameters. -/
def requestMarshalWriter (request : Request) : Writer :=
  objectMarshalElements (requestMarshalHeader request)
    (request.parameters.take (requestParamCount request).toNat)

def requestMarshal (request : Request) : Option RawBuffer :=
  match mpackWriterDestroy (requestMarshalWriter request) with
  | .error _ => none
  | .ok data => some (rawBufferNew (some data))

/-! ## Unmarshalling -/

/-- An integer tag cast to 32 bits. -/
def tagCast : Tag → Option UInt32
  | .uint n => some n.toUInt32
  | .int n => some n.toUInt64.toUInt32
  | _ => none

/-- The envelope, the type, the msgid, the method and the header of the params. -/
def requestUnmarshalHeader (reader : Reader) : Option (Request × UInt32 × Reader) := do
  let (tag, reader) := mpackReadTag reader
  guard (tag = .array 4)
  let request := requestNew
  let (tag, reader) := mpackReadTag reader
  let type ← tagCast tag
  let request := { request with type := type }
  guard (request.type = hazeRpcRequest)
  let (tag, reader) := mpackReadTag reader
  let msgid ← tagCast tag
  let request := { request with msgid := msgid }
  let (tag, reader) := mpackReadTag reader
  let methodLen ← (match tag with | .str len => some len | _ => none)
  let (methodBytes, reader) := mpackReadBytesInplace reader methodLen.toNat
  let method ← methodBytes
  let request := requestSetMethod request method
  let (paramArr, reader) := mpackReadTag reader
  let count ← (match paramArr with | .array count => some count | _ => none)
  return (request, count, reader)

/-- One pass of the parameter loop. An array or a map is not read past its header. -/
def requestUnmarshalParam (request : Request) (reader : Reader) (i : UInt32) :
    Request × Reader :=
  match mpackReadTag reader with
  | (.nil, reader) => ((requestParamAppend request .nil i).2, reader)
  | (.bool v, reader) => ((requestParamAppend request (.bool v) i).2, reader)
  | (.int v, reader) => ((requestParamAppend request (.int v) i).2, reader)
  | (.uint v, reader) => ((requestParamAppend request (.uint v) i).2, reader)
  | (.float v, reader) => ((requestParamAppend request (.float v) i).2, reader)
  | (.double v, reader) => ((requestParamAppend request (.double v) i).2, reader)
  | (.str len, reader) =>
    let (buff, reader) := mpackReadBytes reader len.toNat
    ((requestParamAppend request (objectCreateStr (some buff)) i).2, reader)
  | (.bin len, reader) =>
    let (buff, reader) := mpackReadBytes reader len.toNat
    ((requestParamAppend request (.bin (some (rawBufferNew (some buff)))) i).2, reader)
  | (.array _, reader) => (request, reader)
  | (.map _, reader) => (request, reader)

/-- The loop from index `i` with the given number of passes left. -/
def requestUnmarshalParams (request : Request) (reader : Reader) (i : UInt32) :
    Nat → Request × Reader
  | 0 => (request, reader)
  | left + 1 =>
    let (request, reader) := requestUnmarshalParam request reader i
    requestUnmarshalParams request reader (i + 1) left

/-- The request, if any, and the `len` of the buffer afterwards. -/
def requestUnmarshal (b : Bytes) : Option Request × Nat :=
  if b.length = 0 then (none, b.length)
  else
    match requestUnmarshalHeader (mpackReaderInitData b) with
    | none => (none, b.length)
    | some (request, count, reader) =>
      let (request, reader) := requestUnmarshalParams request reader 0 count.toNat
      (some request, b.length - mpackReaderRemaining reader)

end Haze
