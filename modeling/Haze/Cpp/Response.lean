import Haze.Cpp.Object
import Haze.Proto.ResponseRoundTrip

/-
  The responses of the C++ client: `Response::Marshal` and `Response::Unmarshal`.

  The client links the server's mpack, so both sides use one writer and one reader.
  Corresponding responses are written as the same bytes (`responseMarshal_eq_marshal`).
-/

open Msgpack

namespace Haze.Cpp

/-- `RPCType`. The enum is an unsigned 8-bit integer, which a cast can give any value. -/
abbrev RPCType := UInt8

def rpcTypeResponse : RPCType := 1

/-- `Haze::Response`. -/
structure Response where
  type : RPCType
  msgid : UInt32
  error : Object
  result : Object

def responseNew : Response :=
  { type := rpcTypeResponse, msgid := 0, error := .nil, result := .nil }

/-! ## Marshalling -/

mutual

/-- An empty binary and a map are written as nil. -/
def objectMarshalMPack (w : Writer) : Object → Writer
  | .und | .nil => mpackWriteNil w
  | .bool v => mpackWriteBool w v
  | .int v => mpackWriteInt w v
  | .uint v => mpackWriteUint w v
  | .float bits => mpackWriteFloat w bits
  | .double bits => mpackWriteDouble w bits
  | .str s => mpackWriteStr w s (.ofNat s.length)
  | .bin b => if b ≠ [] then mpackWriteBin w b (.ofNat b.length) else mpackWriteNil w
  | .array xs => objectMarshalElements (mpackStartArray w (.ofNat xs.length)) xs
  | .map _ => mpackWriteNil w

/-- The loop over the elements of an array. -/
def objectMarshalElements (w : Writer) : List Object → Writer
  | [] => w
  | x :: xs => objectMarshalElements (objectMarshalMPack w x) xs

end

def Response.marshalWriter (r : Response) : Writer :=
  let w := mpackWriterInitGrowable
  let w := mpackStartArray w 4
  let w := mpackWriteU8 w r.type
  let w := mpackWriteU32 w r.msgid
  let w := objectMarshalMPack w r.error
  objectMarshalMPack w r.result

def Response.marshal (r : Response) : BinaryBuffer :=
  match mpackWriterDestroy r.marshalWriter with
  | .error _ => []
  | .ok data => data

/-! ## Unmarshalling -/

/-- The element loop: every child is appended, and no error is checked. -/
def objectUnmarshalElements (read : Reader → Except Fault (Object × Reader)) :
    Nat → Reader → List Object → Except Fault (List Object × Reader)
  | 0, reader, arr => .ok (arr, reader)
  | left + 1, reader, arr => do
    let (child, reader) ← read reader
    objectUnmarshalElements read left reader (arr ++ [child])

/-- The recursion over nested arrays carries fuel. The body of a map is left in the
stream. -/
def objectUnmarshalMPack : Nat → Reader → Except Fault (Object × Reader)
  | 0, _ => .error .outOfFuel
  | fuel + 1, reader =>
    match mpackReadTag reader with
    | (_, .failed error) => .ok (.nil, .failed error)
    | (.nil, reader) => .ok (.nil, reader)
    | (.bool v, reader) => .ok (.bool v, reader)
    | (.int v, reader) => .ok (.int v, reader)
    | (.uint v, reader) => .ok (.uint v, reader)
    | (.float v, reader) => .ok (.float v, reader)
    | (.double v, reader) => .ok (.double v, reader)
    | (.str len, reader) =>
      let (str, reader) := mpackReadBytes reader len.toNat
      .ok (.str str, reader)
    | (.bin len, reader) =>
      let (bin, reader) := mpackReadBytes reader len.toNat
      .ok (.bin bin, reader)
    | (.array count, reader) => do
      let (arr, reader) ← objectUnmarshalElements (objectUnmarshalMPack fuel) count.toNat reader []
      return (.array arr, reader)
    | (.map _, reader) => .ok (.nil, reader)

/-- The fields up to and including the error, with the reader in front of the result. -/
def responseUnmarshalError (b : BinaryBuffer) : Except Fault (Option (Response × Reader)) := do
  let (count, reader) := mpackExpectArray (mpackReaderInitData b)
  if mpackReaderError reader ≠ none ∨ count ≠ 4 then return none
  let response := responseNew
  let (rawType, reader) := mpackExpectU8 reader
  if mpackReaderError reader ≠ none ∨ rawType ≠ rpcTypeResponse then return none
  let response := { response with type := rawType }
  let (msgid, reader) := mpackExpectU32 reader
  let response := { response with msgid := msgid }
  if mpackReaderError reader ≠ none then return none
  let (error, reader) ← objectUnmarshalMPack (b.length + 1) reader
  let response := { response with error := error }
  if mpackReaderError reader ≠ none then return none
  return some (response, reader)

/-- `Response::Unmarshal`, with fuel for more than the buffer can use up. -/
def responseUnmarshal (b : BinaryBuffer) : Except Fault (Option Response) := do
  if b = [] then return none
  let some (response, reader) ← responseUnmarshalError b | return none
  let (result, reader) ← objectUnmarshalMPack (b.length + 1) reader
  let response := { response with result := result }
  if mpackReaderError reader ≠ none then return none
  return some response

/-! ## One writer -/

theorem objectMarshalElements_eq_cpp {xs : List Haze.Object} {ys : List Object}
    (hxs : ∀ x ∈ xs, ∀ y, Corresponds x y → ∀ w,
      Haze.objectMarshalMPack w x = objectMarshalMPack w y)
    (h : List.Forall₂ Corresponds xs ys) (w : Writer) :
    Haze.objectMarshalElements w xs = objectMarshalElements w ys := by
  induction h generalizing w with
  | nil => rfl
  | @cons x y xs ys hxy _ ih =>
      obtain ⟨hx, hxs⟩ := List.forall_mem_cons.mp hxs
      rw [Haze.objectMarshalElements, objectMarshalElements, hx y hxy, ih hxs]

/-- Corresponding objects are written the same. -/
theorem objectMarshalMPack_eq_cpp {o : Haze.Object} {p : Object} (h : Corresponds o p)
    (w : Writer) : Haze.objectMarshalMPack w o = objectMarshalMPack w p := by
  induction o using Object.elementInduction generalizing p w with
  | step o ih =>
      cases h with
      | str s => rfl
      | bin b =>
          cases b with
          | nil => rfl
          | cons b bs => rfl
      | array hxs =>
          rw [Haze.objectMarshalMPack, objectMarshalMPack, hxs.length_eq]
          exact objectMarshalElements_eq_cpp (fun x hx y hxy w => ih x hx hxy w) hxs _
      | _ => rfl

theorem objectMarshalMPackPtr_eq_cpp {obj : Option Haze.Object} {p : Object}
    (h : CorrespondsField obj p) (w : Writer) :
    objectMarshalMPackPtr w obj = objectMarshalMPack w p := by
  cases obj with
  | none =>
      obtain rfl : p = .nil := h
      rfl
  | some o => exact objectMarshalMPack_eq_cpp h w

/-- Both sides send corresponding errors and results as the same bytes. -/
theorem responseMarshal_eq_marshal {s : Haze.Response} {r : Response}
    (htypeC : s.type = hazeRpcResponse) (htypeCpp : r.type = rpcTypeResponse)
    (hmsgid : s.msgid = r.msgid) (herror : CorrespondsField s.error r.error)
    (hresult : CorrespondsField s.result r.result) :
    ∃ f, responseMarshal s = some f ∧ f.bytes = r.marshal := by
  have hwriter : responseMarshalWriter s = r.marshalWriter := by
    have htype : s.type.toUInt8 = r.type := by
      rw [htypeC, htypeCpp]
      rfl
    unfold responseMarshalWriter Response.marshalWriter
    dsimp only
    rw [htype, hmsgid, objectMarshalMPackPtr_eq_cpp herror, objectMarshalMPackPtr_eq_cpp hresult]
  have hsome := responseMarshal_eq htypeC
  refine ⟨_, hsome, ?_⟩
  unfold responseMarshal at hsome
  unfold Response.marshal
  rw [← hwriter]
  cases hdestroy : mpackWriterDestroy (responseMarshalWriter s) with
  | error err =>
      rw [hdestroy] at hsome
      cases hsome
  | ok data =>
      rw [hdestroy] at hsome
      rw [← Option.some.inj hsome, bytes_rawBufferNew]
      rfl

/-- The error `NULL` and the result `["", <an empty binary>, a map]`. -/
theorem responseMarshal_eq_marshal_empty :
    ∃ f, responseMarshal ⟨hazeRpcResponse, 7, none, some (.array (some
        [.str (some (.ofBytes [])), .bin (some ⟨none⟩), .map (some [])]))⟩ = some f ∧
      f.bytes = Response.marshal
        ⟨rpcTypeResponse, 7, .nil, .array [.str [], .bin [], .map []]⟩ :=
  responseMarshal_eq_marshal rfl rfl rfl rfl <| .array <|
    .cons (.str (.ofBytes [])) <| .cons (.bin []) <| .cons (.map .nil .nil) .nil

end Haze.Cpp
