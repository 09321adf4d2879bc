import Haze.Mpack.Expect
import Haze.Proto.Marshal

/-
  Notifications: `NotificationMarshal` and `NotificationUnmarshal`.

  A notification is `[2, method, params]`. The writer refuses what it cannot represent;
  the reader peeks at each tag and then expects it, and refuses maps, strings with a NUL
  and arrays of more than `notificationMaxParams` elements. `notificationReadObject`
  recurses over nested arrays with fuel, and `notificationUnmarshal` starts it with more
  than any buffer can use up (`notificationUnmarshal_total`).
-/

open Msgpack

namespace Haze

def notificationMaxMethodSize : UInt32 := 4096
def notificationMaxParams : UInt32 := 4096

structure Notification where
  type : HazeServerRPCType
  method : Option CString
  params : Option (List Object)

def notificationNew : Notification :=
  { type := hazeRpcNotification, method := none, params := some [] }

/-! ## Marshalling -/

mutual

/-- The result is false for an object that is refused. -/
def notificationWriteObject (w : Writer) : Object → Bool × Writer
  | .nil => (mpackWriteNil w).checked
  | .bool v => (mpackWriteBool w v).checked
  | .int v => (mpackWriteI64 w v).checked
  | .uint v => (mpackWriteU64 w v).checked
  | .float bits => (mpackWriteFloat w bits).checked
  | .double bits => (mpackWriteDouble w bits).checked
  | .str none => (false, w)
  | .str (some s) =>
    if 0xffffffff < s.strlen then (false, w)
    else (mpackWriteStr w s.bytes (.ofNat s.strlen)).checked
  | .bin none => (false, w)
  | .bin (some b) =>
    -- a buffer with a length and no data cannot be built here
    if 0xffffffff < rawBufferLen b then (false, w)
    else (mpackWriteBin w b.bytes (.ofNat (rawBufferLen b))).checked
  | .array none => (false, w)
  | .array (some xs) =>
    if 0xffffffff < xs.length then (false, w)
    else
      match notificationWriteElements (mpackStartArray w (.ofNat xs.length)) xs with
      | (false, w) => (false, w)
      | (true, w) => w.checked
  | .map _ => (false, w)
  | .und => (false, w)

/-- The loop over objects, which stops at the first one refused. -/
def notificationWriteElements (w : Writer) : List Object → Bool × Writer
  | [] => (true, w)
  | x :: xs =>
    match notificationWriteObject w x with
    | (false, w) => (false, w)
    | (true, w) => notificationWriteElements w xs

end

def notificationMarshal (n : Notification) : Option RawBuffer := do
  let method ← n.method
  let params ← n.params
  if 0xffffffff < method.strlen ∨ 0xffffffff < params.length then none
  else
    let w := mpackWriterInitGrowable
    let w := mpackStartArray w 3
    let w := mpackWriteU64 w hazeRpcNotification.toUInt64
    let w := mpackWriteStr w method.bytes (.ofNat method.strlen)
    let w := mpackStartArray w (.ofNat params.length)
    let w := match notificationWriteElements w params with
      | (true, w) => w
      | (false, w) => mpackWriterFlagError w .invalid
    match mpackWriterDestroy w with
    | .error _ => none
    | .ok data => some ⟨some data⟩

/-! ## Unmarshalling -/

/-- The body of a string, which must have no NUL inside it. -/
def notificationReadStr (reader : Reader) : Option Object × Reader :=
  match mpackExpectStr reader with
  | (_, .failed error) => (none, .failed error)
  | (len, reader) =>
    match mpackReadBytes reader len.toNat with
    | (_, .failed error) => (none, .failed error)
    | (buffer, reader) =>
      if 0 ∈ buffer then (none, mpackReaderFlagError reader .type)
      else (some (.str (some (.ofBytes buffer))), reader)

def notificationReadBin (reader : Reader) : Option Object × Reader :=
  match mpackExpectBin reader with
  | (_, .failed error) => (none, .failed error)
  | (len, reader) =>
    -- no bytes are read into an empty buffer
    match (if 0 < len.toNat then mpackReadBytes reader len.toNat else ([], reader)) with
    | (_, .failed error) => (none, .failed error)
    | (data, reader) => (some (.bin (some (rawBufferNew (some data)))), reader)

/-- The loop over `n` objects. Inside an array it is `checked`: a pass that starts with an
error ends it. -/
def notificationReadElements (checked : Bool)
    (read : Reader → Except Fault (Option Object × Reader)) :
    Nat → Reader → List Object → Except Fault (Option (List Object) × Reader)
  | 0, reader, array => .ok (some array, reader)
  | n + 1, reader, array => do
    if checked ∧ mpackReaderError reader ≠ none then return (none, reader)
    match ← read reader with
    | (none, reader) => return (none, reader)
    | (some value, reader) =>
      notificationReadElements checked read n reader (objectArrayAppend array value)

/-- The tag is peeked at and then expected. A reader in error peeks nil. -/
def notificationReadObject : Nat → Reader → Except Fault (Option Object × Reader)
  | 0, _ => .error .outOfFuel
  | fuel + 1, reader =>
    match mpackPeekTag reader with
    | (.nil, reader) => .ok (some .nil, mpackExpectNil reader)
    | (.bool _, reader) => .ok ((mpackExpectBool reader).map (some ∘ .bool) id)
    | (.int _, reader) => .ok ((mpackExpectI64 reader).map (some ∘ .int) id)
    | (.uint _, reader) => .ok ((mpackExpectU64 reader).map (some ∘ .uint) id)
    | (.float _, reader) => .ok ((mpackExpectFloatStrict reader).map (some ∘ .float) id)
    | (.double _, reader) => .ok ((mpackExpectDoubleStrict reader).map (some ∘ .double) id)
    | (.str _, reader) => .ok (notificationReadStr reader)
    | (.bin _, reader) => .ok (notificationReadBin reader)
    | (.array _, reader) =>
      match mpackExpectArrayMax reader notificationMaxParams with
      | (_, .failed error) => .ok (none, .failed error)
      | (count, reader) => do
        match ← notificationReadElements true (notificationReadObject fuel) count.toNat reader []
          with
        | (some array, .ok data) => return (some (.array (some array)), .ok data)
        | (_, reader) => return (none, reader)
    | (.map _, reader) => .ok (none, mpackReaderFlagError (mpackDiscard reader) .unsupported)

/-- The type, the method and the header of the params. -/
def notificationUnmarshalHeader (b : Bytes) : Option (Notification × UInt32 × Reader) :=
  let (count, reader) := mpackExpectArrayMax (mpackReaderInitData b) 3
  if mpackReaderError reader ≠ none ∨ count ≠ 3 then none
  else
    let reader := mpackExpectUintMatch reader hazeRpcNotification.toUInt64
    if mpackReaderError reader ≠ none then none
    else
      match mpackExpectCstrAlloc reader notificationMaxMethodSize with
      | (none, _) => none
      | (some method, reader) =>
        if mpackReaderError reader ≠ none then none
        else
          let (paramCount, reader) := mpackExpectArrayMax reader notificationMaxParams
          if mpackReaderError reader ≠ none then none
          else some ({ notificationNew with method := some (.ofBytes method) }, paramCount, reader)

/-- Only the error left at the end is looked at after the parameter loop. -/
def notificationUnmarshal (b : Bytes) : Except Fault (Option Notification) := do
  if b.length = 0 then return none
  let some (notification, paramCount, reader) := notificationUnmarshalHeader b | return none
  match ← notificationReadElements false (notificationReadObject (b.length + 1))
      paramCount.toNat reader [] with
  | (none, _) => return none
  | (some params, reader) =>
    if mpackReaderError reader ≠ none then return none
    return some { notification with params := some params }

end Haze
