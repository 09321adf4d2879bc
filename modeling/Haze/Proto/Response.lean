import Haze.Mpack.Expect
import Haze.Proto.Marshal
import Haze.Result

/-
  Responses: `ResponseMarshal`, `ResponseUnmarshal` and the constructors.

  A response is `[1, msgid, error, result]`. `objectUnmarshalMPack` recurses over nested
  arrays, so it carries fuel; `responseUnmarshal` starts it with more than any buffer can
  use up (`objectUnmarshalMPack_returns`). The one undefined behaviour of the decoder, the
  32-bit `malloc(len + 1)` of a string of `2 ^ 32 - 1` bytes, is the fault
  `heapOverflow`.
-/

open Msgpack

namespace Haze

structure Response where
  type : HazeServerRPCType
  msgid : UInt32
  error : Option Object
  result : Option Object

def responseNew : Response :=
  { type := hazeRpcResponse, msgid := 0, error := none, result := none }

/-! ## Constructors -/

def responseCreateString (msgid : UInt32) (result : CString) : Response :=
  { responseNew with msgid := msgid, result := some (objectCreateStr (some result.bytes)) }

def responseCreateError (msgid : UInt32) (err : Option CString) : Response :=
  { responseNew with
    type := hazeRpcResponse
    msgid := msgid
    error := some (match err with
      | some err => objectCreateStr (some err.bytes)
      | none => .nil) }

def responseCreateNilResult (msgid : UInt32) : Response :=
  { responseNew with msgid := msgid, result := some .nil }

/-- A failure is put in the result, not in the error. -/
def responseCreateResult (msgid : UInt32) (res : Result) : Response :=
  if res.success then { responseNew with msgid := msgid, result := some .nil }
  else { responseNew with
    msgid := msgid, result := some (objectCreateStr (res.msg.map CString.bytes)) }

def responseCreateInt (msgid : UInt32) (value : Int64) : Response :=
  { responseNew with msgid := msgid, result := some (.int value) }

def responseCreateResultAudio (msgid : UInt32) (res : ResultAudio) : Response :=
  if res.success then responseCreateNilResult msgid else responseCreateError msgid res.msg

@[simp] theorem responseCreateString_msgid (msgid : UInt32) (result : CString) :
    (responseCreateString msgid result).msgid = msgid := rfl

@[simp] theorem responseCreateError_msgid (msgid : UInt32) (err : Option CString) :
    (responseCreateError msgid err).msgid = msgid := rfl

@[simp] theorem responseCreateInt_msgid (msgid : UInt32) (value : Int64) :
    (responseCreateInt msgid value).msgid = msgid := rfl

@[simp] theorem responseCreateResult_msgid (msgid : UInt32) (res : Result) :
    (responseCreateResult msgid res).msgid = msgid := by
  rw [responseCreateResult]
  split_ifs <;> rfl

@[simp] theorem responseCreateResultAudio_msgid (msgid : UInt32) (res : ResultAudio) :
    (responseCreateResultAudio msgid res).msgid = msgid := by
  rw [responseCreateResultAudio]
  split_ifs <;> rfl

/-! ## Marshalling -/

def responseMarshalWriter (s : Response) : Writer :=
  let w := mpackWriterInitGrowable
  let w := mpackStartArray w 4
  let w := mpackWriteU8 w s.type.toUInt8
  let w := mpackWriteU32 w s.msgid
  let w := objectMarshalMPackPtr w s.error
  objectMarshalMPackPtr w s.result

def responseMarshal (s : Response) : Option RawBuffer :=
  match mpackWriterDestroy (responseMarshalWriter s) with
  | .error _ => none
  | .ok data => some (rawBufferNew (some data))

/-! ## Unmarshalling -/

/-- The element loop: a child that is `NULL` is not appended, and no error is checked. -/
def objectUnmarshalElements (read : Reader → Except Fault (Option Object × Reader)) :
    Nat → Reader → List Object → Except Fault (List Object × Reader)
  | 0, reader, arr => .ok (arr, reader)
  | left + 1, reader, arr => do
    let (child, reader) ← read reader
    objectUnmarshalElements read left reader (match child with
      | some child => objectArrayAppend arr child
      | none => arr)

/-- The body of a map is left in the stream. -/
def objectUnmarshalMPack : Nat → Reader → Except Fault (Option Object × Reader)
  | 0, _ => .error .outOfFuel
  | fuel + 1, reader =>
    match mpackReadTag reader with
    | (_, .failed error) => .ok (none, .failed error)
    | (.nil, reader) => .ok (some .nil, reader)
    | (.bool v, reader) => .ok (some (.bool v), reader)
    | (.int v, reader) => .ok (some (.int v), reader)
    | (.uint v, reader) => .ok (some (.uint v), reader)
    | (.float v, reader) => .ok (some (.float v), reader)
    | (.double v, reader) => .ok (some (.double v), reader)
    | (.str len, reader) =>
      -- the size `len + 1` is computed in 32 bits
      if (len + 1).toNat < len.toNat + 1 then .error .heapOverflow
      else
        let (buff, reader) := mpackReadBytes reader len.toNat
        .ok (some (objectCreateStr (some buff)), reader)
    | (.bin len, reader) =>
      let (buff, reader) := mpackReadBytes reader len.toNat
      .ok (some (.bin (some (rawBufferNew (some buff)))), reader)
    | (.array count, reader) => do
      let (arr, reader) ← objectUnmarshalElements (objectUnmarshalMPack fuel) count.toNat reader []
      return (some (.array (some arr)), reader)
    | (.map _, reader) => .ok (some .nil, reader)

/-- A nil object is freed and replaced by `NULL`. -/
def dropNil : Option Object → Option Object
  | some .nil => none
  | obj => obj

/-- The fields up to and including the error, with the reader in front of the result. -/
def responseUnmarshalError (b : Bytes) : Except Fault (Option (Response × Reader)) := do
  let (count, reader) := mpackExpectArray (mpackReaderInitData b)
  if mpackReaderError reader ≠ none ∨ count ≠ 4 then return none
  let response := responseNew
  let (type, reader) := mpackExpectU8 reader
  let response := { response with type := type.toUInt32 }
  if mpackReaderError reader ≠ none ∨ response.type ≠ hazeRpcResponse then return none
  let (msgid, reader) := mpackExpectU32 reader
  let response := { response with msgid := msgid }
  if mpackReaderError reader ≠ none then return none
  let (error, reader) ← objectUnmarshalMPack (b.length + 1) reader
  if mpackReaderError reader ≠ none then return none
  return some ({ response with error := dropNil error }, reader)

def responseUnmarshal (b : Bytes) : Except Fault (Option Response) := do
  if b.length = 0 then return none
  let some (response, reader) ← responseUnmarshalError b | return none
  let (result, reader) ← objectUnmarshalMPack (b.length + 1) reader
  if mpackReaderError reader ≠ none then return none
  return some { response with result := dropNil result }

/-! ## Termination -/

/-- A run that does not get stuck: it overflows, or it returns with no more bytes ahead
than before. -/
def Returns {α : Type} (reader : Reader) (out : Except Fault (α × Reader)) : Prop :=
  out = .error .heapOverflow ∨
    ∃ a reader', out = .ok (a, reader') ∧ mpackReaderRemaining reader' ≤ mpackReaderRemaining reader

theorem Returns.mono {α : Type} {reader reader' : Reader} {out : Except Fault (α × Reader)}
    (h : Returns reader' out) (hle : mpackReaderRemaining reader' ≤ mpackReaderRemaining reader) :
    Returns reader out := by
  obtain hover | ⟨a, reader'', hok, hle'⟩ := h
  · exact .inl hover
  · exact .inr ⟨a, reader'', hok, hle'.trans hle⟩

theorem objectUnmarshalElements_returns
    {read : Reader → Except Fault (Option Object × Reader)} {bound : Nat}
    (hread : ∀ reader, mpackReaderRemaining reader < bound → Returns reader (read reader))
    (n : Nat) {reader : Reader} (hbound : mpackReaderRemaining reader < bound)
    (arr : List Object) : Returns reader (objectUnmarshalElements read n reader arr) := by
  induction n generalizing reader arr with
  | zero => exact .inr ⟨arr, reader, rfl, le_rfl⟩
  | succ n ih =>
      rw [objectUnmarshalElements]
      obtain hover | ⟨child, reader', hok, hle⟩ := hread reader hbound
      · exact .inl (by simp [hover, bind, Except.bind])
      · simp only [hok, bind, Except.bind]
        exact (ih (lt_of_le_of_lt hle hbound) _).mono hle

/-- The decoder never runs out of a bound above what is left to read. -/
theorem objectUnmarshalMPack_returns (fuel : Nat) {reader : Reader}
    (hfuel : mpackReaderRemaining reader < fuel) :
    Returns reader (objectUnmarshalMPack fuel reader) := by
  induction fuel generalizing reader with
  | zero => cases hfuel
  | succ fuel ih =>
      rw [objectUnmarshalMPack]
      cases reader with
      | failed error => exact .inr ⟨none, _, rfl, le_rfl⟩
      | ok data =>
          have hlt := (mpackReadTag_follows (.ok data)).2
          generalize mpackReadTag (.ok data) = out at hlt ⊢
          obtain ⟨tag, rest | error⟩ := out
          case failed => exact .inr ⟨none, _, rfl, Nat.zero_le _⟩
          case ok =>
              replace hlt : rest.length < data.length := hlt rest rfl
              have hbytes := fun n =>
                (mpackReadBytes_follows (.ok rest) n).remaining_le.trans hlt.le
              cases tag with
              | str len =>
                  simp only
                  split_ifs
                  · exact .inl rfl
                  · exact .inr ⟨_, _, rfl, hbytes _⟩
              | bin len => exact .inr ⟨_, _, rfl, hbytes _⟩
              | array count =>
                  have hbound : mpackReaderRemaining (.ok rest) < fuel :=
                    lt_of_lt_of_le hlt (Nat.le_of_lt_succ hfuel)
                  simp only
                  obtain hover | ⟨arr, reader', hok, hle⟩ :=
                    objectUnmarshalElements_returns (fun _ h => ih h) count.toNat hbound []
                  · exact .inl (by simp [hover, bind, Except.bind])
                  · exact .inr ⟨_, _, by rw [hok]; rfl, hle.trans hlt.le⟩
              | _ => exact .inr ⟨_, _, rfl, hlt.le⟩

/-- The reader in front of the result has no more ahead than the buffer, and the error is
what the decoder returned. -/
theorem responseUnmarshalError_cases {b : Bytes} {out : Except Fault (Option (Response × Reader))}
    (hrun : responseUnmarshalError b = out) :
    out = .error .heapOverflow ∨ out = .ok none ∨ ∃ response reader error start,
      out = .ok (some (response, reader)) ∧ mpackReaderRemaining reader ≤ b.length ∧
        objectUnmarshalMPack (b.length + 1) start = .ok (error, reader) ∧
        response.error = dropNil error := by
  have hu8 : ∀ r : Reader, r.Follows (mpackExpectU8 r).2 := mpackExpectUnsigned_follows 0xff
  have hu32 : ∀ r : Reader, r.Follows (mpackExpectU32 r).2 := mpackExpectUnsigned_follows 0xffffffff
  have hstart := (((mpackExpectArray_follows (mpackReaderInitData b)).trans (hu8 _)).trans
    (hu32 _)).remaining_le
  rw [responseUnmarshalError] at hrun
  simp only [] at hrun
  split_ifs at hrun
  · exact .inr (.inl hrun.symm)
  · exact .inr (.inl hrun.symm)
  · exact .inr (.inl hrun.symm)
  · obtain hover | ⟨error, reader, hok, hle⟩ :=
      objectUnmarshalMPack_returns (b.length + 1) (Nat.lt_succ_of_le hstart)
    · rw [hover] at hrun
      exact .inl hrun.symm
    · rw [hok] at hrun
      simp only [bind, Except.bind] at hrun
      split_ifs at hrun
      · exact .inr (.inl hrun.symm)
      · exact .inr (.inr ⟨_, reader, error, _, hrun.symm, hle.trans hstart, hok, rfl⟩)

end Haze
