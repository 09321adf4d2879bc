import Haze.Mpack.Writer
import Haze.Object

/-
  What the message modules share: the message types, the outcome of a run, and objects on
  the mpack writer.

  `objectMarshalMPack` is the static helper that the request and the response modules
  both carry. It casts every length to 32 bits and writes nil for what it cannot
  represent; `Object.wireValue` is the value these bytes come out as
  (`objectMarshalMPack_eq`), and it is the value the object stands for where the casts
  lose nothing (`wireValue_eq_toValue`).
-/

open Msgpack

namespace Haze

/-- `HAZE_RPC_REQUEST`, `HAZE_RPC_RESPONSE` and `HAZE_RPC_NOTIFICATION`. The enum is an
unsigned 32-bit integer, which a cast can give any value. -/
abbrev HazeServerRPCType := UInt32

def hazeRpcRequest : HazeServerRPCType := 0
def hazeRpcResponse : HazeServerRPCType := 1
def hazeRpcNotification : HazeServerRPCType := 2

/-! ## Runs -/

/-- What ends a run without a result: a write past an allocation, or the recursion bound
of the model. -/
inductive Fault where
  | heapOverflow
  | outOfFuel
  deriving DecidableEq, Repr

theorem bind_eq_ok {α β ε : Type} {x : Except ε α} {f : α → Except ε β} {b : β} :
    x >>= f = .ok b ↔ ∃ a, x = .ok a ∧ f a = .ok b := by
  cases x <;> simp [bind, Except.bind]

/-! ## The writer -/

mutual

def objectMarshalMPack (w : Writer) : Object → Writer
  | .nil => mpackWriteNil w
  | .bool v => mpackWriteBool w v
  | .int v => mpackWriteInt w v
  | .uint v => mpackWriteUint w v
  | .float bits => mpackWriteFloat w bits
  | .double bits => mpackWriteDouble w bits
  | .str (some s) => mpackWriteStr w s.bytes (.ofNat s.strlen)
  | .str none => mpackWriteNil w
  | .bin (some ⟨some data⟩) => mpackWriteBin w data (.ofNat data.length)
  | .bin _ => mpackWriteNil w
  | .array (some xs) => objectMarshalElements (mpackStartArray w (.ofNat xs.length)) xs
  | .array none => mpackWriteNil w
  | .und | .map _ => mpackWriteNil w

/-- The loop over the elements of an array. -/
def objectMarshalElements (w : Writer) : List Object → Writer
  | [] => w
  | x :: xs => objectMarshalElements (objectMarshalMPack w x) xs

end

/-- A `NULL` object is written as nil. -/
def objectMarshalMPackPtr (w : Writer) : Option Object → Writer
  | none => mpackWriteNil w
  | some obj => objectMarshalMPack w obj

/-! ## Casts of lengths -/

/-- The bytes that are sent when a length is cast to 32 bits. -/
def castBytes (bs : Bytes) : Bytes := bs.take (bs.length % 2 ^ 32)

theorem length_castBytes (bs : Bytes) : (castBytes bs).length = bs.length % 2 ^ 32 :=
  List.length_take_of_le (Nat.mod_le _ _)

theorem length_castBytes_lt (bs : Bytes) : (castBytes bs).length < 2 ^ 32 := by
  rw [length_castBytes]
  exact Nat.mod_lt _ (by decide)

theorem castBytes_of_lt {bs : Bytes} (h : bs.length < 2 ^ 32) : castBytes bs = bs := by
  rw [castBytes, Nat.mod_eq_of_lt h, List.take_length]

theorem ofNat_length_castBytes (bs : Bytes) :
    UInt32.ofNat (castBytes bs).length = .ofNat bs.length := by
  apply UInt32.toNat_inj.mp
  rw [length_castBytes, UInt32.toNat_ofNat', UInt32.toNat_ofNat', Nat.mod_mod]

theorem take_ofNat_length (bs : Bytes) :
    bs.take (UInt32.ofNat bs.length).toNat = castBytes bs := by
  rw [UInt32.toNat_ofNat', castBytes]

/-! ## The value on the wire -/

namespace Object

mutual

/-- The value the bytes of an object come out as: lengths modulo `2 ^ 32`, nil for a kind
or a pointer that is not written. -/
def wireValue : Object → Value
  | .bool v => .bool v
  | .int v => .int v
  | .uint v => .uint v
  | .float bits => .float bits
  | .double bits => .double bits
  | .str (some s) => .str (castBytes s.bytes)
  | .bin (some ⟨some data⟩) => .bin (castBytes data)
  | .array (some xs) => .array (wireValues xs)
  | _ => .nil

def wireValues : List Object → List Value
  | [] => []
  | x :: xs => wireValue x :: wireValues xs

end

theorem wireValues_eq_map (xs : List Object) : wireValues xs = xs.map wireValue := by
  induction xs with
  | nil => rfl
  | cons x xs ih => rw [wireValues, ih, List.map_cons]

end Object

theorem objectMarshalElements_eq {xs : List Object}
    (h : ∀ x ∈ xs, ∀ w, objectMarshalMPack w x = w.put (encode x.wireValue)) (w : Writer) :
    objectMarshalElements w xs = w.put (encodeAll (xs.map Object.wireValue)) := by
  induction xs generalizing w with
  | nil => simp [objectMarshalElements]
  | cons x xs ih =>
      obtain ⟨hx, hxs⟩ := List.forall_mem_cons.mp h
      rw [objectMarshalElements, hx, ih hxs, Writer.put_put, List.map_cons, encodeAll_cons]

/-- Marshalling an object appends the canonical encoding of its wire value. -/
theorem objectMarshalMPack_eq (w : Writer) (o : Object) :
    objectMarshalMPack w o = w.put (encode o.wireValue) := by
  induction o using Object.elementInduction generalizing w with
  | step o ih =>
      cases o with
      | str s =>
          cases s with
          | none => rfl
          | some s =>
              rw [objectMarshalMPack, mpackWriteStr_eq, Object.wireValue, encode_eq]
              simp only [Value.tag, Value.payload, Value.children, encodeAll_nil,
                List.append_nil, CString.strlen, ofNat_length_castBytes, take_ofNat_length]
      | bin b =>
          obtain _ | ⟨_ | data⟩ := b
          · rfl
          · rfl
          · rw [objectMarshalMPack, mpackWriteBin_eq, Object.wireValue, encode_eq]
            simp only [Value.tag, Value.payload, Value.children, encodeAll_nil,
              List.append_nil, ofNat_length_castBytes, take_ofNat_length]
      | array xs =>
          cases xs with
          | none => rfl
          | some xs =>
              change ∀ x ∈ xs, _ at ih
              rw [objectMarshalMPack, mpackStartArray_eq, objectMarshalElements_eq ih,
                Writer.put_put, Object.wireValue, encode, Object.wireValues_eq_map,
                List.length_map]
      | int v =>
          rw [objectMarshalMPack, mpackWriteInt, mpackWriteI64_eq, Object.wireValue, encode_eq]
          simp [Value.tag, Value.payload, Value.children]
      | uint v =>
          rw [objectMarshalMPack, mpackWriteUint, mpackWriteU64_eq, Object.wireValue, encode_eq]
          simp [Value.tag, Value.payload, Value.children]
      | bool v =>
          rw [objectMarshalMPack, mpackWriteBool_eq, Object.wireValue, encode_eq]
          simp [Value.tag, Value.payload, Value.children]
      | _ => rfl

/-! ## Objects that are sent whole -/

namespace Object

/-- The kinds a request or a response carries: a binary has to hold bytes. -/
def Carried : Object → Prop
  | .und | .str none | .bin none | .array none | .map _ => False
  | .bin (some b) => b.bytes ≠ []
  | _ => True

/-- Strings are shorter than the bound, and binaries and arrays than `2 ^ 32`. -/
def Short (bound : Nat) : Object → Prop
  | .str (some s) => s.strlen < bound
  | .bin (some b) => b.bytes.length < 2 ^ 32
  | .array (some xs) => xs.length < 2 ^ 32
  | _ => True

theorem stands_of_carried {o : Object} (h : o.Carried) : o.Stands := by
  cases o with
  | bin b => cases b <;> trivial
  | str s => cases s <;> trivial
  | array xs => cases xs <;> trivial
  | _ => exact h

theorem wireValue_eq_toValue {bound : Nat} (hbound : bound ≤ 2 ^ 32) {o : Object}
    (ho : o.Everywhere fun x => Carried x ∧ Short bound x) : o.wireValue = o.toValue := by
  induction ho with
  | @intro o hboth _ ih =>
      obtain ⟨hcarried, hshort⟩ := hboth
      cases o with
      | str s =>
          cases s with
          | none => exact hcarried.elim
          | some s => rw [wireValue, toValue, castBytes_of_lt (lt_of_lt_of_le hshort hbound)]
      | bin b =>
          obtain _ | ⟨_ | data⟩ := b
          · exact hcarried.elim
          · exact absurd rfl hcarried
          · have hlen : data.length < 2 ^ 32 := hshort
            rw [wireValue, toValue, castBytes_of_lt hlen]
            rfl
      | array xs =>
          cases xs with
          | none => exact hcarried.elim
          | some xs =>
              rw [wireValue, toValue, wireValues_eq_map, toValues_eq_map]
              exact congrArg Value.array (List.map_congr_left ih)
      | map => exact hcarried.elim
      | _ => rfl

theorem fits_toValue {bound : Nat} (hbound : bound ≤ 2 ^ 32) {o : Object}
    (ho : o.Everywhere (Short bound)) : o.toValue.Fits := by
  refine ho.toValue fun x hshort => ?_
  cases x with
  | str s => cases s with
    | none => simp [toValue, Value.count]
    | some s => exact lt_of_lt_of_le hshort hbound
  | bin b => cases b with
    | none => simp [toValue, Value.count]
    | some b => exact hshort
  | array xs => cases xs with
    | none => simp [toValue, Value.count]
    | some xs => simpa [toValue, Value.count, toValues_eq_map, Short] using hshort
  | _ => simp [toValue, Value.count]

/-- A decoder keeps no bytes past the bound. -/
theorem short_objectCopy {bound : Nat} {o : Object} (ho : o.Everywhere (Short bound)) :
    (objectCopy o).Everywhere (Short bound) := by
  induction ho with
  | @intro o hshort _ ih =>
      refine .intro ?_ ?_
      · cases o with
        | bin b => cases b with
          | none => trivial
          | some b =>
              obtain ⟨_ | _ | _⟩ := b <;> exact hshort
        | array xs => cases xs with
          | none => trivial
          | some xs => simpa [objectCopy, Short, objectArrayCopy_eq_map] using hshort
        | str s => exact hshort
        | _ => trivial
      · rw [elements_objectCopy, List.forall_mem_map]
        exact ih

/-- An object read back is no shorter than what was sent. -/
theorem short_of_readBack {bound : Nat} {o : Object}
    (ho : o.readBack.Everywhere (Short bound)) : o.Everywhere (Short bound) := by
  refine everywhere_of_readBack (fun x hshort => ?_) ho
  cases x with
  | bin b => cases b with
    | none => trivial
    | some b =>
        obtain ⟨_ | _ | _⟩ := b <;> exact hshort
  | array xs => cases xs with
    | none => trivial
    | some xs => simpa [readBack, Short, readBackAll_eq_map] using hshort
  | str s => exact hshort
  | _ => trivial

end Object

end Haze
