import Haze.Msgpack.Canonical

/-
  The server's dynamic value type.

  `Object` is the tagged union of the C code. A string is a `CString`, so its `size` is
  always its `strlen`; a binary is a `RawBuffer`; the pointers that may be `NULL` are
  options. Arrays own deep copies of what is appended to them (`objectArrayAppend`), and
  a copy keeps everything but the payload of a map.

  `Object.ofValue` is the object a MessagePack value is decoded to, and
  `Object.readBack` is what an object becomes over the wire.
-/

open Msgpack

namespace Haze

/-! ## C strings and buffers -/

/-- A NUL-terminated string: its bytes before the terminator. -/
@[ext]
structure CString where
  bytes : Bytes
  nulFree : 0 ∉ bytes
  deriving DecidableEq

namespace CString

/-- The C string at the start of a terminated byte buffer. -/
def ofBytes (bs : Bytes) : CString where
  bytes := bs.takeWhile (· ≠ 0)
  nulFree h := by simpa using List.mem_takeWhile_imp h

/-- The C string of an ASCII literal. -/
def ofString (s : String) : CString := ofBytes (s.toList.map fun c => .ofNat c.toNat)

def strlen (s : CString) : Nat := s.bytes.length

theorem ofBytes_bytes {bs : Bytes} (h : 0 ∉ bs) : (ofBytes bs).bytes = bs := by
  refine List.takeWhile_eq_self_iff.mpr fun b hb => ?_
  simpa using fun h0 : b = 0 => h (h0 ▸ hb)

theorem exists_strlen (n : Nat) : ∃ s : CString, s.strlen = n :=
  ⟨⟨List.replicate n 0x61, by simp⟩, List.length_replicate⟩

theorem strlen_ofBytes_le (bs : Bytes) : (ofBytes bs).strlen ≤ bs.length :=
  (List.takeWhile_prefix _).length_le

@[simp] theorem ofBytes_self (s : CString) : ofBytes s.bytes = s :=
  CString.ext (ofBytes_bytes s.nulFree)

end CString

/-- A buffer of `len` bytes; `data` is `none` when the pointer is `NULL`. -/
structure RawBuffer where
  data : Option Bytes
  deriving DecidableEq

def rawBufferLen (b : RawBuffer) : Nat := (b.data.getD []).length

/-- No storage is kept for zero bytes. -/
def rawBufferNew : Option Bytes → RawBuffer
  | some (b :: bs) => ⟨some (b :: bs)⟩
  | _ => ⟨none⟩

def rawBufferDup (b : RawBuffer) : RawBuffer := rawBufferNew b.data

/-- The bytes the buffer holds. -/
def RawBuffer.bytes (b : RawBuffer) : Bytes := b.data.getD []

@[simp] theorem bytes_rawBufferNew (data : Option Bytes) :
    (rawBufferNew data).bytes = data.getD [] := by
  rcases data with _ | (_ | _) <;> rfl

@[simp] theorem rawBufferDup_rawBufferNew (data : Option Bytes) :
    rawBufferDup (rawBufferNew data) = rawBufferNew data := by
  rcases data with _ | (_ | _) <;> rfl

/-! ## Objects -/

/-- `Object`. Floats and doubles are their bit patterns; a map holds the pairs of its
table. -/
inductive Object where
  | und
  | nil
  | bool (v : Bool)
  | int (v : Int64)
  | uint (v : UInt64)
  | float (bits : UInt32)
  | double (bits : UInt64)
  | str (s : Option CString)
  | bin (b : Option RawBuffer)
  | array (xs : Option (List Object))
  | map (pairs : Option (List (Object × Object)))
  deriving Inhabited

/-- `ObjectType`. -/
inductive ObjectType where
  | und | nil | bool | int | uint | float | double | str | bin | array | map
  deriving DecidableEq, Repr

def objectGetType : Object → ObjectType
  | .und => .und
  | .nil => .nil
  | .bool _ => .bool
  | .int _ => .int
  | .uint _ => .uint
  | .float _ => .float
  | .double _ => .double
  | .str _ => .str
  | .bin _ => .bin
  | .array _ => .array
  | .map _ => .map

/-- The buffer up to its first NUL is duplicated; `NULL` becomes the text `NULL`. -/
def objectCreateStr (str : Option Bytes) : Object :=
  .str (some (match str with
    | some bs => .ofBytes bs
    | none => .ofString "NULL"))

namespace Object

/-- The elements of an array object. -/
def elements : Object → List Object
  | array (some xs) => xs
  | _ => []

/-- Induction over objects: a property that passes from the elements of an array to the
array holds of every object. -/
@[elab_as_elim]
theorem elementInduction {P : Object → Prop}
    (step : ∀ o, (∀ x ∈ o.elements, P x) → P o) (o : Object) : P o := by
  refine Object.rec (motive_1 := P) (motive_2 := fun xs => ∀ x ∈ (array xs).elements, P x)
    (motive_3 := fun _ => True) (motive_4 := fun xs => ∀ x ∈ xs, P x) (motive_5 := fun _ => True)
    (motive_6 := fun _ => True) ?und ?nil ?bool ?int ?uint ?float ?double ?str ?bin ?array ?map
    ?noArray ?someArray ?noMap ?someMap ?noElems ?elems ?noPairs ?pairs ?pair o
  case array => exact fun xs ih => step _ ih
  case noArray => exact List.forall_mem_nil P
  case someArray => exact fun xs ih => ih
  case noElems => exact List.forall_mem_nil P
  case elems => exact fun x xs hx hxs => List.forall_mem_cons.mpr ⟨hx, hxs⟩
  all_goals intros; first | trivial | exact step _ (List.forall_mem_nil P)

/-- `p` holds of the object and of every object in its arrays. -/
inductive Everywhere (p : Object → Prop) : Object → Prop where
  | intro {o : Object} : p o → (∀ x ∈ o.elements, Everywhere p x) → Everywhere p o

theorem everywhere_iff {p : Object → Prop} {o : Object} :
    o.Everywhere p ↔ p o ∧ ∀ x ∈ o.elements, x.Everywhere p :=
  ⟨fun ⟨ho, hx⟩ => ⟨ho, hx⟩, fun ⟨ho, hx⟩ => .intro ho hx⟩

theorem Everywhere.leaf {p : Object → Prop} {o : Object} (hp : p o) (hleaf : o.elements = []) :
    o.Everywhere p :=
  .intro hp (hleaf ▸ List.forall_mem_nil _)

theorem Everywhere.and {p q : Object → Prop} {o : Object} (hp : o.Everywhere p)
    (hq : o.Everywhere q) : o.Everywhere fun x => p x ∧ q x := by
  induction hp with
  | intro ho _ ih =>
      obtain ⟨hqo, hqx⟩ := hq
      exact .intro ⟨ho, hqo⟩ fun x hx => ih x hx (hqx x hx)

theorem Everywhere.mono {p q : Object → Prop} (h : ∀ o, p o → q o) {o : Object}
    (ho : o.Everywhere p) : o.Everywhere q := by
  induction ho with
  | intro hp _ ih => exact .intro (h _ hp) ih

end Object

/-! ## Copies and arrays -/

mutual

/-- The payload of a map is not copied. -/
def objectCopy : Object → Object
  | .bin (some b) => .bin (some (rawBufferDup b))
  | .array (some xs) => .array (some (objectArrayCopy xs))
  | .map _ => .map none
  | o => o

def objectArrayCopy : List Object → List Object
  | [] => []
  | x :: xs => objectCopy x :: objectArrayCopy xs

end

/-- The array takes a deep copy. -/
def objectArrayAppend (xs : List Object) (obj : Object) : List Object := xs ++ [objectCopy obj]

theorem objectArrayCopy_eq_map (xs : List Object) : objectArrayCopy xs = xs.map objectCopy := by
  induction xs with
  | nil => rfl
  | cons x xs ih => rw [objectArrayCopy, ih, List.map_cons]

theorem elements_objectCopy (o : Object) :
    (objectCopy o).elements = o.elements.map objectCopy := by
  cases o with
  | array xs => cases xs <;> simp [objectCopy, Object.elements, objectArrayCopy_eq_map]
  | bin b => cases b <;> rfl
  | _ => rfl

/-! ## Objects of values -/

namespace Object

mutual

/-- The object of a decoded value. There is none for a map. -/
def ofValue : Value → Object
  | .nil => .nil
  | .bool b => .bool b
  | .uint n => .uint n
  | .int n => .int n
  | .float bits => .float bits
  | .double bits => .double bits
  | .str s => .str (some (.ofBytes s))
  | .bin s => .bin (some (rawBufferNew (some s)))
  | .array vs => .array (some (ofValues vs))
  | .map _ => .nil

def ofValues : List Value → List Object
  | [] => []
  | v :: vs => ofValue v :: ofValues vs

end

theorem ofValues_eq_map (vs : List Value) : ofValues vs = vs.map ofValue := by
  induction vs with
  | nil => rfl
  | cons v vs ih => rw [ofValues, ih, List.map_cons]

mutual

/-- The value an object stands for; nil where it stands for none. -/
def toValue : Object → Value
  | .bool v => .bool v
  | .int v => .int v
  | .uint v => .uint v
  | .float bits => .float bits
  | .double bits => .double bits
  | .str (some s) => .str s.bytes
  | .bin (some b) => .bin b.bytes
  | .array (some xs) => .array (toValues xs)
  | _ => .nil

def toValues : List Object → List Value
  | [] => []
  | x :: xs => toValue x :: toValues xs

end

mutual

/-- An object after a round trip: a non-negative integer is unsigned, and no storage is
kept for an empty binary. -/
def readBack : Object → Object
  | .int v => if 0 ≤ v then .uint v.toUInt64 else .int v
  | .bin (some b) => .bin (some (rawBufferDup b))
  | .array (some xs) => .array (some (readBackAll xs))
  | o => o

def readBackAll : List Object → List Object
  | [] => []
  | x :: xs => readBack x :: readBackAll xs

end

theorem toValues_eq_map (xs : List Object) : toValues xs = xs.map toValue := by
  induction xs with
  | nil => rfl
  | cons x xs ih => rw [toValues, ih, List.map_cons]

theorem readBackAll_eq_map (xs : List Object) : readBackAll xs = xs.map readBack := by
  induction xs with
  | nil => rfl
  | cons x xs ih => rw [readBackAll, ih, List.map_cons]

theorem children_toValue (o : Object) : o.toValue.children = o.elements.map toValue := by
  cases o with
  | array xs => cases xs <;> simp [toValue, Value.children, elements, toValues_eq_map]
  | bin b => cases b <;> rfl
  | str s => cases s <;> rfl
  | _ => rfl

theorem Everywhere.toValue {p : Object → Prop} {q : Value → Prop}
    (h : ∀ o, p o → q o.toValue) {o : Object} (ho : o.Everywhere p) :
    o.toValue.Everywhere q := by
  induction ho with
  | @intro o hp _ ih =>
      refine .intro (h o hp) ?_
      rw [children_toValue, List.forall_mem_map]
      exact ih

theorem elements_readBack (o : Object) : o.readBack.elements = o.elements.map readBack := by
  cases o with
  | array xs => cases xs <;> simp [readBack, elements, readBackAll_eq_map]
  | bin b => cases b <;> rfl
  | int v =>
      rw [readBack]
      split_ifs <;> rfl
  | _ => rfl

/-- What holds of an object read back held of it before. -/
theorem everywhere_of_readBack {p q : Object → Prop} (h : ∀ o, p o.readBack → q o)
    {o : Object} (ho : o.readBack.Everywhere p) : o.Everywhere q := by
  induction o using elementInduction with
  | step o ih =>
      obtain ⟨hp, hx⟩ := ho
      rw [elements_readBack, List.forall_mem_map] at hx
      exact .intro (h o hp) fun x hmem => ih x hmem (hx x hmem)

/-- The kinds of objects that stand for a value. -/
def Stands : Object → Prop
  | .und | .str none | .bin none | .array none | .map _ => False
  | _ => True

theorem ofValue_norm_toValue {o : Object} (h : o.Everywhere Stands) :
    ofValue o.toValue.norm = o.readBack := by
  induction h with
  | @intro o hstands _ ih =>
      cases o with
      | int v =>
          simp only [toValue, Value.norm, readBack]
          split_ifs <;> rfl
      | str s =>
          cases s with
          | none => exact hstands.elim
          | some s => simp [toValue, Value.norm, ofValue, readBack]
      | bin b =>
          cases b with
          | none => exact hstands.elim
          | some b =>
              have hdup : rawBufferNew (some b.bytes) = rawBufferDup b := by
                obtain ⟨_ | _ | _⟩ := b <;> rfl
              simp [toValue, Value.norm, ofValue, readBack, hdup]
      | array xs =>
          cases xs with
          | none => exact hstands.elim
          | some xs =>
              have hxs : xs.map (fun x => ofValue x.toValue.norm) = xs.map readBack :=
                List.map_congr_left ih
              simpa [toValue, Value.norm, ofValue, readBack, toValues_eq_map, ofValues_eq_map,
                readBackAll_eq_map, Value.normAll_eq_map, Function.comp_def] using hxs
      | map => exact hstands.elim
      | _ => first | rfl | exact hstands.elim

/-- What a decoder builds is its own copy. -/
@[simp] theorem objectCopy_ofValue (v : Value) : objectCopy (ofValue v) = ofValue v := by
  induction v using Value.childInduction with
  | step v ih =>
      cases v with
      | array vs =>
          have hvs : (vs.map ofValue).map objectCopy = vs.map ofValue := by
            rw [List.map_map]
            exact List.map_congr_left ih
          simp [ofValue, objectCopy, objectArrayCopy_eq_map, ofValues_eq_map, hvs]
      | bin s => simp [ofValue, objectCopy]
      | _ => rfl

end Object

end Haze
