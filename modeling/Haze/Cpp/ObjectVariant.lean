import Haze.Cpp.Response
import Haze.ObjectMap

/-
  `Haze::Object` as its class has it: a `type_` beside a `std::variant`.

  Nothing ties the two fields together, so `std::get` may ask for an alternative that is not
  there. It throws, which is `none` here. An object is `Consistent` when the alternative is
  the one its type names, and so for everything inside it; these are the objects of
  `Haze.Cpp.Object` (`consistent_iff`). Two of them are compared (`Consistent.equal`) and one
  is written (`marshalMPack_fields`) without an exception.
-/

open Msgpack

namespace Haze.Cpp

/-- `Object::ValueType`. -/
inductive ValueType (Object : Type) where
  | monostate
  | bool (v : Bool)
  | int64 (v : Int64)
  | uint64 (v : UInt64)
  | float (bits : UInt32)
  | double (bits : UInt64)
  | string (s : Bytes)
  | binaryBuffer (b : BinaryBuffer)
  | objectArray (arr : List Object)
  | objectMapTable (map : List (Object × Object))

/-- The fields of a `Haze::Object`. -/
structure ObjectFields where
  type : ObjectType
  value : ValueType ObjectFields

/-- `ObjectMapEntry`. -/
abbrev MapEntry := ObjectFields × ObjectFields

namespace ObjectFields

/-! ## Constructors and factories -/

def new : ObjectFields := { type := .und, value := .monostate }

/-- `Object(ObjectType)`, which gives every type the same value. -/
def ofType (type : ObjectType) : ObjectFields := { type := type, value := .monostate }

def ofBool (v : Bool) : ObjectFields := { type := .bool, value := .bool v }

def ofInt (v : Int64) : ObjectFields := { type := .int, value := .int64 v }

def ofUInt (v : UInt64) : ObjectFields := { type := .uint, value := .uint64 v }

def ofFloat (bits : UInt32) : ObjectFields := { type := .float, value := .float bits }

def ofDouble (bits : UInt64) : ObjectFields := { type := .double, value := .double bits }

def ofCharPtr (str : Option CString) : ObjectFields :=
  { type := .str, value := .string (str.getD (.ofString "NULL")).bytes }

def ofString (s : Bytes) : ObjectFields := { type := .str, value := .string s }

def ofBinary (b : BinaryBuffer) : ObjectFields := { type := .bin, value := .binaryBuffer b }

def ofArray (arr : List ObjectFields) : ObjectFields :=
  { type := .array, value := .objectArray arr }

def ofMap (map : List MapEntry) : ObjectFields := { type := .map, value := .objectMapTable map }

def createNil : ObjectFields := ofType .nil

def createBool (v : Bool) : ObjectFields := ofBool v

def createInt (v : Int64) : ObjectFields := ofInt v

def createUInt (v : UInt64) : ObjectFields := ofUInt v

def createFloat (bits : UInt32) : ObjectFields := ofFloat bits

def createDouble (bits : UInt64) : ObjectFields := ofDouble bits

def createStr (s : Bytes) : ObjectFields := ofString s

/-! ## Comparison -/

mutual

/-- `operator==`; `none` where a `std::get` throws. -/
def equal : ObjectFields → ObjectFields → Option Bool
  | ⟨type, value⟩, ⟨type', value'⟩ =>
    if type ≠ type' then some false
    else
      match type, value, value' with
      | .und, _, _ => some true
      | .nil, _, _ => some true
      | .bool, .bool a, .bool b => some (a = b)
      | .int, .int64 a, .int64 b => some (a = b)
      | .uint, .uint64 a, .uint64 b => some (a = b)
      | .float, .float a, .float b => some (floatEquals a b)
      | .double, .double a, .double b => some (doubleEquals a b)
      | .str, .string a, .string b => some (a = b)
      | .bin, .binaryBuffer a, .binaryBuffer b => some (a = b)
      | .array, .objectArray as, .objectArray bs =>
        if as.length ≠ bs.length then some false else equalElements as bs
      | .map, .objectMapTable as, .objectMapTable bs =>
        if as.length ≠ bs.length then some false else equalEntries as bs
      | _, _, _ => none

/-- Vectors of one length, up to the first elements that differ. -/
def equalElements : List ObjectFields → List ObjectFields → Option Bool
  | a :: as, b :: bs => do
    if ← equal a b then equalElements as bs else return false
  | _, _ => some true

def equalEntries : List MapEntry → List MapEntry → Option Bool
  | (key, value) :: as, (key', value') :: bs => do
    if ← equal key key' then
      if ← equal value value' then equalEntries as bs else return false
    else return false
  | _, _ => some true

end

/-! ## Arrays and maps -/

/-- An object of another kind becomes an empty array. -/
def asArray (o : ObjectFields) : ObjectFields :=
  if o.type ≠ .array then { type := .array, value := .objectArray [] } else o

/-- An object of another kind becomes an empty map. -/
def asMap (o : ObjectFields) : ObjectFields :=
  if o.type ≠ .map then { type := .map, value := .objectMapTable [] } else o

/-- The loop to the first entry with the key: where it is. -/
def findKey (key : ObjectFields) : List MapEntry → Option (Option Nat)
  | [] => some none
  | entry :: map => do
    if ← equal entry.1 key then return some 0
    else return (← findKey key map).map (· + 1)

/-! ## Consistent objects -/

/-- The value holds the alternative that the type names, down to the innermost object. -/
inductive Consistent : ObjectFields → Prop where
  | und : Consistent { type := .und, value := .monostate }
  | nil : Consistent { type := .nil, value := .monostate }
  | bool (v : Bool) : Consistent { type := .bool, value := .bool v }
  | int (v : Int64) : Consistent { type := .int, value := .int64 v }
  | uint (v : UInt64) : Consistent { type := .uint, value := .uint64 v }
  | float (bits : UInt32) : Consistent { type := .float, value := .float bits }
  | double (bits : UInt64) : Consistent { type := .double, value := .double bits }
  | str (s : Bytes) : Consistent { type := .str, value := .string s }
  | bin (b : BinaryBuffer) : Consistent { type := .bin, value := .binaryBuffer b }
  | array {arr : List ObjectFields} : (∀ x ∈ arr, Consistent x) →
      Consistent { type := .array, value := .objectArray arr }
  | map {map : List MapEntry} : (∀ entry ∈ map, Consistent entry.1) →
      (∀ entry ∈ map, Consistent entry.2) →
        Consistent { type := .map, value := .objectMapTable map }

theorem consistent_ofType_iff {type : ObjectType} :
    (ofType type).Consistent ↔ type = .und ∨ type = .nil := by
  constructor
  · intro h
    generalize hvalue : ofType type = o at h
    cases h <;> cases hvalue
    · exact .inl rfl
    · exact .inr rfl
  · intro h
    obtain rfl | rfl := h
    · exact .und
    · exact .nil

theorem equalElements_isSome {as bs : List ObjectFields}
    (has : ∀ a ∈ as, ∀ b, b.Consistent → (equal a b).isSome) (hbs : ∀ b ∈ bs, b.Consistent) :
    (equalElements as bs).isSome := by
  induction as generalizing bs with
  | nil => rfl
  | cons a as ih =>
      cases bs with
      | nil => rfl
      | cons b bs =>
          obtain ⟨ha, has⟩ := List.forall_mem_cons.mp has
          obtain ⟨hb, hbs⟩ := List.forall_mem_cons.mp hbs
          obtain ⟨same, hsame⟩ := Option.isSome_iff_exists.mp (ha b hb)
          rw [equalElements, hsame]
          cases same
          · rfl
          · exact ih has hbs

theorem equalEntries_isSome {as bs : List MapEntry}
    (hkeys : ∀ a ∈ as, ∀ b, b.Consistent → (equal a.1 b).isSome)
    (hvalues : ∀ a ∈ as, ∀ b, b.Consistent → (equal a.2 b).isSome)
    (hkeys' : ∀ b ∈ bs, b.1.Consistent) (hvalues' : ∀ b ∈ bs, b.2.Consistent) :
    (equalEntries as bs).isSome := by
  induction as generalizing bs with
  | nil => rfl
  | cons a as ih =>
      cases bs with
      | nil => rfl
      | cons b bs =>
          obtain ⟨hkey, hkeys⟩ := List.forall_mem_cons.mp hkeys
          obtain ⟨hvalue, hvalues⟩ := List.forall_mem_cons.mp hvalues
          obtain ⟨hkey', hkeys'⟩ := List.forall_mem_cons.mp hkeys'
          obtain ⟨hvalue', hvalues'⟩ := List.forall_mem_cons.mp hvalues'
          obtain ⟨sameKey, hsameKey⟩ := Option.isSome_iff_exists.mp (hkey b.1 hkey')
          obtain ⟨sameValue, hsameValue⟩ := Option.isSome_iff_exists.mp (hvalue b.2 hvalue')
          rw [equalEntries, hsameKey, hsameValue]
          cases sameKey
          · rfl
          · cases sameValue
            · rfl
            · exact ih hkeys hvalues hkeys' hvalues'

/-- Consistent objects are compared without an exception. -/
theorem Consistent.equal {a b : ObjectFields} (ha : a.Consistent) (hb : b.Consistent) :
    (equal a b).isSome := by
  induction ha generalizing b with
  | array _ ih =>
      cases hb with
      | array hbs =>
          unfold ObjectFields.equal
          split_ifs with htype
          · rfl
          · dsimp only
            split_ifs with hlen
            · rfl
            · exact equalElements_isSome (fun a ha b hb => ih a ha hb) hbs
      | _ => rfl
  | map _ _ ihKeys ihValues =>
      cases hb with
      | map hkeys hvalues =>
          unfold ObjectFields.equal
          split_ifs with htype
          · rfl
          · dsimp only
            split_ifs with hlen
            · rfl
            · exact equalEntries_isSome (fun a ha b hb => ihKeys a ha hb)
                (fun a ha b hb => ihValues a ha hb) hkeys hvalues
      | _ => rfl
  | _ => cases hb <;> rfl

theorem Consistent.asArray {o : ObjectFields} (h : o.Consistent) :
    ∃ arr, o.asArray = ofArray arr ∧ ∀ x ∈ arr, x.Consistent := by
  cases h with
  | array harr => exact ⟨_, rfl, harr⟩
  | _ => exact ⟨[], rfl, List.forall_mem_nil _⟩

theorem Consistent.asMap {o : ObjectFields} (h : o.Consistent) :
    ∃ map, o.asMap = ofMap map ∧ (∀ entry ∈ map, entry.1.Consistent) ∧
      ∀ entry ∈ map, entry.2.Consistent := by
  cases h with
  | map hkeys hvalues => exact ⟨_, rfl, hkeys, hvalues⟩
  | _ => exact ⟨[], rfl, List.forall_mem_nil _, List.forall_mem_nil _⟩

/-- The loop ends at an entry of the table or behind all of them. -/
theorem findKey_spec {key : ObjectFields} (hkey : key.Consistent) {map : List MapEntry}
    (hkeys : ∀ entry ∈ map, entry.1.Consistent) :
    findKey key map = some none ∨
      ∃ i entry, findKey key map = some (some i) ∧ map[i]? = some entry := by
  induction map with
  | nil => exact .inl rfl
  | cons entry map ih =>
      obtain ⟨hentry, hkeys⟩ := List.forall_mem_cons.mp hkeys
      obtain ⟨same, hsame⟩ := Option.isSome_iff_exists.mp (hentry.equal hkey)
      unfold findKey
      rw [hsame]
      cases same
      · obtain hnone | ⟨i, found, hfound, hentry⟩ := ih hkeys
        · left
          rw [hnone]
          rfl
        · right
          rw [hfound]
          exact ⟨i + 1, found, rfl, hentry⟩
      · exact .inr ⟨0, entry, rfl, rfl⟩

end ObjectFields

/-! ## The objects they stand for -/

mutual

/-- The fields that hold an object of the client. -/
def Object.fields : Object → ObjectFields
  | .und => .new
  | .nil => .createNil
  | .bool v => .ofBool v
  | .int v => .ofInt v
  | .uint v => .ofUInt v
  | .float bits => .ofFloat bits
  | .double bits => .ofDouble bits
  | .str s => .ofString s
  | .bin b => .ofBinary b
  | .array xs => .ofArray (fieldsElements xs)
  | .map table => .ofMap (fieldsEntries table)

def fieldsElements : List Object → List ObjectFields
  | [] => []
  | x :: xs => x.fields :: fieldsElements xs

def fieldsEntries : List (Object × Object) → List MapEntry
  | [] => []
  | (key, value) :: table => (key.fields, value.fields) :: fieldsEntries table

end

theorem fieldsElements_eq_map (xs : List Object) : fieldsElements xs = xs.map Object.fields := by
  induction xs with
  | nil => rfl
  | cons x xs ih => rw [fieldsElements, ih, List.map_cons]

theorem fieldsEntries_eq_map (table : List (Object × Object)) :
    fieldsEntries table = table.map (Prod.map Object.fields Object.fields) := by
  induction table with
  | nil => rfl
  | cons entry table ih =>
      rw [fieldsEntries, ih, List.map_cons]
      rfl

mutual

theorem Object.fields_consistent : ∀ p : Object, p.fields.Consistent
  | .und => .und
  | .nil => .nil
  | .bool v => .bool v
  | .int v => .int v
  | .uint v => .uint v
  | .float bits => .float bits
  | .double bits => .double bits
  | .str s => .str s
  | .bin b => .bin b
  | .array xs => .array (fieldsElements_consistent xs)
  | .map table => .map (fun entry hentry => (fieldsEntries_consistent table entry hentry).1)
      (fun entry hentry => (fieldsEntries_consistent table entry hentry).2)

theorem fieldsElements_consistent : ∀ xs : List Object, ∀ x ∈ fieldsElements xs, x.Consistent
  | [] => List.forall_mem_nil _
  | x :: xs => List.forall_mem_cons.mpr ⟨x.fields_consistent, fieldsElements_consistent xs⟩

theorem fieldsEntries_consistent : ∀ table : List (Object × Object),
    ∀ entry ∈ fieldsEntries table, entry.1.Consistent ∧ entry.2.Consistent
  | [] => List.forall_mem_nil _
  | (key, value) :: table => List.forall_mem_cons.mpr
      ⟨⟨key.fields_consistent, value.fields_consistent⟩, fieldsEntries_consistent table⟩

end

/-- The consistent fields are the ones that hold an object. -/
theorem consistent_iff {o : ObjectFields} : o.Consistent ↔ ∃ p : Object, p.fields = o := by
  constructor
  · intro h
    induction h with
    | und => exact ⟨.und, rfl⟩
    | nil => exact ⟨.nil, rfl⟩
    | bool v => exact ⟨.bool v, rfl⟩
    | int v => exact ⟨.int v, rfl⟩
    | uint v => exact ⟨.uint v, rfl⟩
    | float bits => exact ⟨.float bits, rfl⟩
    | double bits => exact ⟨.double bits, rfl⟩
    | str s => exact ⟨.str s, rfl⟩
    | bin b => exact ⟨.bin b, rfl⟩
    | @array arr _ ih =>
        obtain ⟨xs, hxs⟩ : arr ∈ Set.range (List.map Object.fields) := by
          rw [Set.range_list_map]
          exact ih
        refine ⟨.array xs, ?_⟩
        rw [Object.fields, fieldsElements_eq_map, hxs]
        rfl
    | @map map _ _ ihKeys ihValues =>
        obtain ⟨table, htable⟩ :
            map ∈ Set.range (List.map (Prod.map Object.fields Object.fields)) := by
          rw [Set.range_list_map]
          intro entry hentry
          rw [Set.range_prodMap]
          exact ⟨ihKeys entry hentry, ihValues entry hentry⟩
        refine ⟨.map table, ?_⟩
        rw [Object.fields, fieldsEntries_eq_map, htable]
        rfl
  · intro h
    obtain ⟨p, rfl⟩ := h
    exact p.fields_consistent

/-! ## Marshalling -/

mutual

/-- `ObjectMarshalMPack`; `none` where a `std::get` throws. -/
def marshalMPack (w : Writer) : ObjectFields → Option Writer
  | ⟨type, value⟩ =>
    match type, value with
    | .und, _ => some (mpackWriteNil w)
    | .nil, _ => some (mpackWriteNil w)
    | .bool, .bool v => some (mpackWriteBool w v)
    | .int, .int64 v => some (mpackWriteInt w v)
    | .uint, .uint64 v => some (mpackWriteUint w v)
    | .float, .float bits => some (mpackWriteFloat w bits)
    | .double, .double bits => some (mpackWriteDouble w bits)
    | .str, .string s => some (mpackWriteStr w s (.ofNat s.length))
    | .bin, .binaryBuffer b =>
      some (if b ≠ [] then mpackWriteBin w b (.ofNat b.length) else mpackWriteNil w)
    | .array, .objectArray arr => marshalElements (mpackStartArray w (.ofNat arr.length)) arr
    | .map, _ => some (mpackWriteNil w)
    | _, _ => none

def marshalElements (w : Writer) : List ObjectFields → Option Writer
  | [] => some w
  | child :: arr => do
    let w ← marshalMPack w child
    marshalElements w arr

end

mutual

/-- The fields of an object are written without an exception, as the object is. -/
theorem marshalMPack_fields : ∀ (p : Object) (w : Writer),
    marshalMPack w p.fields = some (objectMarshalMPack w p)
  | .und, _ | .nil, _ | .bool _, _ | .int _, _ | .uint _, _ | .float _, _ | .double _, _
  | .str _, _ | .map _, _ => rfl
  | .bin b, w => by
      unfold objectMarshalMPack
      rfl
  | .array xs, w => by
      have helements := marshalElements_fields xs (mpackStartArray w (.ofNat xs.length))
      have hlen : (fieldsElements xs).length = xs.length := by
        rw [fieldsElements_eq_map, List.length_map]
      unfold Object.fields objectMarshalMPack ObjectFields.ofArray marshalMPack
      dsimp only
      rw [hlen, helements]

theorem marshalElements_fields : ∀ (xs : List Object) (w : Writer),
    marshalElements w (fieldsElements xs) = some (objectMarshalElements w xs)
  | [], _ => rfl
  | x :: xs, w => by
      unfold fieldsElements marshalElements objectMarshalElements
      rw [marshalMPack_fields x w]
      exact marshalElements_fields xs (objectMarshalMPack w x)

end

end Haze.Cpp
