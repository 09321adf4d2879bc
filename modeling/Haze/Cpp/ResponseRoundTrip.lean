import Haze.Cpp.ResponseAgreement

/-
  Responses of the C++ client over the wire.

  `Response::Marshal` writes the canonical encoding of the wire value of each object
  (`objectMarshalMPack_put`), and `Response::Unmarshal` reads the encoding of a value
  without maps as that value's object (`objectUnmarshalMPack_whole_cpp`). So a response
  survives the round trip exactly when it is one and its strings, binaries and arrays have
  fewer than `2 ^ 32` bytes or elements (`responseUnmarshal_marshal_iff`): unlike the
  server's, a string may have NULs inside.
-/

open Msgpack

namespace Haze.Cpp

/-! ## Objects and values -/

namespace Object

/-- The elements of an array object. -/
def elements : Object → List Object
  | array xs => xs
  | _ => []

/-- Induction over objects: a property that passes from the elements of an array to the
array holds of every object. -/
@[elab_as_elim]
theorem elementInduction {P : Object → Prop}
    (step : ∀ o, (∀ x ∈ o.elements, P x) → P o) (o : Object) : P o := by
  refine Object.rec (motive_1 := P) (motive_2 := fun xs => ∀ x ∈ xs, P x)
    (motive_3 := fun _ => True) (motive_4 := fun _ => True) ?und ?nil ?bool ?int ?uint ?float
    ?double ?str ?bin ?array ?map ?noElems ?elems ?noPairs ?pairs ?pair o
  case array => exact fun xs ih => step _ ih
  case noElems => exact List.forall_mem_nil P
  case elems => exact fun x xs hx hxs => List.forall_mem_cons.mpr ⟨hx, hxs⟩
  all_goals intros; first | trivial | exact step _ (List.forall_mem_nil P)

/-- `p` holds of the object and of every object in its arrays. -/
inductive Everywhere (p : Object → Prop) : Object → Prop where
  | intro {o : Object} : p o → (∀ x ∈ o.elements, Everywhere p x) → Everywhere p o

theorem Everywhere.leaf {p : Object → Prop} {o : Object} (hp : p o) (hleaf : o.elements = []) :
    o.Everywhere p :=
  .intro hp (hleaf ▸ List.forall_mem_nil _)

/-- 32 bits count the bytes or the elements. -/
def Short : Object → Prop
  | str s => s.length < 2 ^ 32
  | bin b => b.length < 2 ^ 32
  | array xs => xs.length < 2 ^ 32
  | _ => True

mutual

/-- The value the bytes of an object come out as: lengths modulo `2 ^ 32`, nil for an empty
binary and a map. -/
def wireValue : Object → Value
  | .bool v => .bool v
  | .int v => .int v
  | .uint v => .uint v
  | .float bits => .float bits
  | .double bits => .double bits
  | .str s => .str (castBytes s)
  | .bin (b :: bs) => .bin (castBytes (b :: bs))
  | .array xs => .array (wireValues xs)
  | _ => .nil

def wireValues : List Object → List Value
  | [] => []
  | x :: xs => wireValue x :: wireValues xs

end

mutual

/-- The object of a decoded value. There is none for a map. -/
def ofValue : Value → Object
  | .nil | .map _ => .nil
  | .bool b => .bool b
  | .uint n => .uint n
  | .int n => .int n
  | .float bits => .float bits
  | .double bits => .double bits
  | .str s => .str s
  | .bin s => .bin s
  | .array vs => .array (ofValues vs)

def ofValues : List Value → List Object
  | [] => []
  | v :: vs => ofValue v :: ofValues vs

end

mutual

/-- An object after a round trip: a non-negative integer is unsigned, and nil stands for
what has no value. -/
def readBack : Object → Object
  | .int v => if 0 ≤ v then .uint v.toUInt64 else .int v
  | .und | .bin [] | .map _ => .nil
  | .array xs => .array (readBackAll xs)
  | o => o

def readBackAll : List Object → List Object
  | [] => []
  | x :: xs => readBack x :: readBackAll xs

end

theorem wireValues_eq_map (xs : List Object) : wireValues xs = xs.map wireValue := by
  induction xs with
  | nil => rfl
  | cons x xs ih => rw [wireValues, ih, List.map_cons]

theorem ofValues_eq_map (vs : List Value) : ofValues vs = vs.map ofValue := by
  induction vs with
  | nil => rfl
  | cons v vs ih => rw [ofValues, ih, List.map_cons]

theorem readBackAll_eq_map (xs : List Object) : readBackAll xs = xs.map readBack := by
  induction xs with
  | nil => rfl
  | cons x xs ih => rw [readBackAll, ih, List.map_cons]

theorem children_wireValue (o : Object) : o.wireValue.children = o.elements.map wireValue := by
  cases o with
  | array xs => simp [wireValue, Value.children, elements, wireValues_eq_map]
  | bin b => cases b <;> rfl
  | _ => rfl

theorem elements_readBack (o : Object) : o.readBack.elements = o.elements.map readBack := by
  cases o with
  | array xs => simp [readBack, elements, readBackAll_eq_map]
  | bin b => cases b <;> rfl
  | int v =>
      rw [readBack]
      split_ifs <;> rfl
  | _ => rfl

/-- A property of the wire values of objects, from the objects. -/
theorem Everywhere.wireValue {p : Object → Prop} {q : Value → Prop}
    (h : ∀ o, p o → q o.wireValue) {o : Object} (ho : o.Everywhere p) :
    o.wireValue.Everywhere q := by
  induction ho with
  | @intro o hp _ ih =>
      refine .intro (h o hp) ?_
      rw [children_wireValue, List.forall_mem_map]
      exact ih

theorem fits_wireValue {o : Object} (ho : o.Everywhere Short) : o.wireValue.Fits := by
  refine ho.wireValue fun x hshort => ?_
  cases x with
  | str s => exact length_castBytes_lt s
  | bin b =>
      cases b with
      | nil => exact Nat.two_pow_pos 32
      | cons b bs => exact length_castBytes_lt (b :: bs)
  | array xs => simpa [Object.wireValue, Value.count, wireValues_eq_map, Short] using hshort
  | _ => exact Nat.two_pow_pos 32

/-- No map is written. -/
theorem mapless_wireValue (o : Object) :
    o.wireValue.Everywhere fun v => ∀ kvs, v ≠ .map kvs := by
  induction o using elementInduction with
  | step o ih =>
      refine .intro ?_ ?_
      · intro kvs
        cases o with
        | bin b => cases b <;> nofun
        | _ => nofun
      · rw [children_wireValue, List.forall_mem_map]
        exact ih

/-- The object of a short object's wire value is what the object is read back as. -/
theorem ofValue_norm_wireValue {o : Object} (ho : o.Everywhere Short) :
    ofValue o.wireValue.norm = o.readBack := by
  induction ho with
  | @intro o hshort _ ih =>
      cases o with
      | int v =>
          simp only [Object.wireValue, Value.norm, readBack]
          split_ifs <;> rfl
      | str s =>
          rw [Object.wireValue, castBytes_of_lt hshort]
          rfl
      | bin b =>
          cases b with
          | nil => rfl
          | cons b bs =>
              rw [Object.wireValue, castBytes_of_lt hshort]
              rfl
      | array xs =>
          have hxs : xs.map (fun x => ofValue x.wireValue.norm) = xs.map readBack :=
            List.map_congr_left ih
          simpa [Object.wireValue, Value.norm, ofValue, readBack, wireValues_eq_map,
            ofValues_eq_map, readBackAll_eq_map, Value.normAll_eq_map, Function.comp_def] using hxs
      | _ => rfl

/-- What is read back is no shorter than what was sent. -/
theorem short_of_readBack {o : Object} (ho : o.readBack.Everywhere Short) :
    o.Everywhere Short := by
  induction o using elementInduction with
  | step o ih =>
      obtain ⟨hshort, hx⟩ := ho
      rw [elements_readBack, List.forall_mem_map] at hx
      refine .intro ?_ fun x hmem => ih x hmem (hx x hmem)
      cases o with
      | bin b =>
          cases b with
          | nil => exact Nat.two_pow_pos 32
          | cons b bs => exact hshort
      | array xs => simpa [readBack, Short, readBackAll_eq_map] using hshort
      | str s => exact hshort
      | _ => trivial

end Object

theorem objectMarshalElements_put {xs : List Object}
    (h : ∀ x ∈ xs, ∀ w, objectMarshalMPack w x = w.put (encode x.wireValue)) (w : Writer) :
    objectMarshalElements w xs = w.put (encodeAll (xs.map Object.wireValue)) := by
  induction xs generalizing w with
  | nil => simp [objectMarshalElements]
  | cons x xs ih =>
      obtain ⟨hx, hxs⟩ := List.forall_mem_cons.mp h
      rw [objectMarshalElements, hx, ih hxs, Writer.put_put, List.map_cons, encodeAll_cons]

/-- Marshalling an object appends the canonical encoding of its wire value. -/
theorem objectMarshalMPack_put (w : Writer) (o : Object) :
    objectMarshalMPack w o = w.put (encode o.wireValue) := by
  induction o using Object.elementInduction generalizing w with
  | step o ih =>
      cases o with
      | str s =>
          rw [objectMarshalMPack, mpackWriteStr_eq, Object.wireValue, encode_eq]
          simp only [Value.tag, Value.payload, Value.children, encodeAll_nil,
            List.append_nil, ofNat_length_castBytes, take_ofNat_length]
      | bin b =>
          cases b with
          | nil => rfl
          | cons b bs =>
              rw [objectMarshalMPack, if_pos (List.cons_ne_nil b bs), mpackWriteBin_eq,
                Object.wireValue, encode_eq]
              simp only [Value.tag, Value.payload, Value.children, encodeAll_nil,
                List.append_nil, ofNat_length_castBytes, take_ofNat_length]
      | array xs =>
          change ∀ x ∈ xs, _ at ih
          rw [objectMarshalMPack, mpackStartArray_eq, objectMarshalElements_put ih,
            Writer.put_put, Object.wireValue, encode, Object.wireValues_eq_map,
            List.length_map]
      | int v =>
          rw [objectMarshalMPack, mpackWriteInt, mpackWriteI64_eq, Object.wireValue, encode_eq]
          simp [Value.tag, Value.payload, Value.children]
      | uint v =>
          rw [objectMarshalMPack, mpackWriteUint, mpackWriteU64_eq, Object.wireValue, encode_eq]
          simp [Value.tag, Value.payload, Value.children]
      | bool v =>
          rw [objectMarshalMPack, mpackWriteBool_eq, Object.wireValue, encode_eq]
          simp [Value.tag, Value.payload, Value.children]
      | _ => rfl

theorem Response.marshal_eq (r : Response) :
    r.marshal = encode (.array [.uint r.type.toUInt64, .uint r.msgid.toUInt64,
      r.error.wireValue, r.result.wireValue]) := by
  rw [Response.marshal, Response.marshalWriter]
  simp [objectMarshalMPack_put, mpackWriterInitGrowable, mpackWriterDestroy, Writer.put, encode,
    Value.tag, Value.payload]

/-! ## Unmarshalling -/

theorem objectUnmarshalElements_whole_cpp {read : Reader → Except Fault (Object × Reader)}
    {vs : List Value} {bs : Bytes} (hbs : EncodesAll vs bs) (rest : Bytes)
    (hread : ∀ v ∈ vs, ∀ b rest, Encodes v b → b.length ≤ bs.length →
      read (.ok (b ++ rest)) = .ok (Object.ofValue v, .ok rest)) (arr : List Object) :
    objectUnmarshalElements read vs.length (.ok (bs ++ rest)) arr =
      .ok (arr ++ vs.map Object.ofValue, .ok rest) := by
  induction vs generalizing bs arr with
  | nil =>
      obtain rfl := encodesAll_nil_iff.mp hbs
      simp [objectUnmarshalElements]
  | cons v vs ih =>
      obtain ⟨b, body, rfl, hb, hbody⟩ := encodesAll_cons_iff.mp hbs
      obtain ⟨hv, hvs⟩ := List.forall_mem_cons.mp hread
      have hnext := ih hbody (fun w hw c rest hc hlen => hvs w hw c rest hc (by
        rw [List.length_append]
        omega)) (arr ++ [Object.ofValue v])
      rw [List.length_cons, objectUnmarshalElements, List.append_assoc, hv b _ hb (by simp)]
      simp only [bind, Except.bind]
      rw [hnext, List.append_assoc]
      rfl

/-- A value without maps is read whole. -/
theorem objectUnmarshalMPack_whole_cpp {v : Value}
    (hv : v.Everywhere fun w => ∀ kvs, w ≠ .map kvs) {b : Bytes} (hb : Encodes v b)
    (rest : Bytes) {fuel : Nat} (hfuel : b.length < fuel) :
    objectUnmarshalMPack fuel (.ok (b ++ rest)) = .ok (Object.ofValue v, .ok rest) := by
  induction hv generalizing b rest fuel with
  | @intro v hmap _ ih =>
      obtain ⟨h, body, hh, hcount, hbody, rfl⟩ := encodes_iff.mp hb
      have hpos := spells_length_pos hh
      obtain ⟨fuel, rfl⟩ := Nat.exists_eq_succ_of_ne_zero (Nat.ne_zero_of_lt hfuel)
      rw [List.append_assoc, List.append_assoc, objectUnmarshalMPack, mpackReadTag_spells hh]
      cases v with
      | str s =>
          obtain rfl := encodesAll_nil_iff.mp hbody
          have hto : (UInt32.ofNat s.length).toNat = s.length := UInt32.toNat_ofNat_of_lt' hcount
          simp only [Value.tag, Value.payload, hto, mpackReadBytes_append]
          rfl
      | bin s =>
          obtain rfl := encodesAll_nil_iff.mp hbody
          have hto : (UInt32.ofNat s.length).toNat = s.length := UInt32.toNat_ofNat_of_lt' hcount
          simp only [Value.tag, Value.payload, hto, mpackReadBytes_append]
          rfl
      | array vs =>
          have hto : (UInt32.ofNat vs.length).toNat = vs.length :=
            UInt32.toNat_ofNat_of_lt' hcount
          have hlen : body.length < fuel := by
            simp only [Value.payload, List.length_append] at hfuel
            omega
          have hloop : objectUnmarshalElements (objectUnmarshalMPack fuel) vs.length
              (.ok (body ++ rest)) [] = .ok (vs.map Object.ofValue, .ok rest) :=
            objectUnmarshalElements_whole_cpp hbody rest (fun v hv b rest hb hle =>
              ih v hv hb rest (lt_of_le_of_lt hle hlen)) []
          simp only [Value.tag, Value.payload, hto, List.nil_append, hloop, bind, Except.bind]
          rw [Object.ofValue, Object.ofValues_eq_map]
          rfl
      | map kvs => exact absurd rfl (hmap kvs)
      | _ =>
          obtain rfl := encodesAll_nil_iff.mp hbody
          rfl

/-- What the canonical frame of two values without maps is read back as. -/
theorem responseUnmarshal_encode_cpp (msgid : UInt32) {e r : Value} (he : e.Fits) (hr : r.Fits)
    (hemap : e.norm.Everywhere fun v => ∀ kvs, v ≠ .map kvs)
    (hrmap : r.norm.Everywhere fun v => ∀ kvs, v ≠ .map kvs) :
    responseUnmarshal (encode (.array [.uint 1, .uint msgid.toUInt64, e, r])) =
      .ok (some { type := rpcTypeResponse, msgid := msgid, error := .ofValue e.norm,
                  result := .ofValue r.norm }) := by
  have hheader : ResponseHeader msgid (encode (.array [.uint 1, .uint msgid.toUInt64, e, r]))
      (encode e ++ encode r) :=
    ⟨.uint 1, .uint msgid.toUInt64, header (.array 4), header (.uint 1),
      header (.uint msgid.toUInt64), spells_header (.array 4), ⟨rfl, spells_header (.uint 1)⟩,
      ⟨rfl, spells_header (.uint msgid.toUInt64)⟩,
      by simp [encode, Value.tag, Value.payload]⟩
  generalize encode (.array [.uint 1, .uint msgid.toUInt64, e, r]) = f at hheader ⊢
  have hlen := (responseHeader_length hheader).2
  rw [List.length_append] at hlen
  have herror : objectUnmarshalMPack (f.length + 1) (.ok (encode e ++ encode r)) =
      .ok (.ofValue e.norm, .ok (encode r)) :=
    objectUnmarshalMPack_whole_cpp hemap (encodes_encode he) _ (by omega)
  have hresult : objectUnmarshalMPack (f.length + 1) (.ok (encode r ++ [])) =
      .ok (.ofValue r.norm, .ok []) :=
    objectUnmarshalMPack_whole_cpp hrmap (encodes_encode hr) _ (by omega)
  rw [List.append_nil] at hresult
  rw [responseUnmarshal_pair_cpp hheader, readPair, herror]
  simp only [bind, Except.bind]
  rw [hresult]
  rfl

/-! ## What a decoder returns -/

theorem objectUnmarshalElements_short_cpp {read : Reader → Except Fault (Object × Reader)}
    (hread : ∀ reader obj reader', read reader = .ok (obj, reader') →
      obj.Everywhere Object.Short)
    {n : Nat} {reader reader' : Reader} {arr arr' : List Object}
    (harr : ∀ o ∈ arr, o.Everywhere Object.Short)
    (hrun : objectUnmarshalElements read n reader arr = .ok (arr', reader')) :
    (∀ o ∈ arr', o.Everywhere Object.Short) ∧ arr'.length = arr.length + n := by
  induction n generalizing reader arr with
  | zero =>
      obtain ⟨rfl, -⟩ := Prod.mk.inj (Except.ok.inj hrun)
      exact ⟨harr, rfl⟩
  | succ n ih =>
      obtain ⟨⟨child, reader⟩, hone, hrest⟩ := bind_eq_ok.mp hrun
      have happend : ∀ o ∈ arr ++ [child], o.Everywhere Object.Short :=
        List.forall_mem_append.mpr ⟨harr, List.forall_mem_singleton.mpr (hread _ _ _ hone)⟩
      obtain ⟨hall, hlen⟩ := ih happend hrest
      rw [List.length_append, List.length_singleton] at hlen
      exact ⟨hall, by omega⟩

/-- Whatever is read is short. -/
theorem objectUnmarshalMPack_short_cpp (fuel : Nat) (reader : Reader) {obj : Object}
    {reader' : Reader} (hrun : objectUnmarshalMPack fuel reader = .ok (obj, reader')) :
    obj.Everywhere Object.Short := by
  induction fuel generalizing reader obj reader' with
  | zero => cases hrun
  | succ fuel ih =>
      have leaf : ∀ {o : Object} {r : Reader}, o.Short → o.elements = [] →
          (.ok (o, r) : Except Fault _) = .ok (obj, reader') → obj.Everywhere Object.Short := by
        rintro o r hshort hnil heq
        obtain ⟨rfl, -⟩ := Prod.mk.inj (Except.ok.inj heq)
        exact .leaf hshort hnil
      rw [objectUnmarshalMPack] at hrun
      generalize mpackReadTag reader = out at hrun
      obtain ⟨tag, data | error⟩ := out
      case failed =>
        obtain ⟨rfl, -⟩ := Prod.mk.inj (Except.ok.inj hrun)
        exact .leaf trivial rfl
      cases tag with
      | str len =>
          refine leaf ?_ rfl hrun
          exact (length_mpackReadBytes (.ok data) len.toNat).trans_lt len.toNat_lt
      | bin len =>
          refine leaf ?_ rfl hrun
          exact (length_mpackReadBytes (.ok data) len.toNat).trans_lt len.toNat_lt
      | array count =>
          obtain ⟨⟨arr, reader'⟩, hloop, hrest⟩ := bind_eq_ok.mp hrun
          obtain ⟨hall, hlen⟩ := objectUnmarshalElements_short_cpp
            (fun reader obj reader' hread => ih reader hread) (List.forall_mem_nil _) hloop
          obtain ⟨rfl, -⟩ := Prod.mk.inj (Except.ok.inj hrest)
          refine .intro ?_ hall
          rw [List.length_nil, Nat.zero_add] at hlen
          exact hlen.trans_lt count.toNat_lt
      | _ =>
          refine leaf ?_ rfl hrun
          trivial

/-- Everything in a response that comes back is short. -/
theorem responseUnmarshal_short_cpp {b : BinaryBuffer} {response : Response}
    (hrun : responseUnmarshal b = .ok (some response)) :
    response.type = rpcTypeResponse ∧ response.error.Everywhere Object.Short ∧
      response.result.Everywhere Object.Short := by
  by_cases hheader : ∃ msgid body, ResponseHeader msgid b body
  · obtain ⟨msgid, body, hheader⟩ := hheader
    rw [responseUnmarshal_pair_cpp hheader] at hrun
    obtain ⟨out, hpair, hrest⟩ := bind_eq_ok.mp hrun
    obtain ⟨⟨error, start⟩, herror, hpair⟩ := bind_eq_ok.mp hpair
    obtain ⟨⟨result, reader⟩, hresult, hpair⟩ := bind_eq_ok.mp hpair
    obtain rfl := Except.ok.inj hpair
    dsimp only at hrest
    split_ifs at hrest
    · cases hrest
    · obtain rfl := Option.some.inj (Except.ok.inj hrest)
      exact ⟨rfl, objectUnmarshalMPack_short_cpp _ _ herror,
        objectUnmarshalMPack_short_cpp _ _ hresult⟩
  · have hforeign : ∀ msgid body, ¬ResponseHeader msgid b body := fun msgid body h =>
      hheader ⟨msgid, body, h⟩
    rw [responseUnmarshal, responseUnmarshalError_foreign_cpp hforeign] at hrun
    split_ifs at hrun <;> cases hrun

/-! ## The round trip -/

/-- A response survives the round trip exactly when it is one and is short throughout. -/
theorem responseUnmarshal_marshal_iff (r : Response) :
    responseUnmarshal r.marshal =
        .ok (some { r with error := r.error.readBack, result := r.result.readBack }) ↔
      r.type = rpcTypeResponse ∧ r.error.Everywhere Object.Short ∧
        r.result.Everywhere Object.Short := by
  constructor
  · intro hrun
    obtain ⟨htype, herror, hresult⟩ := responseUnmarshal_short_cpp hrun
    exact ⟨htype, Object.short_of_readBack herror, Object.short_of_readBack hresult⟩
  · rintro ⟨htype, herror, hresult⟩
    have hmapless : ∀ o : Object, o.wireValue.norm.Everywhere fun v => ∀ kvs, v ≠ .map kvs :=
      fun o => (Object.mapless_wireValue o).norm fun v hv kvs heq => by
        cases v with
        | map kvs => exact hv kvs rfl
        | int n =>
            rw [Value.norm] at heq
            split_ifs at heq
        | _ => cases heq
    have hone : r.type.toUInt64 = 1 := by
      rw [htype]
      rfl
    rw [Response.marshal_eq, hone, responseUnmarshal_encode_cpp _ (Object.fits_wireValue herror)
      (Object.fits_wireValue hresult) (hmapless _) (hmapless _),
      Object.ofValue_norm_wireValue herror, Object.ofValue_norm_wireValue hresult, htype]

end Haze.Cpp
