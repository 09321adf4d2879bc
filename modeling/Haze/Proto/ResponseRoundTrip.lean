import Haze.Proto.ResponseFrame

/-
  Responses over the wire.

  The object decoder reads the encoding of a value without maps as that value's object
  (`objectUnmarshalMPack_whole`), and everything it returns, from any reader, is short
  (`objectUnmarshalMPack_short`). So a response survives the round trip exactly when its
  strings, binaries and arrays are short (`responseUnmarshal_responseMarshal_iff`).
-/

open Msgpack

namespace Haze

/-! ## Decoding a value -/

/-- The decoder neither skips the value nor writes past its allocation. -/
def Decodable (v : Value) : Prop := (∀ kvs, v ≠ .map kvs) ∧ ¬Overlong v

theorem objectUnmarshalElements_whole {read : Reader → Except Fault (Option Object × Reader)}
    {vs : List Value} {bs : Bytes} (hbs : EncodesAll vs bs) (rest : Bytes)
    (hread : ∀ v ∈ vs, ∀ b rest, Encodes v b → b.length ≤ bs.length →
      read (.ok (b ++ rest)) = .ok (some (Object.ofValue v), .ok rest)) (arr : List Object) :
    objectUnmarshalElements read vs.length (.ok (bs ++ rest)) arr =
      .ok (arr ++ vs.map Object.ofValue, .ok rest) := by
  induction vs generalizing bs arr with
  | nil =>
      obtain rfl := encodesAll_nil_iff.mp hbs
      simp [objectUnmarshalElements]
  | cons v vs ih =>
      obtain ⟨b, body, rfl, hb, hbody⟩ := encodesAll_cons_iff.mp hbs
      obtain ⟨hv, hvs⟩ := List.forall_mem_cons.mp hread
      have hnext := ih hbody (fun w hw c rest hc hlen => hvs w hw c rest hc (by
        rw [List.length_append]
        omega)) (objectArrayAppend arr (Object.ofValue v))
      rw [List.length_cons, objectUnmarshalElements, List.append_assoc, hv b _ hb (by simp)]
      simp only [bind, Except.bind]
      rw [hnext, objectArrayAppend, Object.objectCopy_ofValue, List.append_assoc]
      rfl

theorem objectUnmarshalMPack_whole {v : Value} (hv : v.Everywhere Decodable) {b : Bytes}
    (hb : Encodes v b) (rest : Bytes) {fuel : Nat} (hfuel : b.length < fuel) :
    objectUnmarshalMPack fuel (.ok (b ++ rest)) = .ok (some (Object.ofValue v), .ok rest) := by
  induction hv generalizing b rest fuel with
  | @intro v hdec _ ih =>
      obtain ⟨h, body, hh, hcount, hbody, rfl⟩ := encodes_iff.mp hb
      have hpos := spells_length_pos hh
      obtain ⟨fuel, rfl⟩ := Nat.exists_eq_succ_of_ne_zero (Nat.ne_zero_of_lt hfuel)
      rw [List.append_assoc, List.append_assoc, objectUnmarshalMPack, mpackReadTag_spells hh]
      cases v with
      | str s =>
          obtain rfl := encodesAll_nil_iff.mp hbody
          have hto : (UInt32.ofNat s.length).toNat = s.length := UInt32.toNat_ofNat_of_lt' hcount
          have hroom := fun hlt => hdec.2 ((toNat_add_one_lt_iff hcount).mp hlt)
          simp only [Value.tag, Value.payload, hto, if_neg hroom, mpackReadBytes_append]
          rfl
      | bin s =>
          obtain rfl := encodesAll_nil_iff.mp hbody
          have hto : (UInt32.ofNat s.length).toNat = s.length := UInt32.toNat_ofNat_of_lt' hcount
          simp only [Value.tag, Value.payload, hto, mpackReadBytes_append]
          rfl
      | array vs =>
          have hto : (UInt32.ofNat vs.length).toNat = vs.length :=
            UInt32.toNat_ofNat_of_lt' hcount
          have hlen : body.length < fuel := by
            simp only [Value.payload, List.length_append] at hfuel
            omega
          have hloop : objectUnmarshalElements (objectUnmarshalMPack fuel) vs.length
              (.ok (body ++ rest)) [] = .ok (vs.map Object.ofValue, .ok rest) :=
            objectUnmarshalElements_whole hbody rest (fun v hv b rest hb hle =>
              ih v hv hb rest (lt_of_le_of_lt hle hlen)) []
          simp only [Value.tag, Value.payload, hto, List.nil_append, hloop, bind, Except.bind]
          rw [Object.ofValue, Object.ofValues_eq_map]
          rfl
      | map kvs => exact absurd rfl (hdec.1 kvs)
      | _ =>
          obtain rfl := encodesAll_nil_iff.mp hbody
          rfl

/-! ## What a decoder returns -/

theorem objectUnmarshalElements_short {read : Reader → Except Fault (Option Object × Reader)}
    {bound : Nat}
    (hread : ∀ reader obj reader', read reader = .ok (obj, reader') →
      ∀ o ∈ obj, o.Everywhere (Object.Short bound))
    {n : Nat} {reader reader' : Reader} {arr arr' : List Object}
    (harr : ∀ o ∈ arr, o.Everywhere (Object.Short bound))
    (hrun : objectUnmarshalElements read n reader arr = .ok (arr', reader')) :
    (∀ o ∈ arr', o.Everywhere (Object.Short bound)) ∧ arr'.length ≤ arr.length + n := by
  induction n generalizing reader arr with
  | zero =>
      obtain ⟨rfl, -⟩ : arr = arr' ∧ _ := by simpa [objectUnmarshalElements] using hrun
      exact ⟨harr, le_rfl⟩
  | succ n ih =>
      rw [objectUnmarshalElements] at hrun
      cases hone : read reader with
      | error fault => simp [hone, bind, Except.bind] at hrun
      | ok out =>
          obtain ⟨child, reader⟩ := out
          simp only [hone, bind, Except.bind] at hrun
          have hchild := hread _ _ _ hone
          cases child with
          | none =>
              obtain ⟨hall, hlen⟩ := ih harr hrun
              exact ⟨hall, by omega⟩
          | some child =>
              have happend : ∀ o ∈ objectArrayAppend arr child,
                  o.Everywhere (Object.Short bound) := by
                rw [objectArrayAppend, List.forall_mem_append, List.forall_mem_singleton]
                exact ⟨harr, Object.short_objectCopy (hchild child rfl)⟩
              obtain ⟨hall, hlen⟩ := ih happend hrun
              rw [objectArrayAppend, List.length_append, List.length_singleton] at hlen
              exact ⟨hall, by omega⟩

theorem objectUnmarshalMPack_short (fuel : Nat) (reader : Reader) {obj : Option Object}
    {reader' : Reader} (hrun : objectUnmarshalMPack fuel reader = .ok (obj, reader')) :
    ∀ o ∈ obj, o.Everywhere (Object.Short (2 ^ 32 - 1)) := by
  induction fuel generalizing reader obj reader' with
  | zero => simp [objectUnmarshalMPack] at hrun
  | succ fuel ih =>
      have leaf : ∀ {o : Object} {r : Reader}, o.Short (2 ^ 32 - 1) → o.elements = [] →
          (.ok (some o, r) : Except Fault _) = .ok (obj, reader') →
          ∀ o ∈ obj, o.Everywhere (Object.Short (2 ^ 32 - 1)) := by
        rintro o r hshort hnil heq
        obtain ⟨rfl, -⟩ : some o = obj ∧ _ := by simpa using heq
        rintro _ ⟨⟩
        exact .leaf hshort hnil
      rw [objectUnmarshalMPack] at hrun
      generalize mpackReadTag reader = out at hrun
      obtain ⟨tag, data | error⟩ := out
      case failed =>
        obtain ⟨rfl, -⟩ : none = obj ∧ _ := by simpa using hrun
        simp
      cases tag with
      | str len =>
          simp only at hrun
          split_ifs at hrun with hroom
          have hlen := length_mpackReadBytes (.ok data) len.toNat
          have hstr := CString.strlen_ofBytes_le (mpackReadBytes (.ok data) len.toNat).1
          have hlt : len.toNat + 1 < 2 ^ 32 := by
            have := len.toNat_lt
            rw [UInt32.toNat_add] at hroom
            simp at hroom
            omega
          exact leaf (Nat.lt_of_le_of_lt hstr (by omega)) rfl hrun
      | bin len =>
          have hlen : (rawBufferNew (some (mpackReadBytes (.ok data) len.toNat).1)).bytes.length <
              2 ^ 32 := by
            rw [bytes_rawBufferNew, Option.getD_some, length_mpackReadBytes]
            exact len.toNat_lt
          refine leaf ?_ rfl hrun
          exact hlen
      | array count =>
          simp only [bind, Except.bind] at hrun
          cases hloop : objectUnmarshalElements (objectUnmarshalMPack fuel) count.toNat
              (.ok data) [] with
          | error fault => simp [hloop] at hrun
          | ok out =>
              obtain ⟨arr, reader'⟩ := out
              obtain ⟨hall, hlen⟩ := objectUnmarshalElements_short
                (fun reader obj reader' hread => ih reader hread) (by simp) hloop
              simp only [hloop] at hrun
              obtain ⟨rfl, -⟩ : some (Object.array (some arr)) = obj ∧ _ := by
                simpa [pure, Except.pure] using hrun
              rintro _ ⟨⟩
              refine .intro ?_ hall
              have := count.toNat_lt
              simp only [Object.Short]
              simp at hlen
              omega
      | _ =>
          refine leaf ?_ rfl hrun
          trivial

theorem short_dropNil {bound : Nat} {obj : Option Object}
    (h : ∀ o ∈ obj, o.Everywhere (Object.Short bound)) :
    ∀ o ∈ dropNil obj, o.Everywhere (Object.Short bound) := by
  rcases obj with _ | (_ | _) <;> simp_all [dropNil]

theorem short_of_dropNil_readBack {bound : Nat} {obj : Option Object}
    (h : ∀ o ∈ dropNil (obj.map Object.readBack), o.Everywhere (Object.Short bound)) :
    ∀ o ∈ obj, o.Everywhere (Object.Short bound) := by
  rintro o ⟨⟩
  by_cases hnil : o.readBack = .nil
  · refine Object.short_of_readBack ?_
    rw [hnil]
    exact .leaf trivial rfl
  · refine Object.short_of_readBack (h _ ?_)
    simp [dropNil, hnil]

theorem responseUnmarshalError_short {b : Bytes} {response : Response} {reader : Reader}
    (hrun : responseUnmarshalError b = .ok (some (response, reader))) :
    ∀ o ∈ response.error, o.Everywhere (Object.Short (2 ^ 32 - 1)) := by
  obtain hover | hnone | ⟨_, _, error, start, hok, -, hread, herror⟩ :=
    responseUnmarshalError_cases hrun
  · cases hover
  · cases hnone
  · obtain ⟨rfl, -⟩ := Prod.mk.inj (Option.some.inj (Except.ok.inj hok))
    rw [herror]
    exact short_dropNil (objectUnmarshalMPack_short _ _ hread)

/-- Everything in a response that comes back is short. -/
theorem responseUnmarshal_short {b : Bytes} {response : Response}
    (hrun : responseUnmarshal b = .ok (some response)) :
    (∀ o ∈ response.error, o.Everywhere (Object.Short (2 ^ 32 - 1))) ∧
      ∀ o ∈ response.result, o.Everywhere (Object.Short (2 ^ 32 - 1)) := by
  rw [responseUnmarshal] at hrun
  split_ifs at hrun
  · cases hrun
  · obtain ⟨start, herror, hrest⟩ := bind_eq_ok.mp hrun
    cases start with
    | none => cases hrest
    | some start =>
        obtain ⟨response', reader⟩ := start
        obtain ⟨⟨result, reader'⟩, hread, hrest⟩ := bind_eq_ok.mp hrest
        simp only at hrest
        split_ifs at hrest
        · cases hrest
        · obtain rfl := Option.some.inj (Except.ok.inj hrest)
          have hshort := responseUnmarshalError_short herror
          exact ⟨hshort, short_dropNil (objectUnmarshalMPack_short _ _ hread)⟩

/-! ## The round trip -/

/-- The value in a field of a response: nil for `NULL`. -/
def fieldValue (obj : Option Object) : Value := (obj.map Object.wireValue).getD .nil

theorem objectMarshalMPackPtr_eq (w : Writer) (obj : Option Object) :
    objectMarshalMPackPtr w obj = w.put (encode (fieldValue obj)) := by
  cases obj with
  | none => rfl
  | some o => exact objectMarshalMPack_eq w o

theorem responseMarshal_eq {r : Response} (htype : r.type = hazeRpcResponse) :
    responseMarshal r = some (rawBufferNew (some
      (encode (.array [.uint 1, .uint r.msgid.toUInt64, fieldValue r.error,
        fieldValue r.result])))) := by
  have hone : hazeRpcResponse.toUInt8.toUInt64 = 1 := rfl
  rw [responseMarshal, responseMarshalWriter]
  simp [htype, hone, objectMarshalMPackPtr_eq, mpackWriterInitGrowable, mpackWriterDestroy,
    Writer.put, encode, Value.tag, Value.payload]

/-- Objects that are carried whole and that the decoder has room for. -/
def Object.Safe (o : Object) : Prop := o.Carried ∧ o.Short (2 ^ 32 - 1)

theorem decodable_toValue {o : Object} (ho : o.Safe) : Decodable o.toValue := by
  obtain ⟨hcarried, hshort⟩ := ho
  cases o with
  | str s =>
      cases s with
      | none => exact hcarried.elim
      | some s =>
          have hlen : s.bytes.length < 2 ^ 32 - 1 := hshort
          refine ⟨nofun, fun hover => ?_⟩
          have hover : s.bytes.length + 1 = 2 ^ 32 := hover
          omega
  | array xs => cases xs <;> exact ⟨nofun, id⟩
  | bin b => cases b <;> exact ⟨nofun, id⟩
  | _ => exact ⟨nofun, id⟩

theorem decodable_norm {v : Value} (hv : Decodable v) : Decodable v.norm := by
  cases v with
  | map kvs => exact absurd rfl (hv.1 kvs)
  | int n =>
      rw [Value.norm]
      split_ifs <;> simp [Decodable, Overlong]
  | array vs => simp [Value.norm, Decodable, Overlong]
  | _ => exact hv

/-- A safe field fits its encoding and comes back as itself. -/
theorem fieldValue_safe {obj : Option Object} (h : ∀ o ∈ obj, o.Everywhere Object.Safe) :
    (fieldValue obj).Fits ∧ (fieldValue obj).norm.Everywhere Decodable ∧
      dropNil (some (Object.ofValue (fieldValue obj).norm)) =
        dropNil (obj.map Object.readBack) := by
  cases obj with
  | none =>
      have hnil : Value.Everywhere Decodable .nil := .leaf ⟨nofun, id⟩ rfl
      exact ⟨Value.fits_of_scalar rfl (by decide), hnil, rfl⟩
  | some o =>
      have ho := h o rfl
      have hstands : o.Everywhere Object.Stands :=
        ho.mono fun x hx => Object.stands_of_carried hx.1
      have hwire : fieldValue (some o) = o.toValue :=
        Object.wireValue_eq_toValue (by decide) ho
      rw [hwire, Object.ofValue_norm_toValue hstands]
      exact ⟨Object.fits_toValue (by decide) (ho.mono fun x hx => hx.2),
        (ho.toValue fun x hx => decodable_toValue hx).norm fun v hv => decodable_norm hv, rfl⟩

/-- What the canonical frame of two values is read back as. -/
theorem responseUnmarshal_encode (msgid : UInt32) {e r : Value} (he : e.Fits) (hr : r.Fits)
    (hedec : e.norm.Everywhere Decodable) (hrdec : r.norm.Everywhere Decodable) :
    responseUnmarshal (encode (.array [.uint 1, .uint msgid.toUInt64, e, r])) =
      .ok (some { headerResponse msgid with
        error := dropNil (some (Object.ofValue e.norm)),
        result := dropNil (some (Object.ofValue r.norm)) }) := by
  have hf := responseFrame_encode msgid he hr
  generalize encode (.array [.uint 1, .uint msgid.toUInt64, e, r]) = f at hf ⊢
  have hlen := responseFrame_length hf
  rw [List.length_append] at hlen
  have herror : objectUnmarshalMPack (f.length + 1) (.ok (encode e ++ encode r)) =
      .ok (some (Object.ofValue e.norm), .ok (encode r)) :=
    objectUnmarshalMPack_whole hedec (encodes_encode he) _ (by omega)
  have hresult : objectUnmarshalMPack (f.length + 1) (.ok (encode r ++ [])) =
      .ok (some (Object.ofValue r.norm), .ok []) :=
    objectUnmarshalMPack_whole hrdec (encodes_encode hr) _ (by omega)
  rw [List.append_nil] at hresult
  rw [(responseUnmarshal_frame hf herror).2, hresult]
  rfl

/-- A response survives the round trip exactly when its strings are shorter than
`2 ^ 32 - 1` bytes and its binaries and arrays shorter than `2 ^ 32`. -/
theorem responseUnmarshal_responseMarshal_iff {r : Response} (htype : r.type = hazeRpcResponse)
    (herror : ∀ o ∈ r.error, o.Everywhere Object.Carried)
    (hresult : ∀ o ∈ r.result, o.Everywhere Object.Carried) :
    (∃ f, responseMarshal r = some f ∧ responseUnmarshal f.bytes = .ok (some { r with
      error := dropNil (r.error.map Object.readBack),
      result := dropNil (r.result.map Object.readBack) })) ↔
    (∀ o ∈ r.error, o.Everywhere (Object.Short (2 ^ 32 - 1))) ∧
      ∀ o ∈ r.result, o.Everywhere (Object.Short (2 ^ 32 - 1)) := by
  constructor
  · rintro ⟨f, -, hrun⟩
    obtain ⟨hshortError, hshortResult⟩ := responseUnmarshal_short hrun
    exact ⟨short_of_dropNil_readBack hshortError, short_of_dropNil_readBack hshortResult⟩
  · rintro ⟨hshortError, hshortResult⟩
    obtain ⟨he, hedec, heq⟩ := fieldValue_safe fun o ho => (herror o ho).and (hshortError o ho)
    obtain ⟨hr, hrdec, hreq⟩ :=
      fieldValue_safe fun o ho => (hresult o ho).and (hshortResult o ho)
    refine ⟨_, responseMarshal_eq htype, ?_⟩
    rw [bytes_rawBufferNew, Option.getD_some, responseUnmarshal_encode _ he hr hedec hrdec,
      heq, hreq, headerResponse, htype]

/-- The error text `e` and the result `[1]` survive. -/
theorem responseUnmarshal_responseMarshal_short :
    ∃ f, responseMarshal ⟨1, 7, some (.str (some (.ofString "e"))),
        some (.array (some [.int 1]))⟩ = some f ∧
      responseUnmarshal f.bytes = .ok (some ⟨1, 7, some (.str (some (.ofString "e"))),
        some (.array (some [.uint 1]))⟩) := by
  refine (@responseUnmarshal_responseMarshal_iff ⟨1, 7, some (.str (some (.ofString "e"))),
    some (.array (some [.int 1]))⟩ rfl ?_ ?_).mpr ⟨?_, ?_⟩
  · rintro _ ⟨⟩
    exact .leaf trivial rfl
  · rintro _ ⟨⟩
    exact .intro trivial (List.forall_mem_singleton.mpr (.leaf trivial rfl))
  · rintro _ ⟨⟩
    exact .leaf (by decide : (CString.ofString "e").strlen < 2 ^ 32 - 1) rfl
  · rintro _ ⟨⟩
    exact .intro (by decide : 1 < 2 ^ 32) (List.forall_mem_singleton.mpr (.leaf trivial rfl))

/-- An error text of `2 ^ 32 - 1` bytes does not. -/
theorem responseUnmarshal_responseMarshal_long :
    ¬∀ r : Response, r.type = hazeRpcResponse → (∀ o ∈ r.error, o.Everywhere Object.Carried) →
      (∀ o ∈ r.result, o.Everywhere Object.Carried) →
        ∃ f, responseMarshal r = some f ∧ responseUnmarshal f.bytes = .ok (some { r with
          error := dropNil (r.error.map Object.readBack),
          result := dropNil (r.result.map Object.readBack) }) := by
  intro hall
  obtain ⟨s, hs⟩ : ∃ s : CString, s.strlen = 2 ^ 32 - 1 := CString.exists_strlen _
  have hcarried : (Object.str (some s)).Everywhere Object.Carried := .leaf trivial rfl
  obtain ⟨f, -, hrun⟩ := hall ⟨1, 7, some (.str (some s)), none⟩ rfl
    (by rintro _ ⟨⟩; exact hcarried) nofun
  obtain ⟨hshort, -⟩ := (responseUnmarshal_short hrun).1 _ rfl
  have hlt : s.strlen < 2 ^ 32 - 1 := hshort
  omega

end Haze
