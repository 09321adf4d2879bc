import Haze.Proto.RequestSync

/-
  What a request is decoded to.

  A request comes from a whole header and from nothing else
  (`requestUnmarshalHeader_sound`), and the parameter loop keeps what the header set
  (`requestUnmarshalParams_envelope`). The type and the msgid are 64-bit integers on the
  wire and are cast to 32 bits, where the response reader checks their range; strings end
  at their first NUL, where the notification reader refuses it. The two results say for
  which frames nothing is lost: `requestUnmarshal_integers_iff` and
  `requestUnmarshal_strings_iff`.
-/

open Msgpack

namespace Haze

/-! ## Headers -/

/-- What is read as a header is one. -/
theorem requestUnmarshalHeader_sound {data : Bytes} {request : Request} {count : UInt32}
    {reader : Reader}
    (hread : requestUnmarshalHeader (.ok data) = some (request, count, reader)) :
    ∃ msgid method head rest, RequestHeader msgid method count head ∧ data = head ++ rest ∧
      reader = .ok rest ∧ request = headerRequest msgid method := by
  obtain ⟨tArr, hArr, rest, harr, rfl⟩ | ⟨e, hcut, -⟩ := mpackReadTag_cases data
  swap
  · simp [requestUnmarshalHeader, hcut] at hread
  obtain ⟨type, hType, rest, htype, rfl⟩ | ⟨e, hcut, -⟩ := mpackReadTag_cases rest
  swap
  · simp [requestUnmarshalHeader, mpackReadTag_spells harr, hcut, tagCast] at hread
  obtain ⟨id, hId, rest, hid, rfl⟩ | ⟨e, hcut, -⟩ := mpackReadTag_cases rest
  swap
  · simp [requestUnmarshalHeader, mpackReadTag_spells harr, mpackReadTag_spells htype, hcut,
      tagCast] at hread
  obtain ⟨tMethod, hMethod, rest, hmethod, rfl⟩ | ⟨e, hcut, -⟩ := mpackReadTag_cases rest
  swap
  · simp [requestUnmarshalHeader, mpackReadTag_spells harr, mpackReadTag_spells htype,
      mpackReadTag_spells hid, hcut] at hread
  simp only [requestUnmarshalHeader, mpackReadTag_spells harr, mpackReadTag_spells htype,
    mpackReadTag_spells hid, mpackReadTag_spells hmethod, Option.bind_eq_bind,
    Option.bind_eq_some_iff, Option.guard_eq_some', exists_const] at hread
  obtain ⟨rfl, type32, hcast, rfl, msgid, hidcast, len, hlen, method, hbytes, hread⟩ := hread
  obtain ⟨rest, hlength, rfl⟩ := mpackReadBytesInplace_sound hbytes
  obtain rfl : tMethod = .str len := by
    cases tMethod <;> simp only [reduceCtorEq, Option.some.injEq] at hlen
    rw [hlen]
  rw [← hlength, mpackReadBytesInplace_append] at hread
  obtain ⟨tParams, hParams, rest, hparams, rfl⟩ | ⟨e, hcut, -⟩ := mpackReadTag_cases rest
  swap
  · simp [hcut] at hread
  rw [mpackReadTag_spells hparams] at hread
  obtain ⟨count', hcount, hread⟩ := hread
  obtain rfl : tParams = .array count' := by
    cases tParams <;> simp only [reduceCtorEq, Option.some.injEq] at hcount
    rw [hcount]
  obtain ⟨rfl, rfl, rfl⟩ : _ ∧ count' = count ∧ Reader.ok rest = reader := by
    simpa using hread
  have hspells : Spells (.str (.ofNat method.length)) hMethod := by
    rwa [hlength, UInt32.ofNat_toNat]
  have hlt : method.length < 2 ^ 32 := hlength ▸ len.toNat_lt
  refine ⟨msgid, method, _, rest, ⟨type, id, hArr, hType, hId, hMethod, hParams, harr,
    ⟨htype, hcast⟩, ⟨hid, hidcast⟩, ⟨hspells, hlt⟩, hparams, rfl⟩, ?_, rfl, rfl⟩
  simp only [List.append_assoc]

theorem requestParamAppend_envelope (rq : Request) (param : Object) (ind : UInt32) :
    ∃ ps, (requestParamAppend rq param ind).2 = { rq with parameters := ps } := by
  simp only [requestParamAppend]
  split_ifs
  · exact ⟨_, rfl⟩
  · exact ⟨rq.parameters, rfl⟩
  · exact ⟨_, rfl⟩

theorem requestUnmarshalParam_envelope (rq : Request) (reader : Reader) (i : UInt32) :
    ∃ ps, (requestUnmarshalParam rq reader i).1 = { rq with parameters := ps } := by
  unfold requestUnmarshalParam
  split
  case h_9 => exact ⟨rq.parameters, rfl⟩
  case h_10 => exact ⟨rq.parameters, rfl⟩
  all_goals exact requestParamAppend_envelope rq _ i

/-- The loop changes nothing but the parameters. -/
theorem requestUnmarshalParams_envelope (left : Nat) (rq : Request) (reader : Reader)
    (i : UInt32) :
    ∃ ps, (requestUnmarshalParams rq reader i left).1 = { rq with parameters := ps } := by
  induction left generalizing rq reader i with
  | zero => exact ⟨rq.parameters, rfl⟩
  | succ left ih =>
      obtain ⟨ps, hstep⟩ := requestUnmarshalParam_envelope rq reader i
      obtain ⟨ps', hrest⟩ := ih (requestUnmarshalParam rq reader i).1
        (requestUnmarshalParam rq reader i).2 (i + 1)
      refine ⟨ps', ?_⟩
      rw [requestUnmarshalParams]
      show (requestUnmarshalParams (requestUnmarshalParam rq reader i).1
        (requestUnmarshalParam rq reader i).2 (i + 1) left).1 = _
      rw [hrest, hstep]

/-- A request that is returned has the msgid and the method of a whole header. -/
theorem requestUnmarshal_sound {b : Bytes} {request : Request}
    (haccept : (requestUnmarshal b).1 = some request) :
    ∃ msgid method count head rest, RequestHeader msgid method count head ∧ b = head ++ rest ∧
      request.msgid = msgid ∧ request.method = some (.ofBytes method) := by
  cases hheader : requestUnmarshalHeader (.ok b) with
  | none =>
      rw [requestUnmarshal_of_header_none hheader] at haccept
      cases haccept
  | some read =>
      obtain ⟨rq, count, reader⟩ := read
      obtain ⟨msgid, method, head, rest, hh, rfl, -, -⟩ := requestUnmarshalHeader_sound hheader
      rw [requestUnmarshal_of_header hh] at haccept
      obtain ⟨ps, hparams⟩ := requestUnmarshalParams_envelope count.toNat
        (headerRequest msgid method) (.ok rest) 0
      rw [hparams] at haccept
      obtain rfl := Option.some.inj haccept
      exact ⟨msgid, method, _, head, rest, hh, rfl, rfl, rfl⟩

/-! ## Integers -/

/-- The integer an integer tag says. -/
def tagInteger : Tag → Option Int
  | .uint n => some n.toNat
  | .int n => some n.toInt
  | _ => none

/-- The cast keeps the integer modulo `2 ^ 32`. -/
theorem tagCast_of_integer {t : Tag} {z : Int} (ht : tagInteger t = some z) :
    ∃ c, tagCast t = some c ∧ (c.toNat : Int) = z % 2 ^ 32 := by
  cases t with
  | uint n =>
      obtain rfl := Option.some.inj ht
      refine ⟨_, rfl, ?_⟩
      rw [UInt64.toNat_toUInt32]
      omega
  | int n =>
      obtain rfl := Option.some.inj ht
      refine ⟨_, rfl, ?_⟩
      have hbits : n.toInt = (n.toUInt64.toNat : Int).bmod (2 ^ 64) := BitVec.toInt_eq_toNat_bmod _
      have hmod : n.toInt % (2 ^ 64 : Nat) = n.toUInt64.toNat % (2 ^ 64 : Nat) := by
        rw [hbits, Int.bmod_emod]
      rw [UInt64.toNat_toUInt32]
      omega
  | _ => cases ht

/-- The bytes after the msgid go on with a method and the header of params, as those of a
request do. -/
def OpensCall (tail : Bytes) : Prop :=
  ∃ (method hMethod hParams rest : Bytes) (count : UInt32),
    (Spells (.str (.ofNat method.length)) hMethod ∧ method.length < 2 ^ 32) ∧
    Spells (.array count) hParams ∧ tail = hMethod ++ (method ++ (hParams ++ rest))

section Integers

variable {type id : Tag} {hArr hType hId tail : Bytes}

/-- An accepted frame was cast to the type of a request, its msgid is the cast of its second
integer, and a call follows. -/
theorem requestUnmarshal_integers_sound (harr : Spells (.array 4) hArr)
    (htype : Spells type hType) (hid : Spells id hId) {request : Request}
    (haccept : (requestUnmarshal (hArr ++ (hType ++ (hId ++ tail)))).1 = some request) :
    tagCast type = some hazeRpcRequest ∧ tagCast id = some request.msgid ∧ OpensCall tail := by
  obtain ⟨msgid, method, count, head, rest, hh, hframe, hmsgid, -⟩ :=
    requestUnmarshal_sound haccept
  obtain ⟨type', id', hArr', hType', hId', hMethod, hParams, harr', ⟨htype', hcast⟩,
    ⟨hid', hidcast⟩, hmethod, hparams, rfl⟩ := hh
  simp only [List.append_assoc] at hframe
  obtain ⟨rfl, htypes⟩ := spells_prefix_free harr harr' hframe
  obtain ⟨rfl, hids⟩ := spells_prefix_free htype htype' htypes
  obtain ⟨rfl, htail⟩ := spells_prefix_free hid hid' hids
  obtain rfl := spells_unique htype htype'
  obtain rfl := spells_unique hid hid'
  exact ⟨hcast, hmsgid ▸ hidcast, method, hMethod, hParams, rest, count, hmethod, hparams, htail⟩

theorem requestUnmarshal_integers_complete (harr : Spells (.array 4) hArr)
    (htype : Spells type hType) (hid : Spells id hId) {msgid : UInt32}
    (hcast : tagCast type = some hazeRpcRequest) (hidcast : tagCast id = some msgid)
    (hcall : OpensCall tail) :
    ∃ request, (requestUnmarshal (hArr ++ (hType ++ (hId ++ tail)))).1 = some request ∧
      request.msgid = msgid := by
  obtain ⟨method, hMethod, hParams, rest, count, hmethod, hparams, rfl⟩ := hcall
  have hh : RequestHeader msgid method count
      (hArr ++ (hType ++ (hId ++ (hMethod ++ (method ++ hParams))))) :=
    ⟨type, id, hArr, hType, hId, hMethod, hParams, harr, ⟨htype, hcast⟩, ⟨hid, hidcast⟩, hmethod,
      hparams, rfl⟩
  have hread := requestUnmarshal_of_header hh rest
  obtain ⟨ps, hparams⟩ := requestUnmarshalParams_envelope count.toNat (headerRequest msgid method)
    (.ok rest) 0
  rw [hparams] at hread
  simp only [List.append_assoc] at hread
  exact ⟨_, by rw [hread], rfl⟩

/-- The integers of a frame are decoded without wrap-around just when no call follows them,
or the first is not a multiple of `2 ^ 32`, or they are in range. -/
theorem requestUnmarshal_integers_iff (harr : Spells (.array 4) hArr)
    (htype : Spells type hType) (hid : Spells id hId) {z m : Int}
    (hz : tagInteger type = some z) (hm : tagInteger id = some m) :
    (∀ request, (requestUnmarshal (hArr ++ (hType ++ (hId ++ tail)))).1 = some request →
        z = 0 ∧ (0 ≤ m ∧ m < 2 ^ 32) ∧ (request.msgid.toNat : Int) = m) ↔
      (¬OpensCall tail ∨ ¬2 ^ 32 ∣ z ∨ z = 0 ∧ 0 ≤ m ∧ m < 2 ^ 32) := by
  obtain ⟨c, hcast, hc⟩ := tagCast_of_integer hz
  obtain ⟨msgid, hidcast, hmsgid⟩ := tagCast_of_integer hm
  constructor
  · intro hdecoded
    by_contra hwraps
    obtain ⟨hcall, hdvd, hrange⟩ : OpensCall tail ∧ 2 ^ 32 ∣ z ∧ ¬(z = 0 ∧ 0 ≤ m ∧ m < 2 ^ 32) := by
      simpa only [not_or, not_not] using hwraps
    obtain rfl : c = hazeRpcRequest := by
      apply UInt32.toNat_inj.mp
      have hzero : hazeRpcRequest.toNat = 0 := rfl
      omega
    obtain ⟨request, haccept, -⟩ :=
      requestUnmarshal_integers_complete harr htype hid hcast hidcast hcall
    obtain ⟨hz0, hm0, -⟩ := hdecoded request haccept
    exact hrange ⟨hz0, hm0⟩
  · intro hcond request haccept
    obtain ⟨hcast', hidcast', hcall⟩ := requestUnmarshal_integers_sound harr htype hid haccept
    have hc0 : c = hazeRpcRequest := Option.some.inj (hcast.symm.trans hcast')
    have hm0 : msgid = request.msgid := Option.some.inj (hidcast.symm.trans hidcast')
    obtain hno | hdvd | ⟨hz0, hlo, hhi⟩ := hcond
    · exact absurd hcall hno
    · -- a type that is cast to zero is a multiple
      have hzero : (c.toNat : Int) = 0 := by rw [hc0]; rfl
      exact absurd (Int.dvd_of_emod_eq_zero (hc.symm.trans hzero)) hdvd
    · refine ⟨hz0, ⟨hlo, hhi⟩, ?_⟩
      rw [← hm0, hmsgid, Int.emod_eq_of_lt hlo hhi]

/-- The frame `[0, 1, "m", []]` is decoded to the msgid 1. -/
theorem requestUnmarshal_integers_iff_small :
    ∃ request, (requestUnmarshal ([0x94] ++ ([0x00] ++ ([0x01] ++ [0xa1, 0x6d, 0x90])))).1 =
        some request ∧
      (0 : Int) = 0 ∧ ((0 : Int) ≤ 1 ∧ (1 : Int) < 2 ^ 32) ∧ (request.msgid.toNat : Int) = 1 := by
  have htype : Spells (.uint 0) [0x00] := ⟨0x00, [], _, rfl, rfl, rfl, rfl⟩
  have hid : Spells (.uint 1) [0x01] := ⟨0x01, [], _, rfl, rfl, rfl, rfl⟩
  obtain ⟨request, haccept⟩ := Option.isSome_iff_exists.mp (by decide :
    (requestUnmarshal ([0x94] ++ ([0x00] ++ ([0x01] ++ [0xa1, 0x6d, 0x90])))).1.isSome)
  have harr : Spells (.array 4) [0x94] := ⟨0x94, [], _, rfl, rfl, rfl, rfl⟩
  exact ⟨request, haccept, (requestUnmarshal_integers_iff harr htype hid rfl rfl).mpr
    (.inr (.inr (by decide))) request haccept⟩

/-- The frame `[4294967296, 1, "m", []]` is taken for `[0, 1, "m", []]`. -/
theorem requestUnmarshal_integers_wrap :
    ¬∀ (type id : Tag) (hArr hType hId tail : Bytes) (z m : Int), Spells (.array 4) hArr →
      Spells type hType → Spells id hId → tagInteger type = some z → tagInteger id = some m →
      ∀ request, (requestUnmarshal (hArr ++ (hType ++ (hId ++ tail)))).1 = some request →
        z = 0 ∧ (0 ≤ m ∧ m < 2 ^ 32) ∧ (request.msgid.toNat : Int) = m := by
  intro hall
  have hwide : Spells (.uint 4294967296) [0xcf, 0, 0, 0, 1, 0, 0, 0, 0] :=
    ⟨0xcf, [0, 0, 0, 1, 0, 0, 0, 0], _, rfl, rfl, rfl, by decide⟩
  have hfalse := hall (.uint 4294967296) (.uint 1) [0x94] _ [0x01] [0xa1, 0x6d, 0x90] 4294967296 1
    ⟨0x94, [], _, rfl, rfl, rfl, rfl⟩ hwide ⟨0x01, [], _, rfl, rfl, rfl, rfl⟩ rfl rfl
  obtain ⟨request, haccept⟩ := Option.isSome_iff_exists.mp (by decide :
    (requestUnmarshal ([0x94] ++ ([0xcf, 0, 0, 0, 1, 0, 0, 0, 0] ++
      ([0x01] ++ [0xa1, 0x6d, 0x90])))).1.isSome)
  exact absurd (hfalse request haccept).1 (by decide)

end Integers

/-! ## Strings -/

theorem ofBytes_bytes_iff (bs : Bytes) : (CString.ofBytes bs).bytes = bs ↔ 0 ∉ bs := by
  constructor
  · intro hbytes h0
    exact (CString.ofBytes bs).nulFree (hbytes.symm ▸ h0)
  · exact CString.ofBytes_bytes

/-- `request` is what a complete frame with this method and these scalar parameters was
decoded to, whatever bytes were behind it. -/
def DecodedFrom (method : Bytes) (params : List Value) (request : Request) : Prop :=
  ∃ (type id : Value) (f rest : Bytes),
    Encodes (.array [type, id, Value.str method, .array params]) f ∧ (∀ v ∈ params, v.scalar) ∧
      (requestUnmarshal (f ++ rest)).1 = some request

/-- The method and the string parameters are the bytes of the frame. -/
def Unaltered (method : Bytes) (params : List Value) (request : Request) : Prop :=
  (∃ s, request.method = some s ∧ s.bytes = method) ∧
    ∀ (i : Nat) bs, params[i]? = some (Value.str bs) →
      ∃ s, request.parameters[i]? = some (Object.str (some s)) ∧ s.bytes = bs

/-- An integer is a header and nothing else. -/
theorem empty_of_tagCast {v : Value} {c : UInt32} {body : Bytes} (hcast : tagCast v.tag = some c)
    (hbody : EncodesAll v.children body) : v.payload = [] ∧ body = [] := by
  have hleaf : v.payload = [] ∧ v.children = [] := by
    cases v <;> first | exact ⟨rfl, rfl⟩ | cases hcast
  rw [hleaf.2] at hbody
  exact ⟨hleaf.1, encodesAll_nil_iff.mp hbody⟩

/-- An accepted frame of four values is a header followed by its parameters. -/
theorem requestFrame_of_accepted {type id : Value} {method f rest : Bytes} {params : List Value}
    {request : Request} (hf : Encodes (.array [type, id, .str method, .array params]) f)
    (haccept : (requestUnmarshal (f ++ rest)).1 = some request) :
    ∃ msgid h body, RequestHeader msgid method (.ofNat params.length) h ∧ EncodesAll params body ∧
      params.length < 2 ^ 32 ∧ f = h ++ body := by
  obtain ⟨hArr, tail, harr, -, htail, rfl⟩ := encodes_iff.mp hf
  obtain ⟨bType, tail, rfl, hbType, htail⟩ := encodesAll_cons_iff.mp htail
  obtain ⟨bId, tail, rfl, hbId, htail⟩ := encodesAll_cons_iff.mp htail
  obtain ⟨bMethod, bParams, rfl, hbMethod, hbParams⟩ := encodesAll_cons_iff.mp htail
  obtain ⟨hType, xType, htype, -, hxType, rfl⟩ := encodes_iff.mp hbType
  obtain ⟨hId, xId, hid, -, hxId, rfl⟩ := encodes_iff.mp hbId
  obtain ⟨hMethod, xMethod, hmethod, hlen, hxMethod, rfl⟩ := encodes_iff.mp hbMethod
  obtain ⟨hParams, body, hparams, hcount, hbody, rfl⟩ := encodes_iff.mp hbParams
  obtain rfl := encodesAll_nil_iff.mp hxMethod
  obtain ⟨msgid, method', count, head, rest', hh, hframe, -, -⟩ := requestUnmarshal_sound haccept
  obtain ⟨type', id', hArr', hType', hId', hMethod', hParams', harr', ⟨htype', hcast⟩,
    ⟨hid', hidcast⟩, -, -, rfl⟩ := hh
  -- the header that was read spells the same tags as the frame
  have hpArray : ∀ vs, (Value.array vs).payload = [] := fun _ => rfl
  have hpStr : (Value.str method).payload = method := rfl
  simp only [hpArray, hpStr, List.append_nil, List.append_assoc] at hframe
  obtain ⟨rfl, htypes⟩ := spells_prefix_free harr harr' hframe
  obtain ⟨rfl, hids⟩ := spells_prefix_free htype htype' htypes
  obtain rfl := spells_unique htype htype'
  obtain ⟨hpType, rfl⟩ := empty_of_tagCast hcast hxType
  rw [hpType, List.nil_append, List.nil_append] at hids
  obtain ⟨rfl, -⟩ := spells_prefix_free hid hid' hids
  obtain rfl := spells_unique hid hid'
  obtain ⟨hpId, rfl⟩ := empty_of_tagCast hidcast hxId
  refine ⟨msgid, _, body, ⟨type.tag, id.tag, hArr, hType, hId, hMethod, hParams, harr,
    ⟨htype, hcast⟩, ⟨hid, hidcast⟩, ⟨hmethod, hlen⟩, hparams, rfl⟩, hbody, hcount, ?_⟩
  simp [hpType, hpId, hpArray, hpStr]

/-- A complete frame with scalar parameters is decoded parameter by parameter. -/
theorem request_of_decodedFrom {method : Bytes} {params : List Value} {request : Request}
    (hdecoded : DecodedFrom method params request) :
    request.method = some (.ofBytes method) ∧ request.parameters = params.map Object.ofValue := by
  obtain ⟨type, id, f, rest, hf, hscalar, haccept⟩ := hdecoded
  obtain ⟨msgid, h, body, hh, hbody, hlen, rfl⟩ := requestFrame_of_accepted hf haccept
  rw [requestUnmarshal_flat hh hbody hlen fun v hv => Value.children_of_scalar (hscalar v hv)]
    at haccept
  obtain rfl := Option.some.inj haccept
  refine ⟨rfl, ?_⟩
  have hlast : ∀ v ∈ params.getLast?, v.scalar := fun v hv =>
    hscalar v (List.mem_of_getLast? hv)
  show (uptoScalar params).map paramOf = params.map Object.ofValue
  rw [uptoScalar_of_forall hlast]
  exact List.map_congr_left fun v hv => if_pos (hscalar v hv)

/-- Nothing of the strings of a frame is lost just when none of them contains a NUL, and
then two frames with different methods are not taken for calls of one method. -/
theorem requestUnmarshal_strings_iff {method : Bytes} {params : List Value} {request : Request}
    (hdecoded : DecodedFrom method params request) :
    (Unaltered method params request ↔ 0 ∉ method ∧ ∀ bs, Value.str bs ∈ params → 0 ∉ bs) ∧
      ∀ method' params' request', DecodedFrom method' params' request' → 0 ∉ method →
        0 ∉ method' → method ≠ method' → request.method ≠ request'.method := by
  obtain ⟨hmethod, hparams⟩ := request_of_decodedFrom hdecoded
  have hparam : ∀ (i : Nat) bs, params[i]? = some (Value.str bs) →
      request.parameters[i]? = some (Object.str (some (.ofBytes bs))) := fun i bs hi => by
    rw [hparams, List.getElem?_map, hi]
    rfl
  refine ⟨⟨?_, ?_⟩, ?_⟩
  · rintro ⟨⟨s, hs, hbytes⟩, hstrs⟩
    rw [hmethod] at hs
    obtain rfl := Option.some.inj hs
    refine ⟨(ofBytes_bytes_iff method).mp hbytes, fun bs hmem => ?_⟩
    obtain ⟨i, hi⟩ := List.mem_iff_getElem?.mp hmem
    obtain ⟨s, hs, hbytes⟩ := hstrs i bs hi
    rw [hparam i bs hi] at hs
    obtain rfl := Option.some.inj (Object.str.inj (Option.some.inj hs))
    exact (ofBytes_bytes_iff bs).mp hbytes
  · rintro ⟨hnul, hnuls⟩
    refine ⟨⟨_, hmethod, CString.ofBytes_bytes hnul⟩, fun i bs hi => ?_⟩
    exact ⟨_, hparam i bs hi, CString.ofBytes_bytes (hnuls bs (List.mem_of_getElem? hi))⟩
  · intro method' params' request' hdecoded' hnul hnul' hne hsame
    rw [hmethod, (request_of_decodedFrom hdecoded').1] at hsame
    have hbytes := congrArg CString.bytes (Option.some.inj hsame)
    rw [CString.ofBytes_bytes hnul, CString.ofBytes_bytes hnul'] at hbytes
    exact hne hbytes

/-- A frame of a request with scalar parameters is accepted. -/
theorem decodedFrom_of_requestFrame {msgid : UInt32} {method f : Bytes} {params : List Value}
    (hf : RequestFrame msgid method params f) (hscalar : ∀ v ∈ params, v.scalar) :
    ∃ request, DecodedFrom method params request := by
  obtain ⟨h, body, hh, hbody, hlen, hsplit⟩ := requestFrame_split hf
  obtain ⟨type, id, -, -, hf⟩ := hf
  have hflat := fun v hv => Value.children_of_scalar (hscalar v hv)
  have haccept := congrArg Prod.fst (requestUnmarshal_flat hh hbody hlen hflat [])
  exact ⟨_, type, id, f, [], hf, hscalar, hsplit ▸ haccept⟩

/-- The frame `[0, 1, "m", ["a"]]` is decoded unaltered. -/
theorem requestUnmarshal_strings_iff_str :
    ∃ request, DecodedFrom [0x6d] [.str [0x61]] request ∧
      Unaltered [0x6d] [.str [0x61]] request := by
  have hframe := @requestFrame_encode 1 [0x6d] [.str [0x61]] (by decide) (by decide)
    (List.forall_mem_singleton.mpr (Value.fits_of_scalar rfl (by decide)))
  obtain ⟨request, hdecoded⟩ := decodedFrom_of_requestFrame hframe (by decide)
  exact ⟨request, hdecoded, (requestUnmarshal_strings_iff hdecoded).1.mpr (by simp [Value.norm])⟩

/-- The frame `[0, 1, "test/ping\0x", []]` is taken for a call of `test/ping`. -/
theorem requestUnmarshal_strings_cut :
    ¬∀ method params request, DecodedFrom method params request →
      Unaltered method params request := by
  intro hall
  have hframe := @requestFrame_encode 1 ((CString.ofString "test/ping").bytes ++ [0x00, 0x78]) []
    (by decide) (by decide) (by simp)
  obtain ⟨request, hdecoded⟩ := decodedFrom_of_requestFrame hframe (by simp)
  obtain ⟨⟨s, -, hbytes⟩, -⟩ := hall _ _ _ hdecoded
  have hnul := s.nulFree
  rw [hbytes] at hnul
  exact hnul (by simp)

end Haze
