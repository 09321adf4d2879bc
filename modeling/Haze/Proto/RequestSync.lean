import Haze.Proto.RequestFrame

/-
  What `RequestUnmarshal` consumes.

  After a whole header the unmarshaller always returns a request
  (`requestUnmarshal_of_header`), and it consumes a whole frame exactly when no
  parameter has children (`requestUnmarshal_synchronised_iff`): the body of an array or a
  map is left in the stream.
-/

open Msgpack

namespace Haze

/-! ## Frames with a whole header -/

/-- The request as the header leaves it, before the parameter loop. -/
def headerRequest (msgid : UInt32) (method : Bytes) : Request :=
  { type := hazeRpcRequest, msgid := msgid, method := some (.ofBytes method), parameters := [] }

theorem requestHeader_ne_nil {msgid count : UInt32} {method h : Bytes}
    (hh : RequestHeader msgid method count h) : h ≠ [] := by
  obtain ⟨_, _, hArr, _, _, _, _, harr, -, -, -, -, rfl⟩ := hh
  exact List.append_ne_nil_of_left_ne_nil (spells_ne_nil harr) _

theorem requestUnmarshal_of_header {msgid count : UInt32} {method h : Bytes}
    (hh : RequestHeader msgid method count h) (rest : Bytes) :
    requestUnmarshal (h ++ rest) =
      (some (requestUnmarshalParams (headerRequest msgid method) (.ok rest) 0 count.toNat).1,
        (h ++ rest).length - mpackReaderRemaining
          (requestUnmarshalParams (headerRequest msgid method) (.ok rest) 0 count.toNat).2) := by
  have hne : ¬(h ++ rest).length = 0 := fun h0 =>
    List.append_ne_nil_of_left_ne_nil (requestHeader_ne_nil hh) rest
      (List.length_eq_zero_iff.mp h0)
  rw [requestUnmarshal, if_neg hne, mpackReaderInitData, requestUnmarshalHeader_read hh]
  rfl

/-- A frame whose parameters have no children is read whole, and its parameters up to the
last scalar are kept. -/
theorem requestUnmarshal_flat {msgid : UInt32} {method h body : Bytes} {params : List Value}
    (hh : RequestHeader msgid method (.ofNat params.length) h) (hbody : EncodesAll params body)
    (hlen : params.length < 2 ^ 32) (hflat : ∀ v ∈ params, v.children = []) (rest : Bytes) :
    requestUnmarshal (h ++ body ++ rest) =
      (some { headerRequest msgid method with parameters := (uptoScalar params).map paramOf },
        (h ++ body).length) := by
  have hto : (UInt32.ofNat params.length).toNat = params.length := UInt32.toNat_ofNat_of_lt' hlen
  have hloop : requestUnmarshalParams (headerRequest msgid method) (.ok (body ++ rest)) 0
      params.length = _ :=
    requestUnmarshalParams_flat [] hbody hflat rfl rfl (by simpa using hlen) rest
  rw [List.append_assoc, requestUnmarshal_of_header hh, hto, hloop]
  simp only [mpackReaderRemaining, List.nil_append, List.length_append, ← Nat.add_assoc,
    Nat.add_sub_cancel]

theorem uptoScalar_of_forall {vs : List Value} (h : ∀ v ∈ vs.getLast?, v.scalar) :
    uptoScalar vs = vs := by
  refine List.rdropWhile_eq_self_iff.mpr fun hne => ?_
  simpa using h _ (List.getLast?_eq_getLast_of_ne_nil hne)

/-! ## Synchronisation -/

/-- The rest of the stream starts where the frame ends, and as many parameters come back
as were sent, exactly when every array or map among the parameters is empty and the last
parameter is neither. -/
theorem requestUnmarshal_synchronised_iff {msgid : UInt32} {method f : Bytes}
    {params : List Value} (hf : RequestFrame msgid method params f) (rest : Bytes) :
    ((requestUnmarshal (f ++ rest)).1 = none ∨
      ∃ request, requestUnmarshal (f ++ rest) = (some request, f.length) ∧
        request.parameters.length = params.length) ↔
    (∀ v ∈ params, v.children = []) ∧ ∀ v ∈ params.getLast?, v.scalar := by
  obtain ⟨h, body, hh, hbody, hlen, rfl⟩ := requestFrame_split hf
  have hto : (UInt32.ofNat params.length).toNat = params.length := UInt32.toNat_ofNat_of_lt' hlen
  constructor
  · intro hsync
    obtain ⟨left, hleft, hreader⟩ := requestUnmarshalParams_unread params.length
      (headerRequest msgid method) 0 hbody le_rfl rest
    have hun := requestUnmarshal_of_header hh (body ++ rest)
    rw [hto, hreader, ← List.append_assoc] at hun
    obtain hnone | ⟨request, heq, hparams⟩ := hsync
    · rw [hun] at hnone
      cases hnone
    · -- the bytes left ahead of the reader are none of the frame's
      rw [hun] at heq
      have hpos := List.length_pos_iff.mpr (requestHeader_ne_nil hh)
      have hcons : left.length = 0 := by
        have := (Prod.mk.inj heq).2
        simp only [mpackReaderRemaining, List.length_append] at this
        omega
      have hnil := (encodesAll_eq_nil_iff hleft).mp (List.length_eq_zero_iff.mp hcons)
      have hflat := ((unread_eq_nil_iff _ le_rfl).mp hnil).2
      refine ⟨hflat, fun v hv => ?_⟩
      rw [← hun, requestUnmarshal_flat hh hbody hlen hflat] at heq
      obtain rfl := Option.some.inj (Prod.mk.inj heq).1
      have hself : uptoScalar params = params :=
        (List.rdropWhile_prefix _ _).eq_of_length (by rwa [List.length_map] at hparams)
      have hne : params ≠ [] := by
        rintro rfl
        cases hv
      rw [List.getLast?_eq_getLast_of_ne_nil hne, Option.mem_some_iff] at hv
      simpa [hv] using List.rdropWhile_eq_self_iff.mp hself hne
  · rintro ⟨hflat, hlast⟩
    exact .inr ⟨_, requestUnmarshal_flat hh hbody hlen hflat rest, by
      simp [uptoScalar_of_forall hlast]⟩

/-- The frame `[0, 1, "m", [5]]` is synchronised. -/
theorem requestUnmarshal_synchronised_scalar :
    (requestUnmarshal ([0x94, 0x00, 0x01, 0xa1, 0x6d, 0x91, 0x05] ++ [0xc0])).1 = none ∨
      ∃ request, requestUnmarshal ([0x94, 0x00, 0x01, 0xa1, 0x6d, 0x91, 0x05] ++ [0xc0]) =
        (some request, 7) ∧ request.parameters.length = 1 :=
  (requestUnmarshal_synchronised_iff
    (@requestFrame_encode 1 [0x6d] [.uint 5] (by decide) (by decide) (by simp))
    [0xc0]).mpr ⟨by simp [Value.norm, Value.children], by simp [Value.norm, Value.scalar]⟩

/-- The frame `[0, 1, "m", [[5]]]` is not: the `5` is left in front of what follows. -/
theorem requestUnmarshal_desynchronised :
    ¬∀ (msgid : UInt32) (method f rest : Bytes) (params : List Value),
      RequestFrame msgid method params f →
        (requestUnmarshal (f ++ rest)).1 = none ∨
          ∃ request, requestUnmarshal (f ++ rest) = (some request, f.length) ∧
            request.parameters.length = params.length := by
  intro hall
  have hf := @requestFrame_encode 1 [0x6d] [.array [.uint 5]] (by decide) (by decide)
    (by simp)
  obtain hnone | ⟨request, heq, -⟩ := hall _ _ _ [] _ hf
  · exact absurd hnone (by decide)
  · have hlen : (requestUnmarshal [0x94, 0x00, 0x01, 0xa1, 0x6d, 0x91, 0x91, 0x05]).2 = 8 :=
      congrArg Prod.snd heq
    exact absurd hlen (by decide)

/-! ## The bytes of a marshalled request -/

/-- The parameters a request is sent with: their number is cast to 32 bits. -/
def wireParams (request : Request) : List Value :=
  (request.parameters.take (requestParamCount request).toNat).map Object.wireValue

/-- The bytes of the method field. -/
def wireMethod : Option CString → Bytes
  | some method =>
    header (.str (.ofNat (castBytes method.bytes).length)) ++ castBytes method.bytes
  | none => header .nil

theorem requestMarshalHeader_eq (request : Request) :
    requestMarshalHeader request = ⟨header (.array 4) ++ (header (.uint request.type.toUInt64) ++
      (header (.uint request.msgid.toUInt64) ++ (wireMethod request.method ++
        header (.array (requestParamCount request))))), none⟩ := by
  simp only [requestMarshalHeader, mpackWriterInitGrowable, mpackWriteUint, mpackStartArray_eq,
    mpackWriteU64_eq]
  cases request.method with
  | none => simp [Writer.put, wireMethod]
  | some method =>
      simp only [mpackWriteStr_eq, Writer.put, wireMethod, CString.strlen, ofNat_length_castBytes,
        take_ofNat_length]
      simp

theorem requestMarshalWriter_eq (request : Request) :
    requestMarshalWriter request =
      (requestMarshalHeader request).put (encodeAll (wireParams request)) :=
  objectMarshalElements_eq (fun x _ w => objectMarshalMPack_eq w x) _

theorem requestMarshal_bytes {request : Request} {f : RawBuffer}
    (hm : requestMarshal request = some f) :
    f.bytes = (requestMarshalHeader request).written ++ encodeAll (wireParams request) := by
  rw [requestMarshal, requestMarshalWriter_eq] at hm
  simp only [mpackWriterDestroy, Writer.error_put, requestMarshalHeader_eq,
    Option.some.injEq] at hm
  rw [← hm, bytes_rawBufferNew, requestMarshalHeader_eq]
  rfl

/-- A request of the right type with a method is written behind a request header. -/
theorem requestHeader_written {request : Request} {method : CString}
    (htype : request.type = hazeRpcRequest) (hmethod : request.method = some method) :
    RequestHeader request.msgid (castBytes method.bytes) (requestParamCount request)
      (requestMarshalHeader request).written := by
  rw [requestMarshalHeader_eq, hmethod, htype]
  refine ⟨.uint 0, .uint request.msgid.toUInt64, _, _, _, _, _, spells_header (.array 4),
    ⟨spells_header (.uint 0), rfl⟩, ⟨spells_header (.uint request.msgid.toUInt64), ?_⟩,
    ⟨spells_header (.str _), length_castBytes_lt _⟩, spells_header (.array _), ?_⟩
  · simp [tagCast]
  · simp only [wireMethod, List.append_assoc]
    rfl

/-! ## Truncated requests -/

theorem requestUnmarshal_of_header_none {b : Bytes} (h : requestUnmarshalHeader (.ok b) = none) :
    requestUnmarshal b = (none, b.length) := by
  rw [requestUnmarshal, mpackReaderInitData, h]
  split_ifs <;> rfl

/-- A marshalled request of another type, or without a method, is rejected wherever it is
cut. -/
theorem requestUnmarshalHeader_foreign {request : Request} {p rest : Bytes}
    (hforeign : request.type ≠ hazeRpcRequest ∨ request.method = none)
    (hp : p <+: (requestMarshalHeader request).written ++ rest) :
    requestUnmarshalHeader (.ok p) = none := by
  rw [requestMarshalHeader_eq] at hp
  simp only [List.append_assoc] at hp
  have hcast : ∀ n : UInt32, tagCast (.uint n.toUInt64) = some n := fun n => by simp [tagCast]
  obtain hcut | ⟨p₁, hp₁, rfl, hr₁⟩ := mpackReadTag_cut_or_read (spells_header _) hp
  · simp [requestUnmarshalHeader, hcut]
  obtain hcut | ⟨p₂, hp₂, rfl, hr₂⟩ := mpackReadTag_cut_or_read (spells_header _) hp₁
  · simp [requestUnmarshalHeader, hr₁, hcut, tagCast, Tag.norm]
  by_cases htype : request.type = hazeRpcRequest
  · have hmethod := hforeign.resolve_left (not_not.mpr htype)
    rw [hmethod, wireMethod] at hp₂
    obtain hcut | ⟨p₃, hp₃, rfl, hr₃⟩ := mpackReadTag_cut_or_read (spells_header _) hp₂
    · simp [requestUnmarshalHeader, hr₁, hr₂, hcut, Tag.norm, tagCast]
    obtain hcut | ⟨p₄, hp₄, rfl, hr₄⟩ := mpackReadTag_cut_or_read (spells_header _) hp₃
    · simp [requestUnmarshalHeader, hr₁, hr₂, hr₃, hcut, hcast, Tag.norm]
    · simp [requestUnmarshalHeader, hr₁, hr₂, hr₃, hr₄, hcast, Tag.norm]
  · simp [requestUnmarshalHeader, hr₁, hr₂, hcast, htype, Tag.norm]

/-- A strict prefix of a marshalled request is rejected with `b->len` unchanged exactly
when the request could not be read whole either, or the cut falls before the parameters. -/
theorem requestUnmarshal_truncated_iff {request : Request} {f : RawBuffer} {p : Bytes}
    (hm : requestMarshal request = some f) (hp : p <+: f.bytes) (hne : p ≠ f.bytes) :
    requestUnmarshal p = (none, p.length) ↔
      request.type ≠ hazeRpcRequest ∨ request.method = none ∨
        p.length < (requestMarshalHeader request).written.length := by
  rw [requestMarshal_bytes hm] at hp hne
  by_cases hforeign : request.type ≠ hazeRpcRequest ∨ request.method = none
  · have hnone := requestUnmarshalHeader_foreign hforeign hp
    simp only [requestUnmarshal_of_header_none hnone, true_iff]
    tauto
  · obtain ⟨htype, hmethod⟩ := not_or.mp hforeign
    obtain ⟨method, hmethod⟩ := Option.ne_none_iff_exists'.mp hmethod
    have hh := requestHeader_written (not_not.mp htype) hmethod
    simp only [not_not.mp htype, hmethod, ne_eq, not_true_eq_false, reduceCtorEq, false_or]
    constructor
    · -- a whole header is enough for a request to come back
      intro hnone
      by_contra hge
      obtain ⟨q, rfl⟩ := List.prefix_of_prefix_length_le
        (List.prefix_append _ (encodeAll (wireParams request))) hp (not_lt.mp hge)
      rw [requestUnmarshal_of_header hh] at hnone
      cases (Prod.mk.inj hnone).1
    · intro hlt
      obtain hph | hph := List.prefix_or_prefix_of_prefix hp (List.prefix_append _ _)
      · have hcut := requestUnmarshalHeader_cut hh hph fun heq => by
          rw [heq] at hlt
          exact lt_irrefl _ hlt
        exact requestUnmarshal_of_header_none hcut
      · exact absurd hph.length_le (not_le.mpr hlt)

/-- The request `[0, 1, "m", [5]]` cut inside its method. -/
theorem requestUnmarshal_truncated_method :
    requestUnmarshal [0x94, 0x00, 0x01, 0xa1] = (none, 4) :=
  (@requestUnmarshal_truncated_iff ⟨0, 1, some (.ofString "m"), [.uint 5]⟩
    ⟨some [0x94, 0x00, 0x01, 0xa1, 0x6d, 0x91, 0x05]⟩ _ rfl (by decide) (by decide)).mpr
    (.inr (.inr (by decide)))

/-- The same request cut before its last byte comes back with an invented nil. -/
theorem requestUnmarshal_invents_parameter :
    ¬∀ (request : Request) (f : RawBuffer) (p : Bytes), requestMarshal request = some f →
      p <+: f.bytes → p ≠ f.bytes → requestUnmarshal p = (none, p.length) := by
  intro hall
  have hnone := hall ⟨0, 1, some (.ofString "m"), [.uint 5]⟩
    ⟨some [0x94, 0x00, 0x01, 0xa1, 0x6d, 0x91, 0x05]⟩
    [0x94, 0x00, 0x01, 0xa1, 0x6d, 0x91] rfl (by decide) (by decide)
  exact absurd (congrArg (fun r => r.1.isSome) hnone) (by decide)

end Haze
