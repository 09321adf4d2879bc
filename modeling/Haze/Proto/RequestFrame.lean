import Haze.Proto.Request

/-
  Request frames on the wire.

  `RequestHeader msgid method count h` says that `h` is the part of a request frame
  before its parameters, in any of its encodings. The unmarshaller reads such a header
  and nothing else (`requestUnmarshalHeader_read`), and fails on every header cut short
  (`requestUnmarshalHeader_cut`). The parameter loop is followed through `unread`, the
  values that are still ahead of it.
-/

open Msgpack

namespace Haze

/-! ## The header -/

/-- The bytes of a request frame up to and including the header of its params. -/
def RequestHeader (msgid : UInt32) (method : Bytes) (count : UInt32) (h : Bytes) : Prop :=
  ∃ type id hArr hType hId hMethod hParams, Spells (.array 4) hArr ∧
    (Spells type hType ∧ tagCast type = some hazeRpcRequest) ∧
    (Spells id hId ∧ tagCast id = some msgid) ∧
    (Spells (.str (.ofNat method.length)) hMethod ∧ method.length < 2 ^ 32) ∧
    Spells (.array count) hParams ∧
    h = hArr ++ (hType ++ (hId ++ (hMethod ++ (method ++ hParams))))

theorem requestUnmarshalHeader_read {msgid count : UInt32} {method h : Bytes}
    (hh : RequestHeader msgid method count h) (rest : Bytes) :
    requestUnmarshalHeader (.ok (h ++ rest)) =
      some ({ type := hazeRpcRequest, msgid := msgid, method := some (.ofBytes method),
              parameters := [] }, count, .ok rest) := by
  obtain ⟨type, id, hArr, hType, hId, hMethod, hParams, harr, ⟨htype, hcast⟩, ⟨hid, hidcast⟩,
    ⟨hmethod, hlen⟩, hparams, rfl⟩ := hh
  have hmod : method.length % 4294967296 = method.length := Nat.mod_eq_of_lt hlen
  simp [requestUnmarshalHeader, mpackReadTag_spells harr, mpackReadTag_spells htype,
    mpackReadTag_spells hid, mpackReadTag_spells hmethod, mpackReadTag_spells hparams, hcast,
    hidcast, hmod, mpackReadBytesInplace_append, requestNew, requestSetMethod]

/-- A header cut short is rejected. -/
theorem requestUnmarshalHeader_cut {msgid count : UInt32} {method h p : Bytes}
    (hh : RequestHeader msgid method count h) (hp : p <+: h) (hne : p ≠ h) :
    requestUnmarshalHeader (.ok p) = none := by
  obtain ⟨type, id, hArr, hType, hId, hMethod, hParams, harr, ⟨htype, hcast⟩, ⟨hid, hidcast⟩,
    ⟨hmethod, hlen⟩, hparams, rfl⟩ := hh
  have hmod : method.length % 4294967296 = method.length := Nat.mod_eq_of_lt hlen
  obtain hcut | ⟨p₁, hp₁, rfl, hr₁⟩ := mpackReadTag_cut_or_read harr hp
  · simp [requestUnmarshalHeader, hcut]
  obtain hcut | ⟨p₂, hp₂, rfl, hr₂⟩ := mpackReadTag_cut_or_read htype hp₁
  · simp [requestUnmarshalHeader, hr₁, hcut, tagCast]
  obtain hcut | ⟨p₃, hp₃, rfl, hr₃⟩ := mpackReadTag_cut_or_read hid hp₂
  · simp [requestUnmarshalHeader, hr₁, hr₂, hcut, tagCast, requestNew]
  obtain hcut | ⟨p₄, hp₄, rfl, hr₄⟩ := mpackReadTag_cut_or_read hmethod hp₃
  · simp [requestUnmarshalHeader, hr₁, hr₂, hr₃, hcut, hidcast, hcast, requestNew]
  by_cases hle : method.length ≤ p₄.length
  · -- the method is whole, so the cut is in the header of the params
    obtain ⟨q, rfl⟩ : method <+: p₄ :=
      List.prefix_of_prefix_length_le (List.prefix_append method hParams) hp₄ hle
    have hq := (List.prefix_append_right_inj method).mp hp₄
    have hcut := mpackReadTag_cut hparams hq fun heq => hne (by rw [heq])
    simp [requestUnmarshalHeader, hr₁, hr₂, hr₃, hr₄, hidcast, hcast, requestNew, hmod,
      mpackReadBytesInplace_append, hcut]
  · simp [requestUnmarshalHeader, hr₁, hr₂, hr₃, hr₄, hidcast, hcast, requestNew, hmod,
      mpackReadBytesInplace, hle]

/-! ## Frames -/

/-- A well-formed frame `[0, msgid, method, params]`, in any encoding. -/
def RequestFrame (msgid : UInt32) (method : Bytes) (params : List Value) (f : Bytes) : Prop :=
  ∃ type id : Value, type.norm = .uint 0 ∧ id.norm = .uint msgid.toUInt64 ∧
    Encodes (.array [type, id, .str method, .array params]) f

private theorem encodes_integer {v : Value} {n : UInt32} {bs : Bytes}
    (hv : v.norm = .uint n.toUInt64) (hbs : Encodes v bs) :
    Spells v.tag bs ∧ tagCast v.tag = some n := by
  obtain ⟨htag, hs⟩ := spells_of_norm_uint hv hbs
  refine ⟨hs, ?_⟩
  cases ht : v.tag <;> rw [ht] at htag <;> simp only [Tag.norm, reduceCtorEq] at htag
  case uint m =>
    obtain rfl := Tag.uint.inj htag
    simp [tagCast]
  case int m =>
    split at htag
    · have hm : m.toUInt64 = n.toUInt64 := Tag.uint.inj htag
      simp [tagCast, hm]
    · cases htag

/-- A frame is a header followed by its parameters. -/
theorem requestFrame_split {msgid : UInt32} {method f : Bytes} {params : List Value}
    (hf : RequestFrame msgid method params f) :
    ∃ h body, RequestHeader msgid method (.ofNat params.length) h ∧ EncodesAll params body ∧
      params.length < 2 ^ 32 ∧ f = h ++ body := by
  obtain ⟨type, id, htype, hid, hf⟩ := hf
  obtain ⟨hArr, tail, harr, -, htail, rfl⟩ := encodes_iff.mp hf
  obtain ⟨bType, tail, rfl, hbType, htail⟩ := encodesAll_cons_iff.mp htail
  obtain ⟨bId, tail, rfl, hbId, htail⟩ := encodesAll_cons_iff.mp htail
  obtain ⟨bMethod, bParams, rfl, hbMethod, hbParams⟩ := encodesAll_cons_iff.mp htail
  obtain ⟨hMethod, rest, hmethod, hlen, hrest, rfl⟩ := encodes_iff.mp hbMethod
  obtain ⟨hParams, body, hparams, hcount, hbody, rfl⟩ := encodes_iff.mp hbParams
  obtain rfl := encodesAll_nil_iff.mp hrest
  refine ⟨_, body, ⟨_, _, hArr, bType, bId, hMethod, hParams, harr, encodes_integer htype hbType,
    encodes_integer hid hbId, ⟨hmethod, hlen⟩, hparams, rfl⟩, hbody, hcount, ?_⟩
  simp [Value.payload]

/-- The canonical frame of a request. -/
theorem requestFrame_encode (msgid : UInt32) {method : Bytes} {params : List Value}
    (hmethod : method.length < 2 ^ 32) (hlen : params.length < 2 ^ 32)
    (hparams : ∀ v ∈ params, v.Fits) :
    RequestFrame msgid method (params.map Value.norm)
      (encode (.array [.uint 0, .uint msgid.toUInt64, .str method, .array params])) := by
  have hfits : Value.Fits (.array [.uint 0, .uint msgid.toUInt64, .str method, .array params]) := by
    simp only [Value.fits_array, List.forall_mem_cons]
    exact ⟨by simp, Value.fits_uint 0, Value.fits_uint _, Value.fits_of_scalar rfl hmethod,
      ⟨hlen, hparams⟩, by simp⟩
  refine ⟨.uint 0, .uint msgid.toUInt64, rfl, rfl, ?_⟩
  simpa [Value.norm, Value.normAll_eq_map] using encodes_encode hfits

/-! ## The parameter loop -/

/-- The values ahead of the reader after the given number of passes: each takes the next
value off and leaves its children. -/
def unread : Nat → List Value → List Value
  | 0, vs => vs
  | _ + 1, [] => []
  | n + 1, v :: vs => unread n (v.children ++ vs)

/-- What one pass over a value does to the request. -/
def takeParam (request : Request) (v : Value) (i : UInt32) : Request :=
  if v.scalar then (requestParamAppend request (Object.ofValue v) i).2 else request

theorem requestUnmarshalParam_read {v : Value} {h : Bytes} (hs : Spells v.tag h)
    (hcount : v.count < 2 ^ 32) (request : Request) (rest : Bytes) (i : UInt32) :
    requestUnmarshalParam request (.ok (h ++ v.payload ++ rest)) i =
      (takeParam request v i, .ok rest) := by
  rw [List.append_assoc, requestUnmarshalParam, mpackReadTag_spells hs]
  cases v with
  | str s =>
      have hto : (UInt32.ofNat s.length).toNat = s.length := UInt32.toNat_ofNat_of_lt' hcount
      simp [Value.tag, Value.payload, hto, mpackReadBytes_append, takeParam, Value.scalar,
        Object.ofValue, objectCreateStr]
  | bin s =>
      have hto : (UInt32.ofNat s.length).toNat = s.length := UInt32.toNat_ofNat_of_lt' hcount
      simp [Value.tag, Value.payload, hto, mpackReadBytes_append, takeParam, Value.scalar,
        Object.ofValue]
  | _ => rfl

/-- A run of passes ends in front of the values it left unread. -/
theorem requestUnmarshalParams_unread (n : Nat) (request : Request) (i : UInt32)
    {vs : List Value} {body : Bytes} (hbody : EncodesAll vs body) (hn : n ≤ vs.length)
    (rest : Bytes) :
    ∃ left, EncodesAll (unread n vs) left ∧
      (requestUnmarshalParams request (.ok (body ++ rest)) i n).2 = .ok (left ++ rest) := by
  induction n generalizing request i vs body with
  | zero => exact ⟨body, hbody, rfl⟩
  | succ n ih =>
      cases hbody with
      | nil => cases hn
      | @cons v vs h body hs hcount hbody =>
          have hn' : n ≤ (v.children ++ vs).length := by
            simp only [List.length_cons, List.length_append] at hn ⊢
            omega
          rw [List.append_assoc (h ++ v.payload), requestUnmarshalParams,
            requestUnmarshalParam_read hs hcount]
          exact ih _ (i + 1) hbody hn'

theorem unread_eq_nil_iff (n : Nat) {vs : List Value} (hn : n ≤ vs.length) :
    unread n vs = [] ↔ n = vs.length ∧ ∀ v ∈ vs, v.children = [] := by
  induction n generalizing vs with
  | zero =>
      rw [unread]
      constructor
      · rintro rfl
        simp
      · rintro ⟨hlen, -⟩
        exact List.length_eq_zero_iff.mp hlen.symm
  | succ n ih =>
      cases vs with
      | nil => cases hn
      | cons v vs =>
          simp only [List.length_cons, Nat.add_le_add_iff_right] at hn
          have hn' : n ≤ (v.children ++ vs).length := by
            rw [List.length_append]
            omega
          rw [unread, ih hn', List.forall_mem_cons, List.length_append, List.length_cons]
          constructor
          · rintro ⟨hlen, hall⟩
            have hnil : v.children = [] := List.length_eq_zero_iff.mp (by omega)
            refine ⟨by omega, hnil, fun w hw => hall w (List.mem_append_right _ hw)⟩
          · rintro ⟨hlen, hnil, hall⟩
            rw [hnil]
            exact ⟨by simpa using hlen, by simpa using hall⟩

/-- The parameter a value without children becomes: an empty array or map is skipped, and
its place is filled with nil when a later parameter is appended. -/
def paramOf (v : Value) : Object := if v.scalar then Object.ofValue v else .nil

/-- The values up to the last scalar. -/
def uptoScalar (vs : List Value) : List Value := vs.rdropWhile fun v => !v.scalar

theorem uptoScalar_concat (vs : List Value) (v : Value) :
    uptoScalar (vs ++ [v]) = if v.scalar then vs ++ [v] else uptoScalar vs := by
  unfold uptoScalar
  by_cases hv : v.scalar
  · rw [List.rdropWhile_concat_neg _ _ _ (by simp [hv]), if_pos hv]
  · rw [List.rdropWhile_concat_pos _ _ _ (by simp [hv]), if_neg hv]

theorem uptoScalar_fill (vs : List Value) :
    (uptoScalar vs).map paramOf ++ List.replicate (vs.length - (uptoScalar vs).length) .nil =
      vs.map paramOf := by
  induction vs using List.reverseRecOn with
  | nil => rfl
  | append_singleton vs v ih =>
      rw [uptoScalar_concat]
      split_ifs with hv
      · simp
      · have hle : (uptoScalar vs).length ≤ vs.length :=
          (List.rdropWhile_prefix _ _).length_le
        have hnil : paramOf v = .nil := by simp [paramOf, hv]
        rw [List.length_append, List.length_singleton, Nat.succ_sub hle, List.replicate_succ',
          ← List.append_assoc, ih, List.map_append, List.map_singleton, hnil]

private theorem iterate_append_nil (k : Nat) (xs : List Object) :
    (objectArrayAppend · .nil)^[k] xs = xs ++ List.replicate k .nil := by
  induction k generalizing xs with
  | zero => simp
  | succ k ih =>
      rw [Function.iterate_succ_apply, ih, objectArrayAppend, List.append_assoc,
        List.replicate_succ]
      rfl

/-- Appending at or past the end fills the gap with nils. -/
theorem requestParamAppend_past {rq : Request} {ind : UInt32} (param : Object)
    (hle : rq.parameters.length ≤ ind.toNat) :
    requestParamAppend rq param ind = (true, { rq with
      parameters := rq.parameters ++ List.replicate (ind.toNat - rq.parameters.length) .nil ++
        [objectCopy param] }) := by
  rw [requestParamAppend]
  split_ifs with heq hlt
  · simp [heq, objectArrayAppend]
  · omega
  · simp only [iterate_append_nil]
    rfl

/-- One pass over a value, when the parameters hold what came before it. -/
theorem takeParam_eq {request : Request} {done : List Value} {i : UInt32} (v : Value)
    (hparams : request.parameters = (uptoScalar done).map paramOf)
    (hi : i.toNat = done.length) :
    takeParam request v i =
      { request with parameters := (uptoScalar (done ++ [v])).map paramOf } := by
  have hle : request.parameters.length ≤ i.toNat := by
    rw [hparams, hi, List.length_map]
    exact (List.rdropWhile_prefix _ _).length_le
  rw [takeParam, uptoScalar_concat]
  split_ifs with hv
  · have hlen : request.parameters.length = (uptoScalar done).length := by
      rw [hparams, List.length_map]
    rw [requestParamAppend_past _ hle, hi, hlen, hparams, uptoScalar_fill]
    simp [paramOf, hv]
  · rw [← hparams]

/-- Over values without children the loop takes exactly their bytes. -/
theorem requestUnmarshalParams_flat {request : Request} (done : List Value) {vs : List Value}
    {body : Bytes} {i : UInt32} (hbody : EncodesAll vs body) (hflat : ∀ v ∈ vs, v.children = [])
    (hparams : request.parameters = (uptoScalar done).map paramOf)
    (hi : i.toNat = done.length) (hlt : done.length + vs.length < 2 ^ 32) (rest : Bytes) :
    requestUnmarshalParams request (.ok (body ++ rest)) i vs.length =
      ({ request with parameters := (uptoScalar (done ++ vs)).map paramOf }, .ok rest) := by
  induction vs generalizing request done body i with
  | nil =>
      obtain rfl := encodesAll_nil_iff.mp hbody
      simp [requestUnmarshalParams, ← hparams]
  | cons v vs ih =>
      obtain ⟨hv, hvs⟩ := List.forall_mem_cons.mp hflat
      cases hbody with
      | @cons _ _ h body hs hcount hbody =>
          rw [hv, List.nil_append] at hbody
          have hi' : (i + 1).toNat = (done ++ [v]).length := by
            rw [List.length_cons] at hlt
            rw [UInt32.toNat_add, hi, List.length_append, List.length_singleton]
            exact Nat.mod_eq_of_lt (by simp; omega)
          rw [List.append_assoc (h ++ v.payload), List.length_cons, requestUnmarshalParams,
            requestUnmarshalParam_read hs hcount]
          simp only [takeParam_eq v hparams hi]
          rw [ih (done ++ [v]) hbody hvs rfl hi' (by simp at hlt ⊢; omega), List.append_assoc]
          rfl

end Haze
