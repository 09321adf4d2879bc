import Haze.Server.Stream

/-
  Requests that are sent one behind the other.

  A marshalled request is read as `Request.received` whatever follows it
  (`requestMarshal_readsAs`), so a read of several is served as they are, one after the other.
  That is the request itself, up to the sign of its integers, exactly if no length is cut to
  32 bits (`hazeOnRead_pipelined_iff`).
-/

open Msgpack

namespace Haze

variable {p : Platform}

/-! ## Requests without nested parameters -/

/-- Nil, a number, a string, or a binary that holds bytes. -/
def Object.Plain : Object → Prop
  | .array _ => False
  | o => o.Carried

/-- A request with a method and plain parameters. -/
structure Request.Plain (r : Request) : Prop where
  type : r.type = hazeRpcRequest
  method : r.method ≠ none
  parameters : ∀ o ∈ r.parameters, o.Plain

/-- Every length of the request fits 32 bits. -/
structure Request.Short (r : Request) : Prop where
  method : ∀ m ∈ r.method, m.strlen < 2 ^ 32
  count : r.parameters.length < 2 ^ 32
  parameters : ∀ o ∈ r.parameters, o.Short (2 ^ 32)

/-- The request with its non-negative integers unsigned. -/
def Request.readBack (r : Request) : Request :=
  { r with parameters := r.parameters.map Object.readBack }

/-- What a plain request is read as, its lengths cast to 32 bits. -/
def Request.received (r : Request) : Request :=
  { r with
    method := r.method.map fun m => .ofBytes (castBytes m.bytes)
    parameters := (wireParams r).map fun v => Object.ofValue v.norm }

theorem Object.Plain.carried {o : Object} (h : o.Plain) : o.Carried := by
  cases o with
  | array xs => exact h.elim
  | _ => exact h

theorem Object.Plain.elements {o : Object} (h : o.Plain) : o.elements = [] := by
  cases o with
  | array xs => exact h.elim
  | _ => rfl

theorem castBytes_eq_iff {bs : Bytes} : castBytes bs = bs ↔ bs.length < 2 ^ 32 := by
  constructor
  · intro h
    rw [← h]
    exact length_castBytes_lt bs
  · exact castBytes_of_lt

theorem bytes_ofBytes_castBytes (s : CString) :
    (CString.ofBytes (castBytes s.bytes)).bytes = castBytes s.bytes :=
  CString.ofBytes_bytes fun h => s.nulFree (List.mem_of_mem_take h)

/-- A string is sent whole exactly if its length fits 32 bits. -/
theorem ofBytes_castBytes_eq_iff {s : CString} :
    CString.ofBytes (castBytes s.bytes) = s ↔ s.strlen < 2 ^ 32 := by
  rw [CString.strlen, ← castBytes_eq_iff, CString.ext_iff, bytes_ofBytes_castBytes]

theorem Object.Plain.scalar_wireValue {o : Object} (h : o.Plain) : o.wireValue.scalar := by
  cases o with
  | array xs => exact h.elim
  | str s => cases s <;> rfl
  | bin b =>
      obtain _ | ⟨_ | data⟩ := b
      · rfl
      · rfl
      · rfl
  | _ => rfl

theorem Object.Plain.count_wireValue {o : Object} (h : o.Plain) : o.wireValue.count < 2 ^ 32 := by
  cases o with
  | array xs => exact h.elim
  | str s => cases s with
    | none => exact h.elim
    | some s => exact length_castBytes_lt _
  | bin b =>
      obtain _ | ⟨_ | data⟩ := b
      · exact h.elim
      · exact absurd rfl h
      · exact length_castBytes_lt _
  | _ => exact Nat.two_pow_pos 32

/-- A plain parameter comes back exactly if its length fits 32 bits. -/
theorem Object.Plain.ofValue_eq_iff {o : Object} (h : o.Plain) :
    Object.ofValue o.wireValue.norm = o.readBack ↔ o.Short (2 ^ 32) := by
  constructor
  · intro hback
    cases o with
    | str s => cases s with
      | none => exact h.elim
      | some s =>
          have hs := Option.some.inj (Object.str.inj hback)
          exact ofBytes_castBytes_eq_iff.mp hs
    | bin b =>
        obtain _ | ⟨_ | data⟩ := b
        · exact h.elim
        · exact absurd rfl h
        · have hdata := congrArg RawBuffer.bytes (Option.some.inj (Object.bin.inj hback))
          rw [bytes_rawBufferNew, rawBufferDup, bytes_rawBufferNew] at hdata
          exact castBytes_eq_iff.mp hdata
    | array xs => exact h.elim
    | _ => trivial
  · intro hshort
    rw [Object.wireValue_eq_toValue le_rfl (.leaf ⟨h.carried, hshort⟩ h.elements)]
    exact Object.ofValue_norm_toValue (.leaf (Object.stands_of_carried h.carried) h.elements)

/-! ## A marshalled request -/

theorem length_wireParams (r : Request) :
    (wireParams r).length = r.parameters.length % 2 ^ 32 := by
  rw [wireParams, requestParamCount, List.length_map, List.length_take, UInt32.toNat_ofNat']
  exact Nat.min_eq_left (Nat.mod_le _ _)

theorem wireParams_of_lt {r : Request} (h : r.parameters.length < 2 ^ 32) :
    wireParams r = r.parameters.map Object.wireValue := by
  rw [wireParams, requestParamCount, UInt32.toNat_ofNat_of_lt' h, List.take_length]

theorem Request.Plain.wireParams {r : Request} (h : r.Plain) :
    ∀ v ∈ wireParams r, v.scalar ∧ v.Fits := by
  refine List.forall_mem_map.mpr fun o ho => ?_
  have hplain := h.parameters o (List.mem_of_mem_take ho)
  exact ⟨hplain.scalar_wireValue,
    Value.fits_of_scalar hplain.scalar_wireValue hplain.count_wireValue⟩

/-- The bytes of a marshalled request. -/
def Request.wire (r : Request) : Bytes :=
  (requestMarshalHeader r).written ++ encodeAll (wireParams r)

theorem requestMarshal_eq (r : Request) :
    requestMarshal r = some (rawBufferNew (some r.wire)) := by
  rw [requestMarshal, requestMarshalWriter_eq, Request.wire]
  simp only [mpackWriterDestroy, Writer.error_put, requestMarshalHeader_eq]
  rfl

/-- Whatever follows it, a marshalled request is read to its end. -/
theorem requestMarshal_readsAs {r : Request} (h : r.Plain) : ReadsAs r.received r.wire := by
  obtain ⟨method, hmethod⟩ := Option.ne_none_iff_exists'.mp h.method
  have hheader := requestHeader_written h.type hmethod
  have hcount : requestParamCount r = .ofNat ((wireParams r).map Value.norm).length := by
    rw [List.length_map, length_wireParams, requestParamCount]
    apply UInt32.toNat_inj.mp
    rw [UInt32.toNat_ofNat', UInt32.toNat_ofNat', Nat.mod_mod]
  have hlen : ((wireParams r).map Value.norm).length < 2 ^ 32 := by
    rw [List.length_map, length_wireParams]
    exact Nat.mod_lt _ (Nat.two_pow_pos 32)
  have hscalar : ∀ v ∈ (wireParams r).map Value.norm, v.scalar := by
    refine List.forall_mem_map.mpr fun v hv => ?_
    rw [Value.scalar_norm]
    exact (h.wireParams v hv).1
  have hbody := encodesAll_encodeAll fun v hv => (h.wireParams v hv).2
  rw [hcount] at hheader
  have hread := readsAs_flat hheader hbody hlen fun v hv =>
    Value.children_of_scalar (hscalar v hv)
  rw [uptoScalar_of_forall fun v hv => hscalar v (List.mem_of_getLast? hv)] at hread
  have hreceived : r.received = { headerRequest r.msgid (castBytes method.bytes) with
      parameters := ((wireParams r).map Value.norm).map paramOf } := by
    rw [Request.received, headerRequest, h.type, hmethod, List.map_map]
    congr 1
    exact List.map_congr_left fun v hv =>
      (if_pos (hscalar v.norm (List.mem_map_of_mem hv))).symm
  rw [hreceived]
  exact hread

/-- A plain request comes back exactly if its lengths fit 32 bits. -/
theorem Request.Plain.received_eq_iff {r : Request} (h : r.Plain) :
    r.received = r.readBack ↔ r.Short := by
  obtain ⟨method, hmethod⟩ := Option.ne_none_iff_exists'.mp h.method
  constructor
  · intro hback
    have hname : (CString.ofBytes (castBytes method.bytes)) = method := by
      have heq := congrArg Request.method hback
      rw [Request.received, Request.readBack, hmethod] at heq
      exact Option.some.inj heq
    have hparams : (Haze.wireParams r).map (fun v => Object.ofValue v.norm) =
        r.parameters.map Object.readBack := congrArg Request.parameters hback
    have hcount : r.parameters.length < 2 ^ 32 := by
      have hlen := congrArg List.length hparams
      rw [List.length_map, List.length_map, length_wireParams] at hlen
      rw [← hlen]
      exact Nat.mod_lt _ (Nat.two_pow_pos 32)
    rw [wireParams_of_lt hcount, List.map_map, List.map_inj_left] at hparams
    refine ⟨?_, hcount, fun o ho => (h.parameters o ho).ofValue_eq_iff.mp (hparams o ho)⟩
    rw [hmethod]
    rintro _ ⟨⟩
    exact ofBytes_castBytes_eq_iff.mp hname
  · intro hshort
    have hname := ofBytes_castBytes_eq_iff.mpr (hshort.method method hmethod)
    have hparams : (Haze.wireParams r).map (fun v => Object.ofValue v.norm) =
        r.parameters.map Object.readBack := by
      rw [wireParams_of_lt hshort.count, List.map_map]
      exact List.map_congr_left fun o ho =>
        (h.parameters o ho).ofValue_eq_iff.mpr (hshort.parameters o ho)
    rw [Request.received, Request.readBack, hparams, hmethod, Option.map_some, hname]

/-! ## Requests in one read -/

/-- One read of the marshalled requests has each dispatched as it was sent, with what is sent
for it, in order, and leaves nothing. -/
def Pipelined (connection : Nat) (ctx : Context p) (conn : HazeConn) (rs : List Request) : Prop :=
  ∃ data : List RawBuffer, rs.map requestMarshal = data.map some ∧
    let out := hazeOnRead connection ctx conn (.data (data.map RawBuffer.bytes).flatten)
    dispatched out.2.2 = rs.map Request.readBack ∧
      (out.1, out.2.2) = dispatchAll connection ctx (rs.map Request.readBack) ∧
      out.2.1.buffer.length = 0 ∧ out.2.1.closed = false

/-- What is dispatched for any plain requests. -/
theorem hazeOnRead_received (connection : Nat) (ctx : Context p) {conn : HazeConn}
    (hidle : conn.Idle) {rs : List Request} (hplain : ∀ r ∈ rs, r.Plain) :
    let out := hazeOnRead connection ctx conn (.data (rs.map Request.wire).flatten)
    out.2.1.Idle ∧ (out.1, out.2.2) = dispatchAll connection ctx (rs.map Request.received) := by
  have hframes : ∀ f ∈ rs.map fun r => (r.received, r.wire), ReadsAs f.1 f.2 :=
    List.forall_mem_map.mpr fun r hr => requestMarshal_readsAs (hplain r hr)
  have hread := hazeOnRead_whole connection ctx hidle hframes
  rw [List.map_map, List.map_map] at hread
  exact hread

theorem pipelined_iff_received (connection : Nat) (ctx : Context p) {conn : HazeConn}
    (hidle : conn.Idle) {rs : List Request} (hplain : ∀ r ∈ rs, r.Plain) :
    Pipelined connection ctx conn rs ↔
      rs.map Request.received = rs.map Request.readBack := by
  obtain ⟨hleft, hserved⟩ := hazeOnRead_received connection ctx hidle hplain
  have hmarshal : rs.map requestMarshal =
      (rs.map fun r => rawBufferNew (some r.wire)).map some := by
    rw [List.map_map]
    exact List.map_congr_left fun r _ => requestMarshal_eq r
  have hwire : (rs.map fun r => rawBufferNew (some r.wire)).map RawBuffer.bytes =
      rs.map Request.wire := by
    rw [List.map_map]
    exact List.map_congr_left fun r _ => bytes_rawBufferNew _
  constructor
  · rintro ⟨data, hdata, hout, -⟩
    obtain rfl := List.map_injective_iff.mpr (Option.some_injective RawBuffer)
      (hmarshal.symm.trans hdata)
    rw [hwire, congrArg Prod.snd hserved, dispatched_dispatchAll] at hout
    exact hout
  · intro hback
    refine ⟨_, hmarshal, ?_⟩
    rw [hwire, ← hback]
    refine ⟨?_, hserved, congrArg List.length hleft.1, hleft.2⟩
    rw [congrArg Prod.snd hserved, dispatched_dispatchAll]

/-- Plain requests are served in order exactly if all their lengths fit 32 bits. -/
theorem hazeOnRead_pipelined_iff (connection : Nat) (ctx : Context p) {conn : HazeConn}
    (hidle : conn.Idle) {rs : List Request} (hplain : ∀ r ∈ rs, r.Plain) :
    Pipelined connection ctx conn rs ↔ ∀ r ∈ rs, r.Short := by
  rw [pipelined_iff_received connection ctx hidle hplain, List.map_inj_left]
  exact forall₂_congr fun r hr => (hplain r hr).received_eq_iff

/-- A call and a call with a parameter of each kind in one read. -/
theorem hazeOnRead_pipelined_two :
    Pipelined 0 stillContext hazeConnNew
      [⟨0, 1, some (.ofString "clients/get_all"), []⟩,
        ⟨0, 2, some (.ofString "m"), [.nil, .bool true, .int 5, .uint 5, .float 0, .double 0,
          .str (some (.ofString "a")), .bin (some ⟨some [0x61]⟩)]⟩] := by
  refine (hazeOnRead_pipelined_iff 0 stillContext idle_hazeConnNew ?_).mpr ?_
  · rw [List.forall_mem_cons, List.forall_mem_singleton]
    exact ⟨⟨rfl, Option.some_ne_none _, List.forall_mem_nil _⟩, rfl, Option.some_ne_none _,
      by simp [Object.Plain, Object.Carried, RawBuffer.bytes]⟩
  · rw [List.forall_mem_cons, List.forall_mem_singleton]
    refine ⟨⟨?_, by decide, List.forall_mem_nil _⟩, ?_, by decide, ?_⟩
    · rintro _ ⟨⟩
      decide
    · rintro _ ⟨⟩
      decide
    · simp [Object.Short, RawBuffer.bytes]
      decide

/-- The method of a request is `2 ^ 32` bytes long. -/
theorem hazeOnRead_pipelined_long :
    ¬∀ (p : Platform) (connection : Nat) (ctx : Context p) (conn : HazeConn) (rs : List Request),
      conn.Idle → (∀ r ∈ rs, r.Plain) → Pipelined connection ctx conn rs := by
  intro hall
  obtain ⟨s, hs⟩ : ∃ s : CString, s.strlen = 2 ^ 32 := CString.exists_strlen _
  have hplain : ∀ r ∈ [(⟨0, 1, some s, []⟩ : Request)], r.Plain :=
    List.forall_mem_singleton.mpr ⟨rfl, Option.some_ne_none _, List.forall_mem_nil _⟩
  have hout := hall stillPlatform 0 stillContext hazeConnNew _ idle_hazeConnNew hplain
  rw [pipelined_iff_received 0 stillContext idle_hazeConnNew hplain, List.map_inj_left] at hout
  have hr := List.mem_singleton_self (⟨0, 1, some s, []⟩ : Request)
  have hshort := (hplain _ hr).received_eq_iff.mp (hout _ hr)
  exact absurd (hshort.method s rfl) (by rw [hs]; exact lt_irrefl _)

end Haze
