import Haze.Proto.RequestSync
import Haze.Server.Connection

/-
  Streams of frames.

  A read that is a sequence of whole frames whose parameters have no children is
  dispatched frame by frame (`hazeOnRead_frames`). A read that is not empty is never put
  aside: some request is dispatched or the connection is closed (`hazeOnRead_progress`).
  So a connection that stays open has dispatched a request for each read of some bytes
  (`hazeReads_progress`).
-/

open Msgpack

namespace Haze

variable {p : Platform}

/-- A connection that was just accepted. -/
def hazeConnNew : HazeConn := { buffer := [], bufferCap := 0, fits := le_rfl, closed := false }

@[simp] theorem dispatched_append (es fs : List Event) :
    dispatched (es ++ fs) = dispatched es ++ dispatched fs :=
  List.filterMap_append

theorem any_isClose_sends (db : DispatchBytes p) : db.sends.any Event.isClose = false := by
  unfold DispatchBytes.sends
  cases db.response <;> cases db.notification <;> rfl

/-! ## Whole frames -/

/-- A frame of a request whose parameters have no children. -/
def FlatFrame (msgid : UInt32) (f : Bytes) : Prop :=
  ∃ method params, RequestFrame msgid method params f ∧ ∀ v ∈ params, v.children = []

/-- An encoding of `[0, msgid, method, params]` is a frame, of parameters that are the same
up to the spelling of integers. -/
theorem requestFrame_of_norm {msgid : UInt32} {t v : Value} {method f : Bytes}
    {params : List Value} (htype : t.norm = .uint 0)
    (hv : v.norm = (Value.array [t, .uint msgid.toUInt64, .str method, .array params]).norm)
    (hf : Encodes v f) :
    ∃ qs, RequestFrame msgid method qs f ∧ qs.map Value.norm = params.map Value.norm := by
  rw [Value.norm, Value.normAll_eq_map, List.map_cons, List.map_cons, List.map_cons, List.map_cons,
    List.map_nil, htype] at hv
  obtain ⟨ws, rfl, hws⟩ := Value.norm_eq_array hv
  obtain ⟨type, ws, rfl, htype, hws⟩ := List.map_eq_cons_iff.mp hws
  obtain ⟨id, ws, rfl, hid, hws⟩ := List.map_eq_cons_iff.mp hws
  obtain ⟨m, ws, rfl, hm, hws⟩ := List.map_eq_cons_iff.mp hws
  obtain ⟨ps, ws, rfl, hps, hws⟩ := List.map_eq_cons_iff.mp hws
  obtain rfl := List.map_eq_nil_iff.mp hws
  obtain rfl := Value.norm_eq_str hm
  rw [Value.norm, Value.normAll_eq_map] at hps
  obtain ⟨qs, rfl, hqs⟩ := Value.norm_eq_array hps
  exact ⟨qs, ⟨type, id, htype, hid, hf⟩, hqs⟩

theorem exists_norm_eq {params qs : List Value}
    (hqs : qs.map Value.norm = params.map Value.norm) {q : Value} (hq : q ∈ qs) :
    ∃ v ∈ params, v.norm = q.norm := by
  have hmem : q.norm ∈ qs.map Value.norm := List.mem_map_of_mem hq
  rw [hqs] at hmem
  exact List.mem_map.mp hmem

theorem flat_of_norm {params qs : List Value}
    (hqs : qs.map Value.norm = params.map Value.norm) (hflat : ∀ v ∈ params, v.children = []) :
    ∀ q ∈ qs, q.children = [] := by
  intro q hq
  obtain ⟨v, hv, heq⟩ := exists_norm_eq hqs hq
  rw [← List.map_eq_nil_iff (f := Value.norm), ← Value.children_norm, ← heq, Value.children_norm,
    hflat v hv, List.map_nil]

/-- An encoding of `[0, msgid, method, params]`, with flat parameters. -/
theorem flatFrame_of_norm {msgid : UInt32} {t v : Value} {method f : Bytes}
    {params : List Value} (htype : t.norm = .uint 0)
    (hv : v.norm = (Value.array [t, .uint msgid.toUInt64, .str method, .array params]).norm)
    (hf : Encodes v f) (hflat : ∀ v ∈ params, v.children = []) : FlatFrame msgid f := by
  obtain ⟨qs, hframe, hqs⟩ := requestFrame_of_norm htype hv hf
  exact ⟨method, qs, hframe, flat_of_norm hqs hflat⟩

/-- The bytes are read as the request, and no others with them. -/
def ReadsAs (request : Request) (f : Bytes) : Prop :=
  f ≠ [] ∧ ∀ rest, requestUnmarshal (f ++ rest) = (some request, f.length)

/-- The request that flat parameters behind a header are read as. -/
theorem readsAs_flat {msgid : UInt32} {method h body : Bytes} {params : List Value}
    (hh : RequestHeader msgid method (.ofNat params.length) h) (hbody : EncodesAll params body)
    (hlen : params.length < 2 ^ 32) (hflat : ∀ v ∈ params, v.children = []) :
    ReadsAs { headerRequest msgid method with parameters := (uptoScalar params).map paramOf }
      (h ++ body) := by
  refine ⟨List.append_ne_nil_of_left_ne_nil (requestHeader_ne_nil hh) body, fun rest => ?_⟩
  exact requestUnmarshal_flat hh hbody hlen hflat rest

theorem flatFrame_readsAs {msgid : UInt32} {f : Bytes} (hf : FlatFrame msgid f) :
    ∃ request : Request, request.msgid = msgid ∧ ReadsAs request f := by
  obtain ⟨method, params, hf, hflat⟩ := hf
  obtain ⟨h, body, hh, hbody, hlen, rfl⟩ := requestFrame_split hf
  exact ⟨_, rfl, readsAs_flat hh hbody hlen hflat⟩

/-- Frames that are read one by one, with what each is read as. -/
theorem exists_readsAs {α : Type} (view : Request × Bytes → α) {frames : List α}
    (hframes : ∀ a ∈ frames, ∃ f, view f = a ∧ ReadsAs f.1 f.2) :
    ∃ read : List (Request × Bytes), read.map view = frames ∧ ∀ f ∈ read, ReadsAs f.1 f.2 := by
  induction frames with
  | nil => exact ⟨[], rfl, List.forall_mem_nil _⟩
  | cons a frames ih =>
      obtain ⟨⟨f, hview, hf⟩, hframes⟩ := List.forall_mem_cons.mp hframes
      obtain ⟨read, hmap, hread⟩ := ih hframes
      refine ⟨f :: read, ?_, List.forall_mem_cons.mpr ⟨hf, hread⟩⟩
      rw [List.map_cons, hview, hmap]

theorem serverDispatch_some (connection : Nat) (ctx : Context p) {buffer : Bytes}
    {request : Request} {len : Nat} (hread : requestUnmarshal buffer = (some request, len)) :
    serverDispatch ctx connection buffer =
      { ok := true
        response := (dispatchRPCMessage ctx connection request).1.response.bind responseMarshal
        notification :=
          (dispatchRPCMessage ctx connection request).1.notification.bind notificationMarshal
        len := len
        ctx := (dispatchRPCMessage ctx connection request).2
        events := [.dispatch request] } := by
  unfold serverDispatch
  rw [hread]

theorem serverDispatch_none (connection : Nat) (ctx : Context p) {buffer : Bytes} {len : Nat}
    (hread : requestUnmarshal buffer = (none, len)) :
    serverDispatch ctx connection buffer =
      { ok := false, response := none, notification := none, len := len, ctx := ctx,
        events := [] } := by
  unfold serverDispatch
  rw [hread]

/-- What is sent for a request. -/
def DispatchResult.sends (dr : DispatchResult) : List Event :=
  ((dr.response.bind responseMarshal).map Event.send).toList ++
    ((dr.notification.bind notificationMarshal).map Event.broadcast).toList

theorem DispatchResult.dispatched_sends (dr : DispatchResult) : dispatched dr.sends = [] := by
  unfold DispatchResult.sends
  cases dr.response.bind responseMarshal <;> cases dr.notification.bind notificationMarshal <;> rfl

theorem DispatchResult.any_isClose_sends (dr : DispatchResult) :
    dr.sends.any Event.isClose = false := by
  unfold DispatchResult.sends
  cases dr.response.bind responseMarshal <;> cases dr.notification.bind notificationMarshal <;> rfl

/-- One request after the other, each with what is sent for it. -/
def dispatchAll (connection : Nat) (ctx : Context p) : List Request → Context p × List Event
  | [] => (ctx, [])
  | request :: requests =>
    let (dr, ctx) := dispatchRPCMessage ctx connection request
    let (ctx, later) := dispatchAll connection ctx requests
    (ctx, .dispatch request :: dr.sends ++ later)

theorem dispatchAll_cons (connection : Nat) (ctx : Context p) (request : Request)
    (requests : List Request) :
    dispatchAll connection ctx (request :: requests) =
      let out := dispatchRPCMessage ctx connection request
      let later := dispatchAll connection out.2 requests
      (later.1, [.dispatch request] ++ out.1.sends ++ later.2) := rfl

theorem dispatchAll_append (connection : Nat) (ctx : Context p) (requests later : List Request) :
    dispatchAll connection ctx (requests ++ later) =
      let out := dispatchAll connection ctx requests
      let rest := dispatchAll connection out.1 later
      (rest.1, out.2 ++ rest.2) := by
  induction requests generalizing ctx with
  | nil => rfl
  | cons request requests ih =>
      rw [List.cons_append, dispatchAll_cons, dispatchAll_cons]
      dsimp only
      rw [ih]
      dsimp only
      simp only [List.append_assoc]

theorem dispatched_dispatchAll (connection : Nat) (ctx : Context p) (requests : List Request) :
    dispatched (dispatchAll connection ctx requests).2 = requests := by
  induction requests generalizing ctx with
  | nil => rfl
  | cons request requests ih =>
      rw [dispatchAll_cons]
      dsimp only
      rw [dispatched_append, dispatched_append, DispatchResult.dispatched_sends, ih]
      rfl

theorem any_isClose_dispatchAll (connection : Nat) (ctx : Context p) (requests : List Request) :
    (dispatchAll connection ctx requests).2.any Event.isClose = false := by
  induction requests generalizing ctx with
  | nil => rfl
  | cons request requests ih =>
      rw [dispatchAll_cons]
      dsimp only
      rw [List.any_append, List.any_append, DispatchResult.any_isClose_sends, ih]
      rfl

/-- Whole frames in front of a buffer are dispatched one after the other. -/
theorem hazeReadLoop_reads (connection : Nat) (ctx : Context p)
    {frames : List (Request × Bytes)} (hframes : ∀ f ∈ frames, ReadsAs f.1 f.2) (rest : Bytes) :
    hazeReadLoop connection ctx ((frames.map Prod.snd).flatten ++ rest) =
      let served := dispatchAll connection ctx (frames.map Prod.fst)
      let later := hazeReadLoop connection served.1 rest
      (later.1, later.2.1, served.2 ++ later.2.2) := by
  induction frames generalizing ctx with
  | nil => rfl
  | cons f frames ih =>
      obtain ⟨⟨hne, hread⟩, hframes⟩ := List.forall_mem_cons.mp hframes
      have hpos := List.length_pos_iff.mpr hne
      rw [List.map_cons, List.flatten_cons, List.append_assoc]
      generalize htail : (frames.map Prod.snd).flatten ++ rest = tail
      have hstep := hazeReadLoop_step connection ctx
        (List.append_ne_nil_of_left_ne_nil hne tail) rfl
      have hdispatch := serverDispatch_some connection ctx (hread tail)
      have hwhole : ¬(f.2.length = 0 ∨ (f.2 ++ tail).length < f.2.length) := by
        rw [List.length_append]
        omega
      rw [hdispatch] at hstep
      dsimp only at hstep
      rw [if_neg Bool.noConfusion, if_neg hwhole, List.drop_left, ← htail, ih _ hframes] at hstep
      rw [← htail, hstep, List.map_cons]
      rw [dispatchAll_cons]
      dsimp only
      rw [← List.append_assoc]
      rfl

/-- A connection that is open with nothing buffered. -/
def HazeConn.Idle (conn : HazeConn) : Prop := conn.buffer = [] ∧ conn.closed = false

theorem idle_hazeConnNew : hazeConnNew.Idle := ⟨rfl, rfl⟩

/-- What an idle connection makes of a read, which may have no bytes. -/
theorem hazeOnRead_idle (connection : Nat) (ctx : Context p) {conn : HazeConn}
    (hidle : conn.Idle) (data : Bytes) :
    let out := hazeOnRead connection ctx conn (.data data)
    let loop := hazeReadLoop connection ctx data
    out.1 = loop.1 ∧ out.2.1.buffer = loop.2.1 ∧
      out.2.2 = loop.2.2 ++ (if 4 * 1024 * 1024 < loop.2.1.length then [.close] else []) ∧
      out.2.1.closed = out.2.2.any Event.isClose := by
  obtain ⟨hbuffer, hopen⟩ := hidle
  cases data with
  | nil =>
      rw [hazeReadLoop_nil]
      exact ⟨rfl, hbuffer, rfl, hopen⟩
  | cons b bs =>
      have hdata : conn.buffer ++ b :: bs = b :: bs := by rw [hbuffer, List.nil_append]
      simp only [hazeOnRead]
      rw [hdata, hopen, Bool.false_or]
      exact ⟨rfl, rfl, rfl, rfl⟩

/-- A read of whole frames leaves nothing. -/
theorem hazeOnRead_whole (connection : Nat) (ctx : Context p) {conn : HazeConn} (hidle : conn.Idle)
    {frames : List (Request × Bytes)} (hframes : ∀ f ∈ frames, ReadsAs f.1 f.2) :
    let out := hazeOnRead connection ctx conn (.data (frames.map Prod.snd).flatten)
    out.2.1.Idle ∧ (out.1, out.2.2) = dispatchAll connection ctx (frames.map Prod.fst) := by
  have hloop := hazeReadLoop_reads connection ctx hframes []
  dsimp only at hloop
  rw [List.append_nil, hazeReadLoop_nil, List.append_nil] at hloop
  obtain ⟨hctx, hbuffer, hevents, hclosed⟩ :=
    hazeOnRead_idle connection ctx hidle (frames.map Prod.snd).flatten
  rw [hloop] at hctx hbuffer hevents
  have hsent : (hazeOnRead connection ctx conn (.data (frames.map Prod.snd).flatten)).2.2 =
      (dispatchAll connection ctx (frames.map Prod.fst)).2 := by
    rw [hevents]
    dsimp only
    rw [if_neg (by decide), List.append_nil]
  refine ⟨⟨hbuffer, ?_⟩, Prod.ext hctx hsent⟩
  rw [hclosed, hsent]
  exact any_isClose_dispatchAll connection ctx _

theorem hazeOnRead_frames (connection : Nat) (ctx : Context p) {frames : List (UInt32 × Bytes)}
    (hframes : ∀ f ∈ frames, FlatFrame f.1 f.2) :
    let out := hazeOnRead connection ctx hazeConnNew (.data (frames.map Prod.snd).flatten)
    (dispatched out.2.2).map Request.msgid = frames.map Prod.fst ∧ out.2.1.closed = false := by
  have hreads : ∀ f ∈ frames, ∃ r : Request × Bytes, (r.1.msgid, r.2) = f ∧ ReadsAs r.1 r.2 := by
    intro f hf
    obtain ⟨request, hid, hread⟩ := flatFrame_readsAs (hframes f hf)
    exact ⟨(request, f.2), Prod.ext hid rfl, hread⟩
  obtain ⟨read, rfl, hread⟩ := exists_readsAs _ hreads
  have hbytes : (read.map fun r => (r.1.msgid, r.2)).map Prod.snd = read.map Prod.snd :=
    List.map_map
  obtain ⟨hidle, hserved⟩ := hazeOnRead_whole connection ctx idle_hazeConnNew hread
  rw [← hbytes] at hidle hserved
  refine ⟨?_, hidle.2⟩
  rw [congrArg Prod.snd hserved, dispatched_dispatchAll, List.map_map, List.map_map]
  rfl

/-! ## Any bytes -/

/-- The loop dispatches a request or closes the connection. -/
theorem hazeReadLoop_progress (connection : Nat) (ctx : Context p) {buffer : Bytes}
    (hbuf : buffer ≠ []) :
    dispatched (hazeReadLoop connection ctx buffer).2.2 ≠ [] ∨
      (hazeReadLoop connection ctx buffer).2.2.any Event.isClose = true := by
  rw [hazeReadLoop_step connection ctx hbuf rfl]
  unfold serverDispatch
  cases hread : requestUnmarshal buffer with
  | mk request len =>
      cases request with
      | none => exact .inr rfl
      | some request =>
          refine .inl ?_
          dsimp only
          rw [if_neg Bool.noConfusion]
          split_ifs
          · exact List.cons_ne_nil _ _
          · exact List.cons_ne_nil _ _

theorem hazeOnRead_progress (connection : Nat) (ctx : Context p) (conn : HazeConn) {data : Bytes}
    (hdata : data ≠ []) :
    dispatched (hazeOnRead connection ctx conn (.data data)).2.2 ≠ [] ∨
      (hazeOnRead connection ctx conn (.data data)).2.1.closed = true := by
  obtain ⟨b, bs, rfl⟩ := List.exists_cons_of_ne_nil hdata
  have hbuf : conn.buffer ++ b :: bs ≠ [] := List.append_ne_nil_of_right_ne_nil _ hdata
  rcases hazeReadLoop_progress connection ctx hbuf with hreq | hclose
  · refine .inl ?_
    show dispatched ((hazeReadLoop connection ctx (conn.buffer ++ b :: bs)).2.2 ++ _) ≠ []
    rw [dispatched_append]
    exact List.append_ne_nil_of_left_ne_nil hreq _
  · refine .inr ?_
    show (conn.closed || ((hazeReadLoop connection ctx (conn.buffer ++ b :: bs)).2.2 ++ _).any
      Event.isClose) = true
    rw [List.any_append, hclose]
    simp

/-- What starts with a positive fixint is no request. -/
theorem requestUnmarshal_fixuint {b : UInt8} (hb : b ≤ 0x7f) (bs : Bytes) :
    requestUnmarshal (b :: bs) = (none, (b :: bs).length) := by
  have htag : mpackReadTag (.ok (b :: bs)) = (.uint b.toUInt64, .ok bs) :=
    mpackReadTag_spells ⟨b, [], _, rfl, format_fixuint hb, rfl, rfl⟩ bs
  apply requestUnmarshal_of_header_none
  simp [requestUnmarshalHeader, htag]

theorem hazeOnRead_fixuint (connection : Nat) (ctx : Context p) {b : UInt8} (hb : b ≤ 0x7f)
    (bs : Bytes) : (hazeOnRead connection ctx hazeConnNew (.data (b :: bs))).2.1.closed = true := by
  have hstep := hazeReadLoop_step connection ctx (List.cons_ne_nil b bs) rfl
  rw [serverDispatch_none connection ctx (requestUnmarshal_fixuint hb bs), if_pos rfl] at hstep
  show (false || ((hazeReadLoop connection ctx (b :: bs)).2.2 ++ _).any Event.isClose) = true
  rw [hstep]
  rfl

/-! ## Runs of reads -/

/-- The stream reaches the server in reads of at most `limit` bytes, some of them empty. -/
def Delivers (limit : Nat) (stream : Bytes) (reads : List Read) : Prop :=
  ∃ chunks : List Bytes, chunks.flatten = stream ∧ (∀ chunk ∈ chunks, chunk.length ≤ limit) ∧
    reads = chunks.map .data

theorem hazeReads_of_closed (connection : Nat) (ctx : Context p) {conn : HazeConn}
    (hclosed : conn.closed = true) (reads : List Read) :
    hazeReads connection ctx conn reads = (ctx, conn, []) := by
  cases reads with
  | nil => rfl
  | cons read reads => rw [hazeReads, if_pos hclosed]

theorem hazeReads_cons (connection : Nat) (ctx : Context p) {conn : HazeConn}
    (hopen : conn.closed = false) (read : Read) (reads : List Read) :
    hazeReads connection ctx conn (read :: reads) =
      let out := hazeOnRead connection ctx conn read
      let later := hazeReads connection out.1 out.2.1 reads
      (later.1, later.2.1, out.2.2 ++ later.2.2) := by
  rw [hazeReads, if_neg (by rw [hopen]; exact Bool.noConfusion)]

/-- Reads without bytes change nothing. -/
theorem hazeReads_filter (connection : Nat) (ctx : Context p) (conn : HazeConn)
    (chunks : List Bytes) :
    hazeReads connection ctx conn ((chunks.filter (· ≠ [])).map .data) =
      hazeReads connection ctx conn (chunks.map .data) := by
  induction chunks generalizing ctx conn with
  | nil => rfl
  | cons chunk chunks ih =>
      by_cases hclosed : conn.closed = true
      · rw [hazeReads_of_closed _ _ hclosed, hazeReads_of_closed _ _ hclosed]
      have hopen := Bool.eq_false_iff.mpr hclosed
      by_cases hchunk : chunk = []
      · rw [List.filter_cons_of_neg (by simpa using hchunk), ih, hchunk, List.map_cons,
          hazeReads_cons _ _ hopen]
        rfl
      · rw [List.filter_cons_of_pos (by simpa using hchunk), List.map_cons, List.map_cons,
          hazeReads_cons _ _ hopen, hazeReads_cons _ _ hopen]
        dsimp only
        rw [ih]

theorem hazeReads_progress (connection : Nat) (ctx : Context p) (conn : HazeConn)
    {chunks : List Bytes} (hchunks : ∀ chunk ∈ chunks, chunk ≠ [])
    (hopen : (hazeReads connection ctx conn (chunks.map .data)).2.1.closed = false) :
    chunks.length ≤
      (dispatched (hazeReads connection ctx conn (chunks.map .data)).2.2).length := by
  induction chunks generalizing ctx conn with
  | nil => exact Nat.zero_le _
  | cons chunk chunks ih =>
      obtain ⟨hchunk, hchunks⟩ := List.forall_mem_cons.mp hchunks
      by_cases hclosed : conn.closed = true
      · rw [hazeReads_of_closed _ _ hclosed, hclosed] at hopen
        exact Bool.noConfusion hopen
      rw [List.map_cons, hazeReads_cons _ _ (Bool.eq_false_iff.mpr hclosed)] at hopen ⊢
      have hlater := ih _ _ hchunks hopen
      rcases hazeOnRead_progress connection ctx conn hchunk with hreq | hclose
      · have hpos := List.length_pos_iff.mpr hreq
        rw [dispatched_append, List.length_append, List.length_cons]
        omega
      · dsimp only at hopen
        rw [hazeReads_of_closed _ _ hclose, hclose] at hopen
        exact Bool.noConfusion hopen

/-- A stream that starts with a positive fixint, and is too long for one read if it is not
read whole, is never dispatched as one request. -/
theorem hazeReads_fixuint (connection : Nat) (ctx : Context p) {limit : Nat} {stream : Bytes}
    {reads : List Read} (hreads : Delivers limit stream reads)
    (hstream : stream.length ≤ limit → ∀ b ∈ stream.head?, b ≤ 0x7f)
    (hopen : (hazeReads connection ctx hazeConnNew reads).2.1.closed = false) :
    (dispatched (hazeReads connection ctx hazeConnNew reads).2.2).length ≠ 1 := by
  obtain ⟨chunks, hflat, hlimit, rfl⟩ := hreads
  rw [← hazeReads_filter] at hopen ⊢
  have hne : ∀ chunk ∈ chunks.filter (· ≠ []), chunk ≠ [] := fun chunk hchunk => by
    simpa using List.of_mem_filter hchunk
  have hcount := hazeReads_progress connection ctx hazeConnNew hne hopen
  intro hone
  rw [hone] at hcount
  have hwhole : (chunks.filter (· ≠ [])).flatten = stream := by
    rw [← hflat]
    exact List.flatten_filter_ne_nil
  generalize hkept : chunks.filter (· ≠ []) = kept at hopen hne hcount hone hwhole
  match kept with
  | [] => exact Nat.zero_ne_one hone
  | chunk :: _ :: _ => exact absurd hcount (by simp)
  | [chunk] =>
      -- one read is the whole stream, and its first byte is the fixint
      obtain rfl : chunk = stream := by rw [← hwhole, List.flatten_singleton]
      have hlen := hlimit chunk (List.mem_of_mem_filter (hkept ▸ List.mem_singleton_self chunk))
      obtain ⟨b, bs, rfl⟩ := List.exists_cons_of_ne_nil (hne chunk (List.mem_singleton_self chunk))
      have hclosed := hazeOnRead_fixuint connection ctx (hstream hlen b rfl) bs
      rw [List.map_singleton, hazeReads_cons connection ctx rfl] at hopen
      exact absurd (hclosed.symm.trans hopen) Bool.noConfusion

end Haze
