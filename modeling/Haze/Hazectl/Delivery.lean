import Haze.Hazectl.Correlation
import Haze.Server.Stream

/-
  What a call puts on the connection.

  `Client.Call` writes the frame of its request three times. In a run in which no write
  fails a call that waits or has returned has three frames on the connection, or none if
  its request could not be marshalled, and never one (`call_never_once`); the server
  dispatches a request of flat parameters three times (`call_executes_thrice`).
-/

open Msgpack Transition

namespace Haze.Hazectl

variable {marshal : Value → Except GoError Bytes} {acts : List Action} {c c' : Client}
  {i j : Nat} {call : Call}

/-- What the call wrote. -/
def framesOf (conn : List (Nat × Bytes)) (i : Nat) : List Bytes :=
  (conn.filter (·.1 = i)).map Prod.snd

theorem framesOf_self (conn : List (Nat × Bytes)) (i : Nat) (payload : Bytes) :
    framesOf (conn ++ [(i, payload)]) i = framesOf conn i ++ [payload] := by
  unfold framesOf
  rw [List.filter_append, List.map_append, List.filter_cons_of_pos (by simp)]
  rfl

theorem framesOf_other (conn : List (Nat × Bytes)) (hij : j ≠ i) (payload : Bytes) :
    framesOf (conn ++ [(j, payload)]) i = framesOf conn i := by
  unfold framesOf
  rw [List.filter_append, List.map_append, List.filter_cons_of_neg (by simpa using hij)]
  simp

theorem framesOf_eq_nil {conn : List (Nat × Bytes)} (h : ∀ e ∈ conn, e.1 ≠ i) :
    framesOf conn i = [] := by
  unfold framesOf
  rw [List.filter_eq_nil_iff.mpr (by simpa using h)]
  rfl

/-! ## Frames of a call -/

/-- What a call has written after `n` writes, when no write failed. -/
structure Sent (marshal : Value → Except GoError Bytes) (frames : List Bytes) (n : Nat)
    (call : Call) : Prop where
  ok : ∀ payload, marshal call.reqPayload = .ok payload →
    frames = List.replicate n payload ∧
      (∀ bytes left, call.state = .writing bytes left → bytes = payload) ∧
      (∀ err, call.state ≠ .failing err) ∧ ∀ out, call.state = .returned out → n = 3
  error : ∀ err, marshal call.reqPayload = .error err →
    frames = [] ∧ call.state ≠ .waiting ∧ ∀ bytes left, call.state ≠ .writing bytes left

/-- The steps that neither write nor move the call. -/
theorem Sent.congr {frames : List Bytes} {n : Nat} {call' : Call}
    (h : Sent marshal frames n call) (hpayload : call'.reqPayload = call.reqPayload)
    (hstate : call'.state = call.state) : Sent marshal frames n call' := by
  refine ⟨?_, ?_⟩
  · rw [hpayload, hstate]
    exact h.ok
  · rw [hpayload, hstate]
    exact h.error

/-- The steps that move the call and do not write. -/
theorem Sent.move {frames : List Bytes} {n : Nat} {call' : Call}
    (h : Sent marshal frames n call) (hpayload : call'.reqPayload = call.reqPayload)
    (hok : ∀ payload, marshal call.reqPayload = .ok payload →
      (∀ bytes left, call'.state = .writing bytes left → bytes = payload) ∧
        (∀ err, call'.state ≠ .failing err) ∧ ∀ out, call'.state = .returned out → n = 3)
    (herror : ∀ err, marshal call.reqPayload = .error err →
      call'.state ≠ .waiting ∧ ∀ bytes left, call'.state ≠ .writing bytes left) :
    Sent marshal frames n call' := by
  refine ⟨?_, ?_⟩
  · intro payload hp
    rw [hpayload] at hp
    exact ⟨(h.ok payload hp).1, hok payload hp⟩
  · intro err he
    rw [hpayload] at he
    exact ⟨(h.error err he).1, herror err he⟩

theorem Sent.write {frames : List Bytes} {n left : Nat} {payload : Bytes}
    (h : Sent marshal frames n call) (hstate : call.state = .writing payload left) :
    Sent marshal (frames ++ [payload]) (n + 1) { call with state := written payload left } := by
  refine ⟨?_, ?_⟩
  · intro bytes hp
    obtain ⟨hframes, hwriting, -, -⟩ := h.ok bytes hp
    obtain rfl := hwriting payload left hstate
    refine ⟨by rw [hframes, List.replicate_succ'], ?_, ?_, ?_⟩
    · intro bytes' left' heq
      cases left with
      | zero => cases heq
      | succ left => exact (CallState.writing.inj heq).1.symm
    · intro err heq
      cases left <;> cases heq
    · intro out heq
      cases left <;> cases heq
  · intro err he
    exact absurd hstate ((h.error err he).2.2 payload left)

/-- Every call of a run without a failed write. -/
def AllSent (marshal : Value → Except GoError Bytes) (acts : List Action) (c : Client) : Prop :=
  (∀ i call, c.calls[i]? = some call → Sent marshal (framesOf c.conn i) (writes acts i) call) ∧
    ∀ e ∈ c.conn, e.1 < c.calls.length

/-- A step that changes one call and writes nothing. -/
theorem allSent_set {a : Action} (h : AllSent marshal acts c) (hcall : c.calls[i]? = some call)
    {new : Call} (hcalls : c'.calls = c.calls.set i new) (hconn : c'.conn = c.conn)
    (hwrite : ∀ j, ¬a.IsWrite j)
    (hnew : Sent marshal (framesOf c.conn i) (writes acts i) call →
      Sent marshal (framesOf c.conn i) (writes acts i) new) : AllSent marshal (acts ++ [a]) c' := by
  obtain ⟨hsent, hlt⟩ := h
  refine ⟨?_, ?_⟩
  · intro j other hother
    rw [hcalls, getElem?_set_call hcall] at hother
    rw [hconn, writes_other (hwrite j)]
    split_ifs at hother with hij
    · subst hij
      obtain rfl := Option.some.inj hother
      exact hnew (hsent i call hcall)
    · exact hsent j other hother
  · rw [hconn, hcalls, List.length_set]
    exact hlt

/-- A step that changes no call and writes nothing. -/
theorem allSent_same {a : Action} (h : AllSent marshal acts c) (hcalls : c'.calls = c.calls)
    (hconn : c'.conn = c.conn) (hwrite : ∀ j, ¬a.IsWrite j) :
    AllSent marshal (acts ++ [a]) c' := by
  obtain ⟨hsent, hlt⟩ := h
  refine ⟨?_, ?_⟩
  · intro j other hother
    rw [hcalls] at hother
    rw [hconn, writes_other (hwrite j)]
    exact hsent j other hother
  · rw [hconn, hcalls]
    exact hlt

/-- A call that has written nothing. -/
theorem Sent.new (msgID : UInt32) (method : Bytes) (params : Option (List Value)) :
    Sent marshal [] 0 (newCall msgID method params) := by
  refine ⟨?_, ?_⟩
  · intro payload _
    simp [newCall]
  · intro err _
    simp [newCall]

theorem allSent_call {msgID : UInt32} {method : Bytes} {params : Option (List Value)}
    (hinv : ClientInv acts c) (h : AllSent marshal acts c)
    (hcalls : c'.calls = c.calls ++ [newCall msgID method params]) (hconn : c'.conn = c.conn) :
    AllSent marshal (acts ++ [.call method params]) c' := by
  obtain ⟨hsent, hlt⟩ := h
  refine ⟨?_, ?_⟩
  · intro i call hcall
    rw [hcalls] at hcall
    rw [hconn, writes_other id]
    rcases getElem?_append_call hcall with hcall | ⟨rfl, rfl⟩
    · exact hsent i call hcall
    · have hnone : framesOf c.conn c.calls.length = [] := by
        refine framesOf_eq_nil fun e he => ?_
        exact (hlt e he).ne
      have hzero : writes acts c.calls.length = 0 :=
        (untouched fun a ha htouch => lt_irrefl _ (hinv.touched a ha _ htouch)).1
      rw [hnone, hzero]
      exact Sent.new _ _ _
  · intro e he
    rw [hconn] at he
    rw [hcalls, List.length_append]
    exact Nat.lt_add_right _ (hlt e he)

theorem allSent_write {left : Nat} {payload : Bytes} (h : AllSent marshal acts c)
    (hcall : c.calls[i]? = some call) (hstate : call.state = .writing payload left)
    (hcalls : c'.calls = c.calls.set i { call with state := written payload left })
    (hconn : c'.conn = c.conn ++ [(i, payload)]) :
    AllSent marshal (acts ++ [.write i]) c' := by
  obtain ⟨hsent, hlt⟩ := h
  refine ⟨?_, ?_⟩
  · intro j other hother
    rw [hcalls, getElem?_set_call hcall] at hother
    rw [hconn]
    split_ifs at hother with hij
    · subst hij
      obtain rfl := Option.some.inj hother
      have hone : writes (acts ++ [.write i]) i = writes acts i + 1 := writes_self rfl
      rw [framesOf_self, hone]
      exact (hsent i call hcall).write hstate
    · have hsame : writes (acts ++ [.write i]) j = writes acts j := writes_other hij
      rw [framesOf_other _ hij, hsame]
      exact hsent j other hother
  · intro e he
    have hi := (List.getElem?_eq_some_iff.mp hcall).1
    rw [hconn, List.mem_append, List.mem_singleton] at he
    rw [hcalls, List.length_set]
    rcases he with he | rfl
    · exact hlt e he
    · exact hi

/-- The read loop closes channels, and moves no call. -/
theorem allSent_closeAll (hinv : ClientInv acts c) (h : AllSent marshal acts c) :
    AllSent marshal (acts ++ [.closeAll]) c.closeAll := by
  obtain ⟨hsent, hlt⟩ := h
  have hlen := length_closeAll hinv
  obtain ⟨calls, heq, hget⟩ := hinv.closeAll_eq
  rw [heq] at hlen ⊢
  refine ⟨?_, ?_⟩
  · intro i call hcall
    obtain ⟨old, hold, rfl⟩ := Option.map_eq_some_iff.mp ((hget i).symm.trans hcall)
    rw [writes_other id]
    have h := hsent i old hold
    split_ifs
    · exact h.congr rfl rfl
    · exact h
  · intro e he
    exact hlen.symm ▸ hlt e he

/-- One step, no failed write. -/
theorem allSent_step {a : Action} (hinv : ClientInv acts c) (h : AllSent marshal acts c)
    (hstep : Step marshal c a c') (hwrites : ∀ i n err, a ≠ .writeFails i n err) :
    AllSent marshal (acts ++ [a]) c' := by
  cases hstep with
  | call method params => exact allSent_call hinv h rfl rfl
  | register hcall hstate =>
      refine allSent_set h hcall rfl rfl (fun _ => id) fun hsent => hsent.move rfl ?_ ?_
      · intro payload _
        simp
      · intro err _
        simp
  | @marshal i call hcall hstate =>
      refine allSent_set h hcall rfl rfl (fun _ => id) fun hsent => hsent.move rfl ?_ ?_
      · intro payload hp
        simp [marshalled, hp]
      · intro err he
        simp [marshalled, he]
  | write hcall hstate => exact allSent_write h hcall hstate rfl rfl
  | writeFails n err hcall hstate => exact absurd rfl (hwrites _ n err)
  | @remove i call err hcall hstate =>
      refine allSent_set h hcall rfl rfl (fun _ => id) fun hsent => hsent.move rfl ?_ ?_
      · intro payload hp
        exact absurd hstate ((hsent.ok payload hp).2.2.1 err)
      · intro err _
        simp
  | @receive i call resp hcall hstate hbuffer =>
      have hthree : writes acts i = 3 := by
        simpa [hstate, CallState.Wrote] using (hinv.calls i call hcall).wrote
      refine allSent_set h hcall rfl rfl (fun _ => id) fun hsent => hsent.move rfl ?_ ?_
      · intro payload _
        simp [hthree]
      · intro err _
        simp
  | @receiveClosed i call hcall hstate hbuffer hclosed =>
      have hthree : writes acts i = 3 := by
        simpa [hstate, CallState.Wrote] using (hinv.calls i call hcall).wrote
      refine allSent_set h hcall rfl rfl (fun _ => id) fun hsent => hsent.move rfl ?_ ?_
      · intro payload _
        simp [hthree]
      · intro err _
        simp
  | decode => exact allSent_same h rfl rfl fun _ => id
  | lookup => exact allSent_same h rfl rfl fun _ => id
  | send _ hcall =>
      exact allSent_set h hcall rfl rfl (fun _ => id) fun hsent => hsent.congr rfl rfl
  | sendClosed => exact allSent_same h rfl rfl fun _ => id
  | decodeFails => exact allSent_same h rfl rfl fun _ => id
  | closeAll hloop => exact allSent_closeAll hinv h

theorem allSent_run (hrun : ClientRun marshal acts c)
    (hwrites : ∀ i n err, .writeFails i n err ∉ acts) : AllSent marshal acts c := by
  induction hrun with
  | nil => exact ⟨nofun, nofun⟩
  | @snoc acts a m c hrun hstep ih =>
      have hlast : ∀ i n err, a ≠ .writeFails i n err := by
        intro i n err heq
        exact hwrites i n err (by simp [heq])
      have hfront : ∀ i n err, .writeFails i n err ∉ acts := fun i n err hmem =>
        hwrites i n err (List.mem_append_left _ hmem)
      exact allSent_step (clientInv_run hrun) (ih hfront) hstep hlast

/-! ## What the server executes -/

/-- How many requests with the number the server dispatches when a new connection reads
what was written. -/
def executions {p : Platform} (ctx : Context p) (connection : Nat) (conn : List (Nat × Bytes))
    (msgID : UInt32) : Nat :=
  (dispatched (hazeOnRead connection ctx hazeConnNew
    (.data (conn.map Prod.snd).flatten)).2.2).countP (·.msgid = msgID)

/-- The call put one frame on the connection, and the server executes it once. -/
def ExecutedOnce (c : Client) (i : Nat) (call : Call) : Prop :=
  (framesOf c.conn i).length = 1 ∧
    ∀ (p : Platform) (ctx : Context p) (connection : Nat),
      executions ctx connection c.conn call.msgID = 1

/-- A call that waits or has returned has three frames on the connection, or none. -/
theorem framesOf_done (hrun : ClientRun marshal acts c)
    (hwrites : ∀ i n err, .writeFails i n err ∉ acts) (hcall : c.calls[i]? = some call)
    (hdone : call.state = .waiting ∨ ∃ out, call.state = .returned out) :
    framesOf c.conn i = match marshal call.reqPayload with
      | .ok payload => List.replicate 3 payload
      | .error _ => [] := by
  have hsent := (allSent_run hrun hwrites).1 i call hcall
  cases hmarshal : marshal call.reqPayload with
  | error err => exact (hsent.error err hmarshal).1
  | ok payload =>
      obtain ⟨hframes, -, -, hreturned⟩ := hsent.ok payload hmarshal
      have hthree : writes acts i = 3 := by
        rcases hdone with hstate | ⟨out, hstate⟩
        · simpa [hstate, CallState.Wrote] using ((clientInv_run hrun).calls i call hcall).wrote
        · exact hreturned out hstate
      rw [hframes, hthree]

/-- What the library writes for the requests of the calls are encodings of them. -/
def WritesEncoding (marshal : Value → Except GoError Bytes) (calls : List Call) : Prop :=
  ∀ call ∈ calls, ∀ bs, marshal call.reqPayload = .ok bs →
    ∃ w : Value, w.norm = call.reqPayload.norm ∧ Encodes w bs

theorem flatFrame_of_marshal {calls : List Call} (hmarshal : WritesEncoding marshal calls)
    (hmem : call ∈ calls) {bs : Bytes} (hbs : marshal call.reqPayload = .ok bs)
    (hflat : ∀ v ∈ call.params, v.children = []) : FlatFrame call.msgID bs := by
  obtain ⟨w, hw, henc⟩ := hmarshal call hmem bs hbs
  exact flatFrame_of_norm (t := .int 0) rfl hw henc hflat

/-- What is on the connection is what was marshalled for the calls. -/
theorem conn_marshalled (hrun : ClientRun marshal acts c)
    (hwrites : ∀ i n err, .writeFails i n err ∉ acts) {e : Nat × Bytes} (he : e ∈ c.conn) :
    ∃ call, c.calls[e.1]? = some call ∧ marshal call.reqPayload = .ok e.2 := by
  obtain ⟨hsent, hlt⟩ := allSent_run hrun hwrites
  obtain ⟨call, hcall⟩ : ∃ call, c.calls[e.1]? = some call :=
    ⟨_, List.getElem?_eq_getElem (hlt e he)⟩
  have hmem : e.2 ∈ framesOf c.conn e.1 :=
    List.mem_map_of_mem (List.mem_filter.mpr ⟨he, by simp⟩)
  refine ⟨call, hcall, ?_⟩
  have h := hsent e.1 call hcall
  cases hbs : marshal call.reqPayload with
  | error err =>
      rw [(h.error err hbs).1] at hmem
      cases hmem
  | ok payload =>
      rw [(h.ok payload hbs).1] at hmem
      rw [List.eq_of_mem_replicate hmem]

/-- Every frame on the connection is that of a call. -/
theorem conn_flat (hrun : ClientRun marshal acts c) (hmarshal : WritesEncoding marshal c.calls)
    (hwrites : ∀ i n err, .writeFails i n err ∉ acts)
    (hflat : ∀ call ∈ c.calls, ∀ v ∈ call.params, v.children = []) {e : Nat × Bytes}
    (he : e ∈ c.conn) : ∃ call, c.calls[e.1]? = some call ∧ FlatFrame call.msgID e.2 := by
  obtain ⟨call, hcall, hbs⟩ := conn_marshalled hrun hwrites he
  have hcalls := List.mem_of_getElem? hcall
  exact ⟨call, hcall, flatFrame_of_marshal hmarshal hcalls hbs (hflat call hcalls)⟩

/-- The server executes every frame of the call. -/
theorem executions_eq (hrun : ClientRun marshal acts c) (hmarshal : WritesEncoding marshal c.calls)
    (hwrites : ∀ i n err, .writeFails i n err ∉ acts)
    (hflat : ∀ call ∈ c.calls, ∀ v ∈ call.params, v.children = [])
    (hfew : c.calls.length < 2 ^ 32) (hcall : c.calls[i]? = some call) {p : Platform}
    (ctx : Context p) (connection : Nat) :
    executions ctx connection c.conn call.msgID = (framesOf c.conn i).length := by
  let idOf : Nat × Bytes → UInt32 := fun e => ((c.calls[e.1]?).map Call.msgID).getD 0
  have hid : ∀ e ∈ c.conn, ∃ other, c.calls[e.1]? = some other ∧ idOf e = other.msgID ∧
      FlatFrame (idOf e) e.2 := by
    intro e he
    obtain ⟨other, hother, hframe⟩ := conn_flat hrun hmarshal hwrites hflat he
    have heq : idOf e = other.msgID := by simp [idOf, hother]
    exact ⟨other, hother, heq, heq ▸ hframe⟩
  have hframes : ∀ f ∈ c.conn.map fun e => (idOf e, e.2), FlatFrame f.1 f.2 := by
    intro f hf
    obtain ⟨e, he, rfl⟩ := List.mem_map.mp hf
    obtain ⟨-, -, -, hframe⟩ := hid e he
    exact hframe
  have hids : (dispatched (hazeOnRead connection ctx hazeConnNew
      (.data (c.conn.map Prod.snd).flatten)).2.2).map Request.msgid = c.conn.map idOf := by
    have hread := (hazeOnRead_frames connection ctx hframes).1
    rwa [List.map_map, List.map_map] at hread
  unfold executions framesOf
  calc (dispatched (hazeOnRead connection ctx hazeConnNew
          (.data (c.conn.map Prod.snd).flatten)).2.2).countP (·.msgid = call.msgID)
      = (c.conn.map idOf).countP (· = call.msgID) := by
        rw [← hids, List.countP_map]
        rfl
    _ = c.conn.countP (·.1 = i) := by
        rw [List.countP_map]
        refine List.countP_congr fun e he => ?_
        obtain ⟨other, hother, heq, -⟩ := hid e he
        simp only [Function.comp_apply, decide_eq_true_eq, heq]
        constructor
        · exact fun h => msgID_injective hrun hfew hother hcall h
        · intro h
          rw [h, hcall] at hother
          rw [Option.some.inj hother]
    _ = ((c.conn.filter (·.1 = i)).map Prod.snd).length := by
        rw [List.length_map, List.countP_eq_length_filter]

/-- So a request that could be marshalled is executed three times. -/
theorem call_executes_thrice (hrun : ClientRun marshal acts c)
    (hmarshal : WritesEncoding marshal c.calls) (hwrites : ∀ i n err, .writeFails i n err ∉ acts)
    (hflat : ∀ call ∈ c.calls, ∀ v ∈ call.params, v.children = [])
    (hfew : c.calls.length < 2 ^ 32) (hcall : c.calls[i]? = some call)
    (hdone : call.state = .waiting ∨ ∃ out, call.state = .returned out) {payload : Bytes}
    (hpayload : marshal call.reqPayload = .ok payload) {p : Platform} (ctx : Context p)
    (connection : Nat) : executions ctx connection c.conn call.msgID = 3 := by
  rw [executions_eq hrun hmarshal hwrites hflat hfew hcall, framesOf_done hrun hwrites hcall hdone,
    hpayload]
  rfl

/-- In a run in which no write fails no call that waits or has returned is executed as it
should be: it never put one frame on the connection. -/
theorem call_never_once (hrun : ClientRun marshal acts c)
    (hwrites : ∀ i n err, .writeFails i n err ∉ acts) (hcall : c.calls[i]? = some call)
    (hdone : call.state = .waiting ∨ ∃ out, call.state = .returned out) :
    ¬ExecutedOnce c i call := by
  intro honce
  have hlen := honce.1
  rw [framesOf_done hrun hwrites hcall hdone] at hlen
  cases hmarshal : marshal call.reqPayload with
  | error err =>
      rw [hmarshal] at hlen
      cases hlen
  | ok payload =>
      rw [hmarshal] at hlen
      cases hlen

/-- The request `[0, 1, "samplelist/remove", ["kick"]]` and its answer. -/
def removeKick : List Action :=
  oneCall (text "samplelist/remove") (some [.str (text "kick")]) ⟨1, 1, .nil, .nil⟩

def removedKick : Call :=
  { newCall 1 (text "samplelist/remove") (some [.str (text "kick")]) with
    state := .returned (.ok .nil) }

theorem removeKick_run : ∃ c, ClientRun encodeOk removeKick c ∧ c.calls = [removedKick] :=
  oneCall_run _ _ ⟨1, 1, .nil, .nil⟩ rfl rfl

theorem removeKick_writes (i n : Nat) (err : GoError) : .writeFails i n err ∉ removeKick := by
  simp [removeKick, oneCall]

theorem call_never_once_removeKick :
    ∃ c, ClientRun encodeOk removeKick c ∧ c.calls[0]? = some removedKick ∧
      ¬ExecutedOnce c 0 removedKick := by
  obtain ⟨c, hrun, hcalls⟩ := removeKick_run
  have hcall : c.calls[0]? = some removedKick := by rw [hcalls]; rfl
  exact ⟨c, hrun, hcall, call_never_once hrun removeKick_writes hcall (.inr ⟨_, rfl⟩)⟩

theorem removedKick_fits : removedKick.reqPayload.Fits := by
  have hparams : Value.Fits (.array [.str (text "kick")]) := by
    simp only [Value.fits_array, List.forall_mem_cons]
    exact ⟨by decide, Value.fits_of_scalar rfl (by decide), List.forall_mem_nil _⟩
  simp only [removedKick, newCall, Call.reqPayload, Value.fits_array, List.forall_mem_cons]
  exact ⟨by decide, Value.fits_of_scalar rfl (by decide), Value.fits_uint _,
    Value.fits_of_scalar rfl (by decide), Value.fits_array.mp hparams, List.forall_mem_nil _⟩

/-- The server removes the sample three times. -/
theorem removeKick_executes_thrice :
    ¬∀ (marshal : Value → Except GoError Bytes) (acts : List Action) (c : Client) (i : Nat)
      (call : Call), ClientRun marshal acts c → (∀ i n err, .writeFails i n err ∉ acts) →
        c.calls[i]? = some call → (call.state = .waiting ∨ ∃ out, call.state = .returned out) →
          ExecutedOnce c i call := by
  intro hall
  obtain ⟨c, hrun, hcalls⟩ := removeKick_run
  have hcall : c.calls[0]? = some removedKick := by rw [hcalls]; rfl
  have hdone : removedKick.state = .waiting ∨ ∃ out, removedKick.state = .returned out :=
    .inr ⟨_, rfl⟩
  have hmarshal : WritesEncoding encodeOk c.calls := by
    intro call hmem bs hbs
    rw [hcalls, List.mem_singleton] at hmem
    subst hmem
    obtain rfl := Except.ok.inj hbs
    exact ⟨_, Value.norm_norm _, encodes_encode removedKick_fits⟩
  have hflat : ∀ call ∈ c.calls, ∀ v ∈ call.params, v.children = [] := by
    simp [hcalls, removedKick, newCall, Value.children]
  have honce := (hall encodeOk removeKick c 0 removedKick hrun removeKick_writes hcall hdone).2
    stillPlatform stillContext 0
  rw [call_executes_thrice hrun hmarshal removeKick_writes hflat (by simp [hcalls]) hcall hdone
    rfl] at honce
  cases honce

end Haze.Hazectl
