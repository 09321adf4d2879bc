import Haze.Hazectl.Ownership

/-
  The invariant of the client holds along every run.

  A step is looked at from each call: `CallInv` passes to the call behind the step, with
  one case for each action (`callInv_step`). The rest of the invariant is about the
  entries of `pending` and the read loop (`clientInv_step`).
-/

open Msgpack Transition

namespace Haze.Hazectl

variable {marshal : Value → Except GoError Bytes} {acts : List Action} {a : Action}
  {c c' : Client} {i j : Nat} {call : Call}

/-! ## Updates -/

theorem getElem?_set_call {calls : List Call} (hcall : calls[i]? = some call) (new : Call)
    (j : Nat) : (calls.set i new)[j]? = if i = j then some new else calls[j]? := by
  have hlt : i < calls.length := (List.getElem?_eq_some_iff.mp hcall).1
  rw [List.getElem?_set, if_pos hlt]

theorem getElem?_append_call {calls : List Call} {new other : Call}
    (h : (calls ++ [new])[j]? = some other) :
    calls[j]? = some other ∨ j = calls.length ∧ new = other := by
  by_cases hlt : j < calls.length
  · exact .inl ((List.getElem?_append_left hlt).symm.trans h)
  · rw [List.getElem?_append_right (Nat.not_lt.mp hlt)] at h
    obtain ⟨hone, heq⟩ := List.getElem?_eq_some_iff.mp h
    rw [List.length_singleton] at hone
    rw [List.getElem_singleton] at heq
    exact .inr ⟨by omega, heq⟩

theorem Named.lt {calls : List Call} {id : UInt32} (h : Named calls i id) : i < calls.length := by
  obtain ⟨call, hcall, -⟩ := h
  exact (List.getElem?_eq_some_iff.mp hcall).1

theorem named_set {calls : List Call} {new : Call} {id : UInt32}
    (hcall : calls[i]? = some call) (hid : new.msgID = call.msgID) (h : Named calls j id) :
    Named (calls.set i new) j id := by
  obtain ⟨old, hold, hname⟩ := h
  unfold Named
  rw [getElem?_set_call hcall]
  split_ifs with hij
  · subst hij
    obtain rfl := Option.some.inj (hcall.symm.trans hold)
    exact ⟨new, rfl, hid.trans hname⟩
  · exact ⟨old, hold, hname⟩

theorem named_append {calls : List Call} {new : Call} {id : UInt32} (h : Named calls j id) :
    Named (calls ++ [new]) j id := by
  obtain ⟨old, hold, hname⟩ := h
  have hlt : j < calls.length := (List.getElem?_eq_some_iff.mp hold).1
  exact ⟨old, (List.getElem?_append_left hlt).trans hold, hname⟩

/-- Only the entry of the key changes, and it was not one of call `i`. -/
theorem lookup_insert_iff {pending : AList fun _ : UInt32 => Nat} {id : UInt32} (hij : j ≠ i)
    (hfound : pending.lookup id ≠ some i) (id' : UInt32) :
    (pending.insert id j).lookup id' = some i ↔ pending.lookup id' = some i := by
  by_cases hid : id' = id
  · subst hid
    rw [AList.lookup_insert]
    exact iff_of_false (fun heq => hij (Option.some.inj heq)) hfound
  · rw [AList.lookup_insert_ne hid]

theorem lookup_erase_iff {pending : AList fun _ : UInt32 => Nat} {id : UInt32}
    (hfound : pending.lookup id ≠ some i) (id' : UInt32) :
    (pending.erase id).lookup id' = some i ↔ pending.lookup id' = some i := by
  by_cases hid : id' = id
  · subst hid
    rw [AList.lookup_erase]
    exact iff_of_false nofun hfound
  · rw [AList.lookup_erase_ne hid]

/-! ## Closing what is pending -/

def Call.close (call : Call) : Call :=
  { call with respChan := { call.respChan with closed := true } }

/-- Different channels that are open are all closed. -/
theorem closeChannels_eq {is : List Nat} (hnodup : is.Nodup) {calls : List Call}
    (hopen : ∀ i ∈ is, ∀ call, calls[i]? = some call → call.respChan.closed = false) :
    ∃ calls', closeChannels is calls = some calls' ∧
      ∀ j, calls'[j]? = (calls[j]?).map fun call => if j ∈ is then call.close else call := by
  induction is generalizing calls with
  | nil => exact ⟨calls, rfl, fun j => by simp⟩
  | cons i is ih =>
      obtain ⟨hi, his⟩ := List.nodup_cons.mp hnodup
      unfold closeChannels
      cases hcall : calls[i]? with
      | none =>
          obtain ⟨calls', heq, hget⟩ := ih his fun k hk => hopen k (List.mem_cons_of_mem _ hk)
          refine ⟨calls', heq, fun j => ?_⟩
          rw [hget]
          by_cases hj : j = i
          · subst hj
            rw [hcall]
            rfl
          · simp [hj]
      | some call =>
          have hone : call.respChan.closed = false := hopen i (by simp) call hcall
          have hrest : ∀ k ∈ is, ∀ other, (calls.set i call.close)[k]? = some other →
              other.respChan.closed = false := by
            intro k hk other hother
            have hki : i ≠ k := fun heq => hi (heq ▸ hk)
            rw [getElem?_set_call hcall, if_neg hki] at hother
            exact hopen k (List.mem_cons_of_mem _ hk) other hother
          obtain ⟨calls', heq, hget⟩ := ih his hrest
          refine ⟨calls', ?_, fun j => ?_⟩
          · simp only [hone]
            exact heq
          · rw [hget, getElem?_set_call hcall]
            by_cases hj : i = j
            · subst hj
              simp [hi, hcall]
            · simp [hj, Ne.symm hj]

/-- A registered channel is new. -/
theorem ClientInv.registered_make (hinv : ClientInv acts c) (hcall : c.calls[i]? = some call)
    (hreg : c.pending.lookup call.msgID = some i) : call.respChan = .make :=
  ((hinv.calls i call hcall).status.of_registered hreg).2.1

/-- So is the channel that the read loop is about to send to. -/
theorem ClientInv.target_make (hinv : ClientInv acts c) {resp : Response}
    (hloop : c.loop = .sending i resp) :
    ∃ call, c.calls[i]? = some call ∧ call.respChan = .make := by
  obtain ⟨-, -, call, hcall, -⟩ := hinv.sending i resp hloop
  have htarget : c.loop.target = some i := by rw [hloop]; rfl
  exact ⟨call, hcall, ((hinv.calls i call hcall).status.of_target htarget).2.1⟩

theorem ClientInv.target_open (hinv : ClientInv acts c) {resp : Response}
    (hloop : c.loop = .sending i resp) (hcall : c.calls[i]? = some call) :
    call.respChan.closed = false := by
  obtain ⟨target, htarget, hmake⟩ := hinv.target_make hloop
  obtain rfl := Option.some.inj (hcall.symm.trans htarget)
  rw [hmake]
  rfl

/-- The call of an entry, seen from the call. -/
theorem ClientInv.registered_of_mem (hinv : ClientInv acts c) {id : UInt32}
    (hcall : c.calls[i]? = some call) (hlookup : c.pending.lookup id = some i) :
    call.msgID = id := by
  obtain ⟨other, hother, hname⟩ := hinv.entries id i hlookup
  obtain rfl := Option.some.inj (hcall.symm.trans hother)
  exact hname

theorem ClientInv.mem_values (hinv : ClientInv acts c) (hcall : c.calls[i]? = some call) :
    i ∈ c.pending.entries.map Sigma.snd ↔ c.pending.lookup call.msgID = some i := by
  rw [List.mem_map]
  constructor
  · intro h
    obtain ⟨⟨id, k⟩, hmem, rfl⟩ := h
    have hlookup : c.pending.lookup id = some k := AList.mem_lookup_iff.mpr hmem
    rw [hinv.registered_of_mem hcall hlookup]
    exact hlookup
  · intro h
    exact ⟨⟨call.msgID, i⟩, AList.mem_lookup_iff.mp h, rfl⟩

theorem ClientInv.values_nodup (hinv : ClientInv acts c) :
    (c.pending.entries.map Sigma.snd).Nodup := by
  refine List.Nodup.map_on ?_ c.pending.nodupKeys.nodup
  intro e he e' he' heq
  obtain ⟨id, k⟩ := e
  obtain ⟨id', k'⟩ := e'
  obtain rfl : k = k' := heq
  obtain ⟨call, hcall, hname⟩ := hinv.entries id k (AList.mem_lookup_iff.mpr he)
  have hname' := hinv.registered_of_mem hcall (AList.mem_lookup_iff.mpr he')
  rw [← hname, hname']

/-- So the read loop exits, and the registered calls have closed channels. -/
theorem ClientInv.closeAll_eq (hinv : ClientInv acts c) : ∃ calls,
    c.closeAll = { c with calls := calls, pending := ∅, loop := .exited } ∧
      ∀ i, calls[i]? = (c.calls[i]?).map fun call =>
        if c.pending.lookup call.msgID = some i then call.close else call := by
  have hopen : ∀ i ∈ c.pending.entries.map Sigma.snd, ∀ call, c.calls[i]? = some call →
      call.respChan.closed = false := by
    intro i hi call hcall
    rw [hinv.registered_make hcall ((hinv.mem_values hcall).mp hi)]
    rfl
  obtain ⟨calls, heq, hget⟩ := closeChannels_eq hinv.values_nodup hopen
  refine ⟨calls, ?_, ?_⟩
  · unfold Client.closeAll
    rw [heq]
  · intro i
    rw [hget]
    cases hcall : c.calls[i]? with
    | none => rfl
    | some call => simp only [Option.map_some, hinv.mem_values hcall]

/-! ## One step, seen from a call -/

/-- The call on which a step acts is changed, and every other one is left alone. -/
theorem callInv_set (hcall : c.calls[i]? = some call) {new other : Call}
    (hother' : c'.calls[j]? = some other) (hcalls : c'.calls = c.calls.set i new)
    (hself : CallInv (acts ++ [a]) c' i new)
    (hother : ∀ j other, i ≠ j → c.calls[j]? = some other → CallInv (acts ++ [a]) c' j other) :
    CallInv (acts ++ [a]) c' j other := by
  rw [hcalls, getElem?_set_call hcall] at hother'
  split_ifs at hother' with hij
  · subst hij
    obtain rfl := Option.some.inj hother'
    exact hself
  · exact hother j other hij hother'

/-- A step of a call that uses neither `pending` nor the read loop. -/
theorem callInv_own (hinv : ClientInv acts c) (hcall : c.calls[i]? = some call) {new other : Call}
    (hother' : c'.calls[j]? = some other) (hcalls : c'.calls = c.calls.set i new)
    (hpending : c'.pending = c.pending) (hloop : c'.loop = c.loop)
    (hquiet : ∀ j, i ≠ j → ¬a.Touches j)
    (hself : CallInv acts c i call → CallInv (acts ++ [a]) c' i new) :
    CallInv (acts ++ [a]) c' j other := by
  refine callInv_set hcall hother' hcalls (hself (hinv.calls i call hcall)) ?_
  intro k other hik hother
  refine (hinv.calls k other hother).frame (hquiet k hik) ?_ ?_ fun _ => ?_
  · rw [hpending]
  · rw [hloop]
  · rw [hloop]

theorem callInv_marshal (hinv : ClientInv acts c) (hcall : c.calls[i]? = some call)
    (hstate : call.state = .registered) {other : Call}
    (hother : (c.setCall i { call with state := marshalled marshal call }).calls[j]? =
      some other) :
    CallInv (acts ++ [.marshal i]) (c.setCall i { call with state := marshalled marshal call }) j
      other := by
  refine callInv_own hinv hcall hother rfl rfl rfl ?_ ?_
  · exact fun _ hij => hij
  intro h
  have hwrote : writes acts i = 0 := by simpa [hstate, CallState.Wrote] using h.wrote
  have hwrites : writes (acts ++ [.marshal i]) i = writes acts i := writes_other id
  have hmarshal : (marshalled marshal call).Active ∧ (marshalled marshal call).Wrote 0 := by
    unfold marshalled
    cases marshal call.reqPayload with
    | ok payload => exact ⟨trivial, rfl⟩
    | error err => exact ⟨trivial, Nat.zero_lt_succ 2⟩
  refine h.keep rfl rfl (hstate ▸ trivial) hmarshal.1 rfl rfl id id id nofun ?_
  rw [hwrites, hwrote]
  exact hmarshal.2

theorem callInv_write (hinv : ClientInv acts c) {own other : Call} {payload : Bytes} {left : Nat}
    (hown : c.calls[i]? = some own) (hstate : own.state = .writing payload left)
    (hc' : c' = { c.setCall i { own with state := written payload left } with
      conn := c.conn ++ [(i, payload)] })
    (hother : c'.calls[j]? = some other) : CallInv (acts ++ [.write i]) c' j other := by
  subst hc'
  refine callInv_own hinv hown hother rfl rfl rfl (fun _ hij => hij) ?_
  intro h
  have hsum : writes acts i + left = 2 := by simpa [hstate, CallState.Wrote] using h.wrote
  have hone : writes (acts ++ [.write i]) i = writes acts i + 1 := writes_self rfl
  have hwritten : (written payload left).Active ∧
      (written payload left).Wrote (writes acts i + 1) := by
    cases left with
    | zero => exact ⟨trivial, congrArg (· + 1) hsum⟩
    | succ left => exact ⟨trivial, (Nat.succ_add_eq_add_succ _ _).trans hsum⟩
  refine h.keep rfl rfl (hstate ▸ trivial) hwritten.1 rfl rfl id id id nofun ?_
  rw [hone]
  exact hwritten.2

theorem callInv_writeFails (hinv : ClientInv acts c) {own other : Call} {payload : Bytes}
    {left n : Nat} {err : GoError} (hown : c.calls[i]? = some own)
    (hstate : own.state = .writing payload left)
    (hc' : c' = { c.setCall i { own with state := .failing (writeError left err) } with
      conn := c.conn ++ [(i, payload.take n)] })
    (hother : c'.calls[j]? = some other) :
    CallInv (acts ++ [.writeFails i n err]) c' j other := by
  subst hc'
  refine callInv_own hinv hown hother rfl rfl rfl (fun _ hij => hij) ?_
  intro h
  have hsum : writes acts i + left = 2 := by simpa [hstate, CallState.Wrote] using h.wrote
  have hsame : writes (acts ++ [.writeFails i n err]) i = writes acts i := writes_other id
  refine h.keep rfl rfl (hstate ▸ trivial) trivial rfl rfl id id id nofun ?_
  show writes (acts ++ [.writeFails i n err]) i < 3
  omega

/-- A call that waits returns, with the response or without one. -/
theorem callInv_receive (hinv : ClientInv acts c) {own other : Call} {resp : Response}
    (hown : c.calls[i]? = some own) (hstate : own.state = .waiting)
    (hbuffer : own.respChan.buffer = some resp)
    (hother : (c.setCall i { own with
      state := .returned (.ok resp.result)
      respChan := { own.respChan with buffer := none } }).calls[j]? = some other) :
    CallInv (acts ++ [.receive i (some resp)]) (c.setCall i { own with
      state := .returned (.ok resp.result)
      respChan := { own.respChan with buffer := none } }) j other := by
  refine callInv_own hinv hown hother rfl rfl rfl (fun _ hij => hij) ?_
  intro h
  have hwrote : writes acts i = 3 := by simpa [hstate, CallState.Wrote] using h.wrote
  have hsame : writes (acts ++ [.receive i (some resp)]) i = writes acts i := writes_other id
  have hused : own.respChan ≠ .make := fun heq => by rw [heq] at hbuffer; cases hbuffer
  refine h.next rfl (h.status.receive hstate hused rfl) (hsame.trans hwrote).le nofun ?_ ?_ ?_
  · intro v hv
    have hv : resp.result = v := Except.ok.inj (CallState.returned.inj hv)
    exact ⟨resp, (h.buffered resp hbuffer).concat _, hv.symm⟩
  · intro v hv
    rw [hstate] at hv
    cases hv
  · intro other heq
    cases heq
    rfl

theorem callInv_receiveClosed (hinv : ClientInv acts c) {own other : Call} {err : GoError}
    (hown : c.calls[i]? = some own) (hstate : own.state = .waiting)
    (hclosed : own.respChan.closed)
    (hother : (c.setCall i { own with state := .returned (.error err) }).calls[j]? =
      some other) :
    CallInv (acts ++ [.receive i none])
      (c.setCall i { own with state := .returned (.error err) }) j other := by
  refine callInv_own hinv hown hother rfl rfl rfl (fun _ hij => hij) ?_
  intro h
  have hwrote : writes acts i = 3 := by simpa [hstate, CallState.Wrote] using h.wrote
  have hsame : writes (acts ++ [.receive i none]) i = writes acts i := writes_other id
  have hused : own.respChan ≠ .make := fun heq => by rw [heq] at hclosed; cases hclosed
  refine h.next rfl (h.status.receive hstate hused rfl) (hsame.trans hwrote).le
    (h.buffered_next _) nofun ?_ nofun
  intro v hv
  rw [hstate] at hv
  cases hv

/-- Another call writes or deletes the entry of its number: whose entry that was is
displaced, and every other call is left alone. -/
theorem callInv_entry (hinv : ClientInv acts c) (own : Call) {other : Call}
    (hother : c.calls[j]? = some other) (hloop : c'.loop = c.loop)
    (hgone : c'.pending.lookup own.msgID ≠ some j)
    (hkept : c.pending.lookup own.msgID ≠ some j →
      (c'.pending.lookup other.msgID = some j ↔ c.pending.lookup other.msgID = some j))
    (hfound : c.pending.lookup own.msgID = some j → a.Displaces j)
    (hquiet : c.pending.lookup own.msgID ≠ some j → ¬a.Touches j) :
    CallInv (acts ++ [a]) c' j other := by
  have h := hinv.calls j other hother
  by_cases hentry : c.pending.lookup own.msgID = some j
  · have hid := hinv.registered_of_mem hother hentry
    have hdis := hfound hentry
    have hwrites : writes (acts ++ [a]) j = writes acts j := by
      refine writes_other ?_
      cases a <;> first | exact id | exact hdis.elim
    refine h.next rfl ?_ (hwrites ▸ h.wrote) (h.buffered_next a) (h.returned_next a)
      (fun _ hv => hv) ?_
    · rw [hloop, hid]
      exact h.status.displace hdis (hid ▸ hentry) hgone
    · intro resp heq
      rw [heq] at hdis
      exact hdis.elim
  · refine h.frame (hquiet hentry) (hkept hentry) ?_ fun _ => ?_
    · rw [hloop]
    · rw [hloop]

theorem callInv_register (hinv : ClientInv acts c) {own other : Call}
    (hown : c.calls[i]? = some own) (hstate : own.state = .numbered)
    (hc' : c' = { c.setCall i { own with state := .registered } with
      pending := c.pending.insert own.msgID i })
    (hother : c'.calls[j]? = some other) :
    CallInv (acts ++ [.register i (c.pending.lookup own.msgID)]) c' j other := by
  subst hc'
  refine callInv_set hown hother rfl ?_ ?_
  · have h := hinv.calls i own hown
    have hwrote : writes acts i = 0 := by simpa [hstate, CallState.Wrote] using h.wrote
    have hreg : (c.pending.insert own.msgID i).lookup own.msgID = some i := AList.lookup_insert _
    refine h.next rfl (h.status.register hstate hreg hinv.exited) ((writes_other id).trans hwrote)
      (h.buffered_next _) nofun ?_ nofun
    intro v hv
    rw [hstate] at hv
    cases hv
  · intro k other hik hother
    refine callInv_entry hinv own hother rfl ?_ ?_ ?_ ?_
    · show (c.pending.insert own.msgID i).lookup own.msgID ≠ some k
      rw [AList.lookup_insert]
      exact fun heq => hik (Option.some.inj heq)
    · exact fun hentry => lookup_insert_iff hik hentry _
    · exact fun hentry => ⟨hentry, hik⟩
    · exact fun hentry htouch => htouch.elim hik hentry

theorem callInv_remove (hinv : ClientInv acts c) {own other : Call} {err : GoError}
    (hown : c.calls[i]? = some own) (hstate : own.state = .failing err)
    (hc' : c' = { c.setCall i { own with state := .returned (.error err) } with
      pending := c.pending.erase own.msgID })
    (hother : c'.calls[j]? = some other) :
    CallInv (acts ++ [.remove i (c.pending.lookup own.msgID)]) c' j other := by
  subst hc'
  refine callInv_set hown hother rfl ?_ ?_
  · have h := hinv.calls i own hown
    have hwrote : writes acts i < 3 := by simpa [hstate, CallState.Wrote] using h.wrote
    have hreg : (c.pending.erase own.msgID).lookup own.msgID ≠ some i := by
      rw [AList.lookup_erase]
      exact nofun
    refine h.next rfl (h.status.remove hstate hwrote hreg) ((writes_other id).trans_le hwrote.le)
      (h.buffered_next _) nofun ?_ nofun
    intro v hv
    rw [hstate] at hv
    cases hv
  · intro k other hik hother
    refine callInv_entry hinv own hother rfl ?_ ?_ ?_ ?_
    · show (c.pending.erase own.msgID).lookup own.msgID ≠ some k
      rw [AList.lookup_erase]
      exact nofun
    · exact fun hentry => lookup_erase_iff hentry _
    · exact fun hentry => ⟨hentry, hik⟩
    · exact fun hentry htouch => htouch.elim hik hentry

/-- The read loop takes the entry of a response's number. -/
theorem callInv_lookup (hinv : ClientInv acts c) {resp : Response}
    (hloop : c.loop = .decoded resp) {other : Call} (hother : c.calls[j]? = some other) :
    CallInv (acts ++ [.lookup]) (c.lookup resp) j other := by
  have h := hinv.calls j other hother
  have hpending : (c.lookup resp).pending = c.pending.erase resp.msgId := rfl
  have hrunning : c.loop ≠ .exited := by rw [hloop]; exact nofun
  have htarget : (c.lookup resp).loop.target = c.pending.lookup resp.msgId := by
    unfold Client.lookup
    cases c.pending.lookup resp.msgId <;> rfl
  have hexited : (c.lookup resp).loop ≠ .exited := by
    unfold Client.lookup
    cases c.pending.lookup resp.msgId <;> exact nofun
  by_cases hentry : c.pending.lookup resp.msgId = some j
  · have hid := hinv.registered_of_mem hother hentry
    have hgone : (c.lookup resp).pending.lookup other.msgID ≠ some j := by
      rw [hpending, hid, AList.lookup_erase]
      exact nofun
    have hsame : writes (acts ++ [.lookup]) j = writes acts j := writes_other id
    refine h.next rfl ?_ (hsame ▸ h.wrote) (h.buffered_next _) (h.returned_next _)
      (fun _ hv => hv) nofun
    exact h.status.lookup (hid ▸ hentry) hrunning hgone (htarget.trans hentry)
  · refine h.frame id ?_ ?_ fun _ => iff_of_false hexited hrunning
    · rw [hpending]
      exact lookup_erase_iff hentry _
    · rw [htarget, hloop]
      exact iff_of_false hentry nofun

theorem callInv_send (hinv : ClientInv acts c) {own other : Call} {resp : Response}
    (hloop : c.loop = .sending i resp) (hown : c.calls[i]? = some own)
    (hc' : c' = { c.setCall i { own with
      respChan := { own.respChan with buffer := some resp } } with loop := .decoding })
    (hother : c'.calls[j]? = some other) : CallInv (acts ++ [.send i resp]) c' j other := by
  subst hc'
  obtain ⟨hdecoded, htype, call, hcall, hname⟩ := hinv.sending i resp hloop
  obtain rfl := Option.some.inj (hown.symm.trans hcall)
  have htarget : c.loop.target = some i := by rw [hloop]; rfl
  refine callInv_set hown hother rfl ?_ ?_
  · have h := hinv.calls i own hown
    have hsame : writes (acts ++ [.send i resp]) i = writes acts i := writes_other id
    refine h.next rfl (h.status.send htarget nofun rfl rfl) (hsame ▸ h.wrote) ?_
      (h.returned_next _) (fun _ hv => hv) nofun
    intro sent hsent
    obtain rfl : resp = sent := Option.some.inj hsent
    exact ⟨List.mem_append_left _ hdecoded, htype, hname.symm⟩
  · intro k other hik hother
    refine (hinv.calls k other hother).frame hik .rfl ?_ fun _ => ?_
    · rw [htarget]
      exact iff_of_false nofun fun heq => hik (Option.some.inj heq)
    · rw [hloop]
      exact iff_of_false nofun nofun

theorem callInv_closeAll (hinv : ClientInv acts c) (hloop : c.loop = .failed) {other : Call}
    (hother : c.closeAll.calls[j]? = some other) :
    CallInv (acts ++ [.closeAll]) c.closeAll j other := by
  obtain ⟨calls, heq, hget⟩ := hinv.closeAll_eq
  rw [heq] at hother ⊢
  obtain ⟨call, hcall, rfl⟩ := Option.map_eq_some_iff.mp ((hget j).symm.trans hother)
  have h := hinv.calls j call hcall
  have hrunning : c.loop ≠ .exited := by rw [hloop]; exact nofun
  have htarget : c.loop.target ≠ some j := by rw [hloop]; exact nofun
  have hgone : (∅ : AList fun _ : UInt32 => Nat).lookup call.msgID ≠ some j := by
    rw [AList.lookup_empty]
    exact nofun
  by_cases hreg : c.pending.lookup call.msgID = some j
  · rw [if_pos hreg]
    have hsame : writes (acts ++ [.closeAll]) j = writes acts j := writes_other id
    exact h.next rfl (h.status.close hreg hrunning hgone nofun rfl rfl) (hsame ▸ h.wrote)
      (h.buffered_next _) (h.returned_next _) (fun _ hv => hv) nofun
  · rw [if_neg hreg]
    exact h.frame id (iff_of_false hgone hreg) (iff_of_false nofun htarget)
      fun hr => absurd hr hreg

/-- A new call. -/
theorem callInv_call (hinv : ClientInv acts c) {method : Bytes} {params : Option (List Value)}
    (hc' : c' = { c with seq := c.seq + 1
                         calls := c.calls ++ [newCall (c.seq + 1) method params] })
    {other : Call} (hother : c'.calls[j]? = some other) :
    CallInv (acts ++ [.call method params]) c' j other := by
  subst hc'
  rcases getElem?_append_call hother with hold | ⟨rfl, rfl⟩
  · exact (hinv.calls j other hold).frame id .rfl .rfl fun _ => .rfl
  · have huntouched : ∀ a ∈ acts ++ [.call method params], ¬a.Touches c.calls.length := by
      intro a ha htouch
      rw [List.mem_append, List.mem_singleton] at ha
      rcases ha with ha | rfl
      · exact lt_irrefl _ (hinv.touched a ha _ htouch)
      · exact htouch
    obtain ⟨hwrites, hsends, hfree⟩ := untouched huntouched
    have hout : ∀ id, ¬Named c.calls c.calls.length id := fun id h => lt_irrefl _ h.lt
    have hreg : c.pending.lookup (c.seq + 1) ≠ some c.calls.length :=
      fun h => hout _ (hinv.entries _ _ h)
    have htarget : c.loop.target ≠ some c.calls.length := by
      intro htarget
      cases hloop : c.loop with
      | sending k resp =>
          rw [hloop] at htarget
          have hk : k = c.calls.length := Option.some.inj htarget
          exact hout _ (hk ▸ (hinv.sending k resp hloop).2.2)
      | _ => rw [hloop] at htarget; cases htarget
    exact {
      status := .fresh rfl rfl hsends hfree hreg htarget
      wrote := hwrites
      buffered := nofun
      returned := nofun
      received := fun resp hmem => absurd rfl (huntouched _ hmem) }

theorem callInv_step (hinv : ClientInv acts c) (hstep : Step marshal c a c') {i : Nat}
    {call : Call} (hcall' : c'.calls[i]? = some call) : CallInv (acts ++ [a]) c' i call := by
  cases hstep with
  | call method params => exact callInv_call hinv rfl hcall'
  | register hown hstate => exact callInv_register hinv hown hstate rfl hcall'
  | marshal hown hstate => exact callInv_marshal hinv hown hstate hcall'
  | write hown hstate => exact callInv_write hinv hown hstate rfl hcall'
  | writeFails n err hown hstate => exact callInv_writeFails hinv hown hstate rfl hcall'
  | remove hown hstate => exact callInv_remove hinv hown hstate rfl hcall'
  | receive hown hstate hbuffer => exact callInv_receive hinv hown hstate hbuffer hcall'
  | receiveClosed hown hstate _ hclosed =>
      exact callInv_receiveClosed hinv hown hstate hclosed hcall'
  | decode resp hloop =>
      refine (hinv.calls i call hcall').frame id .rfl ?_ fun _ => ?_
      · simp only [hloop]
        split_ifs <;> rfl
      · simp only [hloop]
        split_ifs <;> simp
  | lookup hloop => exact callInv_lookup hinv hloop hcall'
  | send hloop hown _ _ => exact callInv_send hinv hloop hown rfl hcall'
  | sendClosed hloop hown hclosed =>
      rw [hinv.target_open hloop hown] at hclosed
      cases hclosed
  | decodeFails hloop =>
      refine (hinv.calls i call hcall').frame id .rfl ?_ fun _ => ?_
      · rw [hloop]
        rfl
      · rw [hloop]
        exact iff_of_false nofun nofun
  | closeAll hloop => exact callInv_closeAll hinv hloop hcall'

/-! ## One step of the client -/

/-- The calls keep their numbers. -/
theorem named_step (hinv : ClientInv acts c) (hstep : Step marshal c a c') {id : UInt32}
    (h : Named c.calls i id) : Named c'.calls i id := by
  cases hstep with
  | call => exact named_append h
  | register hcall => exact named_set hcall rfl h
  | marshal hcall => exact named_set hcall rfl h
  | write hcall => exact named_set hcall rfl h
  | writeFails _ _ hcall => exact named_set hcall rfl h
  | remove hcall => exact named_set hcall rfl h
  | receive hcall => exact named_set hcall rfl h
  | receiveClosed hcall => exact named_set hcall rfl h
  | send _ hcall => exact named_set hcall rfl h
  | closeAll =>
      obtain ⟨calls, heq, hget⟩ := hinv.closeAll_eq
      obtain ⟨call, hcall, hname⟩ := h
      rw [heq]
      refine ⟨_, (hget i).trans (congrArg _ hcall), ?_⟩
      dsimp only
      split_ifs <;> exact hname
  | _ => exact h

theorem length_step (hinv : ClientInv acts c) (hstep : Step marshal c a c')
    (hi : i < c.calls.length) : i < c'.calls.length :=
  (named_step hinv hstep ⟨c.calls[i], List.getElem?_eq_getElem hi, rfl⟩).lt

theorem entries_step (hinv : ClientInv acts c) (hstep : Step marshal c a c') {id : UInt32}
    (h : c'.pending.lookup id = some i) : Named c'.calls i id := by
  have hold : c.pending.lookup id = some i → Named c'.calls i id := fun hlookup =>
    named_step hinv hstep (hinv.entries id i hlookup)
  have herase : ∀ id', (c.pending.erase id').lookup id = some i → Named c'.calls i id := by
    intro id' hlookup
    by_cases hid : id = id'
    · rw [hid, AList.lookup_erase] at hlookup
      cases hlookup
    · rw [AList.lookup_erase_ne hid] at hlookup
      exact hold hlookup
  cases hstep with
  | @register j call hcall hstate =>
      change (c.pending.insert call.msgID j).lookup id = some i at h
      by_cases hid : id = call.msgID
      · rw [hid, AList.lookup_insert] at h
        obtain rfl := Option.some.inj h
        exact ⟨_, (getElem?_set_call hcall _ j).trans (if_pos rfl), hid.symm⟩
      · rw [AList.lookup_insert_ne hid] at h
        exact hold h
  | remove => exact herase _ h
  | lookup => exact herase _ h
  | closeAll =>
      obtain ⟨calls, heq, -⟩ := hinv.closeAll_eq
      rw [heq, AList.lookup_empty] at h
      cases h
  | _ => exact hold h

/-- An action touches calls that are there. -/
theorem touched_step (hinv : ClientInv acts c) (hstep : Step marshal c a c')
    (h : a.Touches i) : i < c'.calls.length := by
  have hget : ∀ {j : Nat} {call : Call}, c.calls[j]? = some call → j = i → i < c'.calls.length := by
    intro j call hcall hij
    subst hij
    exact length_step hinv hstep (List.getElem?_eq_some_iff.mp hcall).1
  have hentry : ∀ {id : UInt32}, c.pending.lookup id = some i → i < c'.calls.length :=
    fun hlookup => length_step hinv hstep (hinv.entries _ i hlookup).lt
  cases hstep with
  | register hcall => exact h.elim (hget hcall) hentry
  | remove hcall => exact h.elim (hget hcall) hentry
  | marshal hcall => exact hget hcall h
  | write hcall => exact hget hcall h
  | writeFails _ _ hcall => exact hget hcall h
  | receive hcall => exact hget hcall h
  | receiveClosed hcall => exact hget hcall h
  | send _ hcall => exact hget hcall h
  | sendClosed _ hcall => exact hget hcall h
  | _ => exact h.elim

/-- Only `closeAll` ends the read loop. -/
theorem exited_step (hinv : ClientInv acts c) (hstep : Step marshal c a c') :
    c'.loop = .exited ↔ .closeAll ∈ acts ++ [a] := by
  have hkept : c'.loop = c.loop → a ≠ .closeAll →
      (c'.loop = .exited ↔ .closeAll ∈ acts ++ [a]) := by
    intro hloop ha
    rw [hloop, hinv.exited, List.mem_append, List.mem_singleton, or_iff_left ha.symm]
  have hmoved : c.loop ≠ .exited → c'.loop ≠ .exited → a ≠ .closeAll →
      (c'.loop = .exited ↔ .closeAll ∈ acts ++ [a]) := by
    intro hold hnew ha
    rw [List.mem_append, List.mem_singleton, or_iff_left ha.symm]
    exact iff_of_false hnew (hinv.exited.not.mp hold)
  cases hstep with
  | decode resp hloop =>
      refine hmoved (hloop ▸ nofun) ?_ nofun
      dsimp only
      split_ifs <;> exact nofun
  | lookup hloop =>
      refine hmoved (hloop ▸ nofun) ?_ nofun
      unfold Client.lookup
      dsimp only
      split <;> exact nofun
  | send hloop => exact hmoved (hloop ▸ nofun) nofun nofun
  | sendClosed hloop => exact hmoved (hloop ▸ nofun) nofun nofun
  | decodeFails hloop => exact hmoved (hloop ▸ nofun) nofun nofun
  | closeAll =>
      obtain ⟨calls, heq, -⟩ := hinv.closeAll_eq
      rw [heq]
      exact iff_of_true rfl (by simp)
  | _ => exact hkept rfl nofun

theorem running_step (hinv : ClientInv acts c) (hstep : Step marshal c a c') :
    c'.loop ≠ .panicked := by
  cases hstep with
  | decode resp hloop =>
      dsimp only
      split_ifs <;> exact nofun
  | lookup hloop =>
      unfold Client.lookup
      dsimp only
      split <;> exact nofun
  | send => exact nofun
  | sendClosed hloop hcall hclosed =>
      rw [hinv.target_open hloop hcall] at hclosed
      cases hclosed
  | decodeFails => exact nofun
  | closeAll =>
      obtain ⟨calls, heq, -⟩ := hinv.closeAll_eq
      rw [heq]
      exact nofun
  | _ => exact hinv.running

theorem decoded_step (hinv : ClientInv acts c) (hstep : Step marshal c a c') {resp : Response}
    (h : c'.loop = .decoded resp) : .decode resp ∈ acts ++ [a] ∧ resp.msgType = 1 := by
  cases hstep with
  | decode resp' hloop =>
      dsimp only at h
      split_ifs at h with htype
      obtain rfl := ReadLoop.decoded.inj h
      exact ⟨by simp, htype⟩
  | lookup =>
      unfold Client.lookup at h
      dsimp only at h
      split at h <;> cases h
  | send => cases h
  | sendClosed => cases h
  | decodeFails => cases h
  | closeAll =>
      obtain ⟨calls, heq, -⟩ := hinv.closeAll_eq
      rw [heq] at h
      cases h
  | _ => exact (hinv.decoded resp h).imp_left (List.mem_append_left _)

theorem sending_step (hinv : ClientInv acts c) (hstep : Step marshal c a c') {resp : Response}
    (h : c'.loop = .sending i resp) :
    .decode resp ∈ acts ++ [a] ∧ resp.msgType = 1 ∧ Named c'.calls i resp.msgId := by
  have hkept : c.loop = .sending i resp →
      .decode resp ∈ acts ++ [a] ∧ resp.msgType = 1 ∧ Named c'.calls i resp.msgId := by
    intro hloop
    obtain ⟨hmem, htype, hnamed⟩ := hinv.sending i resp hloop
    exact ⟨List.mem_append_left _ hmem, htype, named_step hinv hstep hnamed⟩
  cases hstep with
  | decode resp' =>
      dsimp only at h
      split_ifs at h
  | @lookup resp' hloop =>
      unfold Client.lookup at h
      dsimp only at h
      split at h
      · rename_i k hentry
        obtain ⟨rfl, rfl⟩ := ReadLoop.sending.inj h
        obtain ⟨hmem, htype⟩ := hinv.decoded resp' hloop
        exact ⟨List.mem_append_left _ hmem, htype, hinv.entries _ k hentry⟩
      · cases h
  | send => cases h
  | sendClosed => cases h
  | decodeFails => cases h
  | closeAll =>
      obtain ⟨calls, heq, -⟩ := hinv.closeAll_eq
      rw [heq] at h
      cases h
  | _ => exact hkept h

theorem clientInv_step (hinv : ClientInv acts c) (hstep : Step marshal c a c') :
    ClientInv (acts ++ [a]) c' where
  calls _ _ := callInv_step hinv hstep
  entries _ _ := entries_step hinv hstep
  touched b hb i h := by
    rw [List.mem_append, List.mem_singleton] at hb
    rcases hb with hb | rfl
    · exact length_step hinv hstep (hinv.touched b hb i h)
    · exact touched_step hinv hstep h
  exited := exited_step hinv hstep
  running := running_step hinv hstep
  decoded _ := decoded_step hinv hstep
  sending _ _ := sending_step hinv hstep

theorem clientInv_new : ClientInv [] newClient where
  calls := nofun
  entries _ _ h := by cases h
  touched := nofun
  exited := iff_of_false nofun nofun
  running := nofun
  decoded := nofun
  sending := nofun

theorem clientInv_run (hrun : ClientRun marshal acts c) : ClientInv acts c := by
  induction hrun with
  | nil => exact clientInv_new
  | snoc _ hstep ih => exact clientInv_step ih hstep

end Haze.Hazectl
