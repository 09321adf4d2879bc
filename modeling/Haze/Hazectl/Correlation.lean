import Haze.Hazectl.ClientInvariant

/-
  What a call returns.

  A call that returns a result returns that of a response with its own number
  (`client_correlated`). The error of that response is looked at nowhere on the way, so
  the caller learns of it exactly when there is none (`sendRequest_propagates_iff`).
-/

open Msgpack Transition

namespace Haze.Hazectl

variable {marshal : Value → Except GoError Bytes} {acts : List Action} {c : Client}

/-! ## Numbers -/

theorem length_closeAll (hinv : ClientInv acts c) :
    c.closeAll.calls.length = c.calls.length := by
  obtain ⟨calls, heq, hget⟩ := hinv.closeAll_eq
  rw [heq]
  apply le_antisymm
  · have hnone : c.calls[c.calls.length]? = none := List.getElem?_eq_none le_rfl
    have hend := hget c.calls.length
    rw [hnone] at hend
    exact List.getElem?_eq_none_iff.mp hend
  · have hend := hget calls.length
    rw [List.getElem?_eq_none le_rfl] at hend
    exact List.getElem?_eq_none_iff.mp (Option.map_eq_none_iff.mp hend.symm)

/-- The calls are numbered from one. -/
theorem numbered_run (hrun : ClientRun marshal acts c) :
    c.seq = .ofNat c.calls.length ∧
      ∀ i, i < c.calls.length → Named c.calls i (.ofNat (i + 1)) := by
  induction hrun with
  | nil => exact ⟨rfl, nofun⟩
  | @snoc acts a m c hrun hstep ih =>
      obtain ⟨hseq, hnamed⟩ := ih
      have hinv := clientInv_run hrun
      have hsame : c.seq = m.seq → c.calls.length = m.calls.length →
          c.seq = .ofNat c.calls.length ∧
            ∀ i, i < c.calls.length → Named c.calls i (.ofNat (i + 1)) := by
        intro hseq' hlen
        refine ⟨by rw [hseq', hlen, hseq], fun i hi => ?_⟩
        exact named_step hinv hstep (hnamed i (hlen ▸ hi))
      cases hstep with
      | call method params =>
          have hnext : m.seq + 1 = .ofNat (m.calls.length + 1) := by
            rw [hseq, UInt32.ofNat_add]
            rfl
          refine ⟨?_, fun i hi => ?_⟩
          · rw [List.length_append, List.length_singleton]
            exact hnext
          · rw [List.length_append, List.length_singleton] at hi
            rcases Nat.lt_succ_iff_lt_or_eq.mp hi with hi | rfl
            · exact named_append (hnamed i hi)
            · exact ⟨_, List.getElem?_concat_length, hnext⟩
      | closeAll =>
          refine hsame ?_ (length_closeAll hinv)
          obtain ⟨calls, heq, -⟩ := hinv.closeAll_eq
          rw [heq]
      | lookup => exact hsame rfl rfl
      | decode => exact hsame rfl rfl
      | sendClosed => exact hsame rfl rfl
      | decodeFails => exact hsame rfl rfl
      | _ => exact hsame rfl List.length_set

/-- Fewer than `2 ^ 32` calls have different numbers. -/
theorem msgID_injective (hrun : ClientRun marshal acts c) (hfew : c.calls.length < 2 ^ 32)
    {i j : Nat} {call other : Call} (hcall : c.calls[i]? = some call)
    (hother : c.calls[j]? = some other) (hid : call.msgID = other.msgID) : i = j := by
  have hnumber : ∀ {k : Nat} {call : Call}, c.calls[k]? = some call →
      call.msgID.toNat = k + 1 := by
    intro k call hcall
    have hlt := (List.getElem?_eq_some_iff.mp hcall).1
    obtain ⟨call', hcall', hname⟩ := (numbered_run hrun).2 k hlt
    obtain rfl := Option.some.inj (hcall.symm.trans hcall')
    rw [hname]
    exact UInt32.toNat_ofNat_of_lt' (Nat.lt_of_le_of_lt hlt hfew)
  have hi := hnumber hcall
  have hj := hnumber hother
  rw [hid, hj] at hi
  omega

/-! ## Correlation -/

/-- What the client owes its calls and the runtime. -/
structure Correlated (acts : List Action) (c : Client) : Prop where
  /-- A call that returns a result returns that of a response with its number. -/
  answered : ∀ (i : Nat) (call : Call) (v : Value), c.calls[i]? = some call →
    call.state = .returned (.ok v) → ∃ resp, .decode resp ∈ acts ∧ resp.msgType = 1 ∧
      resp.msgId = call.msgID ∧ v = resp.result
  /-- The number is the call's own. -/
  own : c.calls.length < 2 ^ 32 → ∀ (i j : Nat) (call other : Call),
    c.calls[i]? = some call → c.calls[j]? = some other → call.msgID = other.msgID → i = j
  /-- No channel is sent to twice. -/
  atMostOnce : ∀ i, sends acts i ≤ 1
  /-- A send finds an open channel with room. -/
  neverBlocks : ∀ (i : Nat) (resp : Response), c.loop = .sending i resp →
    ∃ call, c.calls[i]? = some call ∧ call.respChan.closed = false ∧
      call.respChan.buffer = none
  /-- No channel is sent to or closed when it is closed. -/
  running : c.loop ≠ .panicked

theorem CallInv.sends_le_one {i : Nat} {call : Call} (h : CallInv acts c i call) :
    sends acts i ≤ 1 := by
  cases h.status with
  | fresh _ _ hs => omega
  | pending _ _ hs => omega
  | inFlight _ _ hs => omega
  | lost _ _ hs => omega
  | settled _ hs => exact hs

/-- Every reachable state is correlated. -/
theorem client_correlated (hrun : ClientRun marshal acts c) : Correlated acts c := by
  have hinv := clientInv_run hrun
  refine ⟨?_, ?_, ?_, ?_, hinv.running⟩
  · intro i call v hcall hstate
    obtain ⟨resp, hans, hv⟩ := (hinv.calls i call hcall).returned v hstate
    exact ⟨resp, hans.1, hans.2.1, hans.2.2, hv⟩
  · intro hfew i j call other hcall hother hid
    exact msgID_injective hrun hfew hcall hother hid
  · intro i
    cases hcall : c.calls[i]? with
    | some call => exact (hinv.calls i call hcall).sends_le_one
    | none =>
        have hout : ∀ a ∈ acts, ¬a.Touches i := by
          intro a ha htouch
          have hlt := hinv.touched a ha i htouch
          rw [List.getElem?_eq_none_iff] at hcall
          omega
        rw [(untouched hout).2.1]
        exact Nat.zero_le 1
  · intro i resp hloop
    obtain ⟨call, hcall, hmake⟩ := hinv.target_make hloop
    refine ⟨call, hcall, ?_, ?_⟩
    · rw [hmake]
      rfl
    · rw [hmake]
      rfl

/-- One call, its three writes, and a response to it. -/
def oneCall (method : Bytes) (params : Option (List Value)) (resp : Response) : List Action :=
  [.call method params, .register 0 none, .marshal 0, .write 0, .write 0, .write 0,
    .decode resp, .lookup, .send 0 resp, .receive 0 (some resp)]

theorem oneCall_run (method : Bytes) (params : Option (List Value)) (resp : Response)
    (htype : resp.msgType = 1) (hid : resp.msgId = 1) :
    ∃ c, ClientRun encodeOk (oneCall method params resp) c ∧
      c.calls = [{ newCall 1 method params with state := .returned (.ok resp.result) }] := by
  obtain ⟨_, _, error, result⟩ := resp
  subst htype hid
  have h : ClientRun encodeOk [] newClient := .nil
  have h := h.snoc (.call method params)
  have h := h.snoc (.register (i := 0) rfl rfl)
  have h := h.snoc (.marshal (i := 0) rfl rfl)
  have h := h.snoc (.write (i := 0) rfl rfl)
  have h := h.snoc (.write (i := 0) rfl rfl)
  have h := h.snoc (.write (i := 0) rfl rfl)
  have h := h.snoc (.decode ⟨1, 1, error, result⟩ rfl)
  have h := h.snoc (.lookup rfl)
  have h := h.snoc (.send (i := 0) rfl rfl rfl rfl)
  have h := h.snoc (.receive (i := 0) rfl rfl rfl)
  exact ⟨_, h, rfl⟩

/-- The call of `test/ping` that is answered `[1, 1, nil, "pong!"]` runs into a correlated
state. -/
theorem client_correlated_ping :
    let acts := oneCall (text "test/ping") none ⟨1, 1, .nil, .str (text "pong!")⟩
    ∃ c, ClientRun encodeOk acts c ∧ Correlated acts c := by
  intro acts
  obtain ⟨c, hrun, -⟩ :=
    oneCall_run (text "test/ping") none ⟨1, 1, .nil, .str (text "pong!")⟩ rfl rfl
  exact ⟨c, hrun, client_correlated hrun⟩

/-! ## Errors -/

/-- What call `i` has returned. -/
def callResult (c : Client) (i : Nat) : Option (Except GoError Value) :=
  (c.calls[i]?).bind fun call =>
    match call.state with
    | .returned out => some out
    | _ => none

/-- The caller of `Call` gets an error if the response is one, and the response that
`SendRequest` makes of what `Call` returns has the error and the result of the response. -/
def Propagates (resp : Response) (address : Bytes) (port : Int) (req : Request)
    (out : Except GoError Value) : Prop :=
  (resp.error ≠ .nil → ∃ err, out = .error err) ∧
    ∀ made, sendRequest address port req (.ok ()) out = .ok made →
      made.error = resp.error ∧ made.result = resp.result

/-- What a call returns for a response that it received. -/
theorem callResult_received (hrun : ClientRun marshal acts c) {i : Nat} {resp : Response}
    (hreceived : .receive i (some resp) ∈ acts) : callResult c i = some (.ok resp.result) := by
  have hinv := clientInv_run hrun
  have hlt := hinv.touched _ hreceived i rfl
  have hcall := List.getElem?_eq_getElem hlt
  have hstate := (hinv.calls i _ hcall).received resp hreceived
  unfold callResult
  rw [hcall, Option.bind_some, hstate]

/-- A response that a call received is propagated exactly when its error is nil. -/
theorem sendRequest_propagates_iff (hrun : ClientRun marshal acts c) {i : Nat}
    {resp : Response} (hreceived : .receive i (some resp) ∈ acts) (address : Bytes)
    (port : Int) (req : Request) :
    (∃ out, callResult c i = some out ∧ Propagates resp address port req out) ↔
      resp.error = .nil := by
  have hresult := callResult_received hrun hreceived
  have hmade : sendRequest address port req (.ok ()) (.ok resp.result) =
      .ok (responseInit req.msgId .nil resp.result) := rfl
  constructor
  · intro h
    obtain ⟨out, hout, -, hkept⟩ := h
    obtain rfl := Option.some.inj (hresult.symm.trans hout)
    exact (hkept _ hmade).1.symm
  · intro hnil
    refine ⟨_, hresult, fun herror => absurd hnil herror, fun made heq => ?_⟩
    obtain rfl := Except.ok.inj (hmade.symm.trans heq)
    exact ⟨hnil.symm, rfl⟩

/-- A request without parameters. -/
def bareRequest (func : Bytes) : Request :=
  { msgType := 0, msgId := 0, func := func, params := none }

theorem sendRequest_propagates_ping :
    let resp : Response := ⟨1, 1, .nil, .str (text "pong!")⟩
    ∃ c, ClientRun encodeOk (oneCall (text "test/ping") none resp) c ∧
      ∃ out, callResult c 0 = some out ∧
        Propagates resp (text "127.0.0.1") 7777 (bareRequest (text "test/ping")) out := by
  intro resp
  obtain ⟨c, hrun, -⟩ := oneCall_run (text "test/ping") none resp rfl rfl
  refine ⟨c, hrun, ?_⟩
  exact (sendRequest_propagates_iff hrun (by simp [oneCall]) _ _ _).mpr rfl

/-- The answer `[1, 1, "Method not found.", nil]` is returned as a nil result. -/
theorem sendRequest_loses_error :
    ¬∀ (marshal : Value → Except GoError Bytes) (acts : List Action) (c : Client) (i : Nat)
      (resp : Response) (address : Bytes) (port : Int) (req : Request),
      ClientRun marshal acts c → .receive i (some resp) ∈ acts →
        ∃ out, callResult c i = some out ∧ Propagates resp address port req out := by
  intro hall
  let resp : Response := ⟨1, 1, .str (text "Method not found."), .nil⟩
  obtain ⟨c, hrun, hcalls⟩ := oneCall_run (text "test/pong") none resp rfl rfl
  have hreceived : .receive 0 (some resp) ∈ oneCall (text "test/pong") none resp := by
    simp [oneCall]
  obtain ⟨out, hout, herror, -⟩ := hall encodeOk _ c 0 resp (text "127.0.0.1") 7777
    (bareRequest (text "test/pong")) hrun hreceived
  have hfailed : resp.error ≠ .nil := nofun
  obtain ⟨err, rfl⟩ := herror hfailed
  simp [callResult, hcalls] at hout

end Haze.Hazectl
