import Haze.Hazectl.ClientTrace

/-
  Who may use the channel of a call.

  A channel passes from its call to `pending`, from there to the read loop, and from there
  to nobody: `Status` says where it is, and what was done with it so far. Only the holder
  sends to it or closes it, so it is sent to once at most and never after a close. The
  invariant of the client (`ClientInv`) is the status of every call, with what is known of
  the entries of `pending` and of the read loop.
-/

open Msgpack Transition

namespace Haze.Hazectl

/-! ## States of a call -/

/-- The call is registered and has not returned. -/
def CallState.Active : CallState → Prop
  | .numbered | .returned _ => False
  | _ => True

theorem CallState.Active.ne_numbered {state : CallState} (h : state.Active) :
    state ≠ .numbered := by
  intro hnum
  rw [hnum] at h
  exact h

/-- How many of the three writes are done in a state. -/
def CallState.Wrote (n : Nat) : CallState → Prop
  | .numbered | .registered => n = 0
  | .writing _ left => n + left = 2
  | .failing _ => n < 3
  | .waiting => n = 3
  | .returned _ => n ≤ 3

/-- The call to whose channel the read loop is about to send. -/
def ReadLoop.target : ReadLoop → Option Nat
  | .sending i _ => some i
  | _ => none

/-! ## The status of a channel -/

/-- Where the right to use the channel of call `i` is: with the call before it registers,
in `pending`, with the read loop, with nobody because the entry was displaced, or with
nobody because the channel was sent to or closed or the call has returned. -/
inductive Status (acts : List Action) (i : Nat) (call : Call)
    (registered target exited : Prop) : Prop where
  | fresh (hstate : call.state = .numbered) (hchan : call.respChan = .make)
      (hsends : sends acts i = 0) (hfree : ¬Stranded acts i)
      (hreg : ¬registered) (htarget : ¬target)
  | pending (hstate : call.state.Active) (hchan : call.respChan = .make)
      (hsends : sends acts i = 0) (hstranded : Stranded acts i ↔ exited)
      (hreg : registered) (htarget : ¬target)
  | inFlight (hstate : call.state ≠ .numbered) (hchan : call.respChan = .make)
      (hsends : sends acts i = 0) (hfree : ¬Stranded acts i)
      (hreg : ¬registered) (htarget : target)
  | lost (hstate : call.state.Active) (hchan : call.respChan = .make)
      (hsends : sends acts i = 0) (hstranded : Stranded acts i)
      (hreg : ¬registered) (htarget : ¬target)
  | settled (hstate : call.state ≠ .numbered) (hsends : sends acts i ≤ 1)
      (hheard : call.state.Active →
        (call.respChan.buffer.isSome ∨ call.respChan.closed) ∧ ¬Stranded acts i)
      (hcut : Stranded acts i → writes acts i < 3)
      (hreg : ¬registered) (htarget : ¬target)

/-- The channel of a registered call is in `pending`. -/
theorem Status.of_registered {acts : List Action} {i : Nat} {call : Call}
    {reg target exited : Prop} (h : Status acts i call reg target exited) (hreg : reg) :
    call.state.Active ∧ call.respChan = .make ∧ sends acts i = 0 ∧
      (Stranded acts i ↔ exited) ∧ ¬target := by
  cases h with
  | pending hactive hchan hs hst _ ht => exact ⟨hactive, hchan, hs, hst, ht⟩
  | fresh _ _ _ _ hr => exact absurd hreg hr
  | inFlight _ _ _ _ hr => exact absurd hreg hr
  | lost _ _ _ _ hr => exact absurd hreg hr
  | settled _ _ _ _ hr => exact absurd hreg hr

/-- The channel of the call that the read loop is about to send to is with the read loop. -/
theorem Status.of_target {acts : List Action} {i : Nat} {call : Call}
    {reg target exited : Prop} (h : Status acts i call reg target exited) (htarget : target) :
    call.state ≠ .numbered ∧ call.respChan = .make ∧ sends acts i = 0 ∧
      ¬Stranded acts i ∧ ¬reg := by
  cases h with
  | inFlight hnum hchan hs hfree hr _ => exact ⟨hnum, hchan, hs, hfree, hr⟩
  | fresh _ _ _ _ _ ht => exact absurd htarget ht
  | pending _ _ _ _ _ ht => exact absurd htarget ht
  | lost _ _ _ _ _ ht => exact absurd htarget ht
  | settled _ _ _ _ _ ht => exact absurd htarget ht

/-- The response was decoded, and it is one for the call. -/
def Answers (acts : List Action) (call : Call) (resp : Response) : Prop :=
  .decode resp ∈ acts ∧ resp.msgType = 1 ∧ resp.msgId = call.msgID

structure CallInv (acts : List Action) (c : Client) (i : Nat) (call : Call) : Prop where
  status : Status acts i call (c.pending.lookup call.msgID = some i)
    (c.loop.target = some i) (c.loop = .exited)
  wrote : call.state.Wrote (writes acts i)
  buffered : ∀ resp, call.respChan.buffer = some resp → Answers acts call resp
  returned : ∀ v, call.state = .returned (.ok v) → ∃ resp, Answers acts call resp ∧ v = resp.result
  received : ∀ resp, .receive i (some resp) ∈ acts → call.state = .returned (.ok resp.result)

/-- Call `i` is there and has the number. -/
def Named (calls : List Call) (i : Nat) (id : UInt32) : Prop :=
  ∃ call, calls[i]? = some call ∧ call.msgID = id

structure ClientInv (acts : List Action) (c : Client) : Prop where
  calls : ∀ i call, c.calls[i]? = some call → CallInv acts c i call
  entries : ∀ id i, c.pending.lookup id = some i → Named c.calls i id
  touched : ∀ a ∈ acts, ∀ i, a.Touches i → i < c.calls.length
  exited : c.loop = .exited ↔ .closeAll ∈ acts
  running : c.loop ≠ .panicked
  decoded : ∀ resp, c.loop = .decoded resp → .decode resp ∈ acts ∧ resp.msgType = 1
  sending : ∀ i resp, c.loop = .sending i resp →
    .decode resp ∈ acts ∧ resp.msgType = 1 ∧ Named c.calls i resp.msgId

/-! ## Actions that leave a call alone -/

theorem Answers.concat {acts : List Action} {call : Call} {resp : Response}
    (h : Answers acts call resp) (a : Action) : Answers (acts ++ [a]) call resp :=
  ⟨List.mem_append_left _ h.1, h.2⟩

/-- The trace may grow as long as nothing in it touches the call, and the exit of the read
loop matters to registered calls only. -/
theorem Status.frame {acts : List Action} {a : Action} {i : Nat} {call : Call}
    {reg target exited reg' target' exited' : Prop} (h : Status acts i call reg target exited)
    (hquiet : ¬a.Touches i) (hreg : reg' ↔ reg) (htarget : target' ↔ target)
    (hexited : reg → (exited' ↔ exited)) :
    Status (acts ++ [a]) i call reg' target' exited' := by
  have hsends : sends (acts ++ [a]) i = sends acts i := sends_quiet hquiet
  have hwrites : writes (acts ++ [a]) i = writes acts i := writes_quiet hquiet
  have hstranded : Stranded (acts ++ [a]) i ↔ Stranded acts i := stranded_quiet hquiet
  cases h with
  | fresh hstate hchan hs hfree hr ht =>
      exact .fresh hstate hchan (hsends ▸ hs) (hstranded.not.mpr hfree) (hreg.not.mpr hr)
        (htarget.not.mpr ht)
  | pending hstate hchan hs hst hr ht =>
      exact .pending hstate hchan (hsends ▸ hs) (hstranded.trans (hst.trans (hexited hr).symm))
        (hreg.mpr hr) (htarget.not.mpr ht)
  | inFlight hstate hchan hs hfree hr ht =>
      exact .inFlight hstate hchan (hsends ▸ hs) (hstranded.not.mpr hfree) (hreg.not.mpr hr)
        (htarget.mpr ht)
  | lost hstate hchan hs hst hr ht =>
      exact .lost hstate hchan (hsends ▸ hs) (hstranded.mpr hst) (hreg.not.mpr hr)
        (htarget.not.mpr ht)
  | settled hstate hs hheard hcut hr ht =>
      refine .settled hstate (hsends ▸ hs) ?_ ?_ (hreg.not.mpr hr) (htarget.not.mpr ht)
      · intro hactive
        exact ⟨(hheard hactive).1, hstranded.not.mpr (hheard hactive).2⟩
      · intro hst
        rw [hwrites]
        exact hcut (hstranded.mp hst)

/-- One more action: what it does to the status and the state of a call, and what it puts
in its channel. -/
theorem CallInv.next {acts : List Action} {a : Action} {c c' : Client} {i : Nat}
    {call call' : Call} (h : CallInv acts c i call) (hid : call'.msgID = call.msgID)
    (hstatus : Status (acts ++ [a]) i call' (c'.pending.lookup call.msgID = some i)
      (c'.loop.target = some i) (c'.loop = .exited))
    (hwrote : call'.state.Wrote (writes (acts ++ [a]) i))
    (hbuffered : ∀ resp, call'.respChan.buffer = some resp → Answers (acts ++ [a]) call resp)
    (hreturned : ∀ v, call'.state = .returned (.ok v) →
      ∃ resp, Answers (acts ++ [a]) call resp ∧ v = resp.result)
    (hkept : ∀ v, call.state = .returned (.ok v) → call'.state = .returned (.ok v))
    (hreceived : ∀ resp, a = .receive i (some resp) →
      call'.state = .returned (.ok resp.result)) :
    CallInv (acts ++ [a]) c' i call' where
  status := by
    rw [hid]
    exact hstatus
  wrote := hwrote
  buffered resp hresp := by
    unfold Answers
    rw [hid]
    exact hbuffered resp hresp
  returned v hv := by
    unfold Answers
    rw [hid]
    exact hreturned v hv
  received resp hmem := by
    rw [List.mem_append, List.mem_singleton] at hmem
    rcases hmem with hmem | heq
    · exact hkept _ (h.received resp hmem)
    · exact hreceived resp heq.symm

theorem CallInv.buffered_next {acts : List Action} {c : Client} {i : Nat} {call : Call}
    (h : CallInv acts c i call) (a : Action) (resp : Response)
    (hresp : call.respChan.buffer = some resp) : Answers (acts ++ [a]) call resp :=
  (h.buffered resp hresp).concat a

theorem CallInv.returned_next {acts : List Action} {c : Client} {i : Nat} {call : Call}
    (h : CallInv acts c i call) (a : Action) (v : Value)
    (hv : call.state = .returned (.ok v)) :
    ∃ resp, Answers (acts ++ [a]) call resp ∧ v = resp.result := by
  obtain ⟨resp, hans, heq⟩ := h.returned v hv
  exact ⟨resp, hans.concat a, heq⟩

theorem CallInv.frame {acts : List Action} {a : Action} {c c' : Client} {i : Nat} {call : Call}
    (h : CallInv acts c i call) (hquiet : ¬a.Touches i)
    (hreg : c'.pending.lookup call.msgID = some i ↔ c.pending.lookup call.msgID = some i)
    (htarget : c'.loop.target = some i ↔ c.loop.target = some i)
    (hexited : c.pending.lookup call.msgID = some i → (c'.loop = .exited ↔ c.loop = .exited)) :
    CallInv (acts ++ [a]) c' i call := by
  refine h.next rfl (h.status.frame hquiet hreg htarget hexited) ?_ (h.buffered_next a)
    (h.returned_next a) (fun _ hv => hv) ?_
  · rw [writes_quiet hquiet]
    exact h.wrote
  · intro resp heq
    rw [heq] at hquiet
    exact absurd rfl hquiet

/-! ## Actions of the call -/

/-- A registered call that goes on without using its channel keeps its status. -/
theorem Status.keep {acts : List Action} {a : Action} {i : Nat} {call call' : Call}
    {reg target exited : Prop} (h : Status acts i call reg target exited)
    (hactive : call.state.Active) (hactive' : call'.state.Active)
    (hchan : call'.respChan = call.respChan)
    (hsends : sends (acts ++ [a]) i = sends acts i)
    (hstranded : Stranded (acts ++ [a]) i ↔ Stranded acts i) :
    Status (acts ++ [a]) i call' reg target exited := by
  have hstate' : call'.state ≠ .numbered := hactive'.ne_numbered
  cases h with
  | fresh hstate => exact absurd hstate hactive.ne_numbered
  | pending _ hmake hs hst hr ht =>
      exact .pending hactive' (hchan.trans hmake) (hsends ▸ hs) (hstranded.trans hst) hr ht
  | inFlight _ hmake hs hfree hr ht =>
      exact .inFlight hstate' (hchan.trans hmake) (hsends ▸ hs) (hstranded.not.mpr hfree) hr ht
  | lost _ hmake hs hst hr ht =>
      exact .lost hactive' (hchan.trans hmake) (hsends ▸ hs) (hstranded.mpr hst) hr ht
  | settled _ hs hheard _ hr ht =>
      obtain ⟨hheard, hfree⟩ := hheard hactive
      refine .settled hstate' (hsends ▸ hs) ?_ ?_ hr ht
      · intro _
        rw [hchan]
        exact ⟨hheard, hstranded.not.mpr hfree⟩
      · intro hst
        exact absurd (hstranded.mp hst) hfree

theorem CallInv.keep {acts : List Action} {a : Action} {c c' : Client} {i : Nat}
    {call call' : Call} (h : CallInv acts c i call) (hid : call'.msgID = call.msgID)
    (hchan : call'.respChan = call.respChan) (hactive : call.state.Active)
    (hactive' : call'.state.Active) (hpending : c'.pending = c.pending) (hloop : c'.loop = c.loop)
    (hsend : ¬a.IsSend i) (hreg : ¬a.Registers i) (hdis : ¬a.Displaces i)
    (hreceive : ∀ resp, a ≠ .receive i (some resp))
    (hwrote : call'.state.Wrote (writes (acts ++ [a]) i)) : CallInv (acts ++ [a]) c' i call' := by
  refine h.next hid ?_ hwrote ?_ ?_ ?_ ?_
  · rw [hpending, hloop]
    exact h.status.keep hactive hactive' hchan (sends_other hsend) (stranded_other hreg hdis)
  · rw [hchan]
    exact h.buffered_next a
  · intro v hv
    rw [hv] at hactive'
    exact hactive'.elim
  · intro v hv
    rw [hv] at hactive
    exact hactive.elim
  · intro resp heq
    exact absurd heq (hreceive resp)

/-- A call registers: its channel passes to `pending`. -/
theorem Status.register {acts : List Action} {i : Nat} {call : Call} {found : Option Nat}
    {reg target exited reg' : Prop} (h : Status acts i call reg target exited)
    (hstate : call.state = .numbered) (hreg' : reg') (hexited : exited ↔ .closeAll ∈ acts) :
    Status (acts ++ [.register i found]) i { call with state := .registered } reg' target
      exited := by
  cases h with
  | fresh _ hchan hs hfree hr ht =>
      have hself : ¬(Action.register i found).Displaces i := fun hi => hi.2 rfl
      refine .pending trivial hchan ((sends_other id).trans hs) ?_ hreg' ht
      rw [stranded_concat, or_iff_right hfree, or_iff_left hself, hexited]
      exact and_iff_left rfl
  | pending hactive => exact absurd hstate hactive.ne_numbered
  | inFlight hne => exact absurd hstate hne
  | lost hactive => exact absurd hstate hactive.ne_numbered
  | settled hne => exact absurd hstate hne

/-- The entry of a registered call is displaced. -/
theorem Status.displace {acts : List Action} {a : Action} {i : Nat} {call : Call}
    {reg target exited reg' : Prop} (h : Status acts i call reg target exited)
    (hdis : a.Displaces i) (hreg : reg) (hreg' : ¬reg') :
    Status (acts ++ [a]) i call reg' target exited := by
  have hsend : ¬a.IsSend i := by cases a <;> first | exact id | exact hdis.elim
  have hstranded : Stranded (acts ++ [a]) i := stranded_concat.mpr (.inr (.inr hdis))
  obtain ⟨hactive, hchan, hs, -, ht⟩ := h.of_registered hreg
  exact .lost hactive hchan ((sends_other hsend).trans hs) hstranded hreg' ht

/-- A call that fails returns, and its entry is deleted. -/
theorem Status.remove {acts : List Action} {i : Nat} {call : Call} {found : Option Nat}
    {err : GoError} {reg target exited reg' : Prop} (h : Status acts i call reg target exited)
    (hstate : call.state = .failing err) (hwrites : writes acts i < 3) (hreg' : ¬reg') :
    Status (acts ++ [.remove i found]) i { call with state := .returned (.error err) } reg'
      target exited := by
  have hself : ¬(Action.remove i found).Displaces i := fun hi => hi.2 rfl
  have hsends : sends (acts ++ [.remove i found]) i = sends acts i := sends_other id
  have hstranded : Stranded (acts ++ [.remove i found]) i ↔ Stranded acts i :=
    stranded_other id hself
  have hcut : Stranded (acts ++ [.remove i found]) i →
      writes (acts ++ [.remove i found]) i < 3 := fun _ => (writes_other id).trans_lt hwrites
  cases h with
  | fresh hnum => rw [hstate] at hnum; cases hnum
  | inFlight _ hchan hs hfree _ ht =>
      exact .inFlight nofun hchan (hsends ▸ hs) (hstranded.not.mpr hfree) hreg' ht
  | pending _ _ hs _ _ ht => exact .settled nofun (by omega) False.elim hcut hreg' ht
  | lost _ _ hs _ _ ht => exact .settled nofun (by omega) False.elim hcut hreg' ht
  | settled _ hs _ _ _ ht => exact .settled nofun (by omega) False.elim hcut hreg' ht

/-- A call that waits and finds its channel used returns. -/
theorem Status.receive {acts : List Action} {i : Nat} {call call' : Call}
    {resp : Option Response} {out : Except GoError Value} {reg target exited : Prop}
    (h : Status acts i call reg target exited) (hstate : call.state = .waiting)
    (hchan : call.respChan ≠ .make) (hstate' : call'.state = .returned out) :
    Status (acts ++ [.receive i resp]) i call' reg target exited := by
  have hnum : call'.state ≠ .numbered := by rw [hstate']; exact nofun
  have hdone : ¬call'.state.Active := by rw [hstate']; exact id
  cases h with
  | fresh _ hmake => exact absurd hmake hchan
  | pending _ hmake => exact absurd hmake hchan
  | inFlight _ hmake => exact absurd hmake hchan
  | lost _ hmake => exact absurd hmake hchan
  | settled _ hs hheard _ hr ht =>
      have hfree := (hheard (by rw [hstate]; exact trivial)).2
      refine .settled hnum ((sends_other id).trans_le hs) (fun hi => absurd hi hdone) ?_ hr ht
      intro hst
      exact absurd ((stranded_other id id).mp hst) hfree

/-- The read loop finds the call under the number of a response. -/
theorem Status.lookup {acts : List Action} {i : Nat} {call : Call}
    {reg target exited reg' target' exited' : Prop} (h : Status acts i call reg target exited)
    (hreg : reg) (hexited : ¬exited) (hreg' : ¬reg') (htarget' : target') :
    Status (acts ++ [.lookup]) i call reg' target' exited' := by
  obtain ⟨hactive, hchan, hs, hst, -⟩ := h.of_registered hreg
  have hfree : ¬Stranded (acts ++ [.lookup]) i := by
    rw [stranded_other id id, hst]
    exact hexited
  exact .inFlight hactive.ne_numbered hchan ((sends_other id).trans hs) hfree hreg' htarget'

/-- The read loop sends the response to the call. -/
theorem Status.send {acts : List Action} {i : Nat} {call call' : Call} {resp : Response}
    {reg target exited target' exited' : Prop} (h : Status acts i call reg target exited)
    (htarget : target) (htarget' : ¬target') (hstate : call'.state = call.state)
    (hbuffer : call'.respChan.buffer = some resp) :
    Status (acts ++ [.send i resp]) i call' reg target' exited' := by
  obtain ⟨hnum, -, hs, hfree, hr⟩ := h.of_target htarget
  have hfree' : ¬Stranded (acts ++ [.send i resp]) i := (stranded_other id id).not.mpr hfree
  have hone : sends (acts ++ [.send i resp]) i = sends acts i + 1 := sends_self rfl
  refine .settled (hstate ▸ hnum) (by omega) ?_ (fun hst => absurd hst hfree') hr htarget'
  intro _
  exact ⟨.inl (by rw [hbuffer]; rfl), hfree'⟩

/-- The read loop closes the channel on its way out. -/
theorem Status.close {acts : List Action} {i : Nat} {call call' : Call}
    {reg target exited reg' target' exited' : Prop} (h : Status acts i call reg target exited)
    (hreg : reg) (hexited : ¬exited) (hreg' : ¬reg') (htarget' : ¬target')
    (hstate : call'.state = call.state) (hclosed : call'.respChan.closed) :
    Status (acts ++ [.closeAll]) i call' reg' target' exited' := by
  obtain ⟨hactive, -, hs, hst, -⟩ := h.of_registered hreg
  have hfree : ¬Stranded (acts ++ [.closeAll]) i := by
    rw [stranded_other id id, hst]
    exact hexited
  have hsends : sends (acts ++ [.closeAll]) i = sends acts i := sends_other id
  refine .settled (hstate ▸ hactive.ne_numbered) (by omega) ?_ (fun h => absurd h hfree) hreg'
    htarget'
  intro _
  exact ⟨.inr hclosed, hfree⟩

end Haze.Hazectl
