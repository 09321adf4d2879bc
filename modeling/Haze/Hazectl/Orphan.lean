import Haze.Hazectl.ClientInvariant

/-
  Calls that wait forever.

  A call that registers behind the exit of the read loop, or whose entry another call with
  the same number took, is never answered and its channel is never closed. If its writes
  succeed it is an orphan, and there are no others (`client_noOrphan_iff`).
-/

open Msgpack Transition

namespace Haze.Hazectl

variable {marshal : Value → Except GoError Bytes} {acts : List Action} {c : Client}

/-- Behind the exit of the read loop no call waits on an open channel that is registered,
and a call that waits and has no response has a closed channel. -/
def NoOrphan (c : Client) : Prop :=
  c.loop = .exited → ∀ (i : Nat) (call : Call), c.calls[i]? = some call →
    call.state = .waiting →
      ¬(call.respChan.closed = false ∧ c.pending.lookup call.msgID = some i) ∧
        (call.respChan.buffer = none → call.respChan.closed)

/-- A call that waits behind the exit of the read loop was stranded, or it has a response
or a closed channel. -/
theorem CallInv.stranded_or_heard {i : Nat} {call : Call} (h : CallInv acts c i call)
    (hexited : c.loop = .exited) (hstate : call.state = .waiting) :
    Stranded acts i ∨ c.pending.lookup call.msgID ≠ some i ∧
      (call.respChan.buffer.isSome ∨ call.respChan.closed) := by
  have hactive : call.state.Active := by rw [hstate]; trivial
  cases h.status with
  | fresh hnum => rw [hstate] at hnum; cases hnum
  | pending _ _ _ hst => exact .inl (hst.mpr hexited)
  | inFlight _ _ _ _ _ ht => rw [hexited] at ht; cases ht
  | lost _ _ _ hst => exact .inl hst
  | settled _ _ hheard _ hr => exact .inr ⟨hr, (hheard hactive).1⟩

/-- A stranded call that wrote its payload three times waits on a new channel. -/
theorem CallInv.waits_of_stranded {i : Nat} {call : Call} (h : CallInv acts c i call)
    (hstranded : Stranded acts i) (hwrites : writes acts i = 3) :
    call.state = .waiting ∧ call.respChan = .make := by
  have hwaits : call.state.Active → call.state = .waiting := by
    intro hactive
    have hwrote := h.wrote
    rw [hwrites] at hwrote
    cases hstate : call.state with
    | waiting => rfl
    | numbered => rw [hstate] at hactive; exact hactive.elim
    | returned out => rw [hstate] at hactive; exact hactive.elim
    | registered => rw [hstate] at hwrote; cases hwrote
    | writing payload left =>
        rw [hstate] at hwrote
        have hsum : 3 + left = 2 := hwrote
        omega
    | failing err =>
        rw [hstate] at hwrote
        exact absurd hwrote (lt_irrefl 3)
  cases h.status with
  | fresh _ _ _ hfree => exact absurd hstranded hfree
  | pending hactive hchan => exact ⟨hwaits hactive, hchan⟩
  | inFlight _ _ _ hfree => exact absurd hstranded hfree
  | lost hactive hchan => exact ⟨hwaits hactive, hchan⟩
  | settled _ _ _ hcut =>
      have hlt := hcut hstranded
      omega

theorem CallInv.writes_le_three {i : Nat} {call : Call} (h : CallInv acts c i call) :
    writes acts i ≤ 3 := by
  have hwrote := h.wrote
  cases hstate : call.state <;> rw [hstate] at hwrote <;> simp only [CallState.Wrote] at hwrote <;>
    omega

/-! ## Runs -/

/-- A run leaves no orphan exactly when no call that is stranded, in a run in which the
read loop exits, does all its writes. -/
theorem client_noOrphan_iff (hrun : ClientRun marshal acts c) :
    (∀ front m, front <+: acts → ClientRun marshal front m → NoOrphan m) ↔
      ∀ i, Stranded acts i → .closeAll ∈ acts → writes acts i < 3 := by
  constructor
  · intro hall i hstranded hclose
    have hinv := clientInv_run hrun
    by_contra hwrites
    -- the call did something, so it is there
    have hpos : 0 < writes acts i := by omega
    obtain ⟨a, ha, hwrite⟩ := List.countP_pos_iff.mp hpos
    have htouch : a.Touches i := by
      by_contra hquiet
      exact Action.not_isWrite hquiet (of_decide_eq_true hwrite)
    have hcall := List.getElem?_eq_getElem (hinv.touched a ha i htouch)
    have h := hinv.calls i _ hcall
    have hthree : writes acts i = 3 := by
      have hle := h.writes_le_three
      omega
    obtain ⟨hstate, hmake⟩ := h.waits_of_stranded hstranded hthree
    have hclosed := (hall acts c (List.prefix_refl acts) hrun (hinv.exited.mpr hclose) i _ hcall
      hstate).2
    rw [hmake] at hclosed
    cases hclosed rfl
  · intro hcut front m hprefix hfront hexited i call hcall hstate
    have hinv := clientInv_run hfront
    have h := hinv.calls i call hcall
    obtain ⟨more, rfl⟩ := hprefix
    rcases h.stranded_or_heard hexited hstate with hstranded | ⟨hreg, hheard⟩
    · have hthree : writes front i = 3 := by simpa [hstate, CallState.Wrote] using h.wrote
      have hclose : .closeAll ∈ front ++ more :=
        List.mem_append_left _ (hinv.exited.mp hexited)
      have hlt := hcut i (hstranded.append more) hclose
      have hle := writes_append_le front more i
      omega
    · refine ⟨fun hopen => hreg hopen.2, fun hempty => ?_⟩
      rw [hempty] at hheard
      exact hheard.resolve_left (by simp)

/-- What a call does up to its wait, in a run of its own. -/
def writtenCall : List Action :=
  [.call [] none, .register 0 none, .marshal 0, .write 0, .write 0, .write 0, .decodeFails]

/-- A call that wrote before the read loop exits. -/
def closedCall : List Action := writtenCall ++ [.closeAll]

theorem not_stranded_closedCall (i : Nat) : ¬Stranded closedCall i := by
  intro h
  unfold closedCall at h
  rw [stranded_other id id] at h
  rcases h with ⟨front, rest, heq, -⟩ | ⟨a, ha, hdis⟩
  · have hclose : .closeAll ∈ writtenCall := by
      rw [heq]
      simp
    simp [writtenCall] at hclose
  · simp only [writtenCall, List.mem_cons, List.not_mem_nil, or_false] at ha
    rcases ha with rfl | rfl | rfl | rfl | rfl | rfl | rfl
    all_goals first | exact hdis | exact absurd hdis.1 nofun

theorem closedCall_run : ∃ c, ClientRun encodeOk closedCall c := by
  have h : ClientRun encodeOk [] newClient := .nil
  have h := h.snoc (.call [] none)
  have h := h.snoc (.register (i := 0) rfl rfl)
  have h := h.snoc (.marshal (i := 0) rfl rfl)
  have h := h.snoc (.write (i := 0) rfl rfl)
  have h := h.snoc (.write (i := 0) rfl rfl)
  have h := h.snoc (.write (i := 0) rfl rfl)
  have h := h.snoc (.decodeFails rfl)
  have h := h.snoc (.closeAll rfl)
  exact ⟨_, h⟩

theorem client_noOrphan_closedCall :
    ∃ c, ClientRun encodeOk closedCall c ∧
      ∀ front m, front <+: closedCall → ClientRun encodeOk front m → NoOrphan m := by
  obtain ⟨c, hrun⟩ := closedCall_run
  refine ⟨c, hrun, (client_noOrphan_iff hrun).mpr ?_⟩
  intro i hstranded
  exact absurd hstranded (not_stranded_closedCall i)

/-- A call that registers behind the exit of the read loop and writes. -/
def lateCall : List Action :=
  [.call [] none, .decodeFails, .closeAll, .register 0 none, .marshal 0, .write 0, .write 0,
    .write 0]

theorem lateCall_run : ∃ c, ClientRun encodeOk lateCall c ∧
    c.loop = .exited ∧ ∃ call, c.calls[0]? = some call ∧ call.state = .waiting ∧
      call.respChan = .make := by
  have h : ClientRun encodeOk [] newClient := .nil
  have h := h.snoc (.call [] none)
  have h := h.snoc (.decodeFails rfl)
  have h := h.snoc (.closeAll rfl)
  have h := h.snoc (.register (i := 0) rfl rfl)
  have h := h.snoc (.marshal (i := 0) rfl rfl)
  have h := h.snoc (.write (i := 0) rfl rfl)
  have h := h.snoc (.write (i := 0) rfl rfl)
  have h := h.snoc (.write (i := 0) rfl rfl)
  exact ⟨_, h, rfl, _, rfl, rfl, rfl⟩

/-- It waits forever. -/
theorem lateCall_orphan :
    ¬∀ (marshal : Value → Except GoError Bytes) (acts : List Action) (c : Client),
      ClientRun marshal acts c → NoOrphan c := by
  intro hall
  obtain ⟨c, hrun, hexited, call, hcall, hstate, hmake⟩ := lateCall_run
  have hclosed := (hall _ _ c hrun hexited 0 call hcall hstate).2
  rw [hmake] at hclosed
  cases hclosed rfl

end Haze.Hazectl
