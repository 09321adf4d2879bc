import Haze.Collections.Removal
import Haze.Object
import Haze.Transition.Run

/-
  The connections a server knows: `HazeServerAddConnection`, `HazeServerRemoveConnection` and
  `HazeServerBroadcast`, with `haze_on_connect` and `haze_on_close` as far as they touch them.

  A connection is named by its address, which the allocator may hand out again once the
  connection is freed. `Live` says of a trace which connections have been connected and not
  yet closed; the list holds those, each once (`registryInv_step`), in whatever order the
  removals leave them.
-/

open Collections Transition

namespace Haze

/-! ## The list -/

/-- What `haze_on_close` checks in a connection: `handle.data` and `server`. -/
structure ConnHandle where
  data : Bool
  server : Bool

/-- The registry of a server and the connections that are allocated. -/
structure HazeServer where
  connections : List Nat
  connCap : Nat
  fits : connections.length ≤ connCap
  heap : Nat → Option ConnHandle

def hazeServerNew : HazeServer where
  connections := []
  connCap := 0
  fits := le_rfl
  heap _ := none

/-- Whether the connection was added: the list grows if there is memory. -/
def hazeServerAddConnection (s : HazeServer) (memory : Bool) (c : Nat) : Bool × HazeServer :=
  if _hfull : s.connCap ≤ s.connections.length then
    let newCap := if s.connCap = 0 then 8 else s.connCap * 2
    if memory = false then (false, s)
    else
      (true,
        { s with
          connections := s.connections ++ [c]
          connCap := newCap
          fits := by
            have hfits := s.fits
            rw [List.length_append, List.length_singleton]
            show _ ≤ if s.connCap = 0 then 8 else s.connCap * 2
            split_ifs <;> omega })
  else
    (true,
      { s with
        connections := s.connections ++ [c]
        fits := by
          rw [List.length_append, List.length_singleton]
          omega })

def hazeServerRemoveConnection (s : HazeServer) (c : Nat) : HazeServer :=
  match s.connections.idxOf? c with
  | some i =>
    { s with
      connections := swapOut s.connections i
      fits := (length_swapOut_le s.connections i).trans s.fits }
  | none => s

/-- The calls of `haze_send`, in order. -/
def hazeServerBroadcast (s : HazeServer) (data : RawBuffer) : List (Nat × RawBuffer) :=
  s.connections.map fun c => (c, data)

/-! ## Connecting and closing -/

/-- What the calls of `haze_on_connect` return: whether there is a connection to accept, the
address of the new one, whether its handle was made, accepted and set to read, and whether
there was memory for a longer list. -/
structure ConnectCalls where
  status : Bool
  calloc : Option Nat
  tcpInit : Bool
  accept : Bool
  readStart : Bool
  realloc : Bool

namespace HazeServer

/-- `haze_on_connect`. -/
def onConnect (s : HazeServer) (calls : ConnectCalls) : HazeServer :=
  if calls.status = false then s
  else
    match calls.calloc with
    | none => s
    | some c =>
      -- without a handle the connection is freed at once
      if calls.tcpInit = false then s
      else
        let s := { s with heap := Function.update s.heap c (some { data := true, server := true }) }
        if calls.accept = false then s
        else if calls.readStart = false then s
        else (hazeServerAddConnection s calls.realloc c).2

/-- `haze_on_close`, of the handle of an allocated connection. -/
def onClose (s : HazeServer) (c : Nat) : HazeServer :=
  match s.heap c with
  | none => s
  | some handle =>
    if handle.data then
      let s := if handle.server then hazeServerRemoveConnection s c else s
      { s with heap := Function.update s.heap c none }
    else s

end HazeServer

inductive ServerEvent where
  | connect (calls : ConnectCalls)
  | closed (c : Nat)

/-- The callbacks of a server whose allocations succeed: a new connection is where none is
allocated, and a handle is closed while its connection is. -/
inductive ServerStep : HazeServer → ServerEvent → HazeServer → Prop where
  | connect {s : HazeServer} {calls : ConnectCalls} :
      calls.realloc = true → (∀ c, calls.calloc = some c → s.heap c = none) →
        ServerStep s (.connect calls) (s.onConnect calls)
  | closed {s : HazeServer} {c : Nat} :
      s.heap c ≠ none → ServerStep s (.closed c) (s.onClose c)

/-- `haze_on_connect` ran to its end for the connection. -/
def ServerEvent.Completes : ServerEvent → Nat → Prop
  | .connect calls, c =>
    calls.status = true ∧ calls.calloc = some c ∧ calls.tcpInit = true ∧
      calls.accept = true ∧ calls.readStart = true
  | .closed _, _ => False

/-- The connection is connected, and the close callback has not run since. -/
def Live (events : List ServerEvent) (c : Nat) : Prop :=
  Standing ServerEvent.Completes (fun event c => event = .closed c) events c

/-! ## The list after a callback -/

theorem hazeServerAddConnection_connections (s : HazeServer) (c : Nat) :
    (hazeServerAddConnection s true c).2.connections = s.connections ++ [c] := by
  unfold hazeServerAddConnection
  split <;> rfl

theorem hazeServerAddConnection_heap (s : HazeServer) (memory : Bool) (c : Nat) :
    (hazeServerAddConnection s memory c).2.heap = s.heap := by
  unfold hazeServerAddConnection
  split
  · cases memory <;> rfl
  · rfl

theorem hazeServerRemoveConnection_perm (s : HazeServer) (c : Nat) :
    (hazeServerRemoveConnection s c).connections.Perm (s.connections.erase c) := by
  unfold hazeServerRemoveConnection
  split
  · exact swapOut_idxOf?_perm ‹_›
  · rw [List.erase_of_not_mem (List.idxOf?_eq_none_iff.mp ‹_›)]

theorem hazeServerRemoveConnection_of_not_mem {s : HazeServer} {c : Nat}
    (hc : c ∉ s.connections) : hazeServerRemoveConnection s c = s := by
  unfold hazeServerRemoveConnection
  rw [List.idxOf?_eq_none_iff.mpr hc]

theorem hazeServerRemoveConnection_heap (s : HazeServer) (c : Nat) :
    (hazeServerRemoveConnection s c).heap = s.heap := by
  unfold hazeServerRemoveConnection
  split <;> rfl

/-- `haze_on_connect` makes at most one handle, with its data and its server set. -/
theorem onConnect_heap (s : HazeServer) (calls : ConnectCalls) (x : Nat) :
    (s.onConnect calls).heap x = s.heap x ∨ (s.onConnect calls).heap x = some ⟨true, true⟩ := by
  have hupdate : ∀ c, Function.update s.heap c (some ⟨true, true⟩) x = s.heap x ∨
      Function.update s.heap c (some ⟨true, true⟩) x = some ⟨true, true⟩ := by
    intro c
    rw [Function.update_apply]
    split_ifs
    · exact .inr rfl
    · exact .inl rfl
  unfold HazeServer.onConnect
  cases calls.calloc with
  | none => exact .inl (by split_ifs <;> rfl)
  | some c =>
      dsimp only
      split_ifs
      · exact .inl rfl
      · exact .inl rfl
      · exact hupdate c
      · exact hupdate c
      · rw [hazeServerAddConnection_heap]
        exact hupdate c

/-- Where there is memory, a connection for which `haze_on_connect` ran to its end is added
behind the others, and otherwise the list stays. -/
theorem onConnect_cases (s : HazeServer) {calls : ConnectCalls} (hmem : calls.realloc = true) :
    (∃ c, (∀ x, (ServerEvent.connect calls).Completes x ↔ x = c) ∧ calls.calloc = some c ∧
      (s.onConnect calls).connections = s.connections ++ [c] ∧
      (s.onConnect calls).heap c = some ⟨true, true⟩) ∨
    ((∀ c, ¬(ServerEvent.connect calls).Completes c) ∧
      (s.onConnect calls).connections = s.connections) := by
  obtain ⟨status, calloc, tcpInit, accept, readStart, realloc⟩ := calls
  obtain rfl : realloc = true := hmem
  unfold HazeServer.onConnect ServerEvent.Completes
  cases status with
  | false => exact .inr ⟨by simp, rfl⟩
  | true =>
      cases calloc with
      | none => exact .inr ⟨by simp, rfl⟩
      | some c =>
          cases tcpInit with
          | false => exact .inr ⟨by simp, rfl⟩
          | true =>
              cases accept with
              | false => exact .inr ⟨by simp, rfl⟩
              | true =>
                  cases readStart with
                  | false => exact .inr ⟨by simp, rfl⟩
                  | true =>
                      refine .inl ⟨c, by simp [eq_comm], rfl,
                        hazeServerAddConnection_connections _ c, ?_⟩
                      show (hazeServerAddConnection _ true c).2.heap c = _
                      rw [hazeServerAddConnection_heap]
                      exact Function.update_self c _ s.heap

/-- What `haze_on_close` does to an allocated connection. -/
theorem onClose_eq {s : HazeServer} {c : Nat} {handle : ConnHandle} (hc : s.heap c = some handle)
    (hhandle : handle.data = true ∧ handle.server = true) :
    (s.onClose c).connections = (hazeServerRemoveConnection s c).connections ∧
      (s.onClose c).heap = Function.update s.heap c none := by
  unfold HazeServer.onClose
  simp only [hc, hhandle, if_true]
  exact ⟨trivial, by rw [hazeServerRemoveConnection_heap]⟩

/-! ## The invariant -/

/-- What holds between two callbacks. -/
structure RegistryInv (events : List ServerEvent) (s : HazeServer) : Prop where
  nodup : s.connections.Nodup
  mem : ∀ c, c ∈ s.connections ↔ Live events c
  allocated : ∀ c ∈ s.connections, s.heap c ≠ none
  handles : ∀ c handle, s.heap c = some handle → handle.data = true ∧ handle.server = true

theorem registryInv_new : RegistryInv [] hazeServerNew where
  nodup := List.nodup_nil
  mem c := by
    have hnone : ¬Live [] c := standing_nil
    simp [hazeServerNew, hnone]
  allocated c hc := by simp [hazeServerNew] at hc
  handles c handle h := by simp [hazeServerNew] at h

theorem live_connect {events : List ServerEvent} {calls : ConnectCalls} {c : Nat} :
    Live (events ++ [.connect calls]) c ↔
      (ServerEvent.connect calls).Completes c ∨ Live events c := by
  unfold Live
  rw [standing_concat]
  simp

theorem live_closed {events : List ServerEvent} {c c' : Nat} :
    Live (events ++ [.closed c']) c ↔ Live events c ∧ c' ≠ c := by
  unfold Live
  rw [standing_concat]
  simp [ServerEvent.Completes]

/-- The connections that were in the list stay allocated. -/
theorem allocated_onConnect {events : List ServerEvent} {s : HazeServer}
    (hinv : RegistryInv events s) (calls : ConnectCalls) :
    ∀ x ∈ s.connections, (s.onConnect calls).heap x ≠ none := by
  intro x hx
  obtain hheap | hheap := onConnect_heap s calls x
  · rw [hheap]
    exact hinv.allocated x hx
  · rw [hheap]
    exact Option.some_ne_none _

theorem handles_onConnect {events : List ServerEvent} {s : HazeServer}
    (hinv : RegistryInv events s) (calls : ConnectCalls) :
    ∀ x handle, (s.onConnect calls).heap x = some handle →
      handle.data = true ∧ handle.server = true := by
  intro x handle hx
  obtain hheap | hheap := onConnect_heap s calls x
  · exact hinv.handles x handle (hheap.symm.trans hx)
  · obtain rfl := Option.some.inj (hheap.symm.trans hx)
    exact ⟨rfl, rfl⟩

theorem registryInv_onConnect {events : List ServerEvent} {s : HazeServer} {calls : ConnectCalls}
    (hinv : RegistryInv events s) (hmem : calls.realloc = true)
    (hfresh : ∀ c, calls.calloc = some c → s.heap c = none) :
    RegistryInv (events ++ [.connect calls]) (s.onConnect calls) := by
  have hkept := allocated_onConnect hinv calls
  have hhandles := handles_onConnect hinv calls
  obtain ⟨c, hdone, hcalloc, hconnections, hheap⟩ | ⟨hnever, hconnections⟩ :=
    onConnect_cases s hmem
  · -- the address is free, so no entry of the list has it
    have hnew : c ∉ s.connections := fun h => hinv.allocated c h (hfresh c hcalloc)
    have hmem : ∀ x, x ∈ (s.onConnect calls).connections ↔ x = c ∨ x ∈ s.connections := by
      intro x
      rw [hconnections, List.mem_append, List.mem_singleton]
      exact or_comm
    refine ⟨?_, ?_, ?_, hhandles⟩
    · rw [hconnections, (List.perm_append_singleton c _).nodup_iff]
      exact List.nodup_cons.mpr ⟨hnew, hinv.nodup⟩
    · intro x
      rw [hmem, live_connect, hdone, hinv.mem]
    · intro x hx
      obtain rfl | hx := (hmem x).mp hx
      · rw [hheap]
        exact Option.some_ne_none _
      · exact hkept x hx
  · refine ⟨?_, ?_, ?_, hhandles⟩
    · rw [hconnections]
      exact hinv.nodup
    · intro x
      rw [hconnections, live_connect, hinv.mem, or_iff_right (hnever x)]
    · rw [hconnections]
      exact hkept

theorem registryInv_onClose {events : List ServerEvent} {s : HazeServer} {c : Nat}
    (hinv : RegistryInv events s) (hc : s.heap c ≠ none) :
    RegistryInv (events ++ [.closed c]) (s.onClose c) := by
  obtain ⟨handle, hhandle⟩ := Option.ne_none_iff_exists'.mp hc
  obtain ⟨hconnections, hheap⟩ := onClose_eq hhandle (hinv.handles c handle hhandle)
  have hperm := hazeServerRemoveConnection_perm s c
  have hmem : ∀ x, x ∈ (s.onClose c).connections ↔ x ≠ c ∧ x ∈ s.connections := by
    intro x
    rw [hconnections, hperm.mem_iff, hinv.nodup.mem_erase_iff]
  refine ⟨?_, ?_, ?_, ?_⟩
  · rw [hconnections]
    exact hperm.nodup_iff.mpr (hinv.nodup.erase c)
  · intro x
    rw [hmem, live_closed, hinv.mem]
    exact ⟨fun h => ⟨h.2, h.1.symm⟩, fun h => ⟨h.2.symm, h.1⟩⟩
  · intro x hx
    obtain ⟨hne, hx⟩ := (hmem x).mp hx
    rw [hheap, Function.update_of_ne hne]
    exact hinv.allocated x hx
  · intro x handle hx
    rw [hheap, Function.update_apply] at hx
    split_ifs at hx
    exact hinv.handles x handle hx

/-- The step lemma: every callback keeps the invariant. -/
theorem registryInv_step {events : List ServerEvent} {s s' : HazeServer} {event : ServerEvent}
    (hinv : RegistryInv events s) (hstep : ServerStep s event s') :
    RegistryInv (events ++ [event]) s' := by
  cases hstep with
  | connect hmem hfresh => exact registryInv_onConnect hinv hmem hfresh
  | closed hc => exact registryInv_onClose hinv hc

/-! ## Runs -/

/-- The close callback of a connection that is not in the list leaves the list alone. -/
theorem onClose_of_not_mem {events : List ServerEvent} {s : HazeServer} {c : Nat}
    (hinv : RegistryInv events s) (hc : c ∉ s.connections) :
    (s.onClose c).connections = s.connections := by
  rcases hheap : s.heap c with _ | handle
  · unfold HazeServer.onClose
    rw [hheap]
  · rw [(onClose_eq hheap (hinv.handles c handle hheap)).1,
      hazeServerRemoveConnection_of_not_mem hc]

/-- A broadcast sends to every connection of the list once, and to no other. -/
theorem count_hazeServerBroadcast {s : HazeServer} (hnodup : s.connections.Nodup) (c : Nat)
    (data : RawBuffer) :
    ((hazeServerBroadcast s data).map Prod.fst).count c = if c ∈ s.connections then 1 else 0 := by
  have hmap : (hazeServerBroadcast s data).map Prod.fst = s.connections := by
    unfold hazeServerBroadcast
    rw [List.map_map]
    exact List.map_id s.connections
  rw [hmap, hnodup.count]

/-- In every state reached the list has no duplicates and fits its capacity, and it holds
exactly the connections that are live. Closing another leaves the list as it is, and a
broadcast sends its data once to each of them and to no other. -/
theorem registry_invariant {events : List ServerEvent} {s : HazeServer}
    (hrun : Run ServerStep hazeServerNew events s) :
    s.connections.Nodup ∧ (∀ c, c ∈ s.connections ↔ Live events c) ∧
      s.connections.length ≤ s.connCap ∧
      (∀ c, ¬Live events c → (s.onClose c).connections = s.connections) ∧
      ∀ data, (∀ send ∈ hazeServerBroadcast s data, send.2 = data) ∧
        ∀ c, (Live events c → ((hazeServerBroadcast s data).map Prod.fst).count c = 1) ∧
          (¬Live events c → ((hazeServerBroadcast s data).map Prod.fst).count c = 0) := by
  have hinv : RegistryInv events s :=
    hrun.invariant_trace registryInv_new fun _ _ _ _ hinv hstep => registryInv_step hinv hstep
  refine ⟨hinv.nodup, hinv.mem, s.fits, ?_, ?_⟩
  · intro c hc
    exact onClose_of_not_mem hinv (mt (hinv.mem c).mp hc)
  · intro data
    refine ⟨?_, ?_⟩
    · intro send hsend
      obtain ⟨c, -, rfl⟩ := List.mem_map.mp hsend
      rfl
    · intro c
      rw [count_hazeServerBroadcast hinv.nodup]
      exact ⟨fun hc => if_pos ((hinv.mem c).mpr hc), fun hc => if_neg (mt (hinv.mem c).mp hc)⟩

/-- One connection stays, and one that is not accepted closes. -/
theorem registry_invariant_refused :
    ∃ (events : List ServerEvent) (s : HazeServer),
      Run ServerStep hazeServerNew events s ∧ s.connections = [1] ∧
      s.connections.Nodup ∧ (∀ c, c ∈ s.connections ↔ Live events c) ∧
      s.connections.length ≤ s.connCap ∧
      (∀ c, ¬Live events c → (s.onClose c).connections = s.connections) ∧
      ∀ data, (∀ send ∈ hazeServerBroadcast s data, send.2 = data) ∧
        ∀ c, (Live events c → ((hazeServerBroadcast s data).map Prod.fst).count c = 1) ∧
          (¬Live events c → ((hazeServerBroadcast s data).map Prod.fst).count c = 0) := by
  let kept : ConnectCalls := ⟨true, some 1, true, true, true, true⟩
  let refused : ConnectCalls := ⟨true, some 3, true, false, true, true⟩
  have hkept : Run ServerStep hazeServerNew ([] ++ [.connect kept])
      (hazeServerNew.onConnect kept) := .snoc .nil (.connect rfl fun _ _ => rfl)
  have hrefused : ServerStep (hazeServerNew.onConnect kept) (.connect refused)
      ((hazeServerNew.onConnect kept).onConnect refused) := by
    refine .connect rfl ?_
    intro c hc
    obtain rfl := Option.some.inj hc
    rfl
  have hclosed : ServerStep ((hazeServerNew.onConnect kept).onConnect refused) (.closed 3)
      (((hazeServerNew.onConnect kept).onConnect refused).onClose 3) := .closed (by decide)
  have hrun := (hkept.snoc hrefused).snoc hclosed
  exact ⟨_, _, hrun, rfl, registry_invariant hrun⟩

end Haze
