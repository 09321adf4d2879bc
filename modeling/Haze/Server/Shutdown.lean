import Haze.Proto.RequestMemory
import Haze.Server.Interleaving
import Haze.Server.Memory

/-
  Runs of the server's callbacks, and what `HazeServerFree` leaves.

  A `Run` of `MemoryStep` is any order of callbacks that libuv allows, with whatever it and the
  allocator answer. No callback frees twice, touches what is freed, or closes a handle that is
  closing, and what is allocated is what the server, its connections and its writes own, and the
  blocks of the context (`server_memory`).

  `HazeServerFree` closes what is open and waits. It comes to an end, and what is left then is the
  list of the connections, every connection that was still open, and all that the dispatched
  requests kept (`shutdown_leaves`).
-/

open Collections Transition

namespace Haze

open Alloc Triple

variable {p : Platform}

/-! ## Callbacks -/

inductive ServerAction (p : Platform) where
  | setupSignals
  | connect
  | read (i : Nat) (ctx : Context p) (serving : Serving) (read : Read)
  | writeDone (k : Nat) (failed : Bool)
  | closed (i : Nat)
  | shutdown
  | signalClosed
  | listenerClosed
  | release

namespace ServerMemory

variable {m : ServerMemory}

/-- What the callback does. The last one is `HazeServerFree` behind its loop. -/
def perform (m : ServerMemory) : ServerAction p → Alloc ServerMemory
  | .setupSignals => do
    let sig ← malloc
    return { m with signal := sig }
  | .connect => m.onConnect
  | .read i ctx serving read => m.onRead i ctx serving read
  | .writeDone k failed => m.onWriteDone k failed
  | .closed i => m.onClose i
  | .shutdown => do
    touch m.server.addr
    return m.walk
  | .signalClosed => do
    free m.signal
    return { m with signal := none }
  | .listenerClosed => do
    touch m.server.addr
    return { m with listening := false }
  | .release => do
    touch m.server.addr
    release m.server.loop
    free m.server.text
    release m.server.addr
    return { m with phase := .freed }

/-- What libuv promises. `HazeServerFree` goes on when no handle is left. -/
def Enabled (m : ServerMemory) : ServerAction p → Prop
  | .setupSignals => m.phase = .running ∧ m.signal = none
  | .connect => m.phase = .running
  | .read i _ _ read => m.phase = .running ∧ read.bytes.length ≤ suggestedSize ∧
      ∃ c, m.conns[i]? = some c ∧ c.conn.closed = false
  | .writeDone k _ => k < m.writes.length
  | .closed i => ∃ c, m.conns[i]? = some c ∧ c.conn.closed = true ∧
      ∀ wr ∈ m.writes, wr.stream ≠ c.addr
  | .shutdown => m.phase = .running
  | .signalClosed => m.phase = .stopping ∧ m.signal ≠ none
  | .listenerClosed => m.phase = .stopping ∧ m.listening = true
  | .release => m.phase = .stopping ∧ m.conns = [] ∧ m.signal = none ∧ m.listening = false

/-! ## Winding down -/

/-- What `HazeServerFree` does not free. -/
def left (m : ServerMemory) : Multiset Address :=
  block m.server.connections + (m.lost.map ConnCell.owned).sum +
    ((m.conns.filter (·.walked)).map ConnCell.owned).sum + m.served

/-- The callbacks `HazeServerFree` waits for, and itself. -/
def pending (m : ServerMemory) : Nat :=
  m.writes.length + m.conns.length + m.signal.toList.length + m.listening.toNat +
    if m.phase = .freed then 0 else 1

/-- A callback of a server that is being freed. -/
structure Winds (m m' : ServerMemory) : Prop where
  phase : m'.phase ≠ .running
  left : m'.left = m.left
  pending : m'.pending < m.pending

theorem winds_writes (hphase : m.phase ≠ .running) {k : Nat} (hk : k < m.writes.length) :
    m.Winds { m with writes := m.writes.eraseIdx k } where
  phase := hphase
  left := rfl
  pending := by
    have hlt := List.length_eraseIdx_add_one hk
    unfold ServerMemory.pending
    dsimp only
    omega

theorem sum_walked {i : Nat} {cell : ConnCell} (hi : m.conns[i]? = some cell) :
    ((m.conns.filter (·.walked)).map ConnCell.owned).sum =
      (if cell.walked then cell.owned else 0) +
        (((m.conns.eraseIdx i).filter (·.walked)).map ConnCell.owned).sum := by
  obtain ⟨hlt, rfl⟩ := List.getElem?_eq_some_iff.mp hi
  have hperm := ((List.getElem_cons_eraseIdx_perm hlt).filter (·.walked)).map ConnCell.owned
  rw [← hperm.sum_eq, List.filter_cons]
  split_ifs
  · rw [List.map_cons, List.sum_cons]
  · rw [zero_add]

theorem winds_closed (hphase : m.phase ≠ .running) {i : Nat} {cell : ConnCell}
    (hi : m.conns[i]? = some cell) :
    m.Winds (if cell.walked then
      { m with conns := m.conns.eraseIdx i, lost := m.lost ++ [cell] }
    else
      { m with
        server := { m.server with
          registry := hazeServerRemoveConnection m.server.registry cell.addr }
        conns := m.conns.eraseIdx i }) where
  phase := by split_ifs <;> exact hphase
  left := by
    have hsum := sum_walked hi
    split_ifs at hsum ⊢
    · unfold ServerMemory.left
      rw [hsum, List.map_append, List.sum_append, List.map_singleton, List.sum_singleton]
      dsimp only
      ac_rfl
    · unfold ServerMemory.left
      rw [hsum, zero_add]
  pending := by
    have hlt := List.length_eraseIdx_add_one (List.getElem?_eq_some_iff.mp hi).1
    unfold ServerMemory.pending
    split_ifs <;> dsimp only <;> omega

/-! ## The step lemma -/

theorem addrs_walk (m : ServerMemory) : m.walk.addrs = m.addrs := by
  unfold addrs walk
  rw [List.map_map]
  refine List.map_congr_left fun c _ => ?_
  dsimp only [Function.comp_apply]
  split_ifs <;> rfl

theorem owned_walk (hphase : m.phase = .running) : m.walk.owned = m.owned := by
  have hconns : m.walk.conns.map ConnCell.owned = m.conns.map ConnCell.owned := by
    unfold walk
    rw [List.map_map]
    refine List.map_congr_left fun c _ => ?_
    dsimp only [Function.comp_apply]
    split_ifs <;> rfl
  unfold owned
  rw [hconns, hphase]
  rfl

theorem Inv.walk (hinv : m.Inv) : m.walk.Inv := by
  have hclosed : ∀ c ∈ m.walk.conns, c.conn.closed = true := by
    intro c hc
    obtain ⟨x, -, rfl⟩ := List.mem_map.mp hc
    split_ifs with h
    · exact h
    · rfl
  refine ⟨?_, hinv.nodup, ?_, fun c hc hopen => ?_, fun h => ?_, fun _ => hclosed, fun h => ?_⟩
  · rw [addrs_walk]
    exact hinv.streams
  · rw [addrs_walk]
    exact hinv.known
  · cases (hclosed c hc).symm.trans hopen
  · cases h
  · cases h

/-- A callback accounts for what it allocates, and after `HazeServerFree` it is one of the
callbacks that wind the server up. -/
def Accounted (m : ServerMemory) (a : ServerAction p) : Prop :=
  Triple m.owned (m.perform a) fun m' owned =>
    owned = m'.owned ∧ m'.Inv ∧ (m.phase ≠ .running → m.Winds m')

theorem server_owned {phase : Phase} (hphase : m.phase = phase) (hne : phase ≠ .freed) :
    m.server.addr ∈ m.owned := server_mem_owned (hphase ▸ hne)

theorem setupSignals_owned (hinv : m.Inv) (henabled : m.Enabled (p := p) .setupSignals) :
    m.Accounted (p := p) .setupSignals := by
  obtain ⟨hphase, hsignal⟩ := henabled
  refine Triple.malloc.bind ?_
  rintro sig _ rfl
  refine .pure ⟨?_, ?_, fun h => absurd hphase h⟩
  · unfold owned
    rw [hsignal, hphase]
    show block sig + (_ + _ + 0 + _ + _ + _ + _) = _ + _ + block sig + _ + _ + _ + _
    rw [add_zero]
    ac_rfl
  · exact ⟨hinv.streams, hinv.nodup, hinv.known, hinv.empty, hinv.running, hinv.stopping,
      fun h => absurd (hphase.symm.trans h) nofun⟩

theorem signalClosed_owned (hinv : m.Inv) (henabled : m.Enabled (p := p) .signalClosed) :
    m.Accounted (p := p) .signalClosed := by
  obtain ⟨hphase, hsignal⟩ := henabled
  have hsplit : m.owned = block m.signal + { m with signal := none }.owned := by
    show _ = _ + (_ + _ + 0 + _ + _ + _ + _)
    rw [add_zero]
    unfold owned
    ac_rfl
  refine (Triple.free.of_eq hsplit).bind ?_
  rintro _ _ rfl
  refine .pure ⟨rfl, ?_, fun h => ⟨h, rfl, ?_⟩⟩
  · exact ⟨hinv.streams, hinv.nodup, hinv.known, hinv.empty, hinv.running, hinv.stopping,
      fun h => ⟨rfl, (hinv.freed h).2⟩⟩
  · obtain ⟨sig, hsig⟩ := Option.ne_none_iff_exists'.mp hsignal
    unfold pending
    rw [hsig]
    simp

theorem listenerClosed_owned (hinv : m.Inv) (henabled : m.Enabled (p := p) .listenerClosed) :
    m.Accounted (p := p) .listenerClosed := by
  obtain ⟨hphase, hlistening⟩ := henabled
  refine (Triple.touch (server_owned hphase nofun)).bind ?_
  rintro _ _ rfl
  refine .pure ⟨rfl, ?_, fun h => ⟨h, rfl, ?_⟩⟩
  · exact ⟨hinv.streams, hinv.nodup, hinv.known, hinv.empty, hinv.running, hinv.stopping,
      hinv.freed⟩
  · unfold pending
    rw [hlistening]
    simp

theorem release_owned (hinv : m.Inv) (henabled : m.Enabled (p := p) .release) :
    m.Accounted (p := p) .release := by
  obtain ⟨hphase, hconns, hsignal, -⟩ := henabled
  refine (Triple.touch (server_owned hphase nofun)).bind ?_
  rintro _ _ rfl
  have hsplit : m.owned = {m.server.loop} + (block m.server.text + ({m.server.addr} +
      { m with phase := .freed }.owned)) := by
    show _ = _ + (_ + (_ + (0 + _ + _ + _ + _ + _ + _)))
    unfold owned
    rw [hphase, if_neg nofun, zero_add]
    unfold ServerCell.owned
    ac_rfl
  refine (Triple.release.of_eq hsplit).bind ?_
  rintro _ _ rfl
  refine Triple.free.bind ?_
  rintro _ _ rfl
  refine Triple.release.bind ?_
  rintro _ _ rfl
  refine .pure ⟨rfl, ?_, fun h => ⟨nofun, rfl, ?_⟩⟩
  · exact ⟨hinv.streams, hinv.nodup, hinv.known, hinv.empty, nofun,
      fun _ => hinv.stopping (by rw [hphase]; nofun), fun _ => ⟨hsignal, hconns⟩⟩
  · unfold pending
    rw [hphase]
    simp

/-- Every callback accounts for what it allocates. -/
theorem perform_owned (hinv : m.Inv) {a : ServerAction p} (henabled : m.Enabled a) :
    m.Accounted a := by
  cases a with
  | setupSignals => exact setupSignals_owned hinv henabled
  | connect =>
      refine (onConnect_owned hinv henabled).conseq ?_
      rintro m' _ ⟨rfl, hinv', -⟩
      exact ⟨rfl, hinv', fun h => absurd henabled h⟩
  | read i ctx serving read =>
      obtain ⟨hphase, hread, c, hi, hopen⟩ := henabled
      refine (onRead_owned hinv hphase hi hopen ctx serving hread).conseq ?_
      rintro m' _ ⟨rfl, hinv', -⟩
      exact ⟨rfl, hinv', fun h => absurd hphase h⟩
  | writeDone k failed =>
      refine (onWriteDone_owned hinv (List.getElem?_eq_getElem henabled) failed).conseq ?_
      rintro m' _ ⟨rfl, hinv', -, hsame⟩
      refine ⟨rfl, hinv', fun h => ?_⟩
      rw [hsame h]
      exact winds_writes h henabled
  | closed i =>
      obtain ⟨c, hi, -, hdone⟩ := henabled
      refine (onClose_owned hinv hi hdone).conseq ?_
      rintro m' _ ⟨rfl, hinv', rfl⟩
      exact ⟨rfl, hinv', fun h => winds_closed h hi⟩
  | shutdown =>
      refine (Triple.touch (server_owned henabled nofun)).bind ?_
      rintro _ _ rfl
      exact .pure ⟨(owned_walk henabled).symm, hinv.walk, fun h => absurd henabled h⟩
  | signalClosed => exact signalClosed_owned hinv henabled
  | listenerClosed => exact listenerClosed_owned hinv henabled
  | release => exact release_owned hinv henabled

/-- When no callback is left of a server that is being freed, it is freed. -/
theorem freed_of_idle (hinv : m.Inv) (hphase : m.phase ≠ .running)
    (hidle : ∀ a : ServerAction p, ¬m.Enabled a) : m.phase = .freed := by
  by_contra hnot
  have hstopping : m.phase = .stopping := by
    cases h : m.phase with
    | running => exact absurd h hphase
    | stopping => rfl
    | freed => exact absurd h hnot
  have hwrites : m.writes = [] := by
    by_contra hne
    exact hidle (.writeDone 0 false) (List.length_pos_iff.mpr hne)
  have hconns : m.conns = [] := by
    by_contra hne
    have hpos := List.length_pos_iff.mpr hne
    refine hidle (.closed 0) ⟨m.conns[0], List.getElem?_eq_getElem hpos, ?_, ?_⟩
    · exact hinv.stopping hphase _ (List.getElem_mem hpos)
    · rw [hwrites]
      nofun
  have hsignal : m.signal = none := by
    by_contra hne
    exact hidle .signalClosed ⟨hstopping, hne⟩
  have hlistening : m.listening = false := by
    cases h : m.listening with
    | false => rfl
    | true => exact absurd ⟨hstopping, h⟩ (hidle .listenerClosed)
  exact hidle .release ⟨hstopping, hconns, hsignal, hlistening⟩

theorem owned_of_freed (hinv : m.Inv) (hphase : m.phase = .freed) : m.owned = m.left := by
  obtain ⟨hsignal, hconns⟩ := hinv.freed hphase
  have hwrites : m.writes = [] := by
    refine List.eq_nil_iff_forall_not_mem.mpr fun wr hwr => ?_
    have hstream := hinv.streams wr hwr
    rw [addrs, hconns] at hstream
    cases hstream
  unfold owned left
  rw [hphase, hsignal, hconns, hwrites]
  show 0 + _ + 0 + 0 + _ + 0 + _ = _ + _ + 0 + _
  simp only [zero_add, add_zero]

theorem left_walk (hinv : m.Inv) (hphase : m.phase = .running) :
    m.walk.left = block m.server.connections +
      ((m.conns.filter fun c => !c.conn.closed).map ConnCell.owned).sum + m.served := by
  obtain ⟨hlost, hwalked⟩ := hinv.running hphase
  have hconns : (m.walk.conns.filter (·.walked)).map ConnCell.owned =
      (m.conns.filter fun c => !c.conn.closed).map ConnCell.owned := by
    show ((m.conns.map _).filter (·.walked)).map ConnCell.owned = _
    generalize m.conns = conns at hwalked ⊢
    induction conns with
    | nil => rfl
    | cons c conns ih =>
        obtain ⟨hc, hconns⟩ := List.forall_mem_cons.mp hwalked
        have ih := ih hconns
        rw [List.map_cons, List.filter_cons, List.filter_cons]
        cases hclosed : c.conn.closed with
        | true => simpa [hc, hclosed] using ih
        | false => simpa [hclosed, ConnCell.owned] using ih
  unfold left
  rw [hconns, show m.walk.lost = [] from hlost]
  show _ + 0 + _ + _ = _
  rw [add_zero]
  rfl

end ServerMemory

/-! ## Runs -/

structure ServerState where
  heap : Heap Unit
  memory : ServerMemory

/-- A callback, with the answers of libuv and of the allocator. -/
def MemoryStep (s : ServerState) (a : ServerAction p × List Bool) (s' : ServerState) : Prop :=
  s.memory.Enabled a.1 ∧
    ∃ left, s.memory.perform a.1 ⟨s.heap, a.2⟩ = some (s'.memory, ⟨s'.heap, left⟩)

/-- The state behind a call of `HazeServerNew` that returned a server. -/
def Started (s : ServerState) : Prop :=
  ∃ server grants left, ServerCell.new ⟨⟨[]⟩, grants⟩ = some (some server, ⟨s.heap, left⟩) ∧
    s.memory = { server := server, signal := none, conns := [], lost := [], writes := [],
                 served := [], listening := true, phase := .running }

theorem serverNew_owned {s t : Allocator} {server : ServerCell} (howns : Owns s.heap 0)
    (hnew : ServerCell.new s = some (some server, t)) :
    Owns t.heap server.owned ∧ server.connections = none ∧ server.registry = hazeServerNew := by
  cases hserver : s.grants.headD true with
  | false => cases (bind_eq (malloc_refused hserver)).symm.trans hnew
  | true =>
      have hnew := (bind_eq (malloc_granted hserver)).symm.trans hnew
      cases hloop : s.grants.tail.headD true with
      | false =>
          have hloop' := malloc_refused (s := ⟨(s.heap.alloc ()).2, s.grants.tail⟩) hloop
          cases (bind_eq hloop').symm.trans hnew
      | true =>
          have hloop' := malloc_granted (s := ⟨(s.heap.alloc ()).2, s.grants.tail⟩) hloop
          have hnew := (bind_eq hloop').symm.trans hnew
          obtain ⟨text, t', owned, htext, rfl, howns'⟩ := Triple.run Triple.malloc
            (s := ⟨((s.heap.alloc ()).2.alloc ()).2, s.grants.tail.tail⟩) howns.alloc.alloc
          cases (bind_eq htext).symm.trans hnew
          refine ⟨?_, rfl, rfl⟩
          have howned : ServerCell.owned
              { addr := (s.heap.alloc ()).1, text := text, loop := ((s.heap.alloc ()).2.alloc ()).1
                connections := none, registry := hazeServerNew } =
              block text + ({((s.heap.alloc ()).2.alloc ()).1} + ({(s.heap.alloc ()).1} + 0)) := by
            unfold ServerCell.owned
            rw [add_zero]
            ac_rfl
          rw [howned]
          exact howns'

theorem Started.owned {s : ServerState} (hstart : Started s) :
    Owns s.heap s.memory.owned ∧ s.memory.Inv := by
  obtain ⟨server, grants, left, hnew, hmemory⟩ := hstart
  obtain ⟨howns, hconns, hregistry⟩ := serverNew_owned owns_empty hnew
  rw [hmemory]
  refine ⟨?_, nofun, ?_, ?_, nofun, fun _ => ⟨rfl, nofun⟩, nofun, nofun⟩
  · have howned : ServerMemory.owned
        { server := server, signal := none, conns := [], lost := [], writes := [],
          served := [], listening := true, phase := .running } = server.owned := by
      show server.owned + block server.connections + 0 + 0 + 0 + 0 + 0 = _
      rw [hconns]
      show server.owned + 0 + 0 + 0 + 0 + 0 + 0 = _
      simp only [add_zero]
    rw [howned]
    exact howns
  · rw [hregistry]
    exact List.nodup_nil
  · rw [hregistry]
    nofun

theorem MemoryStep.owned {s s' : ServerState} {a : ServerAction p × List Bool}
    (howns : Owns s.heap s.memory.owned) (hinv : s.memory.Inv) (hstep : MemoryStep s a s') :
    Owns s'.heap s'.memory.owned ∧ s'.memory.Inv ∧
      (s.memory.phase ≠ .running → s.memory.Winds s'.memory) := by
  obtain ⟨henabled, left, hrun⟩ := hstep
  obtain ⟨m', t, owned, hrun', ⟨rfl, hinv', hwinds⟩, howns'⟩ :=
    (ServerMemory.perform_owned hinv henabled).run (s := ⟨s.heap, a.2⟩) howns
  cases hrun.symm.trans hrun'
  exact ⟨howns', hinv', hwinds⟩

theorem memoryRun_owned {as : List (ServerAction p × List Bool)} {s t : ServerState}
    (hstart : Started s) (hrun : Run MemoryStep s as t) :
    Owns t.heap t.memory.owned ∧ t.memory.Inv := by
  refine hrun.invariant (P := fun s => Owns s.heap s.memory.owned ∧ s.memory.Inv) hstart.owned ?_
  intro m a m' hm hstep
  obtain ⟨howns, hinv, -⟩ := hstep.owned hm.1 hm.2
  exact ⟨howns, hinv⟩

/-- `n` more blocks. -/
def keepBlocks : Nat → List Address → Alloc (List Address)
  | 0, blocks => return blocks
  | n + 1, blocks => do
    let a ← fresh
    keepBlocks n (a :: blocks)

theorem keepBlocks_owned {pre : Multiset Address} (n : Nat) (blocks : List Address) :
    Triple (blocks + pre) (keepBlocks n blocks) fun blocks' owned => owned = blocks' + pre := by
  induction n generalizing blocks with
  | zero => exact .pure rfl
  | succ n ih =>
      refine Triple.fresh.bind ?_
      rintro a _ rfl
      refine (ih (a :: blocks)).of_eq ?_
      rw [← add_assoc, Multiset.singleton_add, Multiset.cons_coe]

theorem keepBlocks_run (n : Nat) (blocks : List Address) (s : Allocator) :
    ∃ blocks' t, keepBlocks n blocks s = some (blocks', t) ∧ t.grants = s.grants ∧
      blocks'.length = blocks.length + n := by
  induction n generalizing blocks s with
  | zero => exact ⟨blocks, s, rfl, rfl, rfl⟩
  | succ n ih =>
      obtain ⟨blocks', t, hrun, hgrants, hlen⟩ :=
        ih ((s.heap.alloc ()).1 :: blocks) ⟨(s.heap.alloc ()).2, s.grants⟩
      refine ⟨blocks', t, hrun, hgrants, hlen.trans ?_⟩
      rw [List.length_cons, Nat.succ_add_eq_add_succ]

/-- Each request leaves of its parameters what `request_memory` counts, and its jobs
(`dispatchRPCMessage_jobs`). -/
def Serving.leaving : Serving where
  serve request := keepBlocks (Object.leakedAll request.parameters + request.jobs)
  keeps _ blocks _ := keepBlocks_owned _ blocks

/-- A new connection sends an import. -/
theorem onRead_import (ctx : Context p) {m : ServerMemory} {c : Address} {heap : Heap Unit}
    (hconns : m.conns = [{ addr := c, buffer := none, conn := hazeConnNew, walked := false }])
    (hlive : heap.read c = some ()) :
    ∃ buffer conn served t, m.onRead 0 ctx .leaving (.data importRequest.wire) ⟨heap, []⟩ =
        some ({ m with
          conns := [{ addr := c, buffer := buffer, conn := conn, walked := false }]
          served := served }, t) ∧
      t.grants = [] ∧ conn.closed = false ∧ served.length = m.served.length + 3 := by
  obtain ⟨-, -, hevents⟩ := importRequest_read c ctx idle_hazeConnNew
  obtain ⟨b, bs, hwire⟩ : ∃ b bs, importRequest.wire = b :: bs :=
    ⟨_, _, rfl⟩
  rw [hwire] at hevents ⊢
  have hbase := Heap.read_alloc (Heap.read_alloc_self heap ()) ()
  obtain ⟨served, t, hkeep, hgrants, hlen⟩ := keepBlocks_run 3 m.served
    ⟨⟨((heap.alloc ()).2.alloc ()).2.cells.set (heap.alloc ()).1 none⟩, []⟩
  let conn := (hazeOnRead c ctx hazeConnNew (.data (b :: bs))).2.1
  refine ⟨some ((heap.alloc ()).2.alloc ()).1, { conn with closed := false }, served, t, ?_,
    hgrants, rfl, hlen⟩
  unfold ServerMemory.onRead
  rw [hconns]
  have hgrow : ServerMemory.growBuffer
      { addr := c, buffer := none, conn := hazeConnNew, walked := false }
      (hazeConnNew.buffer ++ b :: bs).length ⟨(heap.alloc ()).2, []⟩ =
        some (some (some ((heap.alloc ()).2.alloc ()).1), ⟨((heap.alloc ()).2.alloc ()).2, []⟩) :=
    rfl
  refine (bind_eq (malloc_granted rfl)).trans ?_
  refine (bind_eq (touch_of_read (Heap.read_alloc hlive ()))).trans ?_
  refine (bind_eq hgrow).trans ((bind_eq (release_of_read hbase)).trans ?_)
  dsimp only
  rw [hevents]
  exact bind_eq hkeep

/-- A connection is made, and sends an import. -/
theorem import_run :
    ∃ s t, Started s ∧ Run (MemoryStep (p := stillPlatform)) s
        [(.connect, []), (.read 0 stillContext .leaving (.data importRequest.wire), [])] t ∧
      t.memory.phase = .running ∧ t.memory.listening = true ∧ t.memory.signal = none ∧
      t.memory.writes = [] ∧ t.memory.served.length = 3 ∧
      ∃ c, t.memory.conns = [c] ∧ c.conn.closed = false := by
  have hstart : Started ⟨_, _⟩ := ⟨_, [], _, rfl, rfl⟩
  have hconnected : ∃ s t, Started s ∧
      Run (MemoryStep (p := stillPlatform)) s [(.connect, [])] t ∧
      t.memory.phase = .running ∧ t.memory.listening = true ∧ t.memory.signal = none ∧
      t.memory.writes = [] ∧ t.memory.served = [] ∧
      ∃ c, t.memory.conns = [{ addr := c, buffer := none, conn := hazeConnNew, walked := false }] ∧
        t.heap.read c = some () :=
    ⟨_, ⟨_, _⟩, hstart, Run.snoc .nil ⟨rfl, _, rfl⟩, rfl, rfl, rfl, rfl, rfl, _, rfl, rfl⟩
  obtain ⟨s, t, hstart, hrun, hphase, hlistening, hsignal, hwrites, hserved, c, hconns, hlive⟩ :=
    hconnected
  obtain ⟨buffer, conn, served, t', hread, -, hopen, hlen⟩ :=
    onRead_import stillContext hconns hlive
  rw [hserved] at hlen
  have hstep : MemoryStep t
      (.read 0 stillContext .leaving (.data importRequest.wire), []) ⟨t'.heap, _⟩ :=
    ⟨⟨hphase, by decide, _, by rw [hconns]; rfl, rfl⟩, t'.grants, hread⟩
  exact ⟨s, _, hstart, hrun.snoc hstep, hphase, hlistening, hsignal, hwrites, hlen, _, rfl, hopen⟩

/-- `HazeServerFree` comes to an end, and then the list of the connections is left, every
connection that was not closing when it was called, and what the dispatched requests kept. -/
theorem shutdown_leaves {before after : List (ServerAction p × List Bool)} {grants : List Bool}
    {s t u v : ServerState} (hstart : Started s) (hrun : Run MemoryStep s before t)
    (hstop : MemoryStep t ((.shutdown : ServerAction p), grants) u)
    (hafter : Run MemoryStep u after v) :
    after.length ≤ u.memory.pending ∧ ((∀ a : ServerAction p, ¬v.memory.Enabled a) →
      v.memory.phase = .freed ∧ Owns v.heap (block t.memory.server.connections +
        ((t.memory.conns.filter fun c => !c.conn.closed).map ConnCell.owned).sum +
        t.memory.served)) := by
  obtain ⟨howns, hinv⟩ := memoryRun_owned hstart hrun
  obtain ⟨howns', hinv', -⟩ := hstop.owned howns hinv
  have hphase : t.memory.phase = .running := hstop.1
  have hwalk : u.memory = t.memory.walk := by
    obtain ⟨-, left, hperform⟩ := hstop
    have hserver := ServerMemory.server_mem_owned (m := t.memory) (by rw [hphase]; nofun)
    obtain ⟨_, s', owned, htouch, -⟩ :=
      Triple.run (Triple.touch hserver) (s := ⟨t.heap, grants⟩) howns
    exact congrArg Prod.fst (Option.some.inj (hperform.symm.trans (bind_eq htouch)))
  have hend := hafter.invariant_trace
    (P := fun after v => (Owns v.heap v.memory.owned ∧ v.memory.Inv) ∧
      v.memory.phase ≠ .running ∧ v.memory.left = u.memory.left ∧
      after.length + v.memory.pending ≤ u.memory.pending)
    ⟨⟨howns', hinv'⟩, by rw [hwalk]; nofun, rfl, by simp⟩ ?_
  · obtain ⟨⟨hownsv, hinvv⟩, hphasev, hleft, hlength⟩ := hend
    refine ⟨by omega, fun hidle => ?_⟩
    have hfreed := ServerMemory.freed_of_idle hinvv hphasev hidle
    refine ⟨hfreed, ?_⟩
    rw [← ServerMemory.left_walk hinv hphase, ← hwalk, ← hleft,
      ← ServerMemory.owned_of_freed hinvv hfreed]
    exact hownsv
  · intro after m a m' hm hstep
    obtain ⟨⟨hownsm, hinvm⟩, hphasem, hleft, hlength⟩ := hm
    obtain ⟨hownsm', hinvm', hwinds⟩ := hstep.owned hownsm hinvm
    have hwinds := hwinds hphasem
    refine ⟨⟨hownsm', hinvm'⟩, hwinds.phase, hwinds.left.trans hleft, ?_⟩
    have hlt := hwinds.pending
    rw [List.length_append, List.length_singleton]
    omega

/-- The connection that sent the import is open when the server is freed. -/
theorem shutdown_leaves_one :
    ∃ t u v : ServerState, t.memory.conns.length = 1 ∧ t.memory.served.length = 3 ∧
      MemoryStep t ((.shutdown : ServerAction stillPlatform), []) u ∧
      Run (MemoryStep (p := stillPlatform)) u
        [(.closed 0, []), (.listenerClosed, []), (.release, [])] v ∧
      3 ≤ u.memory.pending ∧ ((∀ a : ServerAction stillPlatform, ¬v.memory.Enabled a) →
        v.memory.phase = .freed ∧ Owns v.heap (block t.memory.server.connections +
          ((t.memory.conns.filter fun c => !c.conn.closed).map ConnCell.owned).sum +
          t.memory.served)) := by
  obtain ⟨s, t, hstart, hrun, hphase, hlistening, hsignal, hwrites, hserved, c, hconns, hopen⟩ :=
    import_run
  obtain ⟨howns, hinv⟩ := memoryRun_owned hstart hrun
  have hserver : t.heap.read t.memory.server.addr = some () :=
    (howns.live _).mp (ServerMemory.server_mem_owned (by rw [hphase]; nofun))
  have hconn : t.heap.read c.addr = some () := by
    refine (howns.live _).mp (ServerMemory.mem_owned_of_mem_addrs ?_)
    rw [ServerMemory.addrs, hconns]
    exact List.mem_singleton_self _
  let c' := { c with conn := { c.conn with closed := true }, walked := true }
  have hwalk : t.memory.walk = { t.memory with phase := .stopping, conns := [c'] } := by
    unfold ServerMemory.walk
    rw [hconns, List.map_singleton, if_neg (by rw [hopen]; exact Bool.false_ne_true)]
  have hstop : MemoryStep t ((.shutdown : ServerAction stillPlatform), [])
      ⟨t.heap, { t.memory with phase := .stopping, conns := [c'] }⟩ := by
    refine ⟨hphase, [], ?_⟩
    rw [← hwalk]
    exact bind_eq (touch_of_read hserver)
  have hclosed : MemoryStep
      ⟨t.heap, { t.memory with phase := .stopping, conns := [c'] }⟩
      ((.closed 0 : ServerAction stillPlatform), [])
      ⟨t.heap, { t.memory with phase := .stopping, conns := [], lost := t.memory.lost ++ [c'] }⟩ :=
    ⟨⟨c', rfl, rfl, by rw [hwrites]; nofun⟩, [], bind_eq (touch_of_read hconn)⟩
  have hlistener : MemoryStep
      ⟨t.heap, { t.memory with phase := .stopping, conns := [], lost := t.memory.lost ++ [c'] }⟩
      ((.listenerClosed : ServerAction stillPlatform), [])
      ⟨t.heap, { t.memory with
        phase := .stopping, conns := [], lost := t.memory.lost ++ [c'], listening := false }⟩ :=
    ⟨⟨rfl, hlistening⟩, [], bind_eq (touch_of_read hserver)⟩
  obtain ⟨howns, hinv, -⟩ := hstop.owned howns hinv
  obtain ⟨howns, hinv, -⟩ := hclosed.owned howns hinv
  obtain ⟨howns, hinv, -⟩ := hlistener.owned howns hinv
  obtain ⟨m', v, owned, hrelease, -⟩ := (ServerMemory.perform_owned hinv
    (a := (.release : ServerAction stillPlatform)) ⟨rfl, rfl, hsignal, rfl⟩).run
      (s := ⟨t.heap, []⟩) howns
  have hafter := ((Run.nil.snoc hclosed).snoc hlistener).snoc
    (show MemoryStep _ ((.release : ServerAction stillPlatform), []) ⟨v.heap, m'⟩ from
      ⟨⟨rfl, rfl, hsignal, rfl⟩, v.grants, hrelease⟩)
  exact ⟨t, _, _, by rw [hconns]; rfl, hserved, hstop, hafter,
    shutdown_leaves hstart hrun hstop hafter⟩

end Haze
