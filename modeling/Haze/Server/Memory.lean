import Haze.Collections.Ledger
import Haze.Server.Lifecycle
import Haze.Server.Registry

/-
  The server as a program that allocates: `HazeServerNew`, the callbacks of HazeServer.c and
  `HazeServerFree`.

  A connection is its structure and its buffer, a write its request and its copy of the data. What
  libuv answers is asked like the allocator, and `uv_close` on a handle that is closing is a fault,
  as is reading what was freed. `perform` runs a callback; `Enabled` is what libuv promises: no
  read behind `uv_close`, and the writes of a stream are done before it is closed.

  A dispatched request works on the memory of the context: the session, the queued jobs, and the
  blocks that `RequestUnmarshal` never frees. What it does there is free (`Serving`), and so is
  every new block it keeps, but it must leave the memory of the server alone. What is read and
  answered is what `hazeOnRead` says, as it is where no request for memory is refused in
  `ServerDispatch`.

  Each callback has its own lemma here, from `onConnect_owned` to `onClose_owned`.
-/

open Collections Msgpack Transition

namespace Haze

open Alloc Triple

variable {p : Platform}

/-! ## Cells -/

/-- `haze_write_req_t`, while libuv has it. -/
structure WriteCell where
  req : Address
  dataToFree : Address
  stream : Address

def WriteCell.owned (wr : WriteCell) : Multiset Address := {wr.req} + {wr.dataToFree}

/-- A connection whose handle is not closed yet. `walked` is set if it was `_CloseWalkCb` that
asked to close it, with `_OnHandleClose` as its callback. -/
structure ConnCell where
  addr : Address
  buffer : Option Address
  conn : HazeConn
  walked : Bool

def ConnCell.owned (c : ConnCell) : Multiset Address := {c.addr} + block c.buffer

/-- `HazeServer`. The list of the connections is the one of the registry. -/
structure ServerCell where
  addr : Address
  text : Option Address
  loop : Address
  connections : Option Address
  registry : HazeServer

def ServerCell.owned (s : ServerCell) : Multiset Address := {s.loop} + block s.text + {s.addr}

/-- What `ServerDispatch` does with the blocks of the context: anything that runs without a fault
and touches no other block. -/
structure Serving where
  serve : Request → List Address → Alloc (List Address)
  keeps (request : Request) (blocks : List Address) (pre : Multiset Address) :
    Triple (blocks + pre) (serve request blocks) fun blocks' owned => owned = blocks' + pre

inductive Phase where
  | running
  | stopping
  | freed
  deriving DecidableEq

/-- The server and what libuv holds of it. The connections that are `lost` are those that
`_OnHandleClose` was called for, and `served` are the blocks of the context. -/
structure ServerMemory where
  server : ServerCell
  signal : Option Address
  conns : List ConnCell
  lost : List ConnCell
  writes : List WriteCell
  served : List Address
  listening : Bool
  phase : Phase

/-- `HazeServerNew`. It is not checked whether there is a loop, which `uv_tcp_init` reads. -/
def ServerCell.new : Alloc (Option ServerCell) := do
  let some s ← malloc | return none
  let some loop ← malloc | failure
  let text ← malloc
  return some
    { addr := s, text := text, loop := loop, connections := none, registry := hazeServerNew }

/-- `HazeServerAddConnection`, of a server whose array may have to move. -/
def ServerCell.addConnection (s : ServerCell) (c : Address) : Alloc ServerCell := do
  touch s.addr
  if s.registry.connCap ≤ s.registry.connections.length then
    let some array ← realloc s.connections
      | return { s with registry := (hazeServerAddConnection s.registry false c).2 }
    return { s with
      connections := some array
      registry := (hazeServerAddConnection s.registry true c).2 }
  else return { s with registry := (hazeServerAddConnection s.registry true c).2 }

/-- `haze_send`: the write, if libuv takes it. -/
def hazeSend (stream : Address) : Alloc (List WriteCell) := do
  let some req ← malloc | return []
  let some copy ← malloc
    | do
      release req
      return []
  touch stream
  let written ← ask
  if written = false then
    release copy
    release req
    return []
  else return [{ req := req, dataToFree := copy, stream := stream }]

/-- The calls of `haze_send` one after the other. -/
def sendAll : List (Address × RawBuffer) → Alloc (List WriteCell)
  | [] => return []
  | (stream, _) :: rest => do
    let write ← hazeSend stream
    let writes ← sendAll rest
    return write ++ writes

namespace ServerMemory

/-- Everything that is allocated and will be freed, or was lost. -/
def owned (m : ServerMemory) : Multiset Address :=
  (if m.phase = .freed then 0 else m.server.owned) + block m.server.connections + block m.signal +
    (m.conns.map ConnCell.owned).sum + (m.lost.map ConnCell.owned).sum +
    (m.writes.map WriteCell.owned).sum + m.served

/-- The connections libuv knows. -/
def addrs (m : ServerMemory) : List Address := m.conns.map (·.addr)

/-- The handle is closing from now on. -/
def closing (m : ServerMemory) (c : Address) : ServerMemory :=
  { m with
    conns := m.conns.map fun x =>
      if x.addr = c then { x with conn := { x.conn with closed := true } } else x }

def isClosing (m : ServerMemory) (c : Address) : Bool :=
  m.conns.any fun x => x.addr = c && x.conn.closed

/-- `uv_close`, which must not be called twice. -/
def uvClose (m : ServerMemory) (c : Address) : Alloc ServerMemory := do
  touch c
  if m.isClosing c then failure else return m.closing c

/-- What the loop of `haze_on_read` does. -/
def runEvents (serving : Serving) (m : ServerMemory) (c : Address) :
    List Event → Alloc ServerMemory
  | [] => return m
  | .dispatch request :: events => do
    let served ← serving.serve request m.served
    { m with served := served }.runEvents serving c events
  | .send _ :: events => do
    let write ← hazeSend c
    { m with writes := m.writes ++ write }.runEvents serving c events
  | .broadcast data :: events => do
    touch m.server.addr
    let writes ← sendAll (hazeServerBroadcast m.server.registry data)
    { m with writes := m.writes ++ writes }.runEvents serving c events
  | .close :: events => do
    let m ← m.uvClose c
    m.runEvents serving c events

/-- A connection whose handle was made. -/
def connected (m : ServerMemory) (c : Address) : ServerMemory :=
  { m with
    conns := m.conns ++ [{ addr := c, buffer := none, conn := hazeConnNew, walked := false }] }

/-- `haze_on_connect`. -/
def onConnect (m : ServerMemory) : Alloc ServerMemory := do
  touch m.server.addr
  let some conn ← malloc | return m
  let init ← ask
  if init = false then
    release conn
    return m
  else
    let m := m.connected conn
    let accepted ← ask
    if accepted = false then m.uvClose conn
    else
      let reading ← ask
      if reading = false then m.uvClose conn
      else
        let server ← m.server.addConnection conn
        return { m with server := server }

/-- The buffer of `haze_on_read`, if it is long enough or can grow. -/
def growBuffer (c : ConnCell) (len : Nat) : Alloc (Option (Option Address)) := do
  if c.conn.bufferCap < len then
    let some buffer ← realloc c.buffer | return none
    return some (some buffer)
  else return some c.buffer

/-- `haze_on_alloc`, and then `haze_on_read` with what was read, or with an error if there is no
memory to read to. -/
def onRead (m : ServerMemory) (i : Nat) (ctx : Context p) (serving : Serving) (read : Read) :
    Alloc ServerMemory := do
  let some c := m.conns[i]? | failure
  let base ← malloc
  let read := if base.isNone then .failed else read
  touch c.addr
  match read with
  | .failed =>
    free base
    m.uvClose c.addr
  | .data [] =>
    free base
    return m
  | .data (b :: bs) =>
    let some buffer ← growBuffer c (c.conn.buffer ++ b :: bs).length
      | do
        free base
        m.uvClose c.addr
    free base
    let out := hazeOnRead c.addr ctx c.conn (.data (b :: bs))
    let c' := { c with buffer := buffer, conn := { out.2.1 with closed := c.conn.closed } }
    { m with conns := m.conns.set i c' }.runEvents serving c.addr out.2.2

/-- A failed write closes its stream, unless it is closing. -/
def onFailedWrite (m : ServerMemory) (stream : Address) : Alloc ServerMemory := do
  touch stream
  if m.isClosing stream then return m else m.uvClose stream

/-- `haze_on_write_done`. -/
def onWriteDone (m : ServerMemory) (k : Nat) (failed : Bool) : Alloc ServerMemory := do
  let some wr := m.writes[k]? | failure
  touch wr.req
  let m ← if failed then m.onFailedWrite wr.stream else pure m
  release wr.dataToFree
  release wr.req
  return { m with writes := m.writes.eraseIdx k }

/-- The close callback of a connection, `haze_on_close` or `_OnHandleClose`. -/
def onClose (m : ServerMemory) (i : Nat) : Alloc ServerMemory := do
  let some c := m.conns[i]? | failure
  touch c.addr
  if c.walked then return { m with conns := m.conns.eraseIdx i, lost := m.lost ++ [c] }
  else
    touch m.server.addr
    let server := { m.server with registry := hazeServerRemoveConnection m.server.registry c.addr }
    free c.buffer
    release c.addr
    return { m with server := server, conns := m.conns.eraseIdx i }

/-- `uv_walk` with `_CloseWalkCb`. -/
def walk (m : ServerMemory) : ServerMemory :=
  { m with
    phase := .stopping
    conns := m.conns.map fun c =>
      if c.conn.closed then c
      else { c with conn := { c.conn with closed := true }, walked := true } }

end ServerMemory

/-! ## Writes -/

theorem hazeSend_owned {pre : Multiset Address} {stream : Address} (hstream : stream ∈ pre) :
    Triple pre (hazeSend stream) fun writes owned =>
      owned = (writes.map WriteCell.owned).sum + pre ∧ ∀ wr ∈ writes, wr.stream = stream := by
  refine Triple.malloc.bind ?_
  rintro (_ | req) _ rfl
  · exact .pure ⟨rfl, nofun⟩
  refine Triple.malloc.bind ?_
  rintro (_ | copy) _ rfl
  · refine (Triple.release.of_eq (zero_add _)).bind ?_
    rintro _ _ rfl
    exact .pure ⟨(zero_add _).symm, nofun⟩
  have hmem : stream ∈ block (some copy) + (block (some req) + pre) :=
    Multiset.mem_add.mpr (.inr (Multiset.mem_add.mpr (.inr hstream)))
  refine (Triple.touch hmem).bind ?_
  rintro _ _ rfl
  refine Triple.ask.bind ?_
  rintro (_ | _) _ rfl
  · refine (Triple.release (a := copy)).bind ?_
    rintro _ _ rfl
    refine (Triple.release (a := req)).bind ?_
    rintro _ _ rfl
    exact .pure ⟨(zero_add _).symm, nofun⟩
  · refine .pure ⟨?_, by simp⟩
    show {copy} + ({req} + pre) = ({req} + {copy} + 0) + pre
    rw [add_zero]
    ac_rfl

theorem sendAll_owned {pre : Multiset Address} {calls : List (Address × RawBuffer)}
    (hcalls : ∀ call ∈ calls, call.1 ∈ pre) :
    Triple pre (sendAll calls) fun writes owned =>
      owned = (writes.map WriteCell.owned).sum + pre ∧
        ∀ wr ∈ writes, ∃ call ∈ calls, wr.stream = call.1 := by
  induction calls generalizing pre with
  | nil => exact .pure ⟨(zero_add _).symm, nofun⟩
  | cons call calls ih =>
      obtain ⟨hcall, hcalls⟩ := List.forall_mem_cons.mp hcalls
      refine (hazeSend_owned hcall).bind ?_
      rintro write _ ⟨rfl, hwrite⟩
      refine (ih fun call h => Multiset.mem_add.mpr (.inr (hcalls call h))).bind ?_
      rintro writes _ ⟨rfl, hwrites⟩
      refine .pure ⟨?_, fun wr hwr => ?_⟩
      · rw [List.map_append, List.sum_append]
        ac_rfl
      · obtain hwr | hwr := List.mem_append.mp hwr
        · exact ⟨call, List.mem_cons_self, hwrite wr hwr⟩
        · obtain ⟨call', hcall', hstream⟩ := hwrites wr hwr
          exact ⟨call', List.mem_cons_of_mem call hcall', hstream⟩

namespace ServerMemory

variable {m : ServerMemory} {c : Address}

theorem owned_writes (m : ServerMemory) (writes : List WriteCell) :
    { m with writes := m.writes ++ writes }.owned =
      (writes.map WriteCell.owned).sum + m.owned := by
  unfold owned
  rw [List.map_append, List.sum_append]
  ac_rfl

/-- The connections libuv knows are allocated, each at its own address. -/
theorem addrs_le_owned (m : ServerMemory) : (m.addrs : Multiset Address) ≤ m.owned := by
  have hconns : ((m.conns.map (·.addr) : List Address) : Multiset Address) ≤
      (m.conns.map ConnCell.owned).sum := by
    induction m.conns with
    | nil => exact le_rfl
    | cons cell conns ih =>
        rw [List.map_cons, List.map_cons, List.sum_cons, ← Multiset.cons_coe,
          ← Multiset.singleton_add]
        exact add_le_add (le_add_right le_rfl) ih
  unfold owned
  exact hconns.trans (le_add_right (le_add_right (le_add_right (le_add_left le_rfl))))

theorem mem_owned_of_mem_addrs (hc : c ∈ m.addrs) : c ∈ m.owned :=
  Multiset.mem_of_le m.addrs_le_owned hc

theorem server_mem_owned (hphase : m.phase ≠ .freed) : m.server.addr ∈ m.owned := by
  unfold owned
  rw [if_neg hphase]
  simp [ServerCell.owned]

/-! ## Closing -/

@[simp] theorem addrs_closing (m : ServerMemory) (c : Address) : (m.closing c).addrs = m.addrs := by
  unfold addrs closing
  rw [List.map_map]
  refine List.map_congr_left fun x _ => ?_
  dsimp only [Function.comp_apply]
  split_ifs <;> rfl

@[simp] theorem owned_closing (m : ServerMemory) (c : Address) : (m.closing c).owned = m.owned := by
  have hconns : (m.closing c).conns.map ConnCell.owned = m.conns.map ConnCell.owned := by
    unfold closing
    rw [List.map_map]
    refine List.map_congr_left fun x _ => ?_
    dsimp only [Function.comp_apply]
    split_ifs <;> rfl
  unfold owned
  rw [hconns]
  rfl

theorem mem_conns_closing {cell : ConnCell} (hcell : cell ∈ (m.closing c).conns) :
    (cell.addr = c ∧ cell.conn.closed = true) ∨ cell.addr ≠ c ∧ cell ∈ m.conns := by
  obtain ⟨x, hx, rfl⟩ := List.mem_map.mp hcell
  split_ifs with haddr
  · exact .inl ⟨haddr, rfl⟩
  · exact .inr ⟨haddr, hx⟩

theorem uvClose_owned (hc : c ∈ m.addrs) (hopen : m.isClosing c = false) :
    Triple m.owned (m.uvClose c) fun m' owned => m' = m.closing c ∧ owned = m'.owned := by
  refine (Triple.touch (mem_owned_of_mem_addrs hc)).bind ?_
  rintro _ _ rfl
  rw [if_neg (by rw [hopen]; exact Bool.false_ne_true)]
  exact .pure ⟨rfl, (owned_closing m c).symm⟩

theorem owned_served (m : ServerMemory) (served : List Address) :
    { m with served := served }.owned =
      (served : Multiset Address) + { m with served := [] }.owned := by
  unfold owned
  rw [Multiset.coe_nil, add_zero]
  exact add_comm _ _

/-- The loop of `haze_on_read` adds writes to streams that are there, closes the handle if it says
so, and leaves the rest to the requests. -/
theorem runEvents_owned (serving : Serving) (hc : c ∈ m.addrs) (hphase : m.phase ≠ .freed)
    (hknown : ∀ a ∈ m.server.registry.connections, a ∈ m.addrs) {events : List Event}
    (honce : events.countP Event.isClose ≤ 1)
    (hopen : m.isClosing c = true → events.countP Event.isClose = 0) :
    Triple m.owned (m.runEvents serving c events) fun m' owned =>
      owned = m'.owned ∧ ∃ writes served, (∀ wr ∈ writes, wr.stream ∈ m.addrs) ∧
        m' = { (if events.countP Event.isClose = 0 then m else m.closing c) with
          writes := m.writes ++ writes, served := served } := by
  induction events generalizing m with
  | nil => exact .pure ⟨rfl, [], m.served, nofun, by rw [List.append_nil]; rfl⟩
  | cons event events ih =>
      have hmore : ∀ write : List WriteCell, (∀ wr ∈ write, wr.stream ∈ m.addrs) →
          events.countP Event.isClose ≤ 1 →
          (m.isClosing c = true → events.countP Event.isClose = 0) →
          Triple ((write.map WriteCell.owned).sum + m.owned)
            ({ m with writes := m.writes ++ write }.runEvents serving c events) fun m' owned =>
            owned = m'.owned ∧ ∃ writes served, (∀ wr ∈ writes, wr.stream ∈ m.addrs) ∧
              m' = { (if events.countP Event.isClose = 0 then m else m.closing c) with
                writes := m.writes ++ writes, served := served } := by
        intro write hwrite honce hopen
        refine ((ih (m := { m with writes := m.writes ++ write }) hc hphase hknown honce
          hopen).of_eq (owned_writes m write).symm).conseq ?_
        rintro m' _ ⟨rfl, writes, served, hwrites, rfl⟩
        refine ⟨rfl, write ++ writes, served, fun wr hwr => ?_, ?_⟩
        · exact (List.mem_append.mp hwr).elim (hwrite wr) (hwrites wr)
        · rw [← List.append_assoc]
          split_ifs <;> rfl
      cases event with
      | dispatch request =>
          refine ((serving.keeps request m.served _).of_eq (owned_served m m.served)).bind ?_
          rintro served _ rfl
          refine ((ih (m := { m with served := served }) hc hphase hknown honce hopen).of_eq
            (owned_served m served).symm).conseq ?_
          rintro m' _ ⟨rfl, writes, served', hwrites, rfl⟩
          refine ⟨rfl, writes, served', hwrites, ?_⟩
          have hcount : (Event.dispatch request :: events).countP Event.isClose =
              events.countP Event.isClose := List.countP_cons_of_neg Bool.false_ne_true
          rw [hcount]
          split_ifs <;> rfl
      | send data =>
          refine (hazeSend_owned (mem_owned_of_mem_addrs hc)).bind ?_
          rintro write _ ⟨rfl, hwrite⟩
          exact hmore write (fun wr hwr => by rw [hwrite wr hwr]; exact hc) honce hopen
      | broadcast data =>
          refine (Triple.touch (server_mem_owned hphase)).bind ?_
          rintro _ _ rfl
          have hstreams : ∀ call ∈ hazeServerBroadcast m.server.registry data,
              call.1 ∈ m.addrs := by
            intro call hcall
            obtain ⟨a, ha, rfl⟩ := List.mem_map.mp hcall
            exact hknown a ha
          refine (sendAll_owned fun call h => mem_owned_of_mem_addrs (hstreams call h)).bind ?_
          rintro write _ ⟨rfl, hwrite⟩
          refine hmore write (fun wr hwr => ?_) honce hopen
          obtain ⟨call, hcall, hstream⟩ := hwrite wr hwr
          rw [hstream]
          exact hstreams call hcall
      | close =>
          have hcount : (Event.close :: events).countP Event.isClose =
              events.countP Event.isClose + 1 := List.countP_cons_of_pos rfl
          have hlast : events.countP Event.isClose = 0 := by omega
          have hnot : m.isClosing c = false := by
            refine Bool.eq_false_iff.mpr fun h => ?_
            exact absurd (hcount.symm.trans (hopen h)) (Nat.succ_ne_zero _)
          refine (uvClose_owned hc hnot).bind ?_
          rintro _ _ ⟨rfl, rfl⟩
          have hc' : c ∈ (m.closing c).addrs := by rwa [addrs_closing]
          refine (ih hc' hphase (by rwa [addrs_closing]) (hlast.trans_le zero_le_one)
            fun _ => hlast).conseq ?_
          rintro m' _ ⟨rfl, writes, served, hwrites, rfl⟩
          rw [addrs_closing] at hwrites
          refine ⟨rfl, writes, served, hwrites, ?_⟩
          rw [if_pos hlast, if_neg (by rw [hcount]; exact Nat.succ_ne_zero _)]
          rfl

theorem isClosing_of_open (hnodup : m.owned.Nodup) {cell : ConnCell} (hcell : cell ∈ m.conns)
    (hopen : cell.conn.closed = false) : m.isClosing cell.addr = false := by
  refine List.any_eq_false.mpr fun x hx => ?_
  rw [Bool.and_eq_true, decide_eq_true_eq]
  rintro ⟨haddr, hclosed⟩
  have haddrs : (m.conns.map (·.addr)).Nodup :=
    Multiset.coe_nodup.mp (Multiset.nodup_of_le m.addrs_le_owned hnodup)
  obtain rfl := List.inj_on_of_nodup_map haddrs hx hcell haddr
  exact absurd (hopen.symm.trans hclosed) nofun

theorem addrs_set {i : Nat} {cell cell' : ConnCell} (hi : m.conns[i]? = some cell)
    (haddr : cell'.addr = cell.addr) : { m with conns := m.conns.set i cell' }.addrs = m.addrs := by
  obtain ⟨hlt, hget⟩ := List.getElem?_eq_some_iff.mp hi
  show (m.conns.set i cell').map (·.addr) = m.conns.map (·.addr)
  rw [List.map_set, haddr, ← hget, ← List.map_set, List.set_getElem_self]

/-! ## The invariant -/

/-- What holds between two callbacks. -/
structure Inv (m : ServerMemory) : Prop where
  streams : ∀ wr ∈ m.writes, wr.stream ∈ m.addrs
  nodup : m.server.registry.connections.Nodup
  known : ∀ a ∈ m.server.registry.connections, a ∈ m.addrs ∨ a ∈ m.lost.map (·.addr)
  empty : ∀ c ∈ m.conns, c.conn.closed = false → c.conn.buffer = []
  running : m.phase = .running → m.lost = [] ∧ ∀ c ∈ m.conns, c.walked = false
  stopping : m.phase ≠ .running → ∀ c ∈ m.conns, c.conn.closed = true
  freed : m.phase = .freed → m.signal = none ∧ m.conns = []

/-- A handle that is asked to close keeps the rest. -/
theorem Inv.closing (hinv : m.Inv) (c : Address) : (m.closing c).Inv where
  streams wr hwr := by
    rw [addrs_closing]
    exact hinv.streams wr hwr
  nodup := hinv.nodup
  known a ha := by
    rw [addrs_closing]
    exact hinv.known a ha
  empty cell hcell hopen := by
    obtain ⟨-, hclosed⟩ | ⟨-, hcell⟩ := mem_conns_closing hcell
    · exact absurd (hclosed.symm.trans hopen) nofun
    · exact hinv.empty cell hcell hopen
  running hphase := by
    obtain ⟨hlost, hwalked⟩ := hinv.running hphase
    refine ⟨hlost, fun cell hcell => ?_⟩
    obtain ⟨x, hx, rfl⟩ := List.mem_map.mp hcell
    split_ifs <;> exact hwalked x hx
  stopping hphase cell hcell := by
    obtain ⟨-, hclosed⟩ | ⟨-, hcell⟩ := mem_conns_closing hcell
    · exact hclosed
    · exact hinv.stopping hphase cell hcell
  freed hphase := by
    obtain ⟨hsignal, hconns⟩ := hinv.freed hphase
    exact ⟨hsignal, by rw [ServerMemory.closing, hconns]; rfl⟩

theorem Inv.writes (hinv : m.Inv) {writes : List WriteCell}
    (hwrites : ∀ wr ∈ writes, wr.stream ∈ m.addrs) (served : List Address) :
    { m with writes := writes, served := served }.Inv where
  streams := hwrites
  nodup := hinv.nodup
  known := hinv.known
  empty := hinv.empty
  running := hinv.running
  stopping := hinv.stopping
  freed := hinv.freed

/-! ## Connecting -/

theorem addConnection_owned {pre : Multiset Address} (s : ServerCell) (c : Address)
    (haddr : s.addr ∈ pre) :
    Triple (block s.connections + pre) (s.addConnection c) fun s' owned =>
      owned = block s'.connections + pre ∧ s'.owned = s.owned ∧ s'.addr = s.addr ∧
        (s'.registry.connections = s.registry.connections ∨
          s'.registry.connections = s.registry.connections ++ [c]) := by
  have hadded := hazeServerAddConnection_connections s.registry c
  have hkept : s.registry.connCap ≤ s.registry.connections.length →
      (hazeServerAddConnection s.registry false c).2 = s.registry := by
    intro hfull
    unfold hazeServerAddConnection
    rw [dif_pos hfull, if_pos rfl]
  refine (Triple.touch (Multiset.mem_add.mpr (.inr haddr))).bind ?_
  rintro _ _ rfl
  split_ifs with hfull
  · refine Triple.realloc.bind ?_
    rintro (_ | array) _ rfl
    · rw [hkept hfull]
      exact .pure ⟨rfl, rfl, rfl, .inl rfl⟩
    · exact .pure ⟨rfl, rfl, rfl, .inr hadded⟩
  · exact .pure ⟨rfl, rfl, rfl, .inr hadded⟩

theorem mem_addrs_connected {a : Address} : a ∈ (m.connected c).addrs ↔ a ∈ m.addrs ∨ a = c := by
  unfold addrs connected
  rw [List.map_append, List.mem_append, List.map_singleton, List.mem_singleton]

theorem owned_connected (m : ServerMemory) (c : Address) :
    (m.connected c).owned = {c} + m.owned := by
  have hcell : ConnCell.owned ⟨c, none, hazeConnNew, false⟩ = {c} := add_zero _
  unfold owned connected
  rw [List.map_append, List.sum_append, List.map_singleton, List.sum_singleton, hcell]
  dsimp only
  ac_rfl

/-- A connection that is new to libuv. -/
theorem Inv.connected (hinv : m.Inv) (hphase : m.phase = .running) (c : Address) :
    (m.connected c).Inv where
  streams wr hwr := mem_addrs_connected.mpr (.inl (hinv.streams wr hwr))
  nodup := hinv.nodup
  known a ha := (hinv.known a ha).imp_left fun h => mem_addrs_connected.mpr (.inl h)
  empty x hx hopen := by
    obtain hx | hx := List.mem_append.mp hx
    · exact hinv.empty x hx hopen
    · rw [List.mem_singleton.mp hx]
      rfl
  running _ := by
    obtain ⟨hlost, hwalked⟩ := hinv.running hphase
    refine ⟨hlost, fun x hx => ?_⟩
    obtain hx | hx := List.mem_append.mp hx
    · exact hwalked x hx
    · rw [List.mem_singleton.mp hx]
  stopping h := absurd hphase h
  freed h := absurd (hphase.symm.trans h) nofun

/-- The new connection may be added to the list. -/
theorem Inv.added (hinv : m.Inv) (hc : c ∈ m.addrs)
    (hnew : c ∉ m.server.registry.connections) {server : ServerCell}
    (hconns : server.registry.connections = m.server.registry.connections ∨
      server.registry.connections = m.server.registry.connections ++ [c]) :
    { m with server := server }.Inv where
  streams := hinv.streams
  nodup := by
    obtain h | h := hconns
    · rw [h]
      exact hinv.nodup
    · rw [h]
      exact List.nodup_append.mpr ⟨hinv.nodup, List.nodup_singleton c, fun a ha b hb =>
        fun h => hnew (List.mem_singleton.mp hb ▸ h ▸ ha)⟩
  known a ha := by
    obtain h | h := hconns
    · exact hinv.known a (h ▸ ha)
    · obtain ha | ha := List.mem_append.mp (h ▸ ha)
      · exact hinv.known a ha
      · rw [List.mem_singleton.mp ha]
        exact .inl hc
  empty := hinv.empty
  running := hinv.running
  stopping := hinv.stopping
  freed := hinv.freed

theorem onConnect_owned (hinv : m.Inv) (hphase : m.phase = .running) :
    Triple m.owned m.onConnect fun m' owned =>
      owned = m'.owned ∧ m'.Inv ∧ m'.phase = .running := by
  have hnot : m.phase ≠ .freed := by
    rw [hphase]
    nofun
  refine (Triple.touch (server_mem_owned hnot)).bind ?_
  rintro _ _ rfl
  refine Triple.malloc.bind ?_
  rintro (_ | conn) _ rfl
  · exact .pure ⟨zero_add _, hinv, hphase⟩
  refine TripleWhen.of_nodup fun hnodup => ?_
  have hfresh : conn ∉ m.owned := (Multiset.nodup_cons.mp hnodup).1
  refine Triple.ask.bind ?_
  rintro (_ | _) _ rfl
  · refine Triple.release.bind ?_
    rintro _ _ rfl
    exact .pure ⟨rfl, hinv, hphase⟩
  have hinv' := hinv.connected hphase conn
  have hmem : conn ∈ (m.connected conn).addrs := mem_addrs_connected.mpr (.inr rfl)
  have hopen : (m.connected conn).isClosing conn = false := by
    refine List.any_eq_false.mpr fun x hx => ?_
    obtain hx | hx := List.mem_append.mp hx
    · have haddr : x.addr ≠ conn := fun h =>
        hfresh (h ▸ mem_owned_of_mem_addrs (List.mem_map_of_mem hx))
      simp [haddr]
    · simp [List.mem_singleton.mp hx, hazeConnNew]
  have hclose : Triple (m.connected conn).owned ((m.connected conn).uvClose conn)
      fun m' owned => owned = m'.owned ∧ m'.Inv ∧ m'.phase = .running := by
    refine (uvClose_owned hmem hopen).conseq ?_
    rintro m' _ ⟨rfl, rfl⟩
    exact ⟨rfl, hinv'.closing conn, hphase⟩
  have howned : block (some conn) + m.owned = (m.connected conn).owned :=
    (owned_connected m conn).symm
  rw [howned]
  refine Triple.ask.bind ?_
  rintro (_ | _) _ rfl
  · exact hclose
  refine Triple.ask.bind ?_
  rintro (_ | _) _ rfl
  · exact hclose
  have hsplit : (m.connected conn).owned = block (m.connected conn).server.connections +
      ((m.connected conn).server.owned + block m.signal +
        ((m.connected conn).conns.map ConnCell.owned).sum + (m.lost.map ConnCell.owned).sum +
        (m.writes.map WriteCell.owned).sum + m.served) := by
    show (if m.phase = .freed then 0 else m.server.owned) + _ + _ + _ + _ + _ + _ = _
    rw [if_neg hnot]
    show m.server.owned + block m.server.connections + _ + _ + _ + _ + _ =
      block m.server.connections + (m.server.owned + _ + _ + _ + _ + _)
    ac_rfl
  refine ((addConnection_owned _ conn (by simp [ServerCell.owned])).of_eq hsplit).bind ?_
  rintro server _ ⟨rfl, hserver, -, hconns⟩
  refine .pure ⟨?_, hinv'.added hmem (fun h => ?_) hconns, hphase⟩
  · show _ = (if m.phase = .freed then 0 else server.owned) + _ + _ + _ + _ + _ + _
    rw [if_neg hnot, ← hserver]
    ac_rfl
  · obtain h | h := hinv.known conn h
    · exact hfresh (mem_owned_of_mem_addrs h)
    · rw [(hinv.running hphase).1] at h
      cases h

/-! ## Reading -/

/-- A connection after a read. -/
theorem Inv.set (hinv : m.Inv) {i : Nat} {cell : ConnCell} (cell' : ConnCell)
    (hi : m.conns[i]? = some cell) (haddr : cell'.addr = cell.addr)
    (hwalked : cell'.walked = cell.walked)
    (hclosed : cell.conn.closed = true → cell'.conn.closed = true)
    (hempty : cell'.conn.closed = false → cell'.conn.buffer = []) :
    { m with conns := m.conns.set i cell' }.Inv where
  streams := by
    rw [addrs_set hi haddr]
    exact hinv.streams
  nodup := hinv.nodup
  known := by
    rw [addrs_set hi haddr]
    exact hinv.known
  empty x hx hopen := by
    obtain hx | rfl := List.mem_or_eq_of_mem_set hx
    · exact hinv.empty x hx hopen
    · exact hempty hopen
  running hphase := by
    obtain ⟨hlost, hall⟩ := hinv.running hphase
    refine ⟨hlost, fun x hx => ?_⟩
    obtain hx | rfl := List.mem_or_eq_of_mem_set hx
    · exact hall x hx
    · rw [hwalked]
      exact hall cell (List.mem_of_getElem? hi)
  stopping hphase x hx := by
    have hall := hinv.stopping hphase
    obtain hx | rfl := List.mem_or_eq_of_mem_set hx
    · exact hall x hx
    · exact hclosed (hall cell (List.mem_of_getElem? hi))
  freed hphase := by
    obtain ⟨hsignal, hconns⟩ := hinv.freed hphase
    exact ⟨hsignal, by rw [hconns]; rfl⟩

theorem growBuffer_owned {pre : Multiset Address} (c : ConnCell) (len : Nat) :
    Triple (block c.buffer + pre) (growBuffer c len) fun buffer owned =>
      owned = block (buffer.getD c.buffer) + pre := by
  unfold growBuffer
  split_ifs
  · refine Triple.realloc.bind ?_
    rintro (_ | buffer) _ rfl
    · exact .pure rfl
    · exact .pure rfl
  · exact .pure rfl

/-- A connection that is read from, with its buffer and its bytes. -/
theorem owned_set {i : Nat} {cell : ConnCell} (hi : m.conns[i]? = some cell) :
    ∃ rest, m.owned = block cell.buffer + rest ∧ ∀ buffer conn,
      { m with conns := m.conns.set i { cell with buffer := buffer, conn := conn } }.owned =
        block buffer + rest := by
  obtain ⟨hlt, rfl⟩ := List.getElem?_eq_some_iff.mp hi
  refine ⟨(if m.phase = .freed then 0 else m.server.owned) + block m.server.connections +
    block m.signal + ({m.conns[i].addr} + ((m.conns.eraseIdx i).map ConnCell.owned).sum) +
    (m.lost.map ConnCell.owned).sum + (m.writes.map WriteCell.owned).sum + m.served, ?_,
    fun buffer conn => ?_⟩
  · unfold owned
    rw [Triple.sum_eraseIdx ConnCell.owned hlt]
    unfold ConnCell.owned
    ac_rfl
  · unfold owned
    rw [Triple.sum_set ConnCell.owned hlt]
    unfold ConnCell.owned
    ac_rfl

/-- What a read leaves is empty or closed. -/
theorem runEvents_read (hinv : m.Inv) (hphase : m.phase = .running) {i : Nat} {c : ConnCell}
    (hi : m.conns[i]? = some c) (hopen : c.conn.closed = false) (hnodup : m.owned.Nodup)
    (serving : Serving) (buffer : Option Address) (conn : HazeConn) {events : List Event}
    (honce : events.countP Event.isClose ≤ 1)
    (hleft : events.countP Event.isClose = 0 → conn.buffer = []) :
    let c' := { c with buffer := buffer, conn := { conn with closed := c.conn.closed } }
    let m' := { m with conns := m.conns.set i c' }
    Triple m'.owned (m'.runEvents serving c.addr events) fun m' owned =>
      owned = m'.owned ∧ m'.Inv ∧ m'.phase = .running := by
  intro c' m'
  have haddrs : m'.addrs = m.addrs := addrs_set hi rfl
  have hmem : c.addr ∈ m'.addrs := by
    rw [haddrs]
    exact List.mem_map_of_mem (List.mem_of_getElem? hi)
  have hnot : m'.isClosing c.addr = false := by
    have hall := List.any_eq_false.mp (isClosing_of_open hnodup (List.mem_of_getElem? hi) hopen)
    refine List.any_eq_false.mpr fun x hx => ?_
    obtain hx | rfl := List.mem_or_eq_of_mem_set hx
    · exact hall x hx
    · simp [c', hopen]
  have hknown : ∀ a ∈ m'.server.registry.connections, a ∈ m'.addrs := by
    intro a ha
    rw [haddrs]
    refine (hinv.known a ha).resolve_right ?_
    rw [(hinv.running hphase).1]
    exact List.not_mem_nil
  refine (runEvents_owned serving hmem (by rw [hphase]; nofun) hknown honce
    fun h => absurd (hnot.symm.trans h) nofun).conseq ?_
  rintro out _ ⟨rfl, writes, served, hwrites, rfl⟩
  have hall : ∀ wr ∈ m.writes ++ writes, wr.stream ∈ m'.addrs := fun wr hwr =>
    (List.mem_append.mp hwr).elim (fun h => haddrs ▸ hinv.streams wr h) (hwrites wr)
  refine ⟨rfl, ?_, ?_⟩
  · split_ifs with hcount
    · exact (hinv.set c' hi rfl rfl (fun h => h) fun _ => hleft hcount).writes hall served
    · -- the bytes that are left belong to a handle that is closing
      let c'' := { c with buffer := buffer, conn := { conn with closed := true } }
      have hclosing : m'.closing c.addr =
          { m with conns := m.conns.set i c'' }.closing c.addr := by
        unfold closing
        dsimp only [m']
        rw [List.map_set, List.map_set, if_pos rfl, if_pos rfl]
      rw [hclosing]
      refine ((hinv.set c'' hi rfl rfl (fun _ => rfl) nofun).closing c.addr).writes ?_ served
      rw [← hclosing, addrs_closing]
      exact hall
  · split_ifs <;> exact hphase

/-- A read closes the handle, or it leaves no bytes. -/
theorem onRead_owned (hinv : m.Inv) (hphase : m.phase = .running) {i : Nat} {c : ConnCell}
    (hi : m.conns[i]? = some c) (hopen : c.conn.closed = false) (ctx : Context p)
    (serving : Serving) {read : Read} (hread : read.bytes.length ≤ suggestedSize) :
    Triple m.owned (m.onRead i ctx serving read) fun m' owned =>
      owned = m'.owned ∧ m'.Inv ∧ m'.phase = .running := by
  have hmem := List.mem_of_getElem? hi
  have haddr : c.addr ∈ m.addrs := List.mem_map_of_mem hmem
  refine TripleWhen.of_nodup fun hnodup => ?_
  have hnot := isClosing_of_open hnodup hmem hopen
  have hclose : ∀ base : Option Address, Triple (block base + m.owned)
      (do
        free base
        m.uvClose c.addr) fun m' owned => owned = m'.owned ∧ m'.Inv ∧ m'.phase = .running := by
    intro base
    refine Triple.free.bind ?_
    rintro _ _ rfl
    refine (uvClose_owned haddr hnot).conseq ?_
    rintro m' _ ⟨rfl, rfl⟩
    exact ⟨rfl, hinv.closing c.addr, hphase⟩
  unfold onRead
  rw [hi]
  refine Triple.malloc.bind ?_
  rintro base _ rfl
  refine (Triple.touch (Multiset.mem_add.mpr (.inr (mem_owned_of_mem_addrs haddr)))).bind ?_
  rintro _ _ rfl
  match base, read, hread with
  | none, _, _ => exact hclose none
  | some _, .failed, _ => exact hclose _
  | some base, .data [], _ =>
      refine Triple.free.bind ?_
      rintro _ _ rfl
      exact .pure ⟨rfl, hinv, hphase⟩
  | some base, .data (b :: bs), hread =>
      obtain ⟨rest, hrest, hset⟩ := owned_set hi
      have hsplit : block (some base) + m.owned = block c.buffer + (block (some base) + rest) := by
        rw [hrest]
        ac_rfl
      refine ((growBuffer_owned c _).of_eq hsplit).bind ?_
      rintro (_ | buffer) _ rfl
      · exact (hclose (some base)).of_eq hsplit.symm
      refine (Triple.free.of_eq (add_left_comm _ _ _)).bind ?_
      rintro _ _ rfl
      obtain ⟨honce, hleft⟩ :=
        hazeOnRead_of_empty c.addr ctx (hinv.empty c hmem hopen) hread
      generalize hazeOnRead c.addr ctx c.conn (.data (b :: bs)) = out at honce hleft ⊢
      obtain ⟨ctx', conn, events⟩ := out
      dsimp only at honce hleft ⊢
      rw [Option.getD_some, ← hset buffer { conn with closed := c.conn.closed }]
      exact runEvents_read hinv hphase hi hopen hnodup serving buffer conn honce hleft

/-! ## Writes that are done -/

theorem owned_eraseIdx_writes {k : Nat} {wr : WriteCell} (hk : m.writes[k]? = some wr) :
    m.owned = {wr.dataToFree} + ({wr.req} + { m with writes := m.writes.eraseIdx k }.owned) := by
  obtain ⟨hlt, rfl⟩ := List.getElem?_eq_some_iff.mp hk
  unfold owned
  rw [Triple.sum_eraseIdx WriteCell.owned hlt]
  unfold WriteCell.owned
  ac_rfl

theorem isClosing_of_stopping (hinv : m.Inv) (hphase : m.phase ≠ .running) (hc : c ∈ m.addrs) :
    m.isClosing c = true := by
  obtain ⟨cell, hcell, rfl⟩ := List.mem_map.mp hc
  exact List.any_eq_true.mpr ⟨cell, hcell, by simp [hinv.stopping hphase cell hcell]⟩

theorem onFailedWrite_owned (hinv : m.Inv) (hc : c ∈ m.addrs) :
    Triple m.owned (m.onFailedWrite c) fun m' owned =>
      owned = m.owned ∧ m'.Inv ∧ m'.owned = m.owned ∧ m'.writes = m.writes ∧
        m'.phase = m.phase ∧ (m.phase ≠ .running → m' = m) := by
  refine (Triple.touch (mem_owned_of_mem_addrs hc)).bind ?_
  rintro _ _ rfl
  cases hclosing : m.isClosing c with
  | true => exact .pure ⟨rfl, hinv, rfl, rfl, rfl, fun _ => rfl⟩
  | false =>
      refine (uvClose_owned hc hclosing).conseq ?_
      rintro m' _ ⟨rfl, rfl⟩
      refine ⟨owned_closing m _, hinv.closing _, owned_closing m _, rfl, rfl, fun h => ?_⟩
      exact absurd ((isClosing_of_stopping hinv h hc).symm.trans hclosing) nofun

theorem onWriteDone_owned (hinv : m.Inv) {k : Nat} {wr : WriteCell} (hk : m.writes[k]? = some wr)
    (failed : Bool) :
    Triple m.owned (m.onWriteDone k failed) fun m' owned =>
      owned = m'.owned ∧ m'.Inv ∧ m'.phase = m.phase ∧
        (m.phase ≠ .running → m' = { m with writes := m.writes.eraseIdx k }) := by
  have hstream := hinv.streams wr (List.mem_of_getElem? hk)
  have hreq : wr.req ∈ m.owned := by
    rw [owned_eraseIdx_writes hk]
    simp
  have hrest : ∀ m' : ServerMemory, m'.Inv → m'.owned = m.owned → m'.writes = m.writes →
      m'.phase = m.phase → (m.phase ≠ .running → m' = m) →
      Triple m.owned
        (do
          release wr.dataToFree
          release wr.req
          return { m' with writes := m'.writes.eraseIdx k }) fun m' owned =>
        owned = m'.owned ∧ m'.Inv ∧ m'.phase = m.phase ∧
          (m.phase ≠ .running → m' = { m with writes := m.writes.eraseIdx k }) := by
    intro m' hinv' howned hwrites hphase hsame
    have hk' : m'.writes[k]? = some wr := by rw [hwrites, hk]
    rw [← howned, owned_eraseIdx_writes hk']
    refine Triple.release.bind ?_
    rintro _ _ rfl
    refine Triple.release.bind ?_
    rintro _ _ rfl
    refine .pure ⟨rfl, hinv'.writes (fun w hw => ?_) m'.served, hphase, fun h => by rw [hsame h]⟩
    exact hinv'.streams w ((List.eraseIdx_sublist _ k).subset hw)
  unfold onWriteDone
  rw [hk]
  refine (Triple.touch hreq).bind ?_
  rintro _ _ rfl
  cases failed with
  | false => exact hrest m hinv rfl rfl rfl fun _ => rfl
  | true =>
      refine (onFailedWrite_owned hinv hstream).bind ?_
      rintro m' _ ⟨rfl, hinv', howned, hwrites, hphase, hsame⟩
      exact hrest m' hinv' howned hwrites hphase hsame

/-! ## Handles that are closed -/

theorem mem_addrs_eraseIdx {i : Nat} {cell : ConnCell} (hi : m.conns[i]? = some cell) {a : Address}
    (ha : a ∈ m.addrs) (hne : a ≠ cell.addr) :
    a ∈ { m with conns := m.conns.eraseIdx i }.addrs := by
  obtain ⟨hlt, rfl⟩ := List.getElem?_eq_some_iff.mp hi
  have hperm := (List.getElem_cons_eraseIdx_perm hlt).map (·.addr)
  exact (List.mem_cons.mp (hperm.mem_iff.mpr ha)).resolve_left hne

/-- A connection that is gone. Whatever becomes of it, no write is for it any more. -/
theorem Inv.erased (hinv : m.Inv) {i : Nat} {cell : ConnCell} (hi : m.conns[i]? = some cell)
    (hdone : ∀ wr ∈ m.writes, wr.stream ≠ cell.addr) {server : ServerCell}
    {lost : List ConnCell} (hnodup : server.registry.connections.Nodup)
    (hknown : ∀ a ∈ server.registry.connections, a ∈ m.server.registry.connections ∧
      (a = cell.addr → a ∈ lost.map (·.addr)))
    (hlost : ∀ a ∈ m.lost.map (·.addr), a ∈ lost.map (·.addr))
    (hrunning : m.phase = .running → lost = []) :
    { m with server := server, conns := m.conns.eraseIdx i, lost := lost }.Inv where
  streams wr hwr := mem_addrs_eraseIdx hi (hinv.streams wr hwr) (hdone wr hwr)
  nodup := hnodup
  known a ha := by
    obtain ⟨ha, hcell⟩ := hknown a ha
    by_cases hne : a = cell.addr
    · exact .inr (hcell hne)
    · exact (hinv.known a ha).imp (fun h => mem_addrs_eraseIdx hi h hne) (hlost a)
  empty x hx := hinv.empty x ((List.eraseIdx_sublist _ i).subset hx)
  running hphase := by
    refine ⟨hrunning hphase, fun x hx => ?_⟩
    exact (hinv.running hphase).2 x ((List.eraseIdx_sublist _ i).subset hx)
  stopping hphase x hx := hinv.stopping hphase x ((List.eraseIdx_sublist _ i).subset hx)
  freed hphase := by
    obtain ⟨hsignal, hconns⟩ := hinv.freed hphase
    exact ⟨hsignal, by rw [hconns]; rfl⟩

/-- `haze_on_close` frees the connection, and `_OnHandleClose` loses it. -/
theorem onClose_owned (hinv : m.Inv) {i : Nat} {cell : ConnCell} (hi : m.conns[i]? = some cell)
    (hdone : ∀ wr ∈ m.writes, wr.stream ≠ cell.addr) :
    Triple m.owned (m.onClose i) fun m' owned =>
      owned = m'.owned ∧ m'.Inv ∧
        m' = if cell.walked then
          { m with conns := m.conns.eraseIdx i, lost := m.lost ++ [cell] }
        else
          { m with
            server := { m.server with
              registry := hazeServerRemoveConnection m.server.registry cell.addr }
            conns := m.conns.eraseIdx i } := by
  have hmem := List.mem_of_getElem? hi
  obtain ⟨hlt, hget⟩ := List.getElem?_eq_some_iff.mp hi
  have hsum := Triple.sum_eraseIdx ConnCell.owned hlt
  rw [hget] at hsum
  have hphase : m.phase ≠ .freed := fun h => by
    rw [(hinv.freed h).2] at hmem
    cases hmem
  unfold onClose
  rw [hi]
  refine (Triple.touch (mem_owned_of_mem_addrs (List.mem_map_of_mem hmem))).bind ?_
  rintro _ _ rfl
  split_ifs with hwalked
  · refine .pure ⟨?_, ?_, rfl⟩
    · unfold owned
      rw [hsum, List.map_append, List.sum_append, List.map_singleton, List.sum_singleton]
      dsimp only
      ac_rfl
    · refine hinv.erased hi hdone hinv.nodup (fun a ha => ⟨ha, fun h => ?_⟩) (fun a ha => ?_) ?_
      · simp [h]
      · rw [List.map_append]
        exact List.mem_append_left _ ha
      · intro h
        have hnot := (hinv.running h).2 cell hmem
        exact absurd (hnot.symm.trans hwalked) nofun
  · refine (Triple.touch (server_mem_owned hphase)).bind ?_
    rintro _ _ rfl
    have hsplit : m.owned = block cell.buffer + ({cell.addr} +
        { m with
          server := { m.server with
            registry := hazeServerRemoveConnection m.server.registry cell.addr }
          conns := m.conns.eraseIdx i }.owned) := by
      unfold owned
      rw [hsum]
      unfold ConnCell.owned ServerCell.owned
      dsimp only
      ac_rfl
    refine (Triple.free.of_eq hsplit).bind ?_
    rintro _ _ rfl
    refine Triple.release.bind ?_
    rintro _ _ rfl
    have hperm := hazeServerRemoveConnection_perm m.server.registry cell.addr
    refine .pure ⟨rfl, hinv.erased hi hdone ?_ (fun a ha => ?_) (fun _ h => h)
      fun h => (hinv.running h).1, rfl⟩
    · exact hperm.nodup_iff.mpr (hinv.nodup.erase _)
    · obtain ⟨hne, ha⟩ := (hinv.nodup.mem_erase_iff).mp (hperm.mem_iff.mp ha)
      exact ⟨ha, fun h => absurd h hne⟩

end ServerMemory

end Haze
