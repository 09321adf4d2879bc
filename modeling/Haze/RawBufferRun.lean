import Haze.Collections.Heap
import Haze.Object
import Haze.Transition.Run

/-
  Raw buffers in memory: `RawBufferNew`, `RawBufferAppend`, `RawBufferSetData`,
  `RawBufferClear` and `RawBufferDup`.

  Each buffer points to a block of its own, and an access that leaves a block makes the
  memory undefined from then on. `RawBufferAppend` adds the length before it copies, so the
  copy starts behind the bytes it is for, at the end of the block. The buffers stand for the
  lists of bytes they are meant to hold along a run exactly when the run has no such call
  (`rawBuffers_refine_iff`).
-/

open Collections Msgpack Transition

namespace Haze

/-! ## Memory -/

/-- The blocks on the heap, and whether every access so far stayed inside a live one. -/
structure Memory where
  heap : Heap (Block UInt8)
  defined : Bool

namespace Memory

def malloc (m : Memory) (n : Nat) : Address × Memory :=
  let (a, heap) := m.heap.alloc (.fresh n)
  (a, { m with heap := heap })

/-- `free`, where `NULL` is no block. -/
def free (m : Memory) : Option Address → Memory
  | none => m
  | some a =>
    match m.heap.free a with
    | some heap => { m with heap := heap }
    | none => { m with defined := false }

/-- The block that is at an address. -/
def block (m : Memory) (data : Option Address) : Block UInt8 := (data.bind m.heap.read).getD []

/-- `realloc`: a new block with the bytes of the old one that fit, which is freed. Without a
size there is no new block. -/
def realloc (m : Memory) (data : Option Address) (n : Nat) : Option Address × Memory :=
  if n = 0 then (none, m.free data)
  else
    let old := m.block data
    let (a, heap) := m.heap.alloc (old.take n ++ .fresh (n - old.length))
    (some a, ({ m with heap := heap } : Memory).free data)

/-- `memcpy` and `memset` to an offset behind a pointer. -/
def write (m : Memory) (data : Option Address) (offset : Nat) (units : Block UInt8) : Memory :=
  match data.bind fun a => (m.heap.read a).bind fun block =>
      (block.store offset units).bind (m.heap.write a) with
  | some heap => { m with heap := heap }
  | none => { m with defined := false }

/-- The bytes that `memcpy` reads behind a pointer. -/
def load (m : Memory) (data : Option Address) (n : Nat) : Block UInt8 × Memory :=
  if n ≤ (m.block data).length then ((m.block data).take n, m)
  else ((m.block data).take n, { m with defined := false })

end Memory

/-! ## Buffers -/

/-- The fields of a `RawBuffer` in memory. -/
structure RawBufferCell where
  data : Option Address
  len : Nat

namespace RawBufferCell

/-- `RawBufferNew`, with the bytes it copies. -/
def new (m : Memory) : Option (Block UInt8) → RawBufferCell × Memory
  | some (b :: bs) =>
    let (a, m) := m.malloc (b :: bs).length
    ({ data := some a, len := (b :: bs).length }, m.write (some a) 0 (b :: bs))
  | _ => ({ data := none, len := 0 }, m)

def append (m : Memory) (bf : RawBufferCell) (data : Bytes) : Bool × RawBufferCell × Memory :=
  if bf.data = none ∨ data.length = 0 then (false, bf, m)
  else
    let (newData, m) := m.realloc bf.data (bf.len + data.length)
    let bf : RawBufferCell := { data := newData, len := bf.len + data.length }
    -- the offset is the length with the new bytes counted
    (true, bf, m.write bf.data bf.len (data.map some))

def setData (m : Memory) (b : RawBufferCell) (data : Bytes) : Bool × RawBufferCell × Memory :=
  let (newData, m) := m.realloc b.data data.length
  let m := if 0 < data.length then m.write newData 0 (data.map some) else m
  (true, { data := newData, len := data.length }, m)

def clear (m : Memory) (b : RawBufferCell) : Bool × Memory :=
  if b.data = none ∨ b.len = 0 then (false, m)
  else (true, m.write b.data 0 (List.replicate b.len (some 0)))

def dup (m : Memory) (bf : RawBufferCell) : RawBufferCell × Memory :=
  let (bytes, m) := m.load bf.data bf.len
  new m (bf.data.map fun _ => bytes)

end RawBufferCell

/-! ## Calls -/

/-- Bytes that are not none, in memory of the caller. -/
structure Chunk where
  bytes : Bytes
  nonempty : bytes ≠ []

/-- The calls on buffers, which are known by the order of their creation. -/
inductive BufferCall where
  | new (data : Chunk)
  | setData (b : Nat) (data : Chunk)
  | append (bf : Nat) (data : Chunk)
  | clear (b : Nat)
  | dup (bf : Nat)

def BufferCall.isAppend : BufferCall → Prop
  | .append _ _ => True
  | _ => False

/-- The memory, and the buffers in it. -/
structure BufferStore where
  memory : Memory
  buffers : List RawBufferCell

/-- What a call does to the buffers, if it is successful. -/
def BufferCall.onBuffers (s : BufferStore) : BufferCall → Option BufferStore
  | .new data =>
    let (cell, m) := RawBufferCell.new s.memory (some (data.bytes.map some))
    some { memory := m, buffers := s.buffers ++ [cell] }
  | .setData b data => do
    let cell ← s.buffers[b]?
    let (ok, cell, m) := cell.setData s.memory data.bytes
    if ok then some { memory := m, buffers := s.buffers.set b cell } else none
  | .append bf data => do
    let cell ← s.buffers[bf]?
    let (ok, cell, m) := cell.append s.memory data.bytes
    if ok then some { memory := m, buffers := s.buffers.set bf cell } else none
  | .clear b => do
    let cell ← s.buffers[b]?
    let (ok, m) := cell.clear s.memory
    if ok then some { s with memory := m } else none
  | .dup bf => do
    let cell ← s.buffers[bf]?
    let (copy, m) := cell.dup s.memory
    some { memory := m, buffers := s.buffers ++ [copy] }

/-- What a call means for the lists of bytes. -/
def BufferCall.onBytes (ls : List Bytes) : BufferCall → List Bytes
  | .new data => ls ++ [data.bytes]
  | .setData b data => ls.set b data.bytes
  | .append bf data => ls.modify bf (· ++ data.bytes)
  | .clear b => ls.modify b fun l => List.replicate l.length 0
  | .dup bf => ls ++ ls[bf]?.toList

/-- A successful call, on the buffers and on the lists. -/
def BufferStep (m : BufferStore × List Bytes) (call : BufferCall) (m' : BufferStore × List Bytes) :
    Prop :=
  call.onBuffers m.1 = some m'.1 ∧ m'.2 = call.onBytes m.2

/-! ## Buffers that stand for lists -/

/-- The buffer points to a block that holds just the bytes. -/
def HoldsBytes (heap : Heap (Block UInt8)) (cell : RawBufferCell) (l : Bytes) : Prop :=
  l ≠ [] ∧ cell.len = l.length ∧ ∃ a, cell.data = some a ∧ heap.read a = some (l.map some)

/-- Every access stayed inside its block, each buffer holds its list, and no two buffers have
one block. -/
structure BuffersHold (m : BufferStore × List Bytes) : Prop where
  defined : m.1.memory.defined = true
  buffers : List.Forall₂ (HoldsBytes m.1.memory.heap) m.1.buffers m.2
  separate : (m.1.buffers.map RawBufferCell.data).Nodup

/-- The blocks other than one stay as they are. -/
def KeepsOthers (own : Option Address) (heap heap' : Heap (Block UInt8)) : Prop :=
  ∀ a x, some a ≠ own → heap.read a = some x → heap'.read a = some x

/-! ## What the calls do to memory -/

section Memory

variable {m : Memory} {own : Option Address} {a : Address} {x y units : Block UInt8}
  {offset n : Nat}

theorem Memory.write_of_store (hread : m.heap.read a = some x)
    (hstore : x.store offset units = some y) :
    ∃ heap', m.write (some a) offset units = { m with heap := heap' } ∧ heap'.read a = some y ∧
      KeepsOthers (some a) m.heap heap' := by
  have hwrite := Heap.write_of_read hread y
  refine ⟨_, ?_, Heap.read_write_self hwrite, fun b z hne hb => ?_⟩
  · unfold write
    rw [Option.bind_some, hread, Option.bind_some, hstore, Option.bind_some, hwrite]
  · rw [Heap.read_write hwrite fun heq => hne (congrArg some heq)]
    exact hb

theorem Memory.write_outside (hread : m.heap.read a = some x)
    (hout : ¬offset + units.length ≤ x.length) :
    m.write (some a) offset units = { m with defined := false } := by
  unfold write
  rw [Option.bind_some, hread, Option.bind_some, Block.store_eq_none hout, Option.bind_none]

theorem Memory.block_of_read (hread : m.heap.read a = some x) : m.block (some a) = x := by
  unfold block
  rw [Option.bind_some, hread, Option.getD_some]

theorem Memory.free_eq {heap' : Heap (Block UInt8)} (hfree : m.heap.free a = some heap') :
    m.free (some a) = { m with heap := heap' } := by
  unfold free
  simp only
  rw [hfree]

theorem Memory.realloc_of_read (hread : m.heap.read a = some x) (hn : 0 < n) :
    ∃ heap', m.realloc (some a) n = (some m.heap.cells.length, { m with heap := heap' }) ∧
      heap'.read m.heap.cells.length = some (x.take n ++ Block.fresh (n - x.length)) ∧
      KeepsOthers (some a) m.heap heap' := by
  have hold := Heap.read_alloc hread (x.take n ++ Block.fresh (n - x.length))
  obtain ⟨heap', hfree⟩ := Option.isSome_iff_exists.mp
    (Option.isSome_of_eq_some (Heap.free_of_read hold))
  have hnew : m.heap.cells.length ≠ a := (Heap.ne_alloc hread x).symm
  refine ⟨heap', ?_, ?_, fun b z hne hb => ?_⟩
  · unfold realloc
    rw [if_neg (by omega), block_of_read hread]
    exact congrArg (Prod.mk _) (free_eq (m := { m with heap := (m.heap.alloc _).2 }) hfree)
  · rw [Heap.read_free hfree hnew]
    exact Heap.read_alloc_self m.heap _
  · rw [Heap.read_free hfree fun heq => hne (congrArg some heq)]
    exact Heap.read_alloc hb _

/-- A new buffer holds the bytes it was made of. -/
theorem RawBufferCell.new_holds (m : Memory) {l : Bytes} (hl : l ≠ []) :
    ∃ heap' cell, RawBufferCell.new m (some (l.map some)) = (cell, { m with heap := heap' }) ∧
      cell.data = some m.heap.cells.length ∧ HoldsBytes heap' cell l ∧
      ∀ a x, m.heap.read a = some x → heap'.read a = some x := by
  obtain ⟨b, bs, rfl⟩ := List.exists_cons_of_ne_nil hl
  have hread := Heap.read_alloc_self m.heap (.fresh (bs.map some).length.succ)
  have hstore : Block.store (.fresh (bs.map some).length.succ) 0 ((b :: bs).map some) = _ :=
    Block.store_all (by simp [Block.fresh])
  obtain ⟨heap', hwrite, hnew, hkeeps⟩ := Memory.write_of_store
    (m := { m with heap := (m.heap.alloc (.fresh (bs.map some).length.succ)).2 }) hread hstore
  refine ⟨heap', _, congrArg (Prod.mk _) hwrite, rfl, ⟨hl, by simp, _, rfl, hnew⟩, ?_⟩
  intro a x ha
  exact hkeeps a x (fun heq => Heap.ne_alloc ha _ (Option.some.inj heq)) (Heap.read_alloc ha _)

variable {cell : RawBufferCell} {l : Bytes}

/-- What `RawBufferSetData` leaves: a new block with the bytes. -/
theorem RawBufferCell.setData_holds (hread : m.heap.read a = some x) (hcell : cell.data = some a)
    {bytes : Bytes} (hbytes : bytes ≠ []) :
    ∃ heap' cell', cell.setData m bytes = (true, cell', { m with heap := heap' }) ∧
      cell'.data = some m.heap.cells.length ∧ HoldsBytes heap' cell' bytes ∧
      KeepsOthers (some a) m.heap heap' := by
  have hpos := List.length_pos_iff.mpr hbytes
  obtain ⟨heap', hrealloc, hnew, hkeeps⟩ := Memory.realloc_of_read hread hpos
  have hlen : (bytes.map some).length =
      (x.take bytes.length ++ Block.fresh (bytes.length - x.length)).length := by
    simp [Block.fresh]
    omega
  obtain ⟨heap'', hwrite, hnew', hkeeps'⟩ := Memory.write_of_store
    (m := { m with heap := heap' }) hnew (Block.store_all hlen)
  refine ⟨heap'', { data := some m.heap.cells.length, len := bytes.length }, ?_, rfl,
    ⟨hbytes, rfl, _, rfl, hnew'⟩, fun b z hne hb => ?_⟩
  · unfold setData
    rw [hcell, hrealloc]
    simp only
    rw [if_pos hpos, hwrite]
  · exact hkeeps' b z (fun heq => Heap.ne_alloc hb x (Option.some.inj heq)) (hkeeps b z hne hb)

/-- What `RawBufferClear` leaves: zeros in the block. -/
theorem RawBufferCell.clear_holds (h : HoldsBytes m.heap cell l) :
    ∃ heap', cell.clear m = (true, { m with heap := heap' }) ∧
      HoldsBytes heap' cell (List.replicate l.length 0) ∧ KeepsOthers cell.data m.heap heap' := by
  obtain ⟨hl, hlen, a, hdata, hread⟩ := h
  have hpos := List.length_pos_iff.mpr hl
  have hstore : Block.store (l.map some) 0 (List.replicate cell.len (some 0)) = _ :=
    Block.store_all (by rw [List.length_replicate, List.length_map, hlen])
  obtain ⟨heap', hwrite, hnew, hkeeps⟩ := Memory.write_of_store hread hstore
  refine ⟨heap', ?_, ⟨?_, ?_, a, hdata, ?_⟩, hdata ▸ hkeeps⟩
  · unfold clear
    rw [if_neg (by rw [hdata, hlen]; simpa using hpos.ne'), hdata, hwrite]
  · rw [ne_eq, List.replicate_eq_nil_iff]
    omega
  · rw [List.length_replicate, hlen]
  · rw [hnew, List.map_replicate, hlen]

/-- `RawBufferDup` makes a new buffer of the bytes. -/
theorem RawBufferCell.dup_eq (h : HoldsBytes m.heap cell l) :
    cell.dup m = new m (some (l.map some)) := by
  obtain ⟨-, hlen, a, hdata, hread⟩ := h
  have hblock := Memory.block_of_read hread
  have hload : m.load cell.data cell.len = (l.map some, m) := by
    unfold Memory.load
    rw [hdata, hblock, List.length_map, if_pos hlen.le, hlen, ← List.length_map (f := some),
      List.take_length]
  unfold dup
  rw [hload, hdata]
  rfl

/-- `RawBufferAppend` copies to the end of the block, so outside of it. -/
theorem RawBufferCell.append_outside (h : HoldsBytes m.heap cell l) {bytes : Bytes}
    (hbytes : bytes ≠ []) :
    ∃ cell' m', cell.append m bytes = (true, cell', m') ∧ m'.defined = false := by
  obtain ⟨-, hlen, a, hdata, hread⟩ := h
  have hpos := List.length_pos_iff.mpr hbytes
  obtain ⟨heap', hrealloc, hnew, -⟩ :=
    Memory.realloc_of_read hread (n := cell.len + bytes.length) (by omega)
  have hout : ¬cell.len + bytes.length + (bytes.map some).length ≤
      (((l.map some).take (cell.len + bytes.length)) ++
        Block.fresh (cell.len + bytes.length - (l.map some).length)).length := by
    simp [Block.fresh, hlen]
    omega
  refine ⟨{ data := some m.heap.cells.length, len := cell.len + bytes.length },
    { heap := heap', defined := false }, ?_, rfl⟩
  unfold append
  rw [if_neg (by rw [hdata]; simpa using hbytes), hdata, hrealloc]
  exact congrArg (fun m => (true, _, m))
    (Memory.write_outside (m := { m with heap := heap' }) hnew hout)

end Memory

/-! ## Runs -/

section Runs

variable {m m' : BufferStore × List Bytes} {b : Nat} {cell cell' : RawBufferCell} {l l' : Bytes}
  {heap' : Heap (Block UInt8)} {call : BufferCall}

/-- The block of a buffer is live. -/
theorem BuffersHold.live (h : BuffersHold m) {data : Option Address}
    (hdata : data ∈ m.1.buffers.map RawBufferCell.data) :
    ∃ a x, data = some a ∧ m.1.memory.heap.read a = some x := by
  obtain ⟨cell, hcell, rfl⟩ := List.mem_map.mp hdata
  obtain ⟨i, hi⟩ := List.mem_iff_getElem?.mp hcell
  obtain ⟨hnone, -⟩ | ⟨cell', l, hcell', -, -, -, a, hdata, hread⟩ := forall₂_at h.buffers i
  · rw [hi] at hnone
    cases hnone
  · obtain rfl := Option.some.inj (hi.symm.trans hcell')
    exact ⟨a, _, hdata, hread⟩

theorem BuffersHold.not_fresh (h : BuffersHold m) :
    some m.1.memory.heap.cells.length ∉ m.1.buffers.map RawBufferCell.data := by
  intro hmem
  obtain ⟨a, x, heq, hread⟩ := h.live hmem
  exact Heap.ne_alloc hread x (Option.some.inj heq).symm

/-- Buffers hold their lists as long as their blocks stay as they are. -/
theorem holdsBytes_keep {heap : Heap (Block UInt8)} {cells : List RawBufferCell} {ls : List Bytes}
    (h : List.Forall₂ (HoldsBytes heap) cells ls) {own : Option Address}
    (hown : own ∉ cells.map RawBufferCell.data) (hkeeps : KeepsOthers own heap heap') :
    List.Forall₂ (HoldsBytes heap') cells ls := by
  induction h with
  | nil => exact .nil
  | cons hhead _ ih =>
      rw [List.map_cons, List.mem_cons, not_or] at hown
      obtain ⟨hne, hlen, a, hdata, hread⟩ := hhead
      refine .cons ⟨hne, hlen, a, hdata, hkeeps a _ (fun heq => hown.1 ?_) hread⟩ (ih hown.2)
      rw [hdata, heq]

/-- A buffer more, with a new block. -/
theorem BuffersHold.push (h : BuffersHold m) (hholds : HoldsBytes heap' cell l)
    (hdata : cell.data = some m.1.memory.heap.cells.length)
    (hkeeps : ∀ a x, m.1.memory.heap.read a = some x → heap'.read a = some x) :
    BuffersHold ({ memory := { m.1.memory with heap := heap' }, buffers := m.1.buffers ++ [cell] },
      m.2 ++ [l]) := by
  refine ⟨h.defined, ?_, ?_⟩
  · have hnull : none ∉ m.1.buffers.map RawBufferCell.data := by
      intro hmem
      obtain ⟨a, x, heq, -⟩ := h.live hmem
      cases heq
    have hkept := holdsBytes_keep h.buffers hnull fun a x _ hread => hkeeps a x hread
    exact List.rel_append hkept (.cons hholds .nil)
  · show ((m.1.buffers ++ [cell]).map RawBufferCell.data).Nodup
    rw [List.map_append, List.map_singleton, hdata]
    exact List.nodup_append'.mpr ⟨h.separate, List.nodup_singleton _,
      List.disjoint_singleton.mpr h.not_fresh⟩

/-- Another list in the place of a buffer's, in its block or in a new one. -/
theorem BuffersHold.replace (h : BuffersHold m) (hb : m.1.buffers[b]? = some cell)
    (hholds : HoldsBytes heap' cell' l')
    (hdata : cell'.data = cell.data ∨ cell'.data = some m.1.memory.heap.cells.length)
    (hkeeps : KeepsOthers cell.data m.1.memory.heap heap') :
    BuffersHold ({ memory := { m.1.memory with heap := heap' }
                   buffers := m.1.buffers.set b cell' }, m.2.set b l') := by
  have hfresh := h.not_fresh
  have hseparate := h.separate
  obtain ⟨front, back, lfront, l, lback, hbuffers, hls, hlen, hlen', hfront, -, hback⟩ :=
    forall₂_split h.buffers hb
  rw [hbuffers, List.map_append, List.map_cons] at hfresh hseparate
  obtain ⟨hnot, hothers⟩ := List.nodup_middle.mp hseparate |> List.nodup_cons.mp
  rw [List.mem_append, not_or] at hnot
  refine ⟨h.defined, ?_, ?_⟩
  · show List.Forall₂ (HoldsBytes heap') (m.1.buffers.set b cell') (m.2.set b l')
    rw [hbuffers, hls, ← hlen, set_middle, hlen, ← hlen', set_middle]
    exact List.rel_append (holdsBytes_keep hfront hnot.1 hkeeps)
      (.cons hholds (holdsBytes_keep hback hnot.2 hkeeps))
  · show ((m.1.buffers.set b cell').map RawBufferCell.data).Nodup
    rw [hbuffers, ← hlen, set_middle, List.map_append, List.map_cons]
    refine List.nodup_middle.mpr (List.nodup_cons.mpr ⟨fun hmem => ?_, hothers⟩)
    rcases hdata with hold | hnew
    · rw [hold, List.mem_append] at hmem
      exact hmem.elim hnot.1 hnot.2
    · rw [hnew, List.mem_append] at hmem
      apply hfresh
      rw [List.mem_append, List.mem_cons]
      exact hmem.imp id .inr

/-- A call is made on a buffer that stands for a list. -/
theorem BuffersHold.at (h : BuffersHold m) (hb : m.1.buffers[b]? = some cell) :
    ∃ l, m.2[b]? = some l ∧ HoldsBytes m.1.memory.heap cell l := by
  obtain ⟨hnone, -⟩ | ⟨cell', l, hcell, hl, hholds⟩ := forall₂_at h.buffers b
  · rw [hb] at hnone
    cases hnone
  · obtain rfl := Option.some.inj (hb.symm.trans hcell)
    exact ⟨l, hl, hholds⟩

theorem modify_of_getElem? {ls : List Bytes} (hl : ls[b]? = some l) (f : Bytes → Bytes) :
    ls.modify b f = ls.set b (f l) := by
  rw [List.modify_eq_set_getElem?, hl]
  rfl

theorem bufferStep_of {s s' : BufferStore} (h : call.onBuffers s = some s') (ls : List Bytes) :
    BufferStep (s, ls) call (s', call.onBytes ls) := ⟨h, rfl⟩

/-- A call other than `RawBufferAppend` leaves buffers that hold their lists. -/
theorem bufferStep_holds (h : BuffersHold m) (hstep : BufferStep m call m')
    (hcall : ¬call.isAppend) : BuffersHold m' := by
  obtain ⟨s', ls'⟩ := m'
  obtain ⟨hbuffers, rfl⟩ := hstep
  cases call with
  | append b data => exact absurd trivial hcall
  | new data =>
      obtain ⟨heap', cell, hnew, hdata, hholds, hkeeps⟩ :=
        RawBufferCell.new_holds m.1.memory data.nonempty
      unfold BufferCall.onBuffers at hbuffers
      simp only [hnew] at hbuffers
      obtain rfl := Option.some.inj hbuffers
      exact h.push hholds hdata hkeeps
  | setData b data =>
      obtain ⟨cell, hb, hbuffers⟩ := Option.bind_eq_some_iff.mp hbuffers
      obtain ⟨l, hl, -, -, a, hcell, hread⟩ := h.at hb
      obtain ⟨heap', cell', hset, hdata, hholds, hkeeps⟩ :=
        RawBufferCell.setData_holds hread hcell data.nonempty
      rw [hset] at hbuffers
      obtain rfl := Option.some.inj hbuffers
      exact h.replace hb hholds (.inr hdata) (hcell ▸ hkeeps)
  | clear b =>
      obtain ⟨cell, hb, hbuffers⟩ := Option.bind_eq_some_iff.mp hbuffers
      obtain ⟨l, hl, hold⟩ := h.at hb
      obtain ⟨heap', hclear, hholds, hkeeps⟩ := RawBufferCell.clear_holds hold
      rw [hclear] at hbuffers
      obtain rfl := Option.some.inj hbuffers
      have hreplaced := h.replace hb hholds (.inl rfl) hkeeps
      rw [set_same hb] at hreplaced
      show BuffersHold (_, m.2.modify b fun l => List.replicate l.length 0)
      rw [modify_of_getElem? hl]
      exact hreplaced
  | dup b =>
      obtain ⟨cell, hb, hbuffers⟩ := Option.bind_eq_some_iff.mp hbuffers
      obtain ⟨l, hl, hold⟩ := h.at hb
      obtain ⟨heap', copy, hnew, hdata, hholds, hkeeps⟩ :=
        RawBufferCell.new_holds m.1.memory hold.1
      rw [RawBufferCell.dup_eq hold, hnew] at hbuffers
      obtain rfl := Option.some.inj hbuffers
      show BuffersHold (_, m.2 ++ m.2[b]?.toList)
      rw [hl]
      exact h.push hholds hdata hkeeps

/-- `RawBufferAppend` writes outside the block. -/
theorem bufferStep_append (h : BuffersHold m) (hstep : BufferStep m call m')
    (hcall : call.isAppend) : m'.1.memory.defined = false := by
  obtain ⟨s', ls'⟩ := m'
  obtain ⟨hbuffers, -⟩ := hstep
  cases call with
  | append b data =>
      obtain ⟨cell, hb, hbuffers⟩ := Option.bind_eq_some_iff.mp hbuffers
      obtain ⟨l, hl, hold⟩ := h.at hb
      obtain ⟨cell', m', happend, hdefined⟩ :=
        RawBufferCell.append_outside hold data.nonempty
      rw [happend] at hbuffers
      obtain rfl := Option.some.inj hbuffers
      exact hdefined
  | _ => exact absurd hcall id

theorem bufferStep_holds_iff (h : BuffersHold m) (hstep : BufferStep m call m') :
    BuffersHold m' ↔ ¬call.isAppend := by
  constructor
  · intro hholds hcall
    have houtside := bufferStep_append h hstep hcall
    rw [hholds.defined] at houtside
    cases houtside
  · exact bufferStep_holds h hstep

end Runs

/-- Before the first call. -/
def noBuffers : BufferStore × List Bytes :=
  ({ memory := { heap := { cells := [] }, defined := true }, buffers := [] }, [])

/-- In a run of successful calls every access is inside its block, and the buffers hold their
lists in blocks of their own, just when no call of the run is `RawBufferAppend`. -/
theorem rawBuffers_refine_iff {calls : List BufferCall} {m : BufferStore × List Bytes}
    (hrun : Run BufferStep noBuffers calls m) :
    (∀ front m', front <+: calls → Run BufferStep noBuffers front m' → BuffersHold m') ↔
      ∀ call ∈ calls, ¬call.isAppend := by
  have hstart : BuffersHold noBuffers := ⟨rfl, .nil, List.nodup_nil⟩
  refine hrun.always_iff hstart ?_
  intro m call m' hholds hstep
  exact bufferStep_holds_iff hholds hstep

/-- A buffer, a copy of it, and other bytes in the copy. -/
theorem rawBuffers_refine_iff_copy :
    ∃ m, Run BufferStep noBuffers
        [.new ⟨[1, 2], by decide⟩, .dup 0, .setData 1 ⟨[3], by decide⟩, .clear 0] m ∧
      ∀ front m', front <+: [.new ⟨[1, 2], by decide⟩, .dup 0, .setData 1 ⟨[3], by decide⟩,
        .clear 0] → Run BufferStep noBuffers front m' → BuffersHold m' := by
  obtain ⟨m, hrun⟩ : ∃ m, Run BufferStep noBuffers
      [.new ⟨[1, 2], by decide⟩, .dup 0, .setData 1 ⟨[3], by decide⟩, .clear 0] m :=
    ⟨_, .cons (bufferStep_of rfl _) (.cons (bufferStep_of rfl _)
      (.cons (bufferStep_of rfl _) (.cons (bufferStep_of rfl _) .nil)))⟩
  exact ⟨m, hrun, (rawBuffers_refine_iff hrun).mpr (by simp [BufferCall.isAppend])⟩

/-- A byte that is appended to one byte is written behind the two bytes of the new block. -/
theorem rawBuffers_append_outside :
    ¬∀ (calls : List BufferCall) (m : BufferStore × List Bytes),
      Run BufferStep noBuffers calls m → BuffersHold m := by
  intro hall
  have hholds := hall [.new ⟨[1], by decide⟩, .append 0 ⟨[2], by decide⟩] _
    (.cons (bufferStep_of rfl _) (.cons (bufferStep_of rfl _) .nil))
  exact absurd hholds.defined (by decide)

end Haze
