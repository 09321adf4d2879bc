import Haze.Collections.Slots
import Haze.ObjectMap

/-
  Map tables on the heap.

  The slots of a table point to pairs, and a pair points to its key and its value, each a copy
  of its own. A call is undefined (`none`) where the source would follow a pointer that is
  `NULL`, or one to what was freed. A table whose pairs are at different addresses (`TableAt`)
  is changed by a call as the list of its pairs is (`set_table`, `remove_table`), and nothing
  else on the heap changes; the pairs of a copy are at new addresses (`copy_table`).
-/

open Collections

namespace Haze

/-! ## Pairs and tables -/

/-- What is allocated: an `ObjectMap`, with its two pointers, or an `Object`. -/
inductive MapCell where
  | pair (key value : Address)
  | object (o : Object)

abbrev MapHeap := Heap MapCell

/-- `ObjectMapTable`: the slots that are allocated, and how many of them are in use. -/
abbrev MapTable := Slots

namespace MapTable

def create : MapTable := Slots.create objectMapInitialCapacity (Nat.zero_lt_succ _)

def readObject (heap : MapHeap) (a : Address) : Option Object :=
  match heap.read a with
  | some (.object o) => some o
  | _ => none

/-- The pair that a slot points to: where it is, and its pointers. -/
def follow (heap : MapHeap) (slot : Option Address) : Option (Address × Address × Address) :=
  match slot with
  | none => none
  | some a =>
    match heap.read a with
    | some (.pair key value) => some (a, key, value)
    | _ => none

/-- The loop over the slots that looks for a key. -/
def search (heap : MapHeap) (key : Object) : List (Option Address) → Option (Option Nat)
  | [] => some none
  | slot :: slots => do
    let (_, k, _) ← follow heap slot
    let o ← readObject heap k
    if objectEquals o key then return some 0
    else
      let i ← search heap key slots
      return i.map (· + 1)

/-- `ObjectMapCreate`. -/
def createPair (heap : MapHeap) (key value : Object) : Address × MapHeap :=
  let (k, heap) := heap.alloc (.object (objectCopy key))
  let (v, heap) := heap.alloc (.object (objectCopy value))
  heap.alloc (.pair k v)

/-- `ObjectMapFree`, of the pair of a slot. -/
def freePair (heap : MapHeap) (slot : Option Address) : Option MapHeap := do
  let (a, k, v) ← follow heap slot
  let heap ← heap.free k
  let heap ← heap.free v
  heap.free a

/-- `ObjectMapTableSet`, of the objects behind the two pointers. -/
def set (heap : MapHeap) (table : MapTable) (key value : Object) :
    Option (Bool × MapHeap × MapTable) := do
  match ← search heap key table.used with
  | some i =>
    let (a, k, v) ← follow heap table.slots[i]?.join
    let (new, heap) := heap.alloc (.object (objectCopy value))
    let heap ← heap.free v
    let heap ← heap.write a (.pair k new)
    return (true, heap, table)
  | none =>
    let (a, heap) := createPair heap key value
    return (true, heap, table.push a)

/-- `ObjectMapTableGet`: the pointer to the value. -/
def get (heap : MapHeap) (table : MapTable) (key : Object) : Option (Option Address) := do
  match ← search heap key table.used with
  | some i =>
    let (_, _, v) ← follow heap table.slots[i]?.join
    return some v
  | none => return none

def remove (heap : MapHeap) (table : MapTable) (key : Object) :
    Option (Bool × MapHeap × MapTable) := do
  match ← search heap key table.used with
  | some i =>
    let heap ← freePair heap table.slots[i]?.join
    return (true, heap, table.removeAt i)
  | none => return (false, heap, table)

/-- `ObjectMapTableFree`. -/
def free (heap : MapHeap) (table : MapTable) : Option MapHeap := table.used.foldlM freePair heap

/-- The loop of `ObjectMapTableCopy` over the slots that are left. -/
def copyLoop (heap : MapHeap) (dst : MapTable) :
    List (Option Address) → Option (MapHeap × Option MapTable)
  | [] => some (heap, some dst)
  | slot :: slots => do
    let (_, k, v) ← follow heap slot
    let key ← readObject heap k
    let value ← readObject heap v
    let (ok, heap, dst) ← set heap dst key value
    if ok then copyLoop heap dst slots
    else
      let heap ← free heap dst
      return (heap, none)

def copy (heap : MapHeap) (src : MapTable) : Option (MapHeap × Option MapTable) :=
  copyLoop heap create src.used

/-! ## Where the pairs are -/

/-- The addresses of a pair. -/
structure PairAt where
  pair : Address
  key : Address
  value : Address

def cells (layout : List PairAt) : List Address :=
  layout.flatMap fun l => [l.pair, l.key, l.value]

/-- The key and the value are found behind the pointers of the pair. -/
structure At (heap : MapHeap) (l : PairAt) (pair : Object × Object) : Prop where
  pointers : heap.read l.pair = some (.pair l.key l.value)
  key : heap.read l.key = some (.object pair.1)
  value : heap.read l.value = some (.object pair.2)

/-- The slots of the table point to the pairs of `t`, each at addresses of its own. -/
structure TableAt (heap : MapHeap) (table : MapTable) (layout : List PairAt)
    (t : ObjectMapTable) : Prop where
  slots : table.used = layout.map fun l => some l.pair
  pairs : List.Forall₂ (At heap) layout t.pairs
  once : (cells layout).Nodup
  capacity : table.capacity = t.capacity

/-- A table at `layout` comes to be at `layout'`: the rest of the heap is kept, and what the
table has more is new. -/
structure Moves (heap : MapHeap) (layout : List PairAt) (heap' : MapHeap)
    (layout' : List PairAt) : Prop where
  frame : ∀ a x, heap.read a = some x → a ∉ cells layout → heap'.read a = some x
  grows : heap.cells.length ≤ heap'.cells.length
  fresh : ∀ a ∈ cells layout', a ∈ cells layout ∨ heap.cells.length ≤ a

variable {heap heap' : MapHeap} {table : MapTable} {layout front back : List PairAt} {l : PairAt}
  {pairs pfront pback : List (Object × Object)} {pair : Object × Object} {t : ObjectMapTable}
  {key value : Object}

theorem cells_append (front back : List PairAt) :
    cells (front ++ back) = cells front ++ cells back :=
  List.flatMap_append

theorem cells_cons (l : PairAt) (back : List PairAt) :
    cells (l :: back) = [l.pair, l.key, l.value] ++ cells back := List.flatMap_cons

theorem At.mono (h : At heap l pair)
    (hkeep : ∀ a ∈ [l.pair, l.key, l.value], ∀ x, heap.read a = some x → heap'.read a = some x) :
    At heap' l pair where
  pointers := hkeep _ (by simp) _ h.pointers
  key := hkeep _ (by simp) _ h.key
  value := hkeep _ (by simp) _ h.value

/-- Pairs whose addresses keep what is there are found again. -/
theorem ats_mono (h : List.Forall₂ (At heap) layout pairs)
    (hkeep : ∀ a ∈ cells layout, ∀ x, heap.read a = some x → heap'.read a = some x) :
    List.Forall₂ (At heap') layout pairs := by
  induction h with
  | nil => exact .nil
  | @cons l pair layout pairs hat _ ih =>
      rw [cells_cons] at hkeep
      refine .cons (hat.mono fun a ha => hkeep a (List.mem_append_left _ ha)) ?_
      exact ih fun a ha => hkeep a (List.mem_append_right _ ha)

/-- What a table points to is allocated. -/
theorem live_of_mem (h : List.Forall₂ (At heap) layout pairs) {a : Address}
    (ha : a ∈ cells layout) : ∃ x, heap.read a = some x := by
  induction h with
  | nil => cases ha
  | @cons l pair layout pairs hat _ ih =>
      rw [cells_cons] at ha
      rcases List.mem_append.mp ha with ha | ha
      · simp only [List.mem_cons, List.not_mem_nil, or_false] at ha
        rcases ha with rfl | rfl | rfl
        · exact ⟨_, hat.pointers⟩
        · exact ⟨_, hat.key⟩
        · exact ⟨_, hat.value⟩
      · exact ih ha

theorem lt_of_mem (h : List.Forall₂ (At heap) layout pairs) {a : Address}
    (ha : a ∈ cells layout) : a < heap.cells.length := by
  obtain ⟨x, hread⟩ := live_of_mem h ha
  exact Heap.lt_of_read hread

theorem At.follow (h : At heap l pair) :
    MapTable.follow heap (some l.pair) = some (l.pair, l.key, l.value) := by
  unfold MapTable.follow
  simp only [h.pointers]

theorem At.readKey (h : At heap l pair) : readObject heap l.key = some pair.1 := by
  unfold readObject
  rw [h.key]

theorem At.readValue (h : At heap l pair) : readObject heap l.value = some pair.2 := by
  unfold readObject
  rw [h.value]

theorem TableAt.length (h : TableAt heap table layout t) : table.len = layout.length := by
  rw [← Slots.length_used, h.slots, List.length_map]

/-- The slot of a pair. -/
theorem TableAt.slot (h : TableAt heap table (front ++ l :: back) t) :
    table.slots[front.length]?.join = some l.pair := by
  have hlt : front.length < table.len := by
    rw [h.length, List.length_append, List.length_cons]
    omega
  rw [← Slots.getElem?_used hlt, h.slots, List.map_append, List.map_cons]
  simp

/-! ## The search -/

/-- No pair has the key, or there is a first one that has it. -/
theorem search_cases (h : List.Forall₂ (At heap) layout pairs) (key : Object) :
    (search heap key (layout.map fun l => some l.pair) = some none ∧
      ∀ pair ∈ pairs, objectEquals pair.1 key = false) ∨
    ∃ front l back pfront pair pback, layout = front ++ l :: back ∧
      pairs = pfront ++ pair :: pback ∧
      search heap key (layout.map fun l => some l.pair) = some (some front.length) ∧
      List.Forall₂ (At heap) front pfront ∧ At heap l pair ∧
      List.Forall₂ (At heap) back pback ∧ (∀ pair ∈ pfront, objectEquals pair.1 key = false) ∧
      objectEquals pair.1 key = true := by
  induction h with
  | nil => exact .inl ⟨rfl, nofun⟩
  | @cons l pair layout pairs hat hats ih =>
      have hstep : search heap key ((l :: layout).map fun l => some l.pair) =
          if objectEquals pair.1 key then some (some 0)
          else (search heap key (layout.map fun l => some l.pair)).map (·.map (· + 1)) := by
        rw [List.map_cons, search, hat.follow]
        simp only [Option.bind_eq_bind, Option.bind_some, hat.readKey]
        split_ifs
        · rfl
        · cases search heap key (layout.map fun l => some l.pair) <;> rfl
      rw [hstep]
      by_cases hequal : objectEquals pair.1 key
      · right
        refine ⟨[], l, layout, [], pair, pairs, rfl, rfl, ?_, .nil, hat, hats, nofun, hequal⟩
        rw [if_pos hequal]
        rfl
      rw [if_neg hequal]
      have hequal := eq_false_of_ne_true hequal
      rcases ih with ⟨hnone, hall⟩ |
        ⟨front, l', back, pfront, pair', pback, rfl, rfl, hsome, hfront, hat', hback, hall, hpair⟩
      · left
        rw [hnone]
        exact ⟨rfl, List.forall_mem_cons.mpr ⟨hequal, hall⟩⟩
      · right
        refine ⟨l :: front, l', back, pair :: pfront, pair', pback, rfl, rfl, ?_,
          .cons hat hfront, hat', hback, List.forall_mem_cons.mpr ⟨hequal, hall⟩, hpair⟩
        rw [hsome]
        rfl

/-- The value that is found is the one the list of pairs has. -/
theorem get_table (h : TableAt heap table layout t) (key : Object) :
    ∃ found, get heap table key = some found ∧
      match found with
      | none => objectMapTableGet t key = none
      | some v => ∃ o, readObject heap v = some o ∧ objectMapTableGet t key = some o := by
  unfold get objectMapTableGet
  rw [h.slots]
  rcases search_cases h.pairs key with ⟨hnone, hall⟩ | ⟨front, l, back, pfront, pair, pback, rfl,
    hpairs, hsome, -, hat, -, hall, hequal⟩
  · refine ⟨none, ?_, ?_⟩
    · rw [hnone]
      rfl
    · simp only [Option.map_eq_none_iff, List.find?_eq_none]
      intro pair hpair
      simp [hall pair hpair]
  · refine ⟨some l.value, ?_, pair.2, hat.readValue, ?_⟩
    · rw [hsome]
      simp only [Option.bind_eq_bind, Option.bind_some, h.slot, hat.follow]
      rfl
    · have hfront : pfront.find? (fun pair => objectEquals pair.1 key) = none := by
        rw [List.find?_eq_none]
        intro pair hpair
        simp [hall pair hpair]
      rw [hpairs, List.find?_append, hfront, List.find?_cons, hequal]
      rfl

/-! ## What moves, and what stays -/

section Moves

variable {mid mid' rest : List PairAt} {prest pmid : List (Object × Object)}

/-- What is beside a table stays. -/
theorem Moves.keeps (h : Moves heap mid heap' mid') (hrest : List.Forall₂ (At heap) rest prest)
    (hdisj : (cells mid).Disjoint (cells rest)) : List.Forall₂ (At heap') rest prest :=
  ats_mono hrest fun a ha x hread => h.frame a x hread fun hmem => hdisj hmem ha

theorem TableAt.keeps (h : TableAt heap table rest t) (hmoves : Moves heap mid heap' mid')
    (hdisj : (cells mid).Disjoint (cells rest)) : TableAt heap' table rest t :=
  ⟨h.slots, hmoves.keeps h.pairs hdisj, h.once, h.capacity⟩

theorem Moves.disjoint (h : Moves heap mid heap' mid')
    (hrest : List.Forall₂ (At heap) rest prest) (hdisj : (cells mid).Disjoint (cells rest)) :
    (cells mid').Disjoint (cells rest) := by
  intro a ha hmem
  rcases h.fresh a ha with hmid | hle
  · exact hdisj hmid hmem
  · exact absurd (lt_of_mem hrest hmem) (Nat.not_lt.mpr hle)

theorem Moves.widen (h : Moves heap mid heap' mid') (front back : List PairAt) :
    Moves heap (front ++ mid ++ back) heap' (front ++ mid' ++ back) where
  frame a x hread hnot := by
    refine h.frame a x hread fun hmem => hnot ?_
    rw [cells_append, cells_append]
    exact List.mem_append_left _ (List.mem_append_right _ hmem)
  grows := h.grows
  fresh a ha := by
    rw [cells_append, cells_append, List.mem_append, List.mem_append] at ha ⊢
    rcases ha with (hfront | hmid) | hback
    · exact .inl (.inl (.inl hfront))
    · exact (h.fresh a hmid).imp_left fun hmem => .inl (.inr hmem)
    · exact .inl (.inr hback)

/-- What is at different addresses is that piece by piece. -/
theorem cells_nodup_iff :
    (cells (front ++ mid ++ back)).Nodup ↔ (cells mid).Nodup ∧ (cells (front ++ back)).Nodup ∧
      (cells mid).Disjoint (cells front) ∧ (cells mid).Disjoint (cells back) := by
  have hperm : (cells (front ++ mid ++ back)).Perm (cells mid ++ cells (front ++ back)) := by
    simp only [cells_append]
    rw [← List.append_assoc]
    exact List.perm_append_comm.append_right _
  rw [hperm.nodup_iff, List.nodup_append', cells_append, List.disjoint_append_right]

/-- Some pairs of a table move, and the others stay. -/
theorem ats_change (hfront : List.Forall₂ (At heap) front pfront)
    (hback : List.Forall₂ (At heap) back pback) (honce : (cells (front ++ mid ++ back)).Nodup)
    (hmoves : Moves heap mid heap' mid') (hmid : List.Forall₂ (At heap') mid' pmid)
    (honce' : (cells mid').Nodup) :
    List.Forall₂ (At heap') (front ++ mid' ++ back) (pfront ++ pmid ++ pback) ∧
      (cells (front ++ mid' ++ back)).Nodup := by
  obtain ⟨-, hrest, hdfront, hdback⟩ := cells_nodup_iff.mp honce
  refine ⟨List.rel_append (List.rel_append (hmoves.keeps hfront hdfront) hmid)
    (hmoves.keeps hback hdback), cells_nodup_iff.mpr ⟨honce', hrest, ?_, ?_⟩⟩
  · exact hmoves.disjoint hfront hdfront
  · exact hmoves.disjoint hback hdback

end Moves

/-! ## Setting -/

theorem lookmap_split {α : Type} {p : α → Bool} {g : α → α} {front back : List α} {x : α}
    (hfront : ∀ y ∈ front, p y = false) (hx : p x = true) :
    ((front ++ x :: back).lookmap fun y => if p y then some (g y) else none) =
      front ++ g x :: back := by
  induction front with
  | nil => rw [List.nil_append, List.lookmap_cons, if_pos hx]; rfl
  | cons y front ih =>
      obtain ⟨hy, hfront⟩ := List.forall_mem_cons.mp hfront
      rw [List.cons_append, List.lookmap_cons, hy]
      exact congrArg (y :: ·) (ih hfront)

theorem has_of_split (hpairs : t.pairs = pfront ++ pair :: pback)
    (hequal : objectEquals pair.1 key = true) : t.has key = true :=
  List.any_eq_true.mpr ⟨pair, by rw [hpairs]; simp, hequal⟩

theorem not_has_of_forall (hall : ∀ pair ∈ t.pairs, objectEquals pair.1 key = false) :
    ¬t.has key = true := by
  intro hhas
  obtain ⟨pair, hpair, hequal⟩ := List.any_eq_true.mp hhas
  exact Bool.false_ne_true ((hall pair hpair).symm.trans hequal)

/-- The value of a pair is replaced by a new one. -/
theorem replace_value (hat : At heap l pair) (honce : [l.pair, l.key, l.value].Nodup)
    (o : Object) :
    ∃ heap₂ heap₃, (heap.alloc (.object o)).2.free l.value = some heap₂ ∧
      heap₂.write l.pair (.pair l.key heap.cells.length) = some heap₃ ∧
      At heap₃ ⟨l.pair, l.key, heap.cells.length⟩ (pair.1, o) ∧
      Moves heap [l] heap₃ [⟨l.pair, l.key, heap.cells.length⟩] := by
  simp only [List.nodup_cons, List.mem_cons, List.not_mem_nil, not_or, or_false, List.nodup_nil,
    and_true, not_false_eq_true] at honce
  obtain ⟨⟨hpk, hpv⟩, hkv⟩ := honce
  have hvalue := Heap.read_alloc hat.value (.object o)
  have hfree := Heap.free_of_read hvalue
  obtain ⟨heap₂, hheap₂⟩ : ∃ heap₂, (heap.alloc (.object o)).2.free l.value = some heap₂ :=
    ⟨_, hfree⟩
  have hpair : heap₂.read l.pair = some (.pair l.key l.value) :=
    (Heap.read_free hheap₂ hpv).trans (Heap.read_alloc hat.pointers _)
  obtain ⟨heap₃, hheap₃⟩ :
      ∃ heap₃, heap₂.write l.pair (.pair l.key heap.cells.length) = some heap₃ :=
    ⟨_, Heap.write_of_read hpair _⟩
  have hkeep : ∀ a x, (heap.alloc (.object o)).2.read a = some x → a ≠ l.pair → a ≠ l.value →
      heap₃.read a = some x := fun a x hread hap hav =>
    (Heap.read_write hheap₃ hap).trans ((Heap.read_free hheap₂ hav).trans hread)
  have hnew : ∀ b x, heap.read b = some x → heap.cells.length ≠ b := fun b x hread =>
    Nat.ne_of_gt (Heap.lt_of_read hread)
  refine ⟨heap₂, heap₃, hheap₂, hheap₃, ⟨Heap.read_write_self hheap₃, ?_, ?_⟩, ?_, ?_, ?_⟩
  · exact hkeep _ _ (Heap.read_alloc hat.key _) (Ne.symm hpk) hkv
  · exact hkeep _ _ (Heap.read_alloc_self heap (.object o)) (hnew _ _ hat.pointers)
      (hnew _ _ hat.value)
  · intro a x hread hnot
    simp only [cells, List.flatMap_singleton, List.mem_cons, List.not_mem_nil, not_or] at hnot
    exact hkeep a x (Heap.read_alloc hread _) hnot.1 hnot.2.2.1
  · rw [Heap.length_write hheap₃, Heap.length_free hheap₂, Heap.length_alloc]
    omega
  · intro a ha
    simp only [cells, List.flatMap_singleton, List.mem_cons, List.not_mem_nil, or_false] at ha ⊢
    rcases ha with rfl | rfl | rfl
    · exact .inl (.inl rfl)
    · exact .inl (.inr (.inl rfl))
    · exact .inr (Nat.le_refl _)

/-- `ObjectMapCreate` makes a pair at new addresses. -/
theorem createPair_at (heap : MapHeap) (key value : Object) :
    ∃ l, (createPair heap key value).1 = l.pair ∧ [l.pair, l.key, l.value].Nodup ∧
      At (createPair heap key value).2 l (objectCopy key, objectCopy value) ∧
      Moves heap [] (createPair heap key value).2 [l] := by
  obtain ⟨heap₁, hheap₁⟩ : ∃ h, h = (heap.alloc (.object (objectCopy key))).2 := ⟨_, rfl⟩
  obtain ⟨heap₂, hheap₂⟩ : ∃ h, h = (heap₁.alloc (.object (objectCopy value))).2 := ⟨_, rfl⟩
  have hcreate : createPair heap key value =
      heap₂.alloc (.pair heap.cells.length heap₁.cells.length) := by
    rw [hheap₂, hheap₁]
    rfl
  have hlen₁ : heap₁.cells.length = heap.cells.length + 1 := by rw [hheap₁, Heap.length_alloc]
  have hlen₂ : heap₂.cells.length = heap.cells.length + 2 := by
    rw [hheap₂, Heap.length_alloc, hlen₁]
  have hkeep : ∀ a x, heap.read a = some x → heap₂.read a = some x := fun a x hread => by
    rw [hheap₂, hheap₁]
    exact Heap.read_alloc (Heap.read_alloc hread _) _
  have hkey : heap₂.read heap.cells.length = some (.object (objectCopy key)) := by
    rw [hheap₂, hheap₁]
    exact Heap.read_alloc (Heap.read_alloc_self heap _) _
  have hvalue : heap₂.read heap₁.cells.length = some (.object (objectCopy value)) := by
    rw [hheap₂]
    exact Heap.read_alloc_self heap₁ _
  rw [hcreate]
  refine ⟨⟨heap₂.cells.length, heap.cells.length, heap₁.cells.length⟩, rfl, ?_, ⟨?_, ?_, ?_⟩,
    ⟨?_, ?_, ?_⟩⟩
  · simp [hlen₁, hlen₂]
  · exact Heap.read_alloc_self heap₂ _
  · exact Heap.read_alloc hkey _
  · exact Heap.read_alloc hvalue _
  · intro a x hread _
    exact Heap.read_alloc (hkeep a x hread) _
  · rw [Heap.length_alloc, hlen₂]
    omega
  · intro a ha
    simp only [cells, List.flatMap_singleton, List.mem_cons, List.not_mem_nil, or_false] at ha
    right
    rcases ha with rfl | rfl | rfl <;> omega

theorem set_table (h : TableAt heap table layout t) (key value : Object) :
    ∃ heap' table' layout', set heap table key value = some (true, heap', table') ∧
      TableAt heap' table' layout' (objectMapTableSet t key value).2 ∧
      Moves heap layout heap' layout' := by
  unfold set
  rw [h.slots]
  rcases search_cases h.pairs key with ⟨hnone, hall⟩ | ⟨front, l, back, pfront, pair, pback, rfl,
    hpairs, hsome, hfront, hat, hback, hall, hequal⟩
  · obtain ⟨l, haddr, honce, hat, hmoves⟩ := createPair_at heap key value
    have honce' : (cells [l]).Nodup := by simpa [cells] using honce
    obtain ⟨hats, hcells⟩ := ats_change h.pairs .nil (by simpa using h.once) hmoves
      (.cons hat .nil) honce'
    refine ⟨(createPair heap key value).2, table.push (createPair heap key value).1, layout ++ [l],
      by rw [hnone]; rfl, ⟨?_, ?_, by simpa using hcells, ?_⟩,
      by simpa using hmoves.widen layout []⟩
    · rw [Slots.used_push, h.slots, List.map_append, haddr]
      rfl
    · rw [objectMapTableSet, if_neg (not_has_of_forall hall)]
      simpa [objectMapCreate] using hats
    · rw [objectMapTableSet, if_neg (not_has_of_forall hall), Slots.capacity_push, h.length,
        h.capacity, h.pairs.length_eq]
  · have honce := h.once
    rw [cells_append, cells_cons] at honce
    have hl := (List.nodup_append'.mp (List.nodup_append'.mp honce).2.1).1
    obtain ⟨heap₂, heap₃, hfree, hwrite, hat', hmoves⟩ := replace_value hat hl (objectCopy value)
    have honce' : (cells [⟨l.pair, l.key, heap.cells.length⟩]).Nodup := by
      simp only [List.nodup_cons, List.mem_cons, List.not_mem_nil, not_or, or_false] at hl
      have hpair := Nat.ne_of_lt (Heap.lt_of_read hat.pointers)
      have hkey := Nat.ne_of_lt (Heap.lt_of_read hat.key)
      simp [cells, hl.1.1, hpair, hkey]
    obtain ⟨hats, hcells⟩ := ats_change hfront hback (by simpa using h.once) hmoves
      (.cons hat' .nil) honce'
    refine ⟨heap₃, table, front ++ [⟨l.pair, l.key, heap.cells.length⟩] ++ back, ?_,
      ⟨?_, ?_, hcells, ?_⟩, by simpa using hmoves.widen front back⟩
    · rw [hsome]
      simp only [Option.bind_eq_bind, Option.bind_some, h.slot, hat.follow]
      rw [hfree, Option.bind_some]
      exact Option.bind_eq_some_iff.mpr ⟨heap₃, hwrite, rfl⟩
    · rw [h.slots]
      simp
    · rw [objectMapTableSet, if_pos (has_of_split hpairs hequal)]
      simp only [hpairs]
      rw [lookmap_split (p := fun pair => objectEquals pair.1 key)
        (g := fun pair => (pair.1, objectCopy value)) hall hequal]
      simpa using hats
    · rw [objectMapTableSet, if_pos (has_of_split hpairs hequal)]
      exact h.capacity

/-! ## Removing -/

/-- The three blocks of a pair are freed. -/
theorem freePair_at (hat : At heap l pair) (honce : [l.pair, l.key, l.value].Nodup) :
    ∃ heap', freePair heap (some l.pair) = some heap' ∧ Moves heap [l] heap' [] := by
  simp only [List.nodup_cons, List.mem_cons, List.not_mem_nil, not_or, or_false, List.nodup_nil,
    and_true, not_false_eq_true] at honce
  obtain ⟨⟨hpk, hpv⟩, hkv⟩ := honce
  obtain ⟨heap₁, hheap₁⟩ : ∃ heap₁, heap.free l.key = some heap₁ := ⟨_, Heap.free_of_read hat.key⟩
  have hvalue := (Heap.read_free hheap₁ (Ne.symm hkv)).trans hat.value
  obtain ⟨heap₂, hheap₂⟩ : ∃ heap₂, heap₁.free l.value = some heap₂ :=
    ⟨_, Heap.free_of_read hvalue⟩
  have hpair := (Heap.read_free hheap₂ hpv).trans ((Heap.read_free hheap₁ hpk).trans hat.pointers)
  obtain ⟨heap₃, hheap₃⟩ : ∃ heap₃, heap₂.free l.pair = some heap₃ :=
    ⟨_, Heap.free_of_read hpair⟩
  refine ⟨heap₃, ?_, ?_, ?_, ?_⟩
  · unfold freePair
    simp only [hat.follow, Option.bind_eq_bind, Option.bind_some, hheap₁, hheap₂, hheap₃]
  · intro a x hread hnot
    simp only [cells, List.flatMap_singleton, List.mem_cons, List.not_mem_nil, not_or] at hnot
    obtain ⟨hp, hk, hv, -⟩ := hnot
    rw [Heap.read_free hheap₃ hp, Heap.read_free hheap₂ hv, Heap.read_free hheap₁ hk, hread]
  · rw [Heap.length_free hheap₃, Heap.length_free hheap₂, Heap.length_free hheap₁]
  · intro a ha
    cases ha

theorem capacity_objectMapTableRemove (t : ObjectMapTable) (key : Object) :
    (objectMapTableRemove t key).2.capacity = t.capacity := by
  unfold objectMapTableRemove
  split <;> rfl

theorem remove_table (h : TableAt heap table layout t) (key : Object) :
    ∃ heap' table' layout',
      remove heap table key = some ((objectMapTableRemove t key).1, heap', table') ∧
      TableAt heap' table' layout' (objectMapTableRemove t key).2 ∧
      Moves heap layout heap' layout' := by
  unfold remove
  rw [h.slots, objectMapTableRemove_fst]
  rcases search_cases h.pairs key with ⟨hnone, hall⟩ | ⟨front, l, back, pfront, pair, pback, rfl,
    hpairs, hsome, hfront, hat, hback, hall, hequal⟩
  · have hsame : (objectMapTableRemove t key).2.pairs = t.pairs := by
      rw [objectMapTableRemove_pairs]
      exact List.eraseP_of_forall_not fun pair hpair => by simp [hall pair hpair]
    refine ⟨heap, table, layout, ?_, ⟨h.slots, hsame ▸ h.pairs, h.once, ?_⟩,
      fun _ _ hread _ => hread, Nat.le_refl _, fun _ ha => .inl ha⟩
    · rw [hnone, eq_false_of_ne_true (not_has_of_forall hall)]
      rfl
    · rw [capacity_objectMapTableRemove, h.capacity]
  · have honce := h.once
    rw [cells_append, cells_cons] at honce
    obtain ⟨heap', hfree, hmoves⟩ := freePair_at hat
      (List.nodup_append'.mp (List.nodup_append'.mp honce).2.1).1
    obtain ⟨hats, hcells⟩ := ats_change hfront hback (by simpa using h.once) hmoves .nil
      List.nodup_nil
    have hlt : front.length < table.len := by
      rw [h.length, List.length_append, List.length_cons]
      omega
    refine ⟨heap', table.removeAt front.length, front ++ [] ++ back, ?_, ⟨?_, ?_, hcells, ?_⟩,
      by simpa using hmoves.widen front back⟩
    · rw [hsome, has_of_split hpairs hequal]
      simp only [Option.bind_eq_bind, Option.bind_some, h.slot]
      exact Option.bind_eq_some_iff.mpr ⟨heap', hfree, rfl⟩
    · rw [Slots.used_removeAt hlt, h.slots, List.eraseIdx_map]
      simp [List.eraseIdx_append_of_length_le]
    · rw [objectMapTableRemove_pairs, hpairs,
        List.eraseP_append_right _ fun pair hpair => by simp [hall pair hpair], List.eraseP_cons,
        hequal]
      simpa using hats
    · rw [Slots.capacity_removeAt, capacity_objectMapTableRemove, h.capacity]

/-! ## Copying -/

theorem create_table (heap : MapHeap) : TableAt heap create [] objectMapTableCreate where
  slots := rfl
  pairs := .nil
  once := List.nodup_nil
  capacity := rfl

/-- The pairs that are left are set in the new table, which has none of theirs. -/
theorem copyLoop_table {start : MapHeap} (h : List.Forall₂ (At start) layout pairs)
    {dst : MapTable} {made : List PairAt} (hmade : Moves start [] heap made)
    (hdst : TableAt heap dst made t) :
    ∃ heap' dst' layout', copyLoop heap dst (layout.map fun l => some l.pair) =
        some (heap', some dst') ∧
      TableAt heap' dst' layout'
        (pairs.foldl (fun dst pair => (objectMapTableSet dst pair.1 pair.2).2) t) ∧
      Moves start [] heap' layout' := by
  induction h generalizing heap dst made t with
  | nil => exact ⟨heap, dst, made, rfl, hdst, hmade⟩
  | @cons l pair layout pairs hat _ ih =>
      have hat' : At heap l pair := hat.mono fun a _ x hread => hmade.frame a x hread nofun
      obtain ⟨heap₁, dst₁, made₁, hset, hdst₁, hmoves⟩ := set_table hdst pair.1 pair.2
      have hmade₁ : Moves start [] heap₁ made₁ := by
        refine ⟨fun a x hread _ => ?_, hmade.grows.trans hmoves.grows, fun a ha => .inr ?_⟩
        · -- what was there before the copy is none of its pairs
          refine hmoves.frame a x (hmade.frame a x hread nofun) fun hmem => ?_
          have hle := (hmade.fresh a hmem).resolve_left nofun
          exact absurd (Heap.lt_of_read hread) (Nat.not_lt.mpr hle)
        · rcases hmoves.fresh a ha with hmem | hle
          · exact (hmade.fresh a hmem).resolve_left nofun
          · exact hmade.grows.trans hle
      obtain ⟨heap', dst', layout', hloop, htable, hmoves'⟩ := ih hmade₁ hdst₁
      refine ⟨heap', dst', layout', ?_, htable, hmoves'⟩
      rw [List.map_cons, copyLoop]
      simp only [hat'.follow, hat'.readKey, hat'.readValue, hset, Option.bind_eq_bind,
        Option.bind_some, if_true]
      exact hloop

theorem copy_table (h : TableAt heap table layout t) :
    ∃ heap' dst layout', copy heap table = some (heap', some dst) ∧
      TableAt heap' dst layout' (objectMapTableCopy t) ∧ Moves heap [] heap' layout' := by
  unfold copy
  rw [h.slots]
  have hnew : Moves heap [] heap [] :=
    ⟨fun _ _ hread _ => hread, Nat.le_refl _, fun _ ha => (List.not_mem_nil ha).elim⟩
  exact copyLoop_table h.pairs hnew (create_table heap)

end MapTable

end Haze
