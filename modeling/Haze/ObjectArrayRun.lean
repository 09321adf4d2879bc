import Haze.ObjectArray

/-
  Runs of calls on arrays of objects.

  `ListStep` is what the calls are for: each array is the list of what its elements hold, and
  a copy is another list. `ArrayStep` is the calls as the source makes them, on arrays whose
  elements are objects of one heap. The invariant is `Stands`: the slots in use point to
  objects that hold the list, and no two of them point to one object. So every call of a run
  is defined, has the result it has on the lists, and leaves the other arrays as they are
  (`arrayRun_refines`).
-/

open Collections Transition

namespace Haze

open ObjectArray

/-! ## Calls -/

/-- The calls on arrays, which are known by the order of their creation; any other number is
a `NULL` array. The object that is appended is only read: it is what is behind the pointer,
`none` for `NULL`. -/
inductive ArrayCall where
  | create
  | append (array : Nat) (obj : Option ValueObject)
  | remove (array index : Nat)
  | get (array index : Nat)
  | len (array : Nat)
  | copy (array : Nat)

/-- The array a call may change. -/
def ArrayCall.target : ArrayCall → Option Nat
  | .append t _ => some t
  | .remove t _ => some t
  | _ => none

/-- What a call returns: a new array, a success, the object behind a pointer, or a length. -/
inductive ArrayResult where
  | array (t : Option Nat)
  | flag (ok : Bool)
  | object (obj : Option Object)
  | length (n : Nat)

/-- The arrays, and the heap with their elements. -/
structure ArrayStore where
  heap : Heap Object
  arrays : List ObjectArray

/-- What a call does to the arrays; `none` where it is undefined. -/
def ArrayCall.onArrays (s : ArrayStore) : ArrayCall → Option (ArrayResult × ArrayStore)
  | .create =>
    some (.array (some s.arrays.length), { s with arrays := s.arrays ++ [ObjectArray.create] })
  | .append t obj =>
    match s.arrays[t]? with
    | none => some (.flag false, s)
    | some array =>
      let (ok, heap, array) := ObjectArray.append s.heap array (obj.map ValueObject.object)
      some (.flag ok, { heap := heap, arrays := s.arrays.set t array })
  | .remove t index =>
    match s.arrays[t]? with
    | none => some (.flag false, s)
    | some array => do
      let (ok, heap, array) ← ObjectArray.remove s.heap array index
      return (.flag ok, { heap := heap, arrays := s.arrays.set t array })
  | .get t index => do
    let obj ← deref s.heap (s.arrays[t]?.bind (·.get index))
    return (.object obj, s)
  | .len t => some (.length (s.arrays[t]?.elim 0 Slots.len), s)
  | .copy t =>
    match s.arrays[t]? with
    | none => some (.array none, s)
    | some src => do
      let (heap, dst) ← ObjectArray.copy s.heap src
      match dst with
      | none => return (.array none, { s with heap := heap })
      | some dst =>
        return (.array (some s.arrays.length), { heap := heap, arrays := s.arrays ++ [dst] })

/-- What a call means for the lists. -/
def ArrayCall.onLists (ls : List (List Object)) : ArrayCall → ArrayResult × List (List Object)
  | .create => (.array (some ls.length), ls ++ [[]])
  | .append t obj =>
    match ls[t]?, obj with
    | some l, some obj => (.flag true, ls.set t (l ++ [obj.object.content]))
    | _, _ => (.flag false, ls)
  | .remove t index =>
    match ls[t]? with
    | none => (.flag false, ls)
    | some l =>
      if index < l.length then (.flag true, ls.set t (l.eraseIdx index)) else (.flag false, ls)
  | .get t index => (.object (ls[t]?.bind (·[index]?)), ls)
  | .len t => (.length (ls[t]?.elim 0 List.length), ls)
  | .copy t =>
    match ls[t]? with
    | none => (.array none, ls)
    | some l => (.array (some ls.length), ls ++ [l])

/-- A call on the arrays, with its result. -/
def ArrayStep (s : ArrayStore) (a : ArrayCall × ArrayResult) (s' : ArrayStore) : Prop :=
  a.1.onArrays s = some (a.2, s')

def ListStep (ls : List (List Object)) (a : ArrayCall × ArrayResult) (ls' : List (List Object)) :
    Prop :=
  a.1.onLists ls = (a.2, ls')

/-- The same call, with the same result; an object that is returned holds the content. -/
inductive AgreesOn : ArrayCall × ArrayResult → ArrayCall × ArrayResult → Prop where
  | array (call : ArrayCall) (t : Option Nat) : AgreesOn (call, .array t) (call, .array t)
  | flag (call : ArrayCall) (ok : Bool) : AgreesOn (call, .flag ok) (call, .flag ok)
  | object (call : ArrayCall) {got want : Option Object} :
      Option.Rel Object.Holds got want → AgreesOn (call, .object got) (call, .object want)
  | length (call : ArrayCall) (n : Nat) : AgreesOn (call, .length n) (call, .length n)

/-! ## The invariant -/

namespace ArrayStore

/-- The slots in use, of all the arrays. -/
def owned (s : ArrayStore) : List (Option Address) := s.arrays.flatMap Slots.used

/-- The elements of an array, as they are read through its slots. -/
def elements (s : ArrayStore) (t : Nat) : List (Option Object) :=
  (s.arrays[t]?.elim [] Slots.used).map fun slot => slot.bind s.heap.read

end ArrayStore

/-- The arrays stand for the lists, and each element has one owner. -/
structure Stands (s : ArrayStore) (ls : List (List Object)) : Prop where
  arrays : List.Forall₂ (fun array l => Stores s.heap array.used l) s.arrays ls
  separate : s.owned.Nodup

/-- What is live stays as it is. -/
def Extends (heap heap' : Heap Object) : Prop := ∀ a o, heap.read a = some o → heap'.read a = some o

/-- The slots point to addresses that were not allocated. -/
def Fresh (heap : Heap Object) (slots : List (Option Address)) : Prop :=
  ∀ slot ∈ slots, ∃ a, slot = some a ∧ heap.cells.length ≤ a

theorem Extends.stores {heap heap' : Heap Object} {slots : List (Option Address)} {l : List Object}
    (hext : Extends heap heap') (h : Stores heap slots l) : Stores heap' slots l := by
  apply List.Forall₂.imp _ h
  intro slot content hpoints
  obtain ⟨a, o, hslot, hread, hholds⟩ := hpoints
  exact ⟨a, o, hslot, hext a o hread, hholds⟩

theorem extends_alloc (heap : Heap Object) (obj : Object) : Extends heap (heap.alloc obj).2 := by
  intro a o hread
  exact Heap.read_alloc hread obj

/-- A copied array has the elements of its source, at fresh addresses. -/
theorem copyLoop_stores {heap : Heap Object} {slots : List (Option Address)} {l : List Object}
    (h : Stores heap slots l) {dst : ObjectArray} {ld : List Object}
    (hdst : Stores heap dst.used ld) :
    ∃ heap' dst' fresh, copyLoop heap dst slots = some (heap', some dst') ∧ Extends heap heap' ∧
      Stores heap' dst'.used (ld ++ l) ∧ dst'.used = dst.used ++ fresh ∧ fresh.Nodup ∧
      Fresh heap fresh := by
  induction slots generalizing heap dst l ld with
  | nil =>
      cases h with
      | nil =>
          refine ⟨heap, dst, [], rfl, fun _ _ hread => hread, ?_, ?_, List.nodup_nil, ?_⟩
          · rwa [List.append_nil]
          · rw [List.append_nil]
          · intro slot hslot
            cases hslot
  | cons slot slots ih =>
      cases h with
      | @cons _ content _ l hpoints htail =>
          obtain ⟨a, o, rfl, hread, hholds⟩ := hpoints
          have hext := extends_alloc heap (objectCopy o)
          obtain ⟨heap', dst', fresh, hloop, hext', hstores, hused, hnodup, hfresh⟩ :=
            ih (hext.stores htail) (append_stores hdst hholds)
          rw [used_append, List.append_assoc] at hused
          refine ⟨heap', dst', some heap.cells.length :: fresh, ?_, fun b p hb =>
            hext' b p (hext b p hb), ?_, hused, ?_, ?_⟩
          · rw [copyLoop, deref_of_read hread]
            exact hloop
          · rwa [List.append_cons]
          · -- what is allocated later is behind the first copy
            refine List.nodup_cons.mpr ⟨fun hmem => ?_, hnodup⟩
            obtain ⟨b, heq, hle⟩ := hfresh _ hmem
            obtain rfl := Option.some.inj heq
            have hlen : (heap.alloc (objectCopy o)).2.cells.length = heap.cells.length + 1 := by
              simp [Heap.alloc]
            have hle : (heap.alloc (objectCopy o)).2.cells.length ≤ heap.cells.length := hle
            omega
          · intro slot hslot
            rcases List.mem_cons.mp hslot with rfl | hslot
            · exact ⟨_, rfl, Nat.le_refl _⟩
            · obtain ⟨b, rfl, hle⟩ := hfresh slot hslot
              have hlen : (heap.alloc (objectCopy o)).2.cells.length = heap.cells.length + 1 := by
                simp [Heap.alloc]
              have hle : (heap.alloc (objectCopy o)).2.cells.length ≤ b := hle
              exact ⟨b, rfl, by omega⟩

section Invariant

variable {s s' : ArrayStore} {ls : List (List Object)}

/-- A slot in use points to a live object. -/
theorem Stands.live (h : Stands s ls) {slot : Option Address} (hslot : slot ∈ s.owned) :
    ∃ a o, slot = some a ∧ s.heap.read a = some o := by
  obtain ⟨array, harray, hslot⟩ := List.mem_flatMap.mp hslot
  obtain ⟨t, ht⟩ := List.mem_iff_getElem?.mp harray
  obtain ⟨i, hi⟩ := List.mem_iff_getElem?.mp hslot
  obtain ⟨hnone, -⟩ | ⟨array', l, harray', -, hstores⟩ := forall₂_at h.arrays t
  · rw [ht] at hnone
    cases hnone
  · obtain rfl := Option.some.inj (ht.symm.trans harray')
    obtain ⟨hnone, -⟩ | ⟨slot', content, hslot', -, a, o, rfl, hread, -⟩ := forall₂_at hstores i
    · rw [hi] at hnone
      cases hnone
    · exact ⟨a, o, Option.some.inj (hi.symm.trans hslot'), hread⟩

theorem Stands.nodup_append (h : Stands s ls) {fresh : List (Option Address)}
    (hnodup : fresh.Nodup) (hfresh : Fresh s.heap fresh) : (s.owned ++ fresh).Nodup := by
  refine List.nodup_append'.mpr ⟨h.separate, hnodup, ?_⟩
  intro slot hold hnew
  obtain ⟨a, o, rfl, hread⟩ := h.live hold
  obtain ⟨b, heq, hle⟩ := hfresh _ hnew
  obtain rfl := Option.some.inj heq
  exact absurd (Heap.lt_of_read hread) (Nat.not_lt.mpr hle)

/-- Two arrays share no element. -/
theorem Stands.unshared (h : Stands s ls) {t t' : Nat} (hne : t ≠ t') {array array' : ObjectArray}
    (ht : s.arrays[t]? = some array) (ht' : s.arrays[t']? = some array') {slot : Option Address}
    (hslot : slot ∈ array.used) : slot ∉ array'.used := by
  obtain ⟨-, hpairs⟩ := List.nodup_flatMap.mp h.separate
  obtain ⟨hlt, rfl⟩ := List.getElem?_eq_some_iff.mp ht
  obtain ⟨hlt', rfl⟩ := List.getElem?_eq_some_iff.mp ht'
  intro hslot'
  rcases Nat.lt_or_gt_of_ne hne with hbefore | hbehind
  · exact List.pairwise_iff_getElem.mp hpairs t t' hlt hlt' hbefore hslot hslot'
  · exact List.pairwise_iff_getElem.mp hpairs t' t hlt' hlt hbehind hslot' hslot

/-- Another array keeps its elements if their addresses keep what is there. -/
theorem elements_eq {t : Nat} (harray : s'.arrays[t]? = s.arrays[t]?)
    (hheap : ∀ array, s.arrays[t]? = some array → ∀ a, some a ∈ array.used →
      s'.heap.read a = s.heap.read a) : s'.elements t = s.elements t := by
  unfold ArrayStore.elements
  rw [harray]
  cases ht : s.arrays[t]? with
  | none => rfl
  | some array =>
      apply List.map_congr_left
      intro slot hslot
      cases slot with
      | none => rfl
      | some a => exact hheap array ht a hslot

theorem Stands.elements_extends (h : Stands s ls) {t : Nat}
    (harray : s'.arrays[t]? = s.arrays[t]?) (hext : Extends s.heap s'.heap) :
    s'.elements t = s.elements t := by
  apply elements_eq harray
  intro array ht a ha
  have howned : some a ∈ s.owned := List.mem_flatMap.mpr ⟨array, List.mem_of_getElem? ht, ha⟩
  obtain ⟨b, o, heq, hread⟩ := h.live howned
  obtain rfl := Option.some.inj heq
  rw [hread, hext _ _ hread]

/-- An array can be replaced by one that uses a slot more, to a fresh object. -/
theorem Stands.append (h : Stands s ls) {t : Nat} {array : ObjectArray}
    (ht : s.arrays[t]? = some array) (obj : Object) (noMap : obj.Everywhere Object.NoMap) :
    ∃ l, ls[t]? = some l ∧
      Stands
        { heap := (ObjectArray.append s.heap array (some obj)).2.1
          arrays := s.arrays.set t (ObjectArray.append s.heap array (some obj)).2.2 }
        (ls.set t (l ++ [obj.content])) := by
  obtain ⟨front, back, lfront, l, lback, harrays, rfl, hlen, hlen', hfront, hstores, hback⟩ :=
    forall₂_split h.arrays ht
  have hext := extends_alloc s.heap (objectCopy obj)
  have hfresh : Fresh s.heap [some (s.heap.alloc (objectCopy obj)).1] := by
    intro slot hslot
    rw [List.mem_singleton] at hslot
    exact ⟨_, hslot, Nat.le_refl _⟩
  refine ⟨l, by simp [← hlen'], ?_, ?_⟩
  · rw [harrays, ← hlen, set_middle, hlen, ← hlen', set_middle]
    refine List.rel_append (hfront.imp fun _ _ => hext.stores) (.cons ?_ (hback.imp fun _ _ =>
      hext.stores))
    exact append_stores hstores ⟨rfl, noMap⟩
  · have hnodup := h.nodup_append (List.nodup_singleton _) hfresh
    refine (List.Perm.nodup_iff ?_).mp hnodup
    unfold ArrayStore.owned
    rw [harrays, ← hlen, set_middle]
    simp only [List.flatMap_append, List.flatMap_cons, used_append]
    rw [List.perm_iff_count]
    intro slot
    simp only [List.count_append]
    omega

/-- Arrays without a slot to a freed object stay as they are. -/
theorem stores_free {heap heap' : Heap Object} {arrays : List ObjectArray}
    {ls : List (List Object)} (h : List.Forall₂ (fun array l => Stores heap array.used l) arrays ls)
    {a : Address} (hfree : heap.free a = some heap') (hnot : some a ∉ arrays.flatMap Slots.used) :
    List.Forall₂ (fun array l => Stores heap' array.used l) arrays ls := by
  induction h with
  | nil => exact .nil
  | cons hhead _ ih =>
      rw [List.flatMap_cons, List.mem_append, not_or] at hnot
      exact .cons (hhead.free hfree hnot.1) (ih hnot.2)

/-- An array can be replaced by one without a slot of it, once the object of the slot was
freed. -/
theorem Stands.remove (h : Stands s ls) {t : Nat} {array : ObjectArray}
    (ht : s.arrays[t]? = some array) {index : Nat} {a : Address} {heap' : Heap Object}
    (hslot : array.used[index]? = some (some a)) (hfree : s.heap.free a = some heap') :
    ∃ l, ls[t]? = some l ∧
      Stands { heap := heap', arrays := s.arrays.set t (array.removeAt index) }
        (ls.set t (l.eraseIdx index)) := by
  have hindex : index < array.len := by
    obtain ⟨hlt, -⟩ := List.getElem?_eq_some_iff.mp hslot
    rwa [Slots.length_used] at hlt
  obtain ⟨front, back, lfront, l, lback, harrays, rfl, hlen, hlen', hfront, hstores, hback⟩ :=
    forall₂_split h.arrays ht
  obtain ⟨us₁, us₂, ls₁, content, ls₂, hused, rfl, hus, hls, hfst, -, hsnd⟩ :=
    forall₂_split hstores hslot
  have herase : (array.removeAt index).used = us₁ ++ us₂ := by
    rw [Slots.used_removeAt hindex, hused, ← hus, List.eraseIdx_append_of_length_le (Nat.le_refl _),
      Nat.sub_self]
    rfl
  have hperm : s.owned.Perm (some a :: (front.flatMap Slots.used ++ ((us₁ ++ us₂) ++
      back.flatMap Slots.used))) := by
    unfold ArrayStore.owned
    rw [harrays, List.perm_iff_count]
    intro slot
    simp only [List.flatMap_append, List.flatMap_cons, hused, List.count_append, List.count_cons]
    omega
  -- the slot that goes was the only one of its address
  obtain ⟨hnot, hnodup⟩ := List.nodup_cons.mp (hperm.nodup_iff.mp h.separate)
  simp only [List.mem_append, not_or] at hnot
  obtain ⟨hnfront, ⟨hnfst, hnsnd⟩, hnback⟩ := hnot
  refine ⟨ls₁ ++ content :: ls₂, by simp [← hlen'], ?_, ?_⟩
  · rw [harrays, ← hlen, set_middle, hlen, ← hlen', set_middle]
    refine List.rel_append (stores_free hfront hfree hnfront)
      (.cons ?_ (stores_free hback hfree hnback))
    show Stores heap' (array.removeAt index).used _
    rw [herase, ← hls, List.eraseIdx_append_of_length_le (Nat.le_refl _), Nat.sub_self]
    exact List.rel_append (Stores.free hfst hfree hnfst) (Stores.free hsnd hfree hnsnd)
  · unfold ArrayStore.owned
    rw [harrays, ← hlen, set_middle]
    simp only [List.flatMap_append, List.flatMap_cons, herase]
    exact hnodup

/-- A copy of an array is an array more. -/
theorem Stands.copy (h : Stands s ls) {t : Nat} {src : ObjectArray}
    (ht : s.arrays[t]? = some src) :
    ∃ l heap' dst, ls[t]? = some l ∧
      ObjectArray.copy s.heap src = some (heap', some dst) ∧ Extends s.heap heap' ∧
      Stands { heap := heap', arrays := s.arrays ++ [dst] } (ls ++ [l]) := by
  obtain ⟨hnone, -⟩ | ⟨src', l, hsrc, hl, hstores⟩ := forall₂_at h.arrays t
  · rw [ht] at hnone
    cases hnone
  obtain rfl := Option.some.inj (ht.symm.trans hsrc)
  obtain ⟨heap', dst, fresh, hloop, hext, hdst, hused, hnodup, hfresh⟩ :=
    copyLoop_stores hstores (show Stores s.heap create.used [] from .nil)
  refine ⟨l, heap', dst, hl, hloop, hext, ?_, ?_⟩
  · refine List.rel_append (h.arrays.imp fun _ _ => hext.stores) (.cons ?_ .nil)
    exact hdst
  · unfold ArrayStore.owned
    rw [List.flatMap_append, List.flatMap_singleton, hused, used_create, List.nil_append]
    exact h.nodup_append hnodup hfresh

end Invariant

/-! ## Runs -/

section Simulation

variable {s s' : ArrayStore} {ls : List (List Object)}

/-- What a pointer from a slot leads to. -/
theorem Stands.get (h : Stands s ls) (t index : Nat) :
    ∃ got, deref s.heap (s.arrays[t]?.bind (·.get index)) = some got ∧
      Option.Rel Object.Holds got (ls[t]?.bind (·[index]?)) := by
  obtain ⟨harray, hl⟩ | ⟨array, l, harray, hl, hstores⟩ := forall₂_at h.arrays t
  · rw [harray, hl]
    exact ⟨none, rfl, .none⟩
  rw [harray, hl, Option.bind_some, Option.bind_some]
  by_cases hindex : index < array.len
  · obtain ⟨a, o, content, hslot, -, hcontent, hread, hholds⟩ := hstores.points hindex
    refine ⟨some o, ?_, hcontent ▸ .some hholds⟩
    unfold ObjectArray.get
    rw [if_neg (Nat.not_le.mpr hindex), hslot]
    exact deref_of_read hread
  · have hle := Nat.not_lt.mp hindex
    refine ⟨none, ?_, ?_⟩
    · unfold ObjectArray.get
      rw [if_pos hle]
      rfl
    · rw [List.getElem?_eq_none (hstores.length_eq ▸ hle)]
      exact .none

/-- The store with an array put where it is. -/
theorem ArrayStore.set_same {t : Nat} {array : ObjectArray} (ht : s.arrays[t]? = some array) :
    { s with arrays := s.arrays.set t array } = s := by
  rw [Collections.set_same ht]

/-- The object of a slot of one array is none of another array. -/
theorem Stands.elements_free (h : Stands s ls) {t t' index : Nat} {array array' : ObjectArray}
    (ht : s.arrays[t]? = some array) {a : Address} {heap' : Heap Object}
    (hslot : array.used[index]? = some (some a)) (hfree : s.heap.free a = some heap')
    (hne : t ≠ t') :
    ArrayStore.elements { heap := heap', arrays := s.arrays.set t array' } t' = s.elements t' := by
  refine elements_eq (List.getElem?_set_ne hne) fun other hother b hb => ?_
  refine Heap.read_free hfree fun heq => ?_
  rw [heq] at hb
  exact h.unshared hne ht hother (List.mem_of_getElem? hslot) hb

/-- A call is defined, has on the arrays the result it has on the lists, leaves arrays that
stand for the lists again, and changes only the array it is made on. -/
def ArrayStore.Carries (s : ArrayStore) (ls : List (List Object)) (call : ArrayCall) : Prop :=
  ∃ result s', call.onArrays s = some (result, s') ∧
    AgreesOn (call, result) (call, (call.onLists ls).1) ∧ Stands s' (call.onLists ls).2 ∧
    ∀ t < s.arrays.length, call.target ≠ some t → s'.elements t = s.elements t

theorem Stands.create_carries (h : Stands s ls) : s.Carries ls .create := by
  refine ⟨_, _, rfl, ?_, ⟨List.rel_append h.arrays (.cons .nil .nil), ?_⟩, ?_⟩
  · simp only [ArrayCall.onLists, h.arrays.length_eq]
    exact .array _ _
  · unfold ArrayStore.owned
    rw [List.flatMap_append, List.flatMap_singleton, used_create, List.append_nil]
    exact h.separate
  · intro t ht _
    exact h.elements_extends (List.getElem?_append_left ht) fun _ _ hread => hread

theorem Stands.append_carries (h : Stands s ls) (t : Nat) (obj : Option ValueObject) :
    s.Carries ls (.append t obj) := by
  unfold ArrayStore.Carries
  simp only [ArrayCall.onArrays, ArrayCall.onLists, ArrayCall.target]
  obtain ⟨harray, hl⟩ | ⟨array, l, harray, hl, -⟩ := forall₂_at h.arrays t
  · rw [harray, hl]
    exact ⟨_, _, rfl, .flag _ _, h, fun _ _ _ => rfl⟩
  rw [harray, hl]
  cases obj with
  | none =>
      refine ⟨_, s, ?_, .flag _ _, h, fun _ _ _ => rfl⟩
      exact congrArg (fun s' => some (_, s')) (ArrayStore.set_same harray)
  | some obj =>
      obtain ⟨l', hl', hstands⟩ := h.append harray obj.object obj.noMap
      obtain rfl := Option.some.inj (hl.symm.trans hl')
      refine ⟨_, _, rfl, .flag _ _, hstands, fun t' _ hne => ?_⟩
      exact h.elements_extends (List.getElem?_set_ne fun heq => hne (congrArg some heq))
        (extends_alloc s.heap (objectCopy obj.object))

theorem Stands.remove_carries (h : Stands s ls) (t index : Nat) :
    s.Carries ls (.remove t index) := by
  unfold ArrayStore.Carries
  simp only [ArrayCall.onArrays, ArrayCall.onLists, ArrayCall.target]
  obtain ⟨harray, hl⟩ | ⟨array, l, harray, hl, hstores⟩ := forall₂_at h.arrays t
  · rw [harray, hl]
    exact ⟨_, _, rfl, .flag _ _, h, fun _ _ _ => rfl⟩
  rw [harray, hl]
  simp only [hstores.length_eq]
  by_cases hindex : index < array.len
  · obtain ⟨a, heap', hslot, hfree, hremove⟩ := remove_of_lt hstores hindex
    obtain ⟨l', hl', hstands⟩ := h.remove harray hslot hfree
    obtain rfl := Option.some.inj (hl.symm.trans hl')
    rw [hremove, if_pos hindex]
    refine ⟨_, _, rfl, .flag _ _, hstands, fun t' _ hne => ?_⟩
    exact h.elements_free harray hslot hfree fun heq => hne (congrArg some heq)
  · rw [remove_of_le (Nat.not_lt.mp hindex), if_neg hindex]
    refine ⟨_, s, ?_, .flag _ _, h, fun _ _ _ => rfl⟩
    exact congrArg (fun s' => some (_, s')) (ArrayStore.set_same harray)

theorem Stands.get_carries (h : Stands s ls) (t index : Nat) : s.Carries ls (.get t index) := by
  obtain ⟨got, hget, hrel⟩ := h.get t index
  refine ⟨.object got, s, ?_, .object _ hrel, h, fun _ _ _ => rfl⟩
  show (deref s.heap _ >>= _) = _
  rw [hget]
  rfl

theorem Stands.len_carries (h : Stands s ls) (t : Nat) : s.Carries ls (.len t) := by
  refine ⟨_, s, rfl, ?_, h, fun _ _ _ => rfl⟩
  simp only [ArrayCall.onLists]
  obtain ⟨harray, hl⟩ | ⟨array, l, harray, hl, hstores⟩ := forall₂_at h.arrays t
  · rw [harray, hl]
    exact .length _ _
  · rw [harray, hl, Option.elim_some, Option.elim_some, hstores.length_eq]
    exact .length _ _

theorem Stands.copy_carries (h : Stands s ls) (t : Nat) : s.Carries ls (.copy t) := by
  have hlen : s.arrays.length = ls.length := h.arrays.length_eq
  unfold ArrayStore.Carries
  simp only [ArrayCall.onArrays, ArrayCall.onLists, hlen]
  obtain ⟨harray, hl⟩ | ⟨array, l, harray, hl, -⟩ := forall₂_at h.arrays t
  · rw [harray, hl]
    exact ⟨_, _, rfl, .array _ _, h, fun _ _ _ => rfl⟩
  obtain ⟨l', heap', dst, hl', hcopy, hext, hstands⟩ := h.copy harray
  obtain rfl := Option.some.inj (hl.symm.trans hl')
  rw [harray, hl]
  simp only
  rw [hcopy]
  refine ⟨_, _, rfl, .array _ _, hstands, fun t' ht' _ => ?_⟩
  exact h.elements_extends (List.getElem?_append_left (hlen ▸ ht')) hext

theorem Stands.onArrays_carries (h : Stands s ls) (call : ArrayCall) : s.Carries ls call := by
  cases call with
  | create => exact h.create_carries
  | append t obj => exact h.append_carries t obj
  | remove t index => exact h.remove_carries t index
  | get t index => exact h.get_carries t index
  | len t => exact h.len_carries t
  | copy t => exact h.copy_carries t

theorem arrayStep_refines {a : ArrayCall × ArrayResult} (h : Stands s ls)
    (hstep : ArrayStep s a s') : ∃ b ls', ListStep ls b ls' ∧ AgreesOn a b ∧ Stands s' ls' := by
  obtain ⟨call, result⟩ := a
  obtain ⟨result', s'', hcall, hagrees, hnext, -⟩ := h.onArrays_carries call
  obtain ⟨rfl, rfl⟩ := Prod.mk.inj (Option.some.inj (hcall.symm.trans hstep))
  exact ⟨(call, (call.onLists ls).1), (call.onLists ls).2, rfl, hagrees, hnext⟩

/-- A run of calls on arrays, from none, has the results of the run of the same calls on
lists, and its arrays hold the lists within their capacity. Then every call is defined, and it
changes no other array than the one it is made on. -/
theorem arrayRun_refines {log : List (ArrayCall × ArrayResult)}
    (hrun : Run ArrayStep { heap := { cells := [] }, arrays := [] } log s) :
    ∃ log' ls, Run ListStep [] log' ls ∧ List.Forall₂ AgreesOn log log' ∧
      List.Forall₂ (fun array l => Stores s.heap array.used l ∧ array.len = l.length ∧
        array.len ≤ array.capacity) s.arrays ls ∧
      ∀ call : ArrayCall, ∃ result s', ArrayStep s (call, result) s' ∧
        AgreesOn (call, result) (call, (call.onLists ls).1) ∧
        ∀ t < s.arrays.length, call.target ≠ some t → s'.elements t = s.elements t := by
  obtain ⟨log', ls, hrun', hlog, hstands⟩ :=
    hrun.simulated (R := Stands) (A := AgreesOn) (t := []) ⟨.nil, List.nodup_nil⟩
      fun m a m' n hstands hstep => arrayStep_refines hstands hstep
  refine ⟨log', ls, hrun', hlog, ?_, fun call => ?_⟩
  · apply hstands.arrays.imp
    intro array l hstores
    exact ⟨hstores, hstores.length_eq.symm, array.fits⟩
  · obtain ⟨result, s', hcall, hagrees, -, hframe⟩ := hstands.onArrays_carries call
    exact ⟨result, s', hcall, hagrees, hframe⟩

end Simulation

/-- An array with the element 1, a copy of it, and the removal of the element. -/
theorem arrayRun_refines_copy :
    ∃ s, Run ArrayStep { heap := { cells := [] }, arrays := [] }
        [(.create, .array (some 0)),
          (.append 0 (some ⟨.int 1, .leaf trivial rfl⟩), .flag true),
          (.copy 0, .array (some 1)), (.remove 0 0, .flag true)] s ∧
      ∃ log' ls, Run ListStep [] log' ls ∧ List.Forall₂ AgreesOn
        [(.create, .array (some 0)),
          (.append 0 (some ⟨.int 1, .leaf trivial rfl⟩), .flag true),
          (.copy 0, .array (some 1)), (.remove 0 0, .flag true)] log' ∧
      List.Forall₂ (fun array l => Stores s.heap array.used l ∧ array.len = l.length ∧
        array.len ≤ array.capacity) s.arrays ls ∧
      ∀ call : ArrayCall, ∃ result s', ArrayStep s (call, result) s' ∧
        AgreesOn (call, result) (call, (call.onLists ls).1) ∧
        ∀ t < s.arrays.length, call.target ≠ some t → s'.elements t = s.elements t := by
  obtain ⟨s, hrun⟩ : ∃ s, Run ArrayStep { heap := { cells := [] }, arrays := [] }
      [(.create, .array (some 0)),
        (.append 0 (some ⟨.int 1, .leaf trivial rfl⟩), .flag true),
        (.copy 0, .array (some 1)), (.remove 0 0, .flag true)] s :=
    ⟨_, .cons rfl (.cons rfl (.cons rfl (.cons rfl .nil)))⟩
  exact ⟨s, hrun, arrayRun_refines hrun⟩

end Haze
