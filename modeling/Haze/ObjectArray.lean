import Haze.Collections.Slots
import Haze.ObjectMapRun

/-
  Arrays of objects: `ObjectArrayAppend`, `ObjectArrayGet`, `ObjectArrayRemove`,
  `ObjectArrayCopy` and `ObjectArrayFree`.

  An array is a block of slots that point to objects on the heap, each its own copy. The
  calls are undefined (`none`) where the source would follow a pointer to an object that was
  freed. `ListStep` is what the calls are for: a list of contents for each array, and a copy
  is another list. In every run from no arrays no two slots in use point to one object, so
  each call is defined, has the result it has on the lists, and leaves every other array as
  it is (`arrayRun_refines`).
-/

open Collections Transition

namespace Haze

/-! ## Arrays -/

def objectArrayInitialCapacity : Nat := 8

/-- `ObjectArray`: the slots that are allocated, and how many of them are in use. -/
abbrev ObjectArray := Slots

namespace ObjectArray

def create : ObjectArray := Slots.create objectArrayInitialCapacity (by decide)

/-- `ObjectArrayAppend` of the object behind a pointer, `none` for `NULL`. The slot points to
a copy of it. -/
def append (heap : Heap Object) (array : ObjectArray) :
    Option Object → Bool × Heap Object × ObjectArray
  | none => (false, heap, array)
  | some obj =>
    let (copy, heap) := heap.alloc (objectCopy obj)
    (true, heap, array.push copy)

def get (array : ObjectArray) (index : Nat) : Option Address :=
  if array.len ≤ index then none else array.slots[index]?.join

/-- `ObjectFree` of the object a slot points to. -/
def freeSlot (heap : Heap Object) : Option Address → Option (Heap Object)
  | none => some heap
  | some a => heap.free a

def remove (heap : Heap Object) (array : ObjectArray) (index : Nat) :
    Option (Bool × Heap Object × ObjectArray) :=
  if array.len ≤ index then some (false, heap, array)
  else do
    let heap ← freeSlot heap array.slots[index]?.join
    return (true, heap, array.removeAt index)

/-- The object behind the pointer of a slot; it is undefined once it was freed. -/
def deref (heap : Heap Object) : Option Address → Option (Option Object)
  | none => some none
  | some a => (heap.read a).map some

/-- `ObjectArrayFree`. -/
def free (heap : Heap Object) (array : ObjectArray) : Option (Heap Object) :=
  array.used.foldlM freeSlot heap

/-- The loop of `ObjectArrayCopy` over the slots that are left. -/
def copyLoop (heap : Heap Object) (dst : ObjectArray) :
    List (Option Address) → Option (Heap Object × Option ObjectArray)
  | [] => some (heap, some dst)
  | slot :: slots => do
    let obj ← deref heap slot
    let (ok, heap, dst) := append heap dst obj
    if ok then copyLoop heap dst slots
    else
      let heap ← free heap dst
      return (heap, none)

def copy (heap : Heap Object) (src : ObjectArray) : Option (Heap Object × Option ObjectArray) :=
  copyLoop heap create src.used

/-! ## What the slots hold -/

/-- The slot points to an object that holds the content. -/
def Points (heap : Heap Object) (slot : Option Address) (content : Object) : Prop :=
  ∃ a o, slot = some a ∧ heap.read a = some o ∧ o.Holds content

/-- The slots point, in order, to objects that hold the contents. -/
def Stores (heap : Heap Object) (slots : List (Option Address)) (l : List Object) : Prop :=
  List.Forall₂ (Points heap) slots l

@[simp] theorem used_create : create.used = [] := rfl

variable {heap heap' : Heap Object} {array : ObjectArray} {slots : List (Option Address)}
  {l : List Object} {obj content : Object}

theorem Stores.alloc (h : Stores heap slots l) (obj : Object) :
    Stores (heap.alloc obj).2 slots l := by
  apply List.Forall₂.imp _ h
  intro slot content hpoints
  obtain ⟨a, o, hslot, hread, hholds⟩ := hpoints
  exact ⟨a, o, hslot, Heap.read_alloc hread obj, hholds⟩

theorem Stores.free {a : Address} (h : Stores heap slots l) (hfree : heap.free a = some heap')
    (hnot : some a ∉ slots) : Stores heap' slots l := by
  induction h with
  | nil => exact .nil
  | @cons slot content slots l hpoints htail ih =>
      rw [List.mem_cons, not_or] at hnot
      obtain ⟨hne, hnot⟩ := hnot
      refine .cons ?_ (ih hnot)
      obtain ⟨b, o, rfl, hread, hholds⟩ := hpoints
      have hother : b ≠ a := fun heq => hne (heq ▸ rfl)
      exact ⟨b, o, rfl, (Heap.read_free hfree hother).trans hread, hholds⟩

theorem deref_of_read {a : Address} (hread : heap.read a = some obj) :
    deref heap (some a) = some (some obj) := by
  show (heap.read a).map some = _
  rw [hread]
  rfl

/-- The slots in use after an object was appended. -/
theorem used_append (heap : Heap Object) (array : ObjectArray) (obj : Object) :
    (append heap array (some obj)).2.2.used =
      array.used ++ [some (heap.alloc (objectCopy obj)).1] :=
  Slots.used_push array _

/-- An array without room is grown, and the slots keep what they point to. -/
theorem append_stores (h : Stores heap array.used l) (hholds : obj.Holds content) :
    Stores (append heap array (some obj)).2.1 (append heap array (some obj)).2.2.used
      (l ++ [content]) := by
  rw [used_append]
  refine List.rel_append (h.alloc (objectCopy obj)) (.cons ?_ .nil)
  exact ⟨_, _, rfl, Heap.read_alloc_self heap (objectCopy obj), hholds.copy⟩

/-- The address in a slot in use. -/
theorem Stores.points (h : Stores heap array.used l) {i : Nat} (hi : i < array.len) :
    ∃ a o content, array.slots[i]? = some (some a) ∧ array.used[i]? = some (some a) ∧
      l[i]? = some content ∧ heap.read a = some o ∧ o.Holds content := by
  obtain ⟨hnone, -⟩ | ⟨slot, content, hslot, hcontent, a, o, rfl, hread, hholds⟩ := forall₂_at h i
  · rw [List.getElem?_eq_none_iff, Slots.length_used] at hnone
    exact absurd hi (Nat.not_lt.mpr hnone)
  · exact ⟨a, o, content, Slots.getElem?_used hi ▸ hslot, hslot, hcontent, hread, hholds⟩

theorem Stores.length_eq (h : Stores heap array.used l) : l.length = array.len := by
  rw [← Slots.length_used, List.Forall₂.length_eq h]

/-- Behind the end nothing is removed. -/
theorem remove_of_le {index : Nat} (hindex : array.len ≤ index) :
    remove heap array index = some (false, heap, array) := by
  unfold remove
  rw [if_pos hindex]

/-- Below the end the object is freed, and its slot goes. -/
theorem remove_of_lt (h : Stores heap array.used l) {index : Nat} (hindex : index < array.len) :
    ∃ a heap', array.used[index]? = some (some a) ∧ heap.free a = some heap' ∧
      remove heap array index = some (true, heap', array.removeAt index) := by
  obtain ⟨a, o, content, hslot, hused, -, hread, -⟩ := h.points hindex
  have hfree := Heap.free_of_read hread
  refine ⟨a, _, hused, hfree, ?_⟩
  unfold remove
  rw [if_neg (Nat.not_le.mpr hindex), hslot]
  show (heap.free a >>= _) = _
  rw [hfree]
  rfl

end ObjectArray

end Haze
