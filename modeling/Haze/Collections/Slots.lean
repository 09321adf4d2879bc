import Haze.Collections.Heap
import Haze.Collections.Removal

/-
  Vectors of pointers.

  A vector has slots, and the first `len` of them are in use. A pointer is pushed behind them,
  into twice as many slots if there is no room (`used_push`); one is removed by moving those
  behind it down (`used_removeAt`).
-/

namespace Collections

/-- The slots that are allocated, and how many of them are in use. A slot is `none` before it
is written, and where it is null. -/
structure Slots where
  slots : List (Option Address)
  len : Nat
  fits : len ≤ slots.length
  hasRoom : 0 < slots.length

namespace Slots

def capacity (v : Slots) : Nat := v.slots.length

/-- The slots in use. -/
def used (v : Slots) : List (Option Address) := v.slots.take v.len

def create (n : Nat) (hn : 0 < n) : Slots where
  slots := List.replicate n none
  len := 0
  fits := Nat.zero_le _
  hasRoom := by rwa [List.length_replicate]

/-- The slots after a `realloc` to twice the capacity, if they are all in use. -/
def grown (v : Slots) : List (Option Address) :=
  if v.capacity ≤ v.len then v.slots ++ List.replicate v.capacity none else v.slots

theorem len_lt_grown (v : Slots) : v.len < v.grown.length := by
  have hfits := v.fits
  have hroom := v.hasRoom
  unfold grown capacity
  split_ifs with hfull
  · rw [List.length_append, List.length_replicate]
    omega
  · exact Nat.lt_of_not_le hfull

def push (v : Slots) (a : Address) : Slots where
  slots := v.grown.set v.len (some a)
  len := v.len + 1
  fits := by
    rw [List.length_set]
    exact v.len_lt_grown
  hasRoom := by
    rw [List.length_set]
    exact Nat.zero_lt_of_lt v.len_lt_grown

/-- The slot is set to null, those behind it move down, and the last one is cleared. -/
def removeAt (v : Slots) (i : Nat) : Slots where
  slots := (shiftDown (v.slots.set i none) i (v.len - 1 - i)).set (v.len - 1) none
  len := v.len - 1
  fits := by
    have hfits := v.fits
    rw [List.length_set, length_shiftDown, List.length_set]
    omega
  hasRoom := by
    rw [List.length_set, length_shiftDown, List.length_set]
    exact v.hasRoom

variable {v : Slots}

@[simp] theorem used_create {n : Nat} (hn : 0 < n) : (create n hn).used = [] := rfl

theorem length_used (v : Slots) : v.used.length = v.len := by
  unfold used
  rw [List.length_take, Nat.min_eq_left v.fits]

/-- What is below the end is in use. -/
theorem getElem?_used {i : Nat} (hi : i < v.len) : v.used[i]? = v.slots[i]? := by
  unfold used
  rw [List.getElem?_take, if_pos hi]

theorem used_push (v : Slots) (a : Address) : (v.push a).used = v.used ++ [some a] := by
  have hlt := v.len_lt_grown
  have hgrown : v.grown.take v.len = v.used := by
    unfold grown used
    split_ifs
    · exact List.take_append_of_le_length v.fits
    · rfl
  show (v.grown.set v.len _).take (v.len + 1) = _
  rw [List.take_succ_eq_append_getElem (by rwa [List.length_set]), List.getElem_set_self,
    List.take_set_of_le (Nat.le_refl _), hgrown]

theorem capacity_push (v : Slots) (a : Address) :
    (v.push a).capacity = if v.capacity ≤ v.len then v.capacity * 2 else v.capacity := by
  show (v.grown.set v.len _).length = _
  rw [List.length_set]
  unfold grown
  split_ifs
  · rw [List.length_append, List.length_replicate, Nat.mul_two]
    rfl
  · rfl

theorem used_removeAt {i : Nat} (hi : i < v.len) : (v.removeAt i).used = v.used.eraseIdx i := by
  have hfits : v.len ≤ (v.slots.set i none).length := by
    rw [List.length_set]
    exact v.fits
  unfold used removeAt
  rw [List.take_set_of_le (Nat.le_refl _), take_shiftDown hi hfits, List.take_set,
    List.eraseIdx_set_eq]

theorem capacity_removeAt (v : Slots) (i : Nat) : (v.removeAt i).capacity = v.capacity := by
  show (_ : List _).length = _
  rw [removeAt, List.length_set, length_shiftDown, List.length_set]
  rfl

end Slots

end Collections
