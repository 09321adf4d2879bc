import Mathlib.Data.List.Forall2
import Mathlib.Data.List.Nodup

/-
  A heap of cells, blocks of memory, and lists that are related index by index.

  An address is the number of allocations before its own, so an allocation is fresh
  (`Heap.ne_alloc`); a cell that was freed is not read again. What is live stays as it is
  behind an allocation (`Heap.read_alloc`) and behind the freeing or the writing of another
  cell (`Heap.read_free`, `Heap.read_write`). A block of memory has units that were not
  written yet, and `Block.store_append` is what it holds behind a write. `forall₂_split` takes
  the elements at one index out of two related lists, so that one of them can be replaced.
-/

namespace Collections

variable {α β : Type}

/-! ## Heaps -/

abbrev Address := Nat

/-- The cells in the order of their allocation, `none` for one that was freed. -/
structure Heap (α : Type) where
  cells : List (Option α)

namespace Heap

/-- What a live cell holds. -/
def read (h : Heap α) (a : Address) : Option α := h.cells[a]?.join

def alloc (h : Heap α) (x : α) : Address × Heap α := (h.cells.length, ⟨h.cells ++ [some x]⟩)

/-- A cell that is not live cannot be freed. -/
def free (h : Heap α) (a : Address) : Option (Heap α) :=
  (h.read a).map fun _ => ⟨h.cells.set a none⟩

/-- Only a live cell is written. -/
def write (h : Heap α) (a : Address) (x : α) : Option (Heap α) :=
  (h.read a).map fun _ => ⟨h.cells.set a (some x)⟩

variable {h h' : Heap α} {a b : Address} {x y : α}

theorem lt_of_read (hread : h.read a = some x) : a < h.cells.length := by
  unfold read at hread
  by_contra hge
  rw [List.getElem?_eq_none (Nat.not_lt.mp hge)] at hread
  cases hread

theorem ne_alloc (hread : h.read a = some x) (y : α) : a ≠ (h.alloc y).1 :=
  Nat.ne_of_lt (lt_of_read hread)

theorem read_alloc_self (h : Heap α) (x : α) : (h.alloc x).2.read (h.alloc x).1 = some x := by
  unfold alloc read
  rw [List.getElem?_concat_length]
  rfl

theorem read_alloc (hread : h.read a = some x) (y : α) : (h.alloc y).2.read a = some x := by
  unfold alloc read
  rw [List.getElem?_append_left (lt_of_read hread)]
  exact hread

/-- Only the new cell is new. -/
theorem read_of_read_alloc (hread : (h.alloc y).2.read a = some x) (hne : a ≠ (h.alloc y).1) :
    h.read a = some x := by
  unfold alloc read at hread
  have hlt : a < h.cells.length := by
    have hlen : a < (h.cells ++ [some y]).length := by
      by_contra hge
      rw [List.getElem?_eq_none (Nat.not_lt.mp hge)] at hread
      cases hread
    rw [List.length_append, List.length_singleton] at hlen
    exact Nat.lt_of_le_of_ne (Nat.lt_succ_iff.mp hlen) hne
  rwa [List.getElem?_append_left hlt] at hread

theorem free_of_read (hread : h.read a = some x) : h.free a = some ⟨h.cells.set a none⟩ := by
  unfold free
  rw [hread]
  rfl

theorem read_free (hfree : h.free a = some h') (hne : b ≠ a) : h'.read b = h.read b := by
  unfold free at hfree
  obtain ⟨x, -, rfl⟩ := Option.map_eq_some_iff.mp hfree
  unfold read
  rw [List.getElem?_set_ne (Ne.symm hne)]

theorem read_free_self (hfree : h.free a = some h') : h'.read a = none := by
  unfold free at hfree
  obtain ⟨x, hread, rfl⟩ := Option.map_eq_some_iff.mp hfree
  unfold read
  rw [List.getElem?_set_self (lt_of_read hread)]
  rfl

theorem write_of_read (hread : h.read a = some x) (y : α) :
    h.write a y = some ⟨h.cells.set a (some y)⟩ := by
  unfold write
  rw [hread]
  rfl

theorem read_write_self (hwrite : h.write a y = some h') : h'.read a = some y := by
  unfold write at hwrite
  obtain ⟨x, hread, rfl⟩ := Option.map_eq_some_iff.mp hwrite
  unfold read
  rw [List.getElem?_set_self (lt_of_read hread)]
  rfl

theorem length_free (hfree : h.free a = some h') : h'.cells.length = h.cells.length := by
  unfold free at hfree
  obtain ⟨x, -, rfl⟩ := Option.map_eq_some_iff.mp hfree
  exact List.length_set

theorem length_write (hwrite : h.write a y = some h') : h'.cells.length = h.cells.length := by
  unfold write at hwrite
  obtain ⟨x, -, rfl⟩ := Option.map_eq_some_iff.mp hwrite
  exact List.length_set

theorem length_alloc (h : Heap α) (x : α) : (h.alloc x).2.cells.length = h.cells.length + 1 := by
  simp [alloc]

theorem read_write (hwrite : h.write a y = some h') (hne : b ≠ a) : h'.read b = h.read b := by
  unfold write at hwrite
  obtain ⟨x, -, rfl⟩ := Option.map_eq_some_iff.mp hwrite
  unfold read
  rw [List.getElem?_set_ne (Ne.symm hne)]

end Heap

/-! ## Blocks -/

/-- The units of a block of memory, `none` before the first write. -/
abbrev Block (α : Type) := List (Option α)

namespace Block

def fresh (n : Nat) : Block α := List.replicate n none

/-- A write at an offset; it is undefined where it leaves the block. -/
def store (block : Block α) (offset : Nat) (units : Block α) : Option (Block α) :=
  if offset + units.length ≤ block.length then
    some (block.take offset ++ units ++ block.drop (offset + units.length))
  else none

variable {block block' units : Block α} {offset : Nat}

theorem store_eq_none (hle : ¬offset + units.length ≤ block.length) :
    block.store offset units = none := if_neg hle

theorem store_of_le (hle : offset + units.length ≤ block.length) :
    block.store offset units =
      some (block.take offset ++ units ++ block.drop (offset + units.length)) := if_pos hle

/-- A block that is written whole. -/
theorem store_all (hlen : units.length = block.length) : block.store 0 units = some units := by
  rw [store_of_le (by omega), List.take_zero, List.nil_append, Nat.zero_add, hlen,
    List.drop_length, List.append_nil]

/-- A write behind a part of the block. -/
theorem store_append (front : Block α) {back : Block α} (hle : units.length ≤ back.length) :
    (front ++ back).store front.length units =
      some (front ++ (units ++ back.drop units.length)) := by
  have hroom : front.length + units.length ≤ (front ++ back).length := by
    rw [List.length_append]
    omega
  rw [store_of_le hroom, List.take_left, List.drop_append, List.append_assoc]
  simp

end Block

/-! ## Related lists -/

theorem set_same {xs : List α} {t : Nat} {x : α} (hx : xs[t]? = some x) :
    xs.set t x = xs := by
  obtain ⟨hlt, rfl⟩ := List.getElem?_eq_some_iff.mp hx
  exact List.set_getElem_self hlt

theorem set_middle (front : List α) (x y : α) (back : List α) :
    (front ++ x :: back).set front.length y = front ++ y :: back := by
  rw [List.set_append_right _ _ (Nat.le_refl _), Nat.sub_self, List.set_cons_zero]

variable {R : α → β → Prop} {xs : List α} {ys : List β}

/-- At an index two related lists have related elements, or neither has one. -/
theorem forall₂_at (h : List.Forall₂ R xs ys) (i : Nat) :
    (xs[i]? = none ∧ ys[i]? = none) ∨ ∃ x y, xs[i]? = some x ∧ ys[i]? = some y ∧ R x y := by
  induction h generalizing i with
  | nil => exact .inl ⟨rfl, rfl⟩
  | @cons x y _ _ hhead _ ih =>
      cases i with
      | zero => exact .inr ⟨x, y, rfl, rfl, hhead⟩
      | succ i => exact ih i

/-- Two related lists around an index of theirs. -/
theorem forall₂_split (h : List.Forall₂ R xs ys) {i : Nat} {x : α} (hx : xs[i]? = some x) :
    ∃ xs₁ xs₂ ys₁ y ys₂, xs = xs₁ ++ x :: xs₂ ∧ ys = ys₁ ++ y :: ys₂ ∧ xs₁.length = i ∧
      ys₁.length = i ∧ List.Forall₂ R xs₁ ys₁ ∧ R x y ∧ List.Forall₂ R xs₂ ys₂ := by
  induction h generalizing i with
  | nil => cases hx
  | @cons x' y' xs ys hhead htail ih =>
      cases i with
      | zero =>
          obtain rfl := Option.some.inj hx
          exact ⟨[], xs, [], y', ys, rfl, rfl, rfl, rfl, .nil, hhead, htail⟩
      | succ i =>
          obtain ⟨xs₁, xs₂, ys₁, y, ys₂, rfl, rfl, hlen, hlen', hfront, hmiddle, hback⟩ := ih hx
          exact ⟨x' :: xs₁, xs₂, y' :: ys₁, y, ys₂, rfl, rfl, congrArg (· + 1) hlen,
            congrArg (· + 1) hlen', .cons hhead hfront, hmiddle, hback⟩

end Collections
