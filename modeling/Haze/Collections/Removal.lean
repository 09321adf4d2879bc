import Mathlib.Data.List.Perm.Basic

/-
  Search in an array, and removal from it.

  An array holds a list in its first slots, and a loop over them finds what `List.findIdx?`
  and `List.findSome?` find in the list (`find?_range_take`, `findSome?_range_take`). The list
  loses an element in one of two ways: the
  elements behind it move down a slot each (`shiftDown`), which erases it from the list
  (`take_shiftDown`), or the last one takes its slot (`swapOut`), which erases it up to
  order (`swapOut_perm`).
-/

namespace Collections

variable {α : Type}

/-! ## Searching -/

/-- The loop `for (i = 0; i < len; i++) if (p(slots[i])) …`. -/
theorem find?_range_take {slots : List α} {len : Nat} (p : α → Bool) (hlen : len ≤ slots.length) :
    (List.range len).find? (fun i => slots[i]?.any p) = (slots.take len).findIdx? p := by
  induction len with
  | zero => rfl
  | succ len ih =>
      have hlast : len < slots.length := by omega
      have hone : [len].find? (fun i => slots[i]?.any p) =
          ([slots[len]].findIdx? p).map (· + len) := by
        rw [List.find?_singleton, List.findIdx?_singleton, List.getElem?_eq_getElem hlast]
        cases hp : p slots[len] <;> simp [hp]
      rw [List.range_succ, List.find?_append, ih (by omega), hone,
        List.take_succ_eq_append_getElem hlast, List.findIdx?_append, List.length_take,
        Nat.min_eq_left (by omega)]

theorem findSome?_range_take {β : Type} {slots : List α} {len : Nat} (f : α → Option β)
    (hlen : len ≤ slots.length) :
    (List.range len).findSome? (fun i => slots[i]?.bind f) = (slots.take len).findSome? f := by
  induction len with
  | zero => rfl
  | succ len ih =>
      have hlast : len < slots.length := by omega
      rw [List.range_succ, List.findSome?_append, ih (by omega),
        List.take_succ_eq_append_getElem hlast, List.findSome?_append]
      simp [List.getElem?_eq_getElem hlast]

/-! ## Shifting -/

/-- The loop `for (; left > 0; j++, left--) slots[j] = slots[j + 1]`. A slot past the end is
not read. -/
def shiftDown (slots : List α) (j : Nat) : Nat → List α
  | 0 => slots
  | left + 1 =>
    match slots[j + 1]? with
    | some x => shiftDown (slots.set j x) (j + 1) left
    | none => slots

theorem getElem?_shiftDown (left : Nat) {slots : List α} {j : Nat}
    (hroom : j + left < slots.length) (k : Nat) :
    (shiftDown slots j left)[k]? = if j ≤ k ∧ k < j + left then slots[k + 1]? else slots[k]? := by
  induction left generalizing slots j with
  | zero => rw [shiftDown, if_neg (by omega)]
  | succ left ih =>
      have hnext : j + 1 < slots.length := by omega
      rw [shiftDown, List.getElem?_eq_getElem hnext]
      simp only
      rw [ih (by rw [List.length_set]; omega)]
      by_cases hk : k = j
      · subst hk
        rw [if_neg (by omega), if_pos (by omega), List.getElem?_set_self (by omega),
          List.getElem?_eq_getElem hnext]
      · by_cases hin : j ≤ k ∧ k < j + (left + 1)
        · rw [if_pos (by omega), if_pos hin, List.getElem?_set_ne (by omega)]
        · rw [if_neg (by omega), if_neg hin, List.getElem?_set_ne (Ne.symm hk)]

theorem length_shiftDown (slots : List α) (j left : Nat) :
    (shiftDown slots j left).length = slots.length := by
  induction left generalizing slots j with
  | zero => rfl
  | succ left ih =>
      rw [shiftDown]
      split
      · rw [ih, List.length_set]
      · rfl

/-- Moving the elements behind a slot down erases what it held. -/
theorem take_shiftDown {slots : List α} {i len : Nat} (hi : i < len)
    (hlen : len ≤ slots.length) :
    (shiftDown slots i (len - 1 - i)).take (len - 1) = (slots.take len).eraseIdx i := by
  apply List.ext_getElem?
  intro k
  rw [List.getElem?_take, List.getElem?_eraseIdx, List.getElem?_take, List.getElem?_take,
    getElem?_shiftDown _ (by omega)]
  split_ifs <;> first | rfl | omega

/-! ## Swapping -/

/-- The last element moves to the slot, and the array ends a slot earlier. -/
def swapOut (xs : List α) (i : Nat) : List α :=
  match xs.getLast? with
  | some x => (xs.set i x).dropLast
  | none => xs

theorem length_swapOut_le (xs : List α) (i : Nat) : (swapOut xs i).length ≤ xs.length := by
  unfold swapOut
  split
  · rw [List.length_dropLast, List.length_set]
    omega
  · exact Nat.le_refl _

theorem swapOut_perm {xs : List α} {i : Nat} (hi : i < xs.length) :
    (swapOut xs i).Perm (xs.eraseIdx i) := by
  rcases List.eq_nil_or_concat xs with rfl | ⟨ys, x, rfl⟩
  · cases hi
  · rw [List.concat_eq_append, List.length_append, List.length_singleton] at hi
    rw [List.concat_eq_append, swapOut, List.getLast?_concat]
    by_cases hlast : i < ys.length
    · simp only
      rw [List.set_append_left _ _ hlast, List.dropLast_concat,
        List.eraseIdx_append_of_lt_length hlast]
      exact (List.set_perm_cons_eraseIdx hlast x).trans (List.perm_append_singleton x _).symm
    · -- the element is the last one itself
      obtain rfl : i = ys.length := by omega
      simp only
      rw [List.set_append_right _ _ (Nat.le_refl _), Nat.sub_self, List.set_cons_zero,
        List.dropLast_concat, List.eraseIdx_append_of_length_le (Nat.le_refl _), Nat.sub_self]
      simp

/-- Swapping out the element a search has found erases it up to order. -/
theorem swapOut_idxOf?_perm [DecidableEq α] {xs : List α} {x : α} {i : Nat}
    (hfind : xs.idxOf? x = some i) : (swapOut xs i).Perm (xs.erase x) := by
  obtain ⟨hi, -⟩ := List.idxOf?_eq_some_iff.mp hfind
  have herase : xs.erase x = xs.eraseIdx i := by
    rw [List.erase_eq_eraseIdx, hfind]
  rw [herase]
  exact swapOut_perm hi

end Collections
