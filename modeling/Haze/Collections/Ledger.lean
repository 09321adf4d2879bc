import Haze.Collections.Heap
import Mathlib.Algebra.Order.Group.Multiset
import Mathlib.Algebra.BigOperators.Group.List.Basic

/-
  Programs that allocate, and what they own.

  `Alloc` runs over a heap and over the answers of the allocator: a request may be refused. To
  free what is not allocated, or to touch it, is a fault (`none`). `Owns` says of a list of
  addresses that it is exactly what is allocated, each address once, so that nothing is lost and
  nothing is owned twice.

  `Triple pre prog post` says that a program that owns `pre` runs without a fault, whatever the
  allocator answers, and owns what `post` says in the end; `TripleWhen lasts` says so of the runs
  without a refusal, if `lasts` holds. The rules follow the program: `TripleWhen.bind` for a
  sequence, one rule for each call of the allocator, and `Triple.forM` for a loop that releases.
-/

namespace Collections

/-! ## Programs -/

/-- The heap, and which of the next requests are granted. What comes after them is granted. -/
structure Allocator where
  heap : Heap Unit
  grants : List Bool

abbrev Alloc := StateT Allocator Option

namespace Alloc

/-- Whether the next request is granted. -/
def ask : Alloc Bool := fun s => some (s.grants.headD true, { s with grants := s.grants.tail })

/-- A new block. -/
def fresh : Alloc Address := fun s =>
  let (a, heap) := s.heap.alloc ()
  some (a, { s with heap := heap })

def malloc : Alloc (Option Address) := do
  if ← ask then
    let a ← fresh
    return some a
  else return none

/-- What is touched must be allocated. -/
def touch (a : Address) : Alloc Unit := fun s => (s.heap.read a).map fun _ => ((), s)

def release (a : Address) : Alloc Unit := fun s =>
  (s.heap.free a).map fun heap => ((), { s with heap := heap })

/-- A null pointer is not freed. -/
def free : Option Address → Alloc Unit
  | none => pure ()
  | some a => release a

/-- The block moves if there is memory, and stays if there is none. -/
def realloc (block : Option Address) : Alloc (Option Address) := do
  let some a ← malloc | return none
  free block
  return some a

/-- A program on the element at an index, if there is one. -/
def modifyAt {α β : Type} (xs : List α) (i : Nat) (missing : β) (prog : α → Alloc (β × α)) :
    Alloc (β × List α) :=
  match xs[i]? with
  | none => return (missing, xs)
  | some x => do
    let (y, x) ← prog x
    return (y, xs.set i x)

/-- The element at an index is freed and leaves the list, if there is one. -/
def removeAt {α : Type} (xs : List α) (i : Nat) (free : α → Alloc Unit) : Alloc (List α) :=
  match xs[i]? with
  | none => return xs
  | some x => do
    free x
    return xs.eraseIdx i

theorem bind_eq {α β : Type} {prog : Alloc α} {next : α → Alloc β} {s s' : Allocator} {x : α}
    (hrun : prog s = some (x, s')) : (prog >>= next) s = next x s' := by
  show (prog s).bind (fun out => next out.1 out.2) = _
  rw [hrun, Option.bind_some]

theorem bind_fault {α β : Type} {prog : Alloc α} {next : α → Alloc β} {s : Allocator}
    (hrun : prog s = none) : (prog >>= next) s = none := by
  show (prog s).bind (fun out => next out.1 out.2) = _
  rw [hrun, Option.bind_none]

theorem malloc_granted {s : Allocator} (hgrant : s.grants.headD true = true) :
    malloc s = some (some (s.heap.alloc ()).1, ⟨(s.heap.alloc ()).2, s.grants.tail⟩) := by
  have hask : ask s = some (true, { s with grants := s.grants.tail }) := by rw [ask, hgrant]
  exact bind_eq hask

theorem malloc_refused {s : Allocator} (hgrant : s.grants.headD true = false) :
    malloc s = some (none, { s with grants := s.grants.tail }) := by
  have hask : ask s = some (false, { s with grants := s.grants.tail }) := by rw [ask, hgrant]
  exact bind_eq hask

theorem touch_of_read {s : Allocator} {a : Address} (hread : s.heap.read a = some ()) :
    touch a s = some ((), s) := by
  unfold touch
  rw [hread]
  rfl

theorem release_of_read {s : Allocator} {a : Address} (hread : s.heap.read a = some ()) :
    release a s = some ((), { s with heap := ⟨s.heap.cells.set a none⟩ }) := by
  unfold release
  rw [Heap.free_of_read hread]
  rfl

theorem release_fault {s : Allocator} {a : Address} (hread : s.heap.read a ≠ some ()) :
    release a s = none := by
  unfold release Heap.free
  cases hlive : s.heap.read a with
  | none => rfl
  | some _ => exact absurd hlive hread

end Alloc

/-! ## What is owned -/

/-- What is allocated is what is owned, each address once. -/
structure Owns (heap : Heap Unit) (owned : Multiset Address) : Prop where
  once : owned.Nodup
  live : ∀ a, a ∈ owned ↔ heap.read a = some ()

theorem owns_empty : Owns ⟨[]⟩ 0 where
  once := Multiset.nodup_zero
  live a := by simp [Heap.read]

theorem Owns.alloc {heap : Heap Unit} {owned : Multiset Address} (h : Owns heap owned) :
    Owns (heap.alloc ()).2 ({(heap.alloc ()).1} + owned) := by
  have hnew : (heap.alloc ()).1 ∉ owned := fun hmem =>
    Heap.ne_alloc ((h.live _).mp hmem) () rfl
  rw [Multiset.singleton_add]
  refine ⟨Multiset.nodup_cons.mpr ⟨hnew, h.once⟩, fun a => ?_⟩
  rw [Multiset.mem_cons, h.live]
  constructor
  · rintro (rfl | hread)
    · exact Heap.read_alloc_self heap ()
    · exact Heap.read_alloc hread ()
  · intro hread
    by_cases ha : a = (heap.alloc ()).1
    · exact .inl ha
    · exact .inr (Heap.read_of_read_alloc hread ha)

theorem Owns.free {heap : Heap Unit} {a : Address} {owned : Multiset Address}
    (h : Owns heap ({a} + owned)) : ∃ heap', heap.free a = some heap' ∧ Owns heap' owned := by
  rw [Multiset.singleton_add] at h
  obtain ⟨hnot, honce⟩ := Multiset.nodup_cons.mp h.once
  have hfree := Heap.free_of_read ((h.live a).mp (Multiset.mem_cons_self a owned))
  refine ⟨_, hfree, honce, fun b => ?_⟩
  by_cases hb : b = a
  · rw [hb, Heap.read_free_self hfree]
    exact iff_of_false hnot (Option.some_ne_none ()).symm
  · rw [Heap.read_free hfree hb, ← h.live, Multiset.mem_cons, or_iff_right hb]

/-! ## Triples -/

variable {α β : Type} {lasts : Prop}

/-- No request will be refused. -/
def Allocator.Lasts (s : Allocator) : Prop := ∀ granted ∈ s.grants, granted = true

/-- A request was refused. -/
theorem not_lasts (h : lasts → (none : Option α).isSome) : ¬lasts :=
  fun hlasts => Bool.false_ne_true (h hlasts)

/-- Owning `pre`, the program runs without a fault and owns what `post` says. If `lasts` holds,
this is said only of the runs in which no request is refused. -/
def TripleWhen (lasts : Prop) (pre : Multiset Address) (prog : Alloc α)
    (post : α → Multiset Address → Prop) : Prop :=
  ∀ s : Allocator, (lasts → s.Lasts) → Owns s.heap pre →
    ∃ x s' owned, prog s = some (x, s') ∧ (lasts → s'.Lasts) ∧ post x owned ∧ Owns s'.heap owned

/-- The same, whatever the allocator answers. -/
abbrev Triple (pre : Multiset Address) (prog : Alloc α) (post : α → Multiset Address → Prop) :
    Prop := TripleWhen False pre prog post

namespace TripleWhen

variable {pre : Multiset Address} {prog : Alloc α} {post post' : α → Multiset Address → Prop}

theorem conseq (h : TripleWhen lasts pre prog post)
    (himp : ∀ x owned, post x owned → post' x owned) : TripleWhen lasts pre prog post' := by
  intro s hlasts howns
  obtain ⟨x, s', owned, hrun, hlasts', hpost, howns'⟩ := h s hlasts howns
  exact ⟨x, s', owned, hrun, hlasts', himp x owned hpost, howns'⟩

/-- What is owned may be listed in another order. -/
theorem of_eq {pre' : Multiset Address} (h : TripleWhen lasts pre prog post) (hpre : pre' = pre) :
    TripleWhen lasts pre' prog post := hpre ▸ h

/-- What is owned is owned once. -/
theorem of_nodup (h : pre.Nodup → TripleWhen lasts pre prog post) :
    TripleWhen lasts pre prog post :=
  fun s hlasts howns => h howns.once s hlasts howns

theorem pure {x : α} (h : post x pre) : TripleWhen lasts pre (pure x) post :=
  fun s hlasts howns => ⟨x, s, pre, rfl, hlasts, h, howns⟩

theorem bind {mid : α → Multiset Address → Prop} {next : α → Alloc β}
    {goal : β → Multiset Address → Prop} (h : TripleWhen lasts pre prog mid)
    (hnext : ∀ x owned, mid x owned → TripleWhen lasts owned (next x) goal) :
    TripleWhen lasts pre (prog >>= next) goal := by
  intro s hlasts howns
  obtain ⟨x, s', owned, hrun, hlasts', hmid, howns'⟩ := h s hlasts howns
  obtain ⟨y, t, owned', hrun', hlasts'', hgoal, howns''⟩ := hnext x owned hmid s' hlasts' howns'
  exact ⟨y, t, owned', (Alloc.bind_eq hrun).trans hrun', hlasts'', hgoal, howns''⟩

end TripleWhen

/-! ### The calls of the allocator -/

namespace Triple

variable {pre : Multiset Address} {prog : Alloc α} {post : α → Multiset Address → Prop}

/-- The run that a triple is about. -/
theorem run (h : Triple pre prog post) {s : Allocator} (howns : Owns s.heap pre) :
    ∃ x s' owned, prog s = some (x, s') ∧ post x owned ∧ Owns s'.heap owned := by
  obtain ⟨x, s', owned, hrun, -, hpost, howns'⟩ := h s False.elim howns
  exact ⟨x, s', owned, hrun, hpost, howns'⟩

/-- The block that a pointer owns, if it is not null. -/
def block (a : Option Address) : Multiset Address := a.elim 0 ({·})

theorem fresh : TripleWhen lasts pre Alloc.fresh fun a owned => owned = {a} + pre :=
  fun _ hlasts howns => ⟨_, _, {_} + pre, rfl, hlasts, rfl, howns.alloc⟩

theorem touch {a : Address} (ha : a ∈ pre) :
    TripleWhen lasts pre (Alloc.touch a) fun _ owned => owned = pre := by
  intro s hlasts howns
  exact ⟨(), s, pre, Alloc.touch_of_read ((howns.live a).mp ha), hlasts, rfl, howns⟩

theorem release {a : Address} :
    TripleWhen lasts ({a} + pre) (Alloc.release a) fun _ owned => owned = pre := by
  intro s hlasts howns
  obtain ⟨heap, hfree, howns'⟩ := howns.free
  refine ⟨(), { s with heap := heap }, pre, ?_, hlasts, rfl, howns'⟩
  unfold Alloc.release
  rw [hfree]
  rfl

theorem free {a : Option Address} :
    TripleWhen lasts (block a + pre) (Alloc.free a) fun _ owned => owned = pre := by
  cases a with
  | none => exact .pure (zero_add pre)
  | some a => exact Triple.release

/-- From `s` the program runs without a fault, and owns what `post` says in the end. -/
def Succeeds (s : Allocator) (prog : Alloc α) (post : α → Multiset Address → Prop) : Prop :=
  ∃ x s' owned, prog s = some (x, s') ∧ post x owned ∧ Owns s'.heap owned

theorem succeeds (h : Triple pre prog post) {s : Allocator} (howns : Owns s.heap pre) :
    Succeeds s prog post := h.run howns

theorem Succeeds.bind {s : Allocator} {mid : α → Multiset Address → Prop} {next : α → Alloc β}
    {goal : β → Multiset Address → Prop} (h : Succeeds s prog mid)
    (hnext : ∀ x owned, mid x owned → Triple owned (next x) goal) :
    Succeeds s (prog >>= next) goal := by
  obtain ⟨x, s', owned, hrun, hmid, howns⟩ := h
  obtain ⟨y, t, owned', hrun', hgoal, howns'⟩ := (hnext x owned hmid).run howns
  exact ⟨y, t, owned', (Alloc.bind_eq hrun).trans hrun', hgoal, howns'⟩

/-- To free asks the allocator nothing. -/
theorem free_run {s : Allocator} {a : Option Address} (howns : Owns s.heap (block a + pre)) :
    ∃ heap, Alloc.free a s = some ((), { s with heap := heap }) ∧ Owns heap pre := by
  cases a with
  | none => exact ⟨s.heap, rfl, (zero_add pre) ▸ howns⟩
  | some a =>
      obtain ⟨heap, hfree, howns'⟩ := howns.free
      refine ⟨heap, ?_, howns'⟩
      show (s.heap.free a).map _ = _
      rw [hfree]
      rfl

/-- What comes behind a step that is known. -/
theorem Succeeds.behind {s s' : Allocator} {first : Alloc β} {x : β} {next : β → Alloc α}
    (hrun : first s = some (x, s')) (h : Succeeds s' (next x) post) :
    Succeeds s (first >>= next) post := by
  obtain ⟨y, t, owned, hnext, hpost, howns⟩ := h
  exact ⟨y, t, owned, (Alloc.bind_eq hrun).trans hnext, hpost, howns⟩

end Triple

namespace TripleWhen

open Triple

variable {pre : Multiset Address}

theorem ask : TripleWhen lasts pre Alloc.ask fun granted owned =>
    owned = pre ∧ (lasts → granted = true) := by
  intro s hlasts howns
  refine ⟨_, _, pre, rfl, fun h granted hmem => ?_, ⟨rfl, fun h => ?_⟩, howns⟩
  · exact hlasts h granted (List.mem_of_mem_tail hmem)
  · cases hgrants : s.grants with
    | nil => rfl
    | cons granted grants => exact hlasts h granted (by simp [hgrants])

theorem malloc : TripleWhen lasts pre Alloc.malloc fun a owned =>
    owned = block a + pre ∧ (lasts → a.isSome) := by
  refine TripleWhen.ask.bind ?_
  rintro granted pre ⟨rfl, hgranted⟩
  cases granted with
  | false => exact .pure ⟨(zero_add pre).symm, fun h => absurd (hgranted h) Bool.false_ne_true⟩
  | true =>
      refine Triple.fresh.bind ?_
      rintro a _ rfl
      exact .pure ⟨rfl, fun _ => rfl⟩

/-- Where no request is refused there is memory. -/
theorem granted : TripleWhen True pre Alloc.malloc fun a owned =>
    ∃ x, a = some x ∧ owned = {x} + pre := by
  refine malloc.conseq ?_
  rintro (_ | x) _ ⟨rfl, h⟩
  · exact absurd trivial (not_lasts h)
  · exact ⟨x, rfl, rfl⟩

/-- The old block is owned if there was no memory, and the new one if there was. -/
theorem realloc {a : Option Address} :
    TripleWhen lasts (block a + pre) (Alloc.realloc a) fun b owned =>
      owned = block (b <|> a) + pre ∧ (lasts → b.isSome) := by
  refine TripleWhen.malloc.bind ?_
  rintro (_ | b) _ ⟨rfl, hb⟩
  · exact .pure ⟨zero_add _, hb⟩
  · refine (Triple.free.of_eq (add_left_comm {b} (block a) pre)).bind ?_
    rintro _ _ rfl
    exact .pure ⟨rfl, fun _ => rfl⟩

end TripleWhen

namespace Triple

variable {pre : Multiset Address}

theorem ask : TripleWhen lasts pre Alloc.ask fun _ owned => owned = pre :=
  TripleWhen.ask.conseq fun _ _ h => h.1

theorem malloc : TripleWhen lasts pre Alloc.malloc fun a owned => owned = block a + pre :=
  TripleWhen.malloc.conseq fun _ _ h => h.1

theorem realloc {a : Option Address} :
    TripleWhen lasts (block a + pre) (Alloc.realloc a) fun b owned =>
      owned = block (b <|> a) + pre :=
  TripleWhen.realloc.conseq fun _ _ h => h.1

/-- A loop that releases what each element owns. -/
theorem forM {own : α → Multiset Address} {body : α → Alloc Unit}
    (hbody : ∀ x pre, TripleWhen lasts (own x + pre) (body x) fun _ owned => owned = pre)
    (xs : List α) :
    TripleWhen lasts ((xs.map own).sum + pre) (xs.forM body) fun _ owned => owned = pre := by
  induction xs with
  | nil =>
      rw [List.map_nil, List.sum_nil, zero_add]
      exact .pure rfl
  | cons x xs ih =>
      rw [List.map_cons, List.sum_cons, add_assoc]
      refine (hbody x _).bind ?_
      rintro _ _ rfl
      exact ih

/-- A loop that releases some of what each element owns. -/
theorem forM_leaves {own rest : α → Multiset Address} {body : α → Alloc Unit}
    (hbody : ∀ x pre, TripleWhen lasts (own x + pre) (body x) fun _ owned => owned = rest x + pre)
    (xs : List α) :
    TripleWhen lasts ((xs.map own).sum + pre) (xs.forM body) fun _ owned =>
      owned = (xs.map rest).sum + pre := by
  induction xs generalizing pre with
  | nil => exact .pure rfl
  | cons x xs ih =>
      rw [List.map_cons, List.sum_cons, add_assoc]
      refine (hbody x _).bind ?_
      rintro _ _ rfl
      refine (ih.of_eq (add_left_comm _ _ _)).conseq ?_
      rintro _ _ rfl
      rw [List.map_cons, List.sum_cons]
      ac_rfl

/-- A loop that releases nothing. -/
theorem forM_keeps {body : α → Alloc Unit} {xs : List α}
    (hbody : ∀ x ∈ xs, TripleWhen lasts pre (body x) fun _ owned => owned = pre) :
    TripleWhen lasts pre (xs.forM body) fun _ owned => owned = pre := by
  induction xs with
  | nil => exact .pure rfl
  | cons x xs ih =>
      obtain ⟨hx, hxs⟩ := List.forall_mem_cons.mp hbody
      refine hx.bind ?_
      rintro _ _ rfl
      exact ih hxs

/-! ### Collections of owners -/

theorem sum_eraseIdx (own : α → Multiset Address) {xs : List α} {i : Nat} (hi : i < xs.length) :
    (xs.map own).sum = own xs[i] + ((xs.eraseIdx i).map own).sum := by
  rw [← ((List.getElem_cons_eraseIdx_perm hi).map own).sum_eq, List.map_cons, List.sum_cons]

theorem sum_set (own : α → Multiset Address) {xs : List α} {i : Nat} (hi : i < xs.length)
    (x : α) : ((xs.set i x).map own).sum = own x + ((xs.eraseIdx i).map own).sum := by
  have hi' : i < (xs.set i x).length := by rwa [List.length_set]
  rw [sum_eraseIdx own hi', List.getElem_set_self, List.eraseIdx_set_eq]

/-- The element at the index is changed by its program, and the others stay as they are. -/
theorem modifyAt {own : α → Multiset Address} (extra : β → Multiset Address)
    (P : α → α → Prop) {xs : List α} {i : Nat} {missing : β} {prog : α → Alloc (β × α)}
    (hprog : ∀ x pre, TripleWhen lasts (own x + pre) (prog x) fun out owned =>
      owned = extra out.1 + own out.2 + pre ∧ P x out.2)
    (hmissing : extra missing = 0) (hrefl : ∀ x, P x x) :
    TripleWhen lasts ((xs.map own).sum + pre) (Alloc.modifyAt xs i missing prog) fun out owned =>
      owned = extra out.1 + (out.2.map own).sum + pre ∧ ∀ y ∈ out.2, ∃ x ∈ xs, P x y := by
  unfold Alloc.modifyAt
  by_cases hi : i < xs.length
  · rw [List.getElem?_eq_getElem hi, sum_eraseIdx own hi, add_assoc]
    refine (hprog xs[i] _).bind ?_
    rintro ⟨y, x⟩ _ ⟨rfl, hx⟩
    refine .pure ⟨?_, fun z hz => ?_⟩
    · rw [sum_set own hi x]
      ac_rfl
    · obtain hz | rfl := List.mem_or_eq_of_mem_set hz
      · exact ⟨z, hz, hrefl z⟩
      · exact ⟨xs[i], List.getElem_mem hi, hx⟩
  · rw [List.getElem?_eq_none (Nat.le_of_not_lt hi)]
    refine .pure ⟨?_, fun y hy => ⟨y, hy, hrefl y⟩⟩
    rw [hmissing, zero_add]

theorem removeAt {own : α → Multiset Address} {xs : List α} {i : Nat} {free : α → Alloc Unit}
    (hfree : ∀ x pre, TripleWhen lasts (own x + pre) (free x) fun _ owned => owned = pre) :
    TripleWhen lasts ((xs.map own).sum + pre) (Alloc.removeAt xs i free) fun ys owned =>
      owned = (ys.map own).sum + pre ∧ ys.Sublist xs := by
  unfold Alloc.removeAt
  by_cases hi : i < xs.length
  · rw [List.getElem?_eq_getElem hi, sum_eraseIdx own hi, add_assoc]
    refine (hfree xs[i] _).bind ?_
    rintro _ _ rfl
    exact .pure ⟨rfl, List.eraseIdx_sublist xs i⟩
  · rw [List.getElem?_eq_none (Nat.le_of_not_lt hi)]
    exact .pure ⟨rfl, List.Sublist.refl xs⟩

end Triple

end Collections
