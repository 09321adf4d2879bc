import Haze.Collections.OrderedMap
import Haze.Collections.Removal
import Haze.Object

/-
  Map tables: `ObjectMapTableSet`, `ObjectMapTableGet`, `ObjectMapTableRemove` and
  `ObjectMapTableCopy`, and the map objects made of them.

  A table is an array of pairs of copies that is searched for a key with `ObjectEquals`.
  What an object holds, whatever its pointers, is its `content`, and a copy holds the same
  when there is no map with entries in it, and only then (`objectCopy_same_iff`). A key
  that is set is found again when `ObjectEquals` knows its kind
  (`objectMapTable_retrieves_iff`).
-/

open Msgpack

namespace Haze

/-! ## Comparing keys -/

def floatIsNaN (bits : UInt32) : Bool := 0x7f800000 < bits &&& 0x7fffffff

def doubleIsNaN (bits : UInt64) : Bool := 0x7ff0000000000000 < bits &&& 0x7fffffffffffffff

/-- `==` on two floats: a NaN equals nothing, and the two zeros are equal. -/
def floatEquals (a b : UInt32) : Bool :=
  !floatIsNaN a && !floatIsNaN b && (a = b || (a ||| b) &&& 0x7fffffff = 0)

def doubleEquals (a b : UInt64) : Bool :=
  !doubleIsNaN a && !doubleIsNaN b && (a = b || (a ||| b) &&& 0x7fffffffffffffff = 0)

/-- Two keys of one kind with the same payload. The kinds without a case are never equal. -/
def objectEquals : Object → Object → Bool
  | .bool a, .bool b => a = b
  | .int a, .int b => a = b
  | .uint a, .uint b => a = b
  | .float a, .float b => floatEquals a b
  | .double a, .double b => doubleEquals a b
  | .str (some a), .str (some b) => a = b
  | .str none, .str none => true
  | _, _ => false

/-! ## Tables -/

def objectMapInitialCapacity : Nat := 8

/-- `ObjectMapTable`: the pairs below its length, and the slots it has. -/
structure ObjectMapTable where
  pairs : List (Object × Object)
  capacity : Nat
  fits : pairs.length ≤ capacity
  hasRoom : 0 < capacity

def objectMapCreate (key value : Object) : Object × Object := (objectCopy key, objectCopy value)

def objectMapTableCreate : ObjectMapTable where
  pairs := []
  capacity := objectMapInitialCapacity
  fits := by decide
  hasRoom := by decide

/-- Whether a pair has the key. -/
def ObjectMapTable.has (table : ObjectMapTable) (key : Object) : Bool :=
  table.pairs.any fun pair => objectEquals pair.1 key

/-- The value at the first pair with the key is replaced; without one a pair is appended, to
an array of twice the capacity if it is full. -/
def objectMapTableSet (table : ObjectMapTable) (key value : Object) : Bool × ObjectMapTable :=
  if table.has key then
    (true, { table with
      pairs := table.pairs.lookmap fun pair =>
        if objectEquals pair.1 key then some (pair.1, objectCopy value) else none
      fits := by
        rw [List.length_lookmap]
        exact table.fits })
  else
    (true, {
      pairs := table.pairs ++ [objectMapCreate key value]
      capacity :=
        if table.capacity ≤ table.pairs.length then table.capacity * 2 else table.capacity
      fits := by
        have hfits := table.fits
        have hroom := table.hasRoom
        rw [List.length_append, List.length_singleton]
        split_ifs <;> omega
      hasRoom := by
        have hroom := table.hasRoom
        split_ifs <;> omega })

/-- The value at the first pair with the key. -/
def objectMapTableGet (table : ObjectMapTable) (key : Object) : Option Object :=
  (table.pairs.find? fun pair => objectEquals pair.1 key).map Prod.snd

/-- The pairs behind the first one with the key move down a slot. -/
def objectMapTableRemove (table : ObjectMapTable) (key : Object) : Bool × ObjectMapTable :=
  match table.pairs.findIdx? fun pair => objectEquals pair.1 key with
  | some i =>
    (true, { table with
      pairs := (Collections.shiftDown table.pairs i (table.pairs.length - 1 - i)).take
        (table.pairs.length - 1)
      fits := by
        have hfits := table.fits
        have hle := List.length_take_le (table.pairs.length - 1)
          (Collections.shiftDown table.pairs i (table.pairs.length - 1 - i))
        omega })
  | none => (false, table)

def objectMapTableLen (table : ObjectMapTable) : Nat := table.pairs.length

/-- Every pair is set in a new table. -/
def objectMapTableCopy (src : ObjectMapTable) : ObjectMapTable :=
  src.pairs.foldl (fun dst pair => (objectMapTableSet dst pair.1 pair.2).2) objectMapTableCreate

/-- A map object of a copy of the table. -/
def objectMapTableToObject (table : ObjectMapTable) : Object :=
  .map (some (objectMapTableCopy table).pairs)

/-- Where memory lasts, every key is accepted. -/
theorem objectMapTableSet_fst (table : ObjectMapTable) (key value : Object) :
    (objectMapTableSet table key value).1 = true := by
  unfold objectMapTableSet
  split_ifs <;> rfl

/-! ## What an object holds -/

namespace Object

mutual

/-- An object with the buffers of its binaries reduced to their bytes. -/
def content : Object → Object
  | .bin (some b) => .bin (some ⟨some b.bytes⟩)
  | .array (some xs) => .array (some (contents xs))
  | .map (some ps) => .map (some (contentPairs ps))
  | o => o

def contents : List Object → List Object
  | [] => []
  | x :: xs => content x :: contents xs

def contentPairs : List (Object × Object) → List (Object × Object)
  | [] => []
  | (k, v) :: ps => (content k, content v) :: contentPairs ps

end

/-- Structural equality: the same kinds, payloads, elements and entries. -/
def Same (a b : Object) : Prop := a.content = b.content

/-- The object is no map with a payload. -/
def NoMap : Object → Prop
  | .map (some _) => False
  | _ => True

theorem contents_eq_map (xs : List Object) : contents xs = xs.map content := by
  induction xs with
  | nil => rfl
  | cons x xs ih => rw [contents, ih, List.map_cons]

/-- A copy holds what the object holds just when there is no map inside it. -/
theorem objectCopy_same (o : Object) : (objectCopy o).Same o ↔ o.Everywhere NoMap := by
  induction o using elementInduction with
  | step o ih =>
      rw [everywhere_iff]
      cases o with
      | bin b =>
          cases b with
          | none => simp [Same, objectCopy, NoMap, elements]
          | some b =>
              have hbytes : (rawBufferDup b).bytes = b.bytes := bytes_rawBufferNew b.data
              simp [Same, objectCopy, content, NoMap, elements, hbytes]
      | array xs =>
          cases xs with
          | none => simp [Same, objectCopy, NoMap, elements]
          | some xs =>
              change ∀ x ∈ xs, _ at ih
              have hxs : (objectCopy (array (some xs))).Same (array (some xs)) ↔
                  ∀ x ∈ xs, (objectCopy x).Same x := by
                unfold Same
                simp only [objectCopy, content, objectArrayCopy_eq_map, contents_eq_map,
                  List.map_map, Object.array.injEq, Option.some.injEq]
                exact List.map_inj_left
              rw [hxs]
              constructor
              · intro hsame
                exact ⟨trivial, fun x hx => (ih x hx).mp (hsame x hx)⟩
              · intro hmaps x hx
                exact (ih x hx).mpr (hmaps.2 x hx)
      | map ps => cases ps <;> simp [Same, objectCopy, content, NoMap, elements]
      | _ => simp [Same, objectCopy, NoMap, elements]

end Object

/-- The index a pair with the key has, or gets. -/
def ObjectMapTable.slot (table : ObjectMapTable) (key : Object) : Nat :=
  table.pairs.findIdx fun pair => objectEquals pair.1 key

private theorem getElem?_lookmap_findIdx {α : Type} (p : α → Bool) (g : α → α) (xs : List α) :
    (xs.lookmap fun x => if p x then some (g x) else none)[xs.findIdx p]? =
      xs[xs.findIdx p]?.map g := by
  induction xs with
  | nil => rfl
  | cons x xs ih =>
      rw [List.lookmap_cons, List.findIdx_cons]
      by_cases hx : p x
      · simp [hx]
      · simpa [hx] using ih

theorem not_has {table : ObjectMapTable} {key : Object} (h : ¬table.has key = true) :
    ∀ pair ∈ table.pairs, objectEquals pair.1 key = false := fun pair hpair => by
  simpa using List.any_eq_false.mp (Bool.eq_false_iff.mpr h) pair hpair

/-- A table that is set holds a copy of the value at the slot of the key. -/
theorem objectMapTableSet_stores (table : ObjectMapTable) (key value : Object) :
    (objectMapTableSet table key value).2.pairs[table.slot key]?.map Prod.snd =
      some (objectCopy value) := by
  unfold objectMapTableSet ObjectMapTable.slot
  by_cases hhas : table.has key
  · rw [if_pos hhas, getElem?_lookmap_findIdx (fun pair => objectEquals pair.1 key)
      (fun pair => (pair.1, objectCopy value))]
    have hlt : (table.pairs.findIdx fun pair => objectEquals pair.1 key) < table.pairs.length :=
      List.findIdx_lt_length.mpr (List.any_eq_true.mp hhas)
    rw [List.getElem?_eq_getElem hlt]
    rfl
  · have hlen : (table.pairs.findIdx fun pair => objectEquals pair.1 key) =
        table.pairs.length := List.findIdx_eq_length_of_false (not_has hhas)
    rw [if_neg hhas, hlen]
    simp [objectMapCreate]

/-- A copy, the element an array or a table stores for an object and the element of a copied
array hold what the object holds just when there is no map with a payload inside it. -/
theorem objectCopy_same_iff (o : Object) :
    ((objectCopy o).Same o ↔ o.Everywhere Object.NoMap) ∧
    (∀ xs, ∃ stored, (objectArrayAppend xs o)[xs.length]? = some stored ∧
      (stored.Same o ↔ o.Everywhere Object.NoMap)) ∧
    (∀ table key, ∃ stored,
      (objectMapTableSet table key o).2.pairs[table.slot key]?.map Prod.snd = some stored ∧
      (stored.Same o ↔ o.Everywhere Object.NoMap)) ∧
    ∀ (xs : List Object) (i : Nat), xs[i]? = some o →
      ∃ stored, (objectArrayCopy xs)[i]? = some stored ∧
        (stored.Same o ↔ o.Everywhere Object.NoMap) := by
  have hcopy := Object.objectCopy_same o
  refine ⟨hcopy, fun xs => ⟨_, ?_, hcopy⟩, fun table key => ⟨_, ?_, hcopy⟩,
    fun xs i hi => ⟨_, ?_, hcopy⟩⟩
  · rw [objectArrayAppend, List.getElem?_concat_length]
  · exact objectMapTableSet_stores table key o
  · rw [objectArrayCopy_eq_map, List.getElem?_map, hi, Option.map_some]

/-- The copy of the map object `{1: 2}` has lost its entry. -/
theorem objectCopy_drops_map : ¬∀ o, (objectCopy o).Same o := by
  intro hall
  have hsame := hall
    (objectMapTableToObject (objectMapTableSet objectMapTableCreate (.int 1) (.int 2)).2)
  simp [Object.Same, objectMapTableToObject, objectCopy, Object.content] at hsame

/-! ## Keys that are found -/

namespace Object

def isNaN : Object → Bool
  | .float bits => floatIsNaN bits
  | .double bits => doubleIsNaN bits
  | _ => false

/-- The kinds that `ObjectEquals` has a case for. -/
def comparable (o : Object) : Bool :=
  match objectGetType o with
  | .bool | .int | .uint | .float | .double | .str => true
  | _ => false

end Object

theorem objectEquals_copy {key : Object} (hnan : key.isNaN = false) (hkind : key.comparable) :
    objectEquals (objectCopy key) key = true := by
  cases key with
  | str s => cases s <;> simp [objectCopy, objectEquals]
  | float bits =>
      have hbits : floatIsNaN bits = false := hnan
      simp [objectCopy, objectEquals, floatEquals, hbits]
  | double bits =>
      have hbits : doubleIsNaN bits = false := hnan
      simp [objectCopy, objectEquals, doubleEquals, hbits]
  | bool v => simp [objectCopy, objectEquals]
  | int v => simp [objectCopy, objectEquals]
  | uint v => simp [objectCopy, objectEquals]
  | _ => cases hkind

/-- Nothing equals a key of another kind, not even itself. -/
theorem objectEquals_of_not_comparable {key : Object} (hkind : ¬key.comparable) (o : Object) :
    objectEquals o key = false := by
  cases key with
  | str s => exact absurd rfl hkind
  | float bits => exact absurd rfl hkind
  | double bits => exact absurd rfl hkind
  | bool v => exact absurd rfl hkind
  | int v => exact absurd rfl hkind
  | uint v => exact absurd rfl hkind
  | _ => unfold objectEquals; split <;> first | rfl | simp_all

private theorem find?_lookmap {α : Type} {p : α → Bool} {g : α → α} (hg : ∀ x, p (g x) = p x)
    {xs : List α} (hany : xs.any p) :
    ∃ x, (xs.lookmap fun x => if p x then some (g x) else none).find? p = some (g x) := by
  induction xs with
  | nil => cases hany
  | cons x xs ih =>
      rw [List.lookmap_cons]
      by_cases hx : p x
      · exact ⟨x, by simp [hx, hg]⟩
      · simpa [hx] using ih (by simpa [hx] using hany)

/-- A key that was set, and is known to be equal to its copy, is at hand with the value. -/
theorem objectMapTableGet_set {table : ObjectMapTable} {key value : Object}
    (hcopy : objectEquals (objectCopy key) key = true) :
    objectMapTableGet (objectMapTableSet table key value).2 key = some (objectCopy value) := by
  unfold objectMapTableGet objectMapTableSet
  by_cases hhas : table.has key
  · have hany : table.pairs.any (fun pair => objectEquals pair.1 key) = true := hhas
    obtain ⟨pair, hfind⟩ := find?_lookmap (g := fun pair => (pair.1, objectCopy value))
      (fun _ => rfl) hany
    rw [if_pos hhas, hfind]
    rfl
  · have hnone : (table.pairs.find? fun pair => objectEquals pair.1 key) = none := by
      rw [List.find?_eq_none]
      exact fun pair hpair => by simp [not_has hhas pair hpair]
    simp [if_neg hhas, List.find?_append, hnone, objectMapCreate, hcopy]

theorem has_eq_get (table : ObjectMapTable) (key : Object) :
    table.has key = (objectMapTableGet table key).isSome := by
  rw [objectMapTableGet, Option.isSome_map, ObjectMapTable.has, List.isSome_find?]

theorem objectMapTableRemove_fst (table : ObjectMapTable) (key : Object) :
    (objectMapTableRemove table key).1 = table.has key := by
  unfold objectMapTableRemove ObjectMapTable.has
  rw [← List.findIdx?_isSome]
  split
  · rename_i i hfind
    rw [hfind, Option.isSome_some]
  · rename_i hfind
    rw [hfind, Option.isSome_none]

/-- What is left is the pairs without the first one that has the key. -/
theorem objectMapTableRemove_pairs (table : ObjectMapTable) (key : Object) :
    (objectMapTableRemove table key).2.pairs =
      table.pairs.eraseP fun pair => objectEquals pair.1 key := by
  rw [List.eraseP_eq_eraseIdx]
  unfold objectMapTableRemove
  cases hfind : table.pairs.findIdx? fun pair => objectEquals pair.1 key with
  | none => rfl
  | some i =>
      have hlt := (List.findIdx?_eq_some_iff_getElem.mp hfind).1
      have hshift := Collections.take_shiftDown hlt (Nat.le_refl _)
      rwa [List.take_length] at hshift

/-- Setting a key that is there keeps the length. -/
theorem objectMapTableLen_set {table : ObjectMapTable} {key : Object} (hhas : table.has key)
    (value : Object) :
    objectMapTableLen (objectMapTableSet table key value).2 = objectMapTableLen table := by
  rw [objectMapTableSet, if_pos hhas, objectMapTableLen, List.length_lookmap]
  rfl

/-- If the key is accepted, its value is found again, the key is removed, and setting it once
more keeps the length. -/
def Retrieves (table : ObjectMapTable) (key value : Object) : Prop :=
  (objectMapTableSet table key value).1 = true →
    (∃ got, objectMapTableGet (objectMapTableSet table key value).2 key = some got ∧
      got.Same value) ∧
    (objectMapTableRemove (objectMapTableSet table key value).2 key).1 = true ∧
    ∀ again, objectMapTableLen
        (objectMapTableSet (objectMapTableSet table key value).2 key again).2 =
      objectMapTableLen (objectMapTableSet table key value).2

/-- A key, other than a NaN, is retrieved just when its kind can be compared. -/
theorem objectMapTable_retrieves_iff (table : ObjectMapTable) {key value : Object}
    (hnan : key.isNaN = false) (hvalue : value.Everywhere Object.NoMap) :
    Retrieves table key value ↔ key.comparable := by
  constructor
  · intro hset
    by_contra hkind
    obtain ⟨⟨got, hget, -⟩, -, -⟩ := hset (objectMapTableSet_fst table key value)
    have hnone : objectMapTableGet (objectMapTableSet table key value).2 key = none := by
      rw [objectMapTableGet, Option.map_eq_none_iff, List.find?_eq_none]
      exact fun pair _ => by simp [objectEquals_of_not_comparable hkind pair.1]
    rw [hnone] at hget
    cases hget
  · intro hkind _
    have hget : objectMapTableGet (objectMapTableSet table key value).2 key =
        some (objectCopy value) :=
      objectMapTableGet_set (objectEquals_copy hnan hkind)
    have hhas : (objectMapTableSet table key value).2.has key = true := by
      rw [has_eq_get, hget, Option.isSome_some]
    refine ⟨⟨_, hget, (Object.objectCopy_same value).mpr hvalue⟩, ?_, fun again =>
      objectMapTableLen_set hhas again⟩
    rw [objectMapTableRemove_fst, hhas]

/-- A string key is retrieved from a new table. -/
theorem objectMapTable_retrieves_iff_str :
    Retrieves objectMapTableCreate (.str (some (.ofString "a"))) (.int 1) := by
  have hvalue : (Object.int 1).Everywhere Object.NoMap := .leaf trivial rfl
  exact (objectMapTable_retrieves_iff objectMapTableCreate rfl hvalue).mpr rfl

/-- A nil key is accepted and lost. -/
theorem objectMapTable_loses_nil :
    ¬∀ (table : ObjectMapTable) (key value : Object), key.isNaN = false →
      value.Everywhere Object.NoMap → Retrieves table key value := by
  intro hall
  have hvalue : (Object.int 1).Everywhere Object.NoMap := .leaf trivial rfl
  obtain ⟨-, hremove, -⟩ := hall objectMapTableCreate .nil (.int 1) rfl hvalue (by decide)
  revert hremove
  decide

end Haze
