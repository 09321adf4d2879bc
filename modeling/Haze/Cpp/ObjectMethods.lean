import Haze.Cpp.RemoveIf

/-
  The methods of `Haze::Object`, on any object of a program and with references to any others.

  A method reads an argument where it comes to it, so what it has done before counts. An
  argument inside the object is gone after the object has been made an array or a map, or may be
  moved by `std::remove_if`; in an assignment the type comes before the value, and a source
  around the assigned object has changed by then. What the language does not define ends in
  `Stop.undefined`, and the methods end so exactly when an argument is not `Spared`, not
  `Assignable` or not `InReach`.
-/

open Msgpack

namespace Haze.Cpp

/-- `std::variant::index`. -/
def ValueType.index {Object : Type} : ValueType Object → Nat
  | .monostate => 0
  | .bool _ => 1
  | .int64 _ => 2
  | .uint64 _ => 3
  | .float _ => 4
  | .double _ => 5
  | .string _ => 6
  | .binaryBuffer _ => 7
  | .objectArray _ => 8
  | .objectMapTable _ => 9

/-- Whether a variant is copied before the one it is assigned to changes: a string or a vector
that takes the place of another alternative. -/
def ValueType.CopiedFirst {Object : Type} (new old : ValueType Object) : Prop :=
  old.index ≠ new.index ∧ 6 ≤ new.index

instance {Object : Type} (new old : ValueType Object) : Decidable (new.CopiedFirst old) :=
  inferInstanceAs (Decidable (_ ∧ _))

/-- The alternative that a type names. -/
def alternative : ObjectType → Nat
  | .und | .nil => 0
  | .bool => 1
  | .int => 2
  | .uint => 3
  | .float => 4
  | .double => 5
  | .str => 6
  | .bin => 7
  | .array => 8
  | .map => 9

theorem ObjectFields.Consistent.index {o : ObjectFields} (h : o.Consistent) :
    o.value.index = alternative o.type := by
  cases h <;> rfl

theorem ObjectFields.index_putAt {o x : ObjectFields} {r : List Hop} (hr : r ≠ []) :
    (o.putAt r x).value.index = o.value.index := by
  cases r with
  | nil => exact absurd rfl hr
  | cons hop r =>
      unfold ObjectFields.putAt
      cases o.inside hop with
      | none => rfl
      | some child =>
          obtain ⟨type, value⟩ := o
          cases value <;> cases hop <;> rfl

/-- What is left where an object has been moved from: no elements, and some string. -/
def ObjectFields.movedFrom (o : ObjectFields) (left : Bytes) : ObjectFields :=
  match o.value with
  | .string _ => { o with value := .string left }
  | .binaryBuffer _ => { o with value := .binaryBuffer [] }
  | .objectArray _ => { o with value := .objectArray [] }
  | .objectMapTable _ => { o with value := .objectMapTable [] }
  | _ => o

namespace Objects

variable (s : Objects)

/-! ## Methods -/

/-- The object that a method is called on. -/
def receiver (this : Place) : Except Stop ObjectFields :=
  if this.Mutable then given .absent (s.read this) else .error .absent

/-- The defaulted `operator=`: the type, then the value. The source is changed by the first where
it is around the object that is assigned to. -/
def assign (this src : Place) : Except Stop Objects := do
  let old ← receiver s this
  let source ← given .absent (s.read src)
  let s := s.put this { old with type := source.type }
  let source ← given .undefined (s.read src)
  if (this.Contains src ∨ src.Contains this) ∧ ¬source.value.CopiedFirst old.value then
    throw .undefined
  return s.put this source

def arrayAppend (this obj : Place) : Except Stop (Bool × Objects) := do
  let o ← receiver s this
  let _ ← given .absent (s.read obj)
  let o := o.asArray
  let s := s.put this o
  match o.value with
  | .objectArray arr =>
    let element ← given .undefined (s.read obj)
    return (true, s.put this { o with value := .objectArray (arr ++ [element]) })
  | _ => return (false, s)

def arrayGet (this : Place) (index : Nat) : Except Stop (Option Place) := do
  let o ← given .absent (s.read this)
  match o.value with
  | .objectArray arr =>
    if index ≥ arr.length then return none
    else return some (this.under [.element index])
  | _ => return none

def arrayRemove (this : Place) (index : Nat) : Except Stop (Bool × Objects) := do
  let o ← receiver s this
  match o.value with
  | .objectArray arr =>
    if index ≥ arr.length then return (false, s)
    else return (true, s.put this { o with value := .objectArray (arr.eraseIdx index) })
  | _ => return (false, s)

def mapSet (this key value : Place) : Except Stop (Bool × Objects) := do
  let o ← receiver s this
  let _ ← given .absent (s.read key)
  let _ ← given .absent (s.read value)
  let o := o.asMap
  let s := s.put this o
  match o.value with
  | .objectMapTable map =>
    let k ← given .undefined (s.read key)
    match ← given .badVariantAccess (ObjectFields.findKey k map) with
    | some i =>
      let s ← s.assign (this.under [.value i]) value
      return (true, s)
    | none =>
      let v ← given .undefined (s.read value)
      return (true, s.put this { o with value := .objectMapTable (map ++ [(k, v)]) })
  | _ => return (false, s)

def mapGet (this key : Place) : Except Stop (Option Place) := do
  let o ← given .absent (s.read this)
  let k ← given .absent (s.read key)
  match o.value with
  | .objectMapTable map =>
    let found ← given .badVariantAccess (ObjectFields.findKey k map)
    return found.map fun i => this.under [.value i]
  | _ => return none

def mapRemove (answers : Nat → Bool) (this key : Place) : Except Stop (Bool × Objects) := do
  let o ← receiver s this
  let k ← given .absent (s.read key)
  match o.value with
  | .objectMapTable map =>
    let kept ← removeIf k answers 0 0 (this.keyAt key) map
    if kept.length ≠ map.length then
      return (true, s.put this { o with value := .objectMapTable kept })
    else return (false, s)
  | _ => return (false, s)

/-! ## Arguments -/

/-- The argument is not inside an object that the method makes one of another type. -/
def Spared (this arg : Place) (type : ObjectType) : Prop :=
  this.Contains arg → ∀ o ∈ s.read this, o.type = type

/-- The source is not around the object that is assigned to, and a source inside it is copied
first. -/
def Assignable (this src : Place) : Prop :=
  ¬src.Contains this ∧
    (this.Contains src → ∀ old ∈ s.read this, ∀ new ∈ s.read src, new.value.CopiedFirst old.value)

def AllConsistent : Prop := ∀ o ∈ s, o.Consistent

/-- The call returns, and the objects are consistent. -/
def EndsWell {α : Type} (result : Except Stop (α × Objects)) : Prop :=
  ∃ a s', result = .ok (a, s') ∧ AllConsistent s'

variable {s : Objects} {this src arg key value : Place} {o old new x y : ObjectFields}

theorem receiver_eq (hthis : this.Mutable) (ho : s.read this = some o) :
    receiver s this = .ok o := by
  rw [receiver, if_pos hthis, ho]
  rfl

/-! ## Assignment -/

theorem assign_eq (hthis : this.Mutable) (hold : s.read this = some old)
    (hsrc : s.read src = some new) {new' : ObjectFields}
    (hread : (s.put this { old with type := new.type }).read src = some new') :
    s.assign this src =
      if (this.Contains src ∨ src.Contains this) ∧ ¬new'.value.CopiedFirst old.value then
        .error .undefined
      else .ok (s.put this new') := by
  unfold assign
  rw [receiver_eq hthis hold, hsrc]
  show (given .undefined ((s.put this { old with type := new.type }).read src) >>= _) = _
  rw [hread]
  show (if _ then _ else _) = _
  split_ifs
  · rfl
  · exact congrArg Except.ok put_put

theorem read_put_type {type : ObjectType} (hold : s.read this = some old)
    (hsrc : s.read src = some new) (hinside : this.Contains src ∨ this.Apart src) :
    (s.put this { old with type := type }).read src = some new := by
  obtain hinside | hapart := hinside
  · obtain ⟨r, hr, rfl⟩ := Place.contains_iff.mp hinside
    rw [read_under, hold] at hsrc
    rw [read_put_below hold, ← hsrc]
    cases r with
    | nil => exact absurd rfl hr
    | cons hop r => rfl
  · rw [read_put_apart hapart, hsrc]

/-- A source around the object that is assigned to has been changed: there its own type stands
over the payload of the other. -/
theorem not_consistent_putAt_type {r : List Hop} (hr : r ≠ []) (hnew : new.Consistent)
    (hold : new.atPath r = some old)
    (hcopied : (new.putAt r { old with type := new.type }).value.CopiedFirst old.value) :
    ¬(new.putAt r { old with type := new.type }).Consistent := by
  intro hgood
  have hmixed := hgood.atPath (ObjectFields.atPath_putAt_self hold)
  refine hcopied.1 ?_
  rw [ObjectFields.index_putAt hr, hnew.index]
  exact hmixed.index

/-- An assignment ends well exactly when its source is neither around the object that is assigned
to, nor inside it and not copied first. -/
theorem assign_iff (hs : AllConsistent s) (hthis : this.Mutable) (hold : s.read this = some old)
    (hsrc : s.read src = some new) :
    (∃ s', s.assign this src = .ok s' ∧ AllConsistent s') ↔ Assignable s this src := by
  have hnew := read_consistent hs hsrc
  obtain rfl | hinside | haround | hapart := this.eq_or_contains_or_apart src
  · obtain rfl := Option.some.inj (hold.symm.trans hsrc)
    obtain ⟨type, value⟩ := old
    have hself := Place.not_contains_self src
    rw [assign_eq hthis hold hsrc (read_put_self hold),
      if_neg fun h => absurd h.1 (not_or_intro hself hself)]
    exact iff_of_true ⟨_, rfl, put_consistent hs hnew⟩ ⟨hself, fun h => absurd h hself⟩
  · rw [assign_eq hthis hold hsrc (read_put_type hold hsrc (.inl hinside))]
    split_ifs with hcopied
    · refine iff_of_false (by rintro ⟨s', h, -⟩; cases h) fun h => hcopied.2 ?_
      exact h.2 hinside old hold new hsrc
    · refine iff_of_true ⟨_, rfl, put_consistent hs hnew⟩
        ⟨Place.not_contains_of_contains hinside, fun _ old' hold' new' hnew' => ?_⟩
      obtain rfl := Option.some.inj (hold.symm.trans hold')
      obtain rfl := Option.some.inj (hsrc.symm.trans hnew')
      exact not_not.mp fun h => hcopied ⟨.inl hinside, h⟩
  · obtain ⟨r, hr, rfl⟩ := Place.contains_iff.mp haround
    have hold' := hold
    rw [read_under, hsrc] at hold'
    have hread := read_put_above (s := s) (p := src) (r := r) (x := { old with type := new.type })
    rw [hsrc] at hread
    rw [assign_eq hthis hold hsrc hread]
    refine iff_of_false ?_ fun h => h.1 haround
    rintro ⟨s', h, hs'⟩
    split_ifs at h with hcopied
    cases h
    have hgood := read_consistent hs' (read_put_self hold)
    refine not_consistent_putAt_type hr hnew hold' ?_ hgood
    exact not_not.mp fun h => hcopied ⟨.inr haround, h⟩
  · rw [assign_eq hthis hold hsrc (read_put_type hold hsrc (.inr hapart)),
      if_neg fun h => absurd h.1 (not_or_intro hapart.not_contains hapart.not_contained)]
    exact iff_of_true ⟨_, rfl, put_consistent hs hnew⟩
      ⟨hapart.not_contained, fun h => absurd h hapart.not_contains⟩

/-! ## Arrays and maps -/

theorem read_put_of_spared {type : ObjectType} {o' : ObjectFields} (ho : s.read this = some o)
    (hsame : o.type = type → o' = o) (hx : s.read arg = some x) (h : Spared s this arg type) :
    ∃ x', (s.put this o').read arg = some x' := by
  by_cases hinside : this.Contains arg
  · rw [hsame (h hinside o ho), put_read ho]
    exact ⟨x, hx⟩
  · rw [← Option.isSome_iff_exists]
    exact read_put_isSome ho (hx ▸ rfl) hinside

theorem read_put_of_not_spared {type : ObjectType} {o' : ObjectFields} (ho : s.read this = some o)
    (hempty : o.type ≠ type → ∀ hop, o'.inside hop = none) (h : ¬Spared s this arg type) :
    (s.put this o').read arg = none := by
  unfold Spared at h
  push Not at h
  obtain ⟨hinside, o'', ho'', htype⟩ := h
  obtain rfl := Option.some.inj (ho.symm.trans ho'')
  obtain ⟨r, hr, rfl⟩ := Place.contains_iff.mp hinside
  rw [read_put_below ho]
  cases r with
  | nil => exact absurd rfl hr
  | cons hop r => rw [ObjectFields.atPath, hempty htype hop]; rfl

theorem arrayAppend_eq {arr : List ObjectFields} (hthis : this.Mutable)
    (ho : s.read this = some o) (hx : s.read arg = some x)
    (harray : o.asArray = .ofArray arr) :
    s.arrayAppend this arg = (given .undefined ((s.put this (.ofArray arr)).read arg)).map
      fun element => (true, s.put this (.ofArray (arr ++ [element]))) := by
  unfold arrayAppend
  rw [receiver_eq hthis ho, hx]
  show (match o.asArray.value with | .objectArray arr => _ | _ => _) = _
  rw [harray]
  show (given .undefined ((s.put this (.ofArray arr)).read arg) >>= _) = _
  cases (s.put this (.ofArray arr)).read arg with
  | none => rfl
  | some element => exact congrArg (fun s' => Except.ok (true, s')) put_put

/-- `ArrayAppend` succeeds, unless its argument is inside an object that it makes an array. -/
theorem arrayAppend_of_spared (hs : AllConsistent s) (hthis : this.Mutable)
    (ho : s.read this = some o) (hx : s.read arg = some x) (h : Spared s this arg .array) :
    ∃ s', s.arrayAppend this arg = .ok (true, s') ∧ AllConsistent s' := by
  obtain ⟨arr, harray, harr⟩ := (read_consistent hs ho).asArray
  obtain ⟨x', hx'⟩ := read_put_of_spared ho ObjectFields.asArray_of_type hx h
  rw [harray] at hx'
  rw [arrayAppend_eq hthis ho hx harray, hx']
  have hgood := read_consistent (put_consistent hs (.array harr)) hx'
  refine ⟨_, rfl, put_consistent hs (.array ?_)⟩
  exact List.forall_mem_append.mpr ⟨harr, List.forall_mem_singleton.mpr hgood⟩

theorem arrayAppend_of_not_spared (hs : AllConsistent s) (hthis : this.Mutable)
    (ho : s.read this = some o) (hx : s.read arg = some x) (h : ¬Spared s this arg .array) :
    s.arrayAppend this arg = .error .undefined := by
  obtain ⟨arr, harray, -⟩ := (read_consistent hs ho).asArray
  have hgone := read_put_of_not_spared ho ObjectFields.inside_asArray h
  rw [harray] at hgone
  rw [arrayAppend_eq hthis ho hx harray, hgone]
  rfl

theorem arrayRemove_consistent (hs : AllConsistent s) (hthis : this.Mutable)
    (ho : s.read this = some o) (index : Nat) :
    ∃ ok s', s.arrayRemove this index = .ok (ok, s') ∧ AllConsistent s' := by
  unfold arrayRemove
  rw [receiver_eq hthis ho]
  cases read_consistent hs ho with
  | @array arr harr =>
      show ∃ ok s', (if index ≥ arr.length then _ else _) = _ ∧ _
      split_ifs with hindex
      · exact ⟨false, s, rfl, hs⟩
      · refine ⟨true, _, rfl, put_consistent hs (.array fun x hx => ?_)⟩
        exact harr x (List.mem_of_mem_eraseIdx hx)
  | _ => exact ⟨false, s, rfl, hs⟩

theorem arrayGet_total (ho : s.read this = some o) (index : Nat) :
    ∃ p, s.arrayGet this index = .ok p := by
  unfold arrayGet
  rw [ho]
  obtain ⟨type, value⟩ := o
  cases value with
  | objectArray arr =>
      by_cases hindex : index ≥ arr.length
      · exact ⟨none, if_pos hindex⟩
      · exact ⟨some (this.under [.element index]), if_neg hindex⟩
  | _ => exact ⟨none, rfl⟩

/-- A key is looked for without an exception. -/
theorem mapGet_total (hs : AllConsistent s) (ho : s.read this = some o)
    (hkey : s.read key = some x) : ∃ found, s.mapGet this key = .ok found := by
  unfold mapGet
  rw [ho, hkey]
  cases read_consistent hs ho with
  | @map map hkeys hvalues =>
      show ∃ found, (given .badVariantAccess (ObjectFields.findKey x map) >>= _) = _
      obtain hnone | ⟨i, entry, hfound, -⟩ :=
        ObjectFields.findKey_spec (read_consistent hs hkey) hkeys
      · rw [hnone]
        exact ⟨none, rfl⟩
      · rw [hfound]
        exact ⟨some (this.under [.value i]), rfl⟩
  | _ => exact ⟨none, rfl⟩

theorem mapGet_eq_some {slot : Place} (hthis : this.Mutable) (ho : s.read this = some o)
    (hkey : s.read key = some x) (hget : s.mapGet this key = .ok (some slot))
    (hs : AllConsistent s) :
    ∃ map i old, o = .ofMap map ∧ ObjectFields.findKey x map = some (some i) ∧
      slot = this.under [.value i] ∧ slot.Mutable ∧ s.read slot = some old := by
  unfold mapGet at hget
  rw [ho, hkey] at hget
  cases read_consistent hs ho with
  | @map map hkeys hvalues =>
      have hget : (given .badVariantAccess (ObjectFields.findKey x map) >>= fun found =>
        .ok (found.map fun i => this.under [.value i])) = .ok (some slot) := hget
      obtain hnone | ⟨i, entry, hfound, hentry⟩ :=
        ObjectFields.findKey_spec (read_consistent hs hkey) hkeys
      · rw [hnone] at hget
        cases hget
      · rw [hfound] at hget
        cases hget
        refine ⟨map, i, entry.2, rfl, hfound, rfl, ?_, ?_⟩
        · exact List.forall_mem_append.mpr ⟨hthis, List.forall_mem_singleton.mpr rfl⟩
        · rw [read_under, ho]
          show (map[i]?.map Prod.snd).bind _ = _
          rw [hentry]
          rfl
  | _ => cases hget

theorem mapSet_eq {map : List MapEntry} (hthis : this.Mutable) (ho : s.read this = some o)
    (hkey : s.read key = some x) (hvalue : s.read value = some y) (hmap : o.asMap = .ofMap map) :
    s.mapSet this key value = (do
      let k ← given .undefined ((s.put this (.ofMap map)).read key)
      match ← given .badVariantAccess (ObjectFields.findKey k map) with
      | some i =>
        let s' ← (s.put this (.ofMap map)).assign (this.under [.value i]) value
        return (true, s')
      | none =>
        let v ← given .undefined ((s.put this (.ofMap map)).read value)
        return (true, s.put this (.ofMap (map ++ [(k, v)])))) := by
  unfold mapSet
  rw [receiver_eq hthis ho, hkey, hvalue]
  show (match o.asMap.value with | .objectMapTable map => _ | _ => _) = _
  rw [hmap]
  simp only [ObjectFields.ofMap, put_put]

/-- `MapSet` under a key that is found is an assignment. -/
theorem mapSet_found {slot : Place} (hs : AllConsistent s) (hthis : this.Mutable)
    (ho : s.read this = some o) (hkey : s.read key = some x) (hvalue : s.read value = some y)
    (hget : s.mapGet this key = .ok (some slot)) :
    s.mapSet this key value = (s.assign slot value).map fun s' => (true, s') := by
  obtain ⟨map, i, old, rfl, hfound, rfl, -, -⟩ := mapGet_eq_some hthis ho hkey hget hs
  rw [mapSet_eq hthis ho hkey hvalue rfl, put_read ho, hkey]
  show (given .badVariantAccess (ObjectFields.findKey x map) >>= _) = _
  rw [hfound]
  show (s.assign _ value >>= _) = _
  cases s.assign (this.under [.value i]) value <;> rfl

/-- The table in which no entry has the key, after the object has been made a map. -/
theorem findKey_asMap {map : List MapEntry} (ho : s.read this = some o)
    (hmap : o.asMap = .ofMap map) (hget : s.mapGet this key = .ok none) {k : ObjectFields}
    (hk : (s.put this (.ofMap map)).read key = some k) :
    ObjectFields.findKey k map = some none := by
  by_cases htype : o.type = .map
  · obtain rfl : o = .ofMap map := (ObjectFields.asMap_of_type htype).symm.trans hmap
    rw [put_read ho] at hk
    unfold mapGet at hget
    rw [ho, hk] at hget
    have hget : (given .badVariantAccess (ObjectFields.findKey k map) >>= fun found =>
      .ok (found.map fun i => this.under [.value i])) = .ok none := hget
    cases hfound : ObjectFields.findKey k map with
    | none =>
        rw [hfound] at hget
        cases hget
    | some found =>
        rw [hfound] at hget
        cases found with
        | none => rfl
        | some i => cases hget
  · rw [ObjectFields.asMap, if_pos htype] at hmap
    cases hmap
    rfl

/-- Under a key that is not found the value comes behind all entries. -/
theorem mapSet_not_found (hs : AllConsistent s) (hthis : this.Mutable)
    (ho : s.read this = some o) (hkey : s.read key = some x) (hvalue : s.read value = some y)
    (hget : s.mapGet this key = .ok none) (hspared : Spared s this key .map)
    (hspared' : Spared s this value .map) :
    ∃ s', s.mapSet this key value = .ok (true, s') ∧ AllConsistent s' := by
  obtain ⟨map, hmap, hkeys, hvalues⟩ := (read_consistent hs ho).asMap
  obtain ⟨k, hk⟩ := read_put_of_spared ho ObjectFields.asMap_of_type hkey hspared
  obtain ⟨v, hv⟩ := read_put_of_spared ho ObjectFields.asMap_of_type hvalue hspared'
  rw [hmap] at hk hv
  have hs' := put_consistent (p := this) hs (.map hkeys hvalues)
  rw [mapSet_eq hthis ho hkey hvalue hmap, hk]
  show ∃ s', (given .badVariantAccess (ObjectFields.findKey k map) >>= _) = _ ∧ _
  rw [findKey_asMap ho hmap hget hk, hv]
  refine ⟨_, rfl, put_consistent hs (.map ?_ ?_)⟩
  · exact List.forall_mem_append.mpr
      ⟨hkeys, List.forall_mem_singleton.mpr (read_consistent hs' hk)⟩
  · exact List.forall_mem_append.mpr
      ⟨hvalues, List.forall_mem_singleton.mpr (read_consistent hs' hv)⟩

theorem mapSet_of_not_spared (hs : AllConsistent s) (hthis : this.Mutable)
    (ho : s.read this = some o) (hkey : s.read key = some x) (hvalue : s.read value = some y)
    (hget : s.mapGet this key = .ok none)
    (h : ¬(Spared s this key .map ∧ Spared s this value .map)) :
    s.mapSet this key value = .error .undefined := by
  obtain ⟨map, hmap, hkeys, hvalues⟩ := (read_consistent hs ho).asMap
  rw [mapSet_eq hthis ho hkey hvalue hmap]
  by_cases hspared : Spared s this key .map
  · obtain ⟨k, hk⟩ := read_put_of_spared ho ObjectFields.asMap_of_type hkey hspared
    have hgone := read_put_of_not_spared ho ObjectFields.inside_asMap (not_and.mp h hspared)
    rw [hmap] at hk hgone
    rw [hk]
    show (given .badVariantAccess (ObjectFields.findKey k map) >>= _) = _
    rw [findKey_asMap ho hmap hget hk, hgone]
    rfl
  · have hgone := read_put_of_not_spared ho ObjectFields.inside_asMap hspared
    rw [hmap] at hgone
    rw [hgone]
    rfl

/-- The arguments of `MapSet` are not lost while the object is made a map, and the value may be
assigned where the key is found. -/
def Settable (s : Objects) (this key value : Place) : Prop :=
  Spared s this key .map ∧ Spared s this value .map ∧
    ∀ slot, s.mapGet this key = .ok (some slot) → Assignable s slot value

/-- `MapSet` succeeds exactly when its arguments are settable. -/
theorem mapSet_iff (hs : AllConsistent s) (hthis : this.Mutable) (ho : s.read this = some o)
    (hkey : s.read key = some x) (hvalue : s.read value = some y) {ok : Bool} :
    (∃ s', s.mapSet this key value = .ok (ok, s') ∧ AllConsistent s') ↔
      ok = true ∧ Settable s this key value := by
  obtain ⟨found, hget⟩ := mapGet_total hs ho hkey
  cases found with
  | none =>
      by_cases hspared : Spared s this key .map ∧ Spared s this value .map
      · obtain ⟨s', hset, hs'⟩ :=
          mapSet_not_found hs hthis ho hkey hvalue hget hspared.1 hspared.2
        have hnone : ∀ slot, s.mapGet this key = .ok (some slot) → Assignable s slot value := by
          intro slot hslot
          cases hget.symm.trans hslot
        rw [hset]
        constructor
        · intro ⟨s'', heq, _⟩
          cases heq
          exact ⟨rfl, hspared.1, hspared.2, hnone⟩
        · intro ⟨htrue, _⟩
          exact ⟨s', htrue ▸ rfl, hs'⟩
      · rw [mapSet_of_not_spared hs hthis ho hkey hvalue hget hspared]
        refine iff_of_false (fun ⟨s', heq, _⟩ => ?_) fun h => hspared ⟨h.2.1, h.2.2.1⟩
        cases heq
  | some slot =>
      obtain ⟨map, i, old, rfl, -, -, hslot, hold⟩ := mapGet_eq_some hthis ho hkey hget hs
      have hassign := assign_iff hs hslot hold hvalue
      have hspared : ∀ arg, Spared s this arg .map := by
        intro arg _ o' ho'
        obtain rfl := Option.some.inj (ho.symm.trans ho')
        rfl
      rw [mapSet_found hs hthis ho hkey hvalue hget]
      constructor
      · intro ⟨s', heq, hs'⟩
        cases hresult : s.assign slot value with
        | error stop =>
            rw [hresult] at heq
            cases heq
        | ok s'' =>
            rw [hresult] at heq
            cases heq
            refine ⟨rfl, hspared key, hspared value, fun slot' hslot' => ?_⟩
            cases hget.symm.trans hslot'
            exact hassign.mp ⟨s', hresult, hs'⟩
      · intro ⟨htrue, _, _, hassignable⟩
        obtain ⟨s', hresult, hs'⟩ := hassign.mpr (hassignable slot hget)
        rw [hresult]
        exact ⟨s', htrue ▸ rfl, hs'⟩

/-- A key below an entry of the table is not overwritten with the entry before it has been
compared with all. -/
def InReach (s : Objects) (this key : Place) : Prop :=
  ∀ j, this.keyAt key = .entry j true →
    ∀ o ∈ s.read this, ∀ map, o.value = .objectMapTable map →
      ∀ k ∈ s.read key, ¬Overwritten k map j

theorem keyAt_ne_gone (this key : Place) : this.keyAt key ≠ .gone := by
  unfold Place.keyAt
  split_ifs
  · nofun
  · split <;> nofun
  · nofun

/-- `MapRemove` ends well exactly when its key stays within reach. -/
theorem mapRemove_iff (hs : AllConsistent s) (hthis : this.Mutable) (ho : s.read this = some o)
    (hkey : s.read key = some x) {answers : Nat → Bool} :
    (∃ ok s', s.mapRemove answers this key = .ok (ok, s') ∧ AllConsistent s') ↔
      InReach s this key := by
  unfold mapRemove
  rw [receiver_eq hthis ho, hkey]
  cases hgood : read_consistent hs ho with
  | @map map hkeys hvalues =>
      have hremove := removeIf_iff answers (read_consistent hs hkey) hkeys
        (keyAt_ne_gone this key)
      have hreach : (∀ j, this.keyAt key = .entry j true → ¬Overwritten x map j) ↔
          InReach s this key := by
        constructor
        · intro h j hj o ho' map' hmap' k hk
          obtain rfl := Option.some.inj (ho.symm.trans ho')
          obtain rfl := Option.some.inj (hkey.symm.trans hk)
          cases hmap'
          exact h j hj
        · intro h j hj
          exact h j hj _ ho map rfl x hkey
      rw [← hreach, ← hremove]
      show (∃ ok s', (removeIf x answers 0 0 (this.keyAt key) map >>= fun kept =>
        if kept.length ≠ map.length then .ok (true, s.put this (.ofMap kept))
        else .ok (false, s)) = .ok (ok, s') ∧ _) ↔ _
      constructor
      · intro ⟨ok, s', heq, _⟩
        obtain hkept | hundefined := removeIf_spec answers 0 0 (this.keyAt key)
          (read_consistent hs hkey) hkeys
        · exact hkept
        · rw [hundefined] at heq
          cases heq
      · intro ⟨kept, hkept, hsub⟩
        rw [hkept]
        by_cases hlen : kept.length ≠ map.length
        · refine ⟨true, _, if_pos hlen, put_consistent hs (.map ?_ ?_)⟩
          · exact fun entry hentry => hkeys entry (hsub.subset hentry)
          · exact fun entry hentry => hvalues entry (hsub.subset hentry)
        · exact ⟨false, s, if_neg hlen, hs⟩
  | _ =>
      refine iff_of_true ⟨false, s, rfl, hs⟩ fun j _ o' ho' map' hmap' => ?_
      obtain rfl := Option.some.inj (ho.symm.trans ho')
      cases hmap'

end Objects

end Haze.Cpp
