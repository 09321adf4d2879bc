import Haze.Cpp.ObjectVariant

/-
  Where an object is: in a variable of the program, or inside another object.

  `ArrayGet` and `MapGet` point into an object, and `GetValue` refers to all of its payload.
  A method is therefore called on any object of a tree, and its arguments may be anywhere in
  it: inside the object, around it, or apart from it. A `Place` is a variable with the way from
  there, and three lemmas say what a write to one place does to another: `read_put_apart`,
  `read_put_below` and `read_put_above`.
-/

namespace Haze.Cpp

/-! ## Steps into an object -/

/-- From an object to an element of its array, or a key or a value of its table. -/
inductive Hop where
  | element (index : Nat)
  | key (index : Nat)
  | value (index : Nat)
  deriving DecidableEq

/-- A program has keys as `const` only: `MapGet` points to values, and `GetValue` is `const`. -/
def Hop.isConst : Hop → Bool
  | .key _ => true
  | _ => false

namespace ObjectFields

/-- The object that a hop leads to. -/
def inside (o : ObjectFields) (hop : Hop) : Option ObjectFields :=
  match o.value, hop with
  | .objectArray arr, .element i => arr[i]?
  | .objectMapTable map, .key i => map[i]?.map Prod.fst
  | .objectMapTable map, .value i => map[i]?.map Prod.snd
  | _, _ => none

def putInside (o : ObjectFields) (hop : Hop) (x : ObjectFields) : ObjectFields :=
  match o.value, hop with
  | .objectArray arr, .element i =>
    { o with value := .objectArray (arr.modify i fun _ => x) }
  | .objectMapTable map, .key i =>
    { o with value := .objectMapTable (map.modify i fun entry => (x, entry.2)) }
  | .objectMapTable map, .value i =>
    { o with value := .objectMapTable (map.modify i fun entry => (entry.1, x)) }
  | _, _ => o

variable {o x y : ObjectFields} {hop hop' : Hop}

theorem inside_putInside_self (h : o.inside hop = some y) :
    (o.putInside hop x).inside hop = some x := by
  obtain ⟨type, value⟩ := o
  cases value with
  | objectArray arr =>
      cases hop with
      | element i =>
          have harr : arr[i]? = some y := h
          show (arr.modify i fun _ => x)[i]? = some x
          rw [List.getElem?_modify_eq, harr]
          rfl
      | _ => cases h
  | objectMapTable map =>
      cases hop with
      | element i => cases h
      | key i =>
          obtain ⟨entry, hentry, -⟩ := Option.map_eq_some_iff.mp h
          show (map.modify i fun entry => (x, entry.2))[i]?.map Prod.fst = some x
          rw [List.getElem?_modify_eq, hentry]
          rfl
      | value i =>
          obtain ⟨entry, hentry, -⟩ := Option.map_eq_some_iff.mp h
          show (map.modify i fun entry => (entry.1, x))[i]?.map Prod.snd = some x
          rw [List.getElem?_modify_eq, hentry]
          rfl
  | _ => cases h

/-- A key and its value are apart, and so are two entries. -/
theorem inside_putInside_of_ne (h : hop ≠ hop') :
    (o.putInside hop x).inside hop' = o.inside hop' := by
  obtain ⟨type, value⟩ := o
  cases value with
  | objectArray arr =>
      cases hop <;> cases hop' <;> try rfl
      case element i j =>
        have hij : i ≠ j := fun hij => h (congrArg Hop.element hij)
        exact List.getElem?_modify_ne _ arr hij
  | objectMapTable map =>
      cases hop with
      | element i => rfl
      | key i =>
          cases hop' with
          | element j => rfl
          | key j =>
              have hij : i ≠ j := fun hij => h (congrArg Hop.key hij)
              exact congrArg (Option.map Prod.fst) (List.getElem?_modify_ne _ map hij)
          | value j =>
              show (map.modify i fun entry => (x, entry.2))[j]?.map Prod.snd = _
              rw [List.getElem?_modify, Option.map_eq_map, Option.map_map]
              refine congrArg (map[j]?.map ·) (funext fun entry => ?_)
              show (if i = j then (x, entry.2) else entry).2 = entry.2
              split_ifs <;> rfl
      | value i =>
          cases hop' with
          | element j => rfl
          | key j =>
              show (map.modify i fun entry => (entry.1, x))[j]?.map Prod.fst = _
              rw [List.getElem?_modify, Option.map_eq_map, Option.map_map]
              refine congrArg (map[j]?.map ·) (funext fun entry => ?_)
              show (if i = j then (entry.1, x) else entry).1 = entry.1
              split_ifs <;> rfl
          | value j =>
              have hij : i ≠ j := fun hij => h (congrArg Hop.value hij)
              exact congrArg (Option.map Prod.snd) (List.getElem?_modify_ne _ map hij)
  | _ => rfl

theorem modify_of_fixed {α : Type} {f : α → α} {i : Nat} {xs : List α}
    (h : ∀ x ∈ xs[i]?, f x = x) : xs.modify i f = xs := by
  refine List.ext_getElem? fun j => ?_
  rw [List.getElem?_modify]
  by_cases hij : i = j
  · obtain rfl := hij
    rw [Option.map_eq_map, Option.map_congr (g := id) fun x hx => (if_pos rfl).trans (h x hx)]
    exact Option.map_id_apply
  · simp only [if_neg hij, Option.map_eq_map, Option.map_id']

theorem putInside_inside (h : o.inside hop = some x) : o.putInside hop x = o := by
  obtain ⟨type, value⟩ := o
  cases value with
  | objectArray arr =>
      cases hop with
      | element i =>
          have hfixed : arr.modify i (fun _ => x) = arr :=
            modify_of_fixed fun y hy => Option.some.inj (h.symm.trans hy)
          show (⟨type, .objectArray (arr.modify i fun _ => x)⟩ : ObjectFields) = _
          rw [hfixed]
      | _ => rfl
  | objectMapTable map =>
      cases hop with
      | element i => rfl
      | key i =>
          obtain ⟨entry, hentry, rfl⟩ := Option.map_eq_some_iff.mp h
          have hfixed : map.modify i (fun e => (entry.1, e.2)) = map :=
            modify_of_fixed fun e he => Option.some.inj (hentry.symm.trans he) ▸ rfl
          show ({ type := type, value := .objectMapTable (map.modify i _) } : ObjectFields) = _
          rw [hfixed]
      | value i =>
          obtain ⟨entry, hentry, rfl⟩ := Option.map_eq_some_iff.mp h
          have hfixed : map.modify i (fun e => (e.1, entry.2)) = map :=
            modify_of_fixed fun e he => Option.some.inj (hentry.symm.trans he) ▸ rfl
          show ({ type := type, value := .objectMapTable (map.modify i _) } : ObjectFields) = _
          rw [hfixed]
  | _ => rfl

theorem putInside_putInside : (o.putInside hop x).putInside hop y = o.putInside hop y := by
  obtain ⟨type, value⟩ := o
  cases value with
  | objectArray arr =>
      cases hop with
      | element i =>
        exact congrArg (fun arr => ({ type := type, value := .objectArray arr } : ObjectFields))
          (List.modify_modify_eq _ _ i arr)
      | _ => rfl
  | objectMapTable map =>
      cases hop with
      | element i => rfl
      | key i =>
        exact congrArg (fun map => ({ type := type, value := .objectMapTable map } : ObjectFields))
          (List.modify_modify_eq _ _ i map)
      | value i =>
        exact congrArg (fun map => ({ type := type, value := .objectMapTable map } : ObjectFields))
          (List.modify_modify_eq _ _ i map)
  | _ => rfl

theorem Consistent.inside (ho : o.Consistent) (h : o.inside hop = some x) : x.Consistent := by
  cases ho with
  | array harr =>
      cases hop with
      | element i => exact harr x (List.mem_of_getElem? h)
      | _ => cases h
  | map hkeys hvalues =>
      cases hop with
      | element i => cases h
      | key i =>
          obtain ⟨entry, hentry, rfl⟩ := Option.map_eq_some_iff.mp h
          exact hkeys entry (List.mem_of_getElem? hentry)
      | value i =>
          obtain ⟨entry, hentry, rfl⟩ := Option.map_eq_some_iff.mp h
          exact hvalues entry (List.mem_of_getElem? hentry)
  | _ => cases h

theorem forall_mem_modify {α : Type} {P : α → Prop} {f : α → α} {xs : List α} {i : Nat}
    (h : ∀ x ∈ xs, P x) (hf : ∀ x ∈ xs, P (f x)) : ∀ x ∈ xs.modify i f, P x := by
  intro x hx
  obtain ⟨j, hj⟩ := List.getElem?_of_mem hx
  rw [List.getElem?_modify] at hj
  obtain ⟨y, hy, rfl⟩ := Option.map_eq_some_iff.mp hj
  have hmem := List.mem_of_getElem? hy
  split_ifs
  · exact hf y hmem
  · exact h y hmem

theorem Consistent.putInside (ho : o.Consistent) (hx : x.Consistent) :
    (o.putInside hop x).Consistent := by
  cases ho with
  | array harr =>
      cases hop with
      | element i => exact .array (forall_mem_modify harr fun _ _ => hx)
      | _ => exact .array harr
  | map hkeys hvalues =>
      cases hop with
      | element i => exact .map hkeys hvalues
      | key i =>
          exact .map (forall_mem_modify hkeys fun _ _ => hx) (forall_mem_modify hvalues hvalues)
      | value i =>
          exact .map (forall_mem_modify hkeys hkeys) (forall_mem_modify hvalues fun _ _ => hx)
  | _ => constructor

theorem asArray_of_type (h : o.type = .array) : o.asArray = o := if_neg (not_not.mpr h)

theorem asMap_of_type (h : o.type = .map) : o.asMap = o := if_neg (not_not.mpr h)

theorem inside_asArray (h : o.type ≠ .array) (hop : Hop) : o.asArray.inside hop = none := by
  rw [asArray, if_pos h]
  cases hop <;> rfl

theorem inside_asMap (h : o.type ≠ .map) (hop : Hop) : o.asMap.inside hop = none := by
  rw [asMap, if_pos h]
  cases hop <;> rfl

/-! ## Paths -/

def atPath (o : ObjectFields) : List Hop → Option ObjectFields
  | [] => some o
  | hop :: path => do (← o.inside hop).atPath path

/-- The object with `x` at the end of the path. -/
def putAt (o : ObjectFields) (path : List Hop) (x : ObjectFields) : ObjectFields :=
  match path with
  | [] => x
  | hop :: path =>
    match o.inside hop with
    | some child => o.putInside hop (child.putAt path x)
    | none => o

variable {p q : List Hop}

theorem atPath_cons (h : o.inside hop = some y) : o.atPath (hop :: p) = y.atPath p := by
  rw [atPath, h]
  rfl

theorem atPath_cons_eq_some (h : o.atPath (hop :: p) = some x) :
    ∃ child, o.inside hop = some child ∧ child.atPath p = some x :=
  Option.bind_eq_some_iff.mp h

theorem putAt_cons (h : o.inside hop = some y) :
    o.putAt (hop :: p) x = o.putInside hop (y.putAt p x) := by
  rw [putAt, h]

theorem atPath_append : o.atPath (p ++ q) = (o.atPath p).bind (·.atPath q) := by
  induction p generalizing o with
  | nil => rfl
  | cons hop p ih =>
      cases hinside : o.inside hop with
      | none => rw [List.cons_append, atPath, atPath, hinside]; rfl
      | some child => rw [List.cons_append, atPath_cons hinside, atPath_cons hinside, ih]

theorem putAt_atPath (h : o.atPath p = some x) : o.putAt p x = o := by
  induction p generalizing o with
  | nil => exact (Option.some.inj h).symm
  | cons hop p ih =>
      obtain ⟨child, hchild, h⟩ := atPath_cons_eq_some h
      rw [putAt_cons hchild, ih h, putInside_inside hchild]

theorem putAt_putAt : (o.putAt p x).putAt p y = o.putAt p y := by
  induction p generalizing o with
  | nil => rfl
  | cons hop p ih =>
      cases hinside : o.inside hop with
      | none => simp only [putAt, hinside]
      | some child =>
          rw [putAt_cons hinside, putAt_cons (inside_putInside_self hinside), putInside_putInside,
            ih, putAt_cons hinside]

/-- What is at a path or below it, where an object has been put there. -/
theorem atPath_putAt_append (h : o.atPath p = some y) :
    (o.putAt p x).atPath (p ++ q) = x.atPath q := by
  induction p generalizing o with
  | nil => rfl
  | cons hop p ih =>
      obtain ⟨child, hchild, h⟩ := atPath_cons_eq_some h
      rw [putAt_cons hchild, List.cons_append, atPath_cons (inside_putInside_self hchild), ih h]

theorem atPath_putAt_self (h : o.atPath p = some y) : (o.putAt p x).atPath p = some x := by
  have hbelow := atPath_putAt_append (x := x) (q := []) h
  rwa [List.append_nil] at hbelow

/-- What is above a path, where an object has been put there. -/
theorem atPath_putAt_prefix : (o.putAt (p ++ q) x).atPath p = (o.atPath p).map (·.putAt q x) := by
  induction p generalizing o with
  | nil => rfl
  | cons hop p ih =>
      cases hinside : o.inside hop with
      | none =>
          rw [List.cons_append, putAt, hinside, atPath]
          show (o.inside hop).bind _ = _
          rw [hinside]
          rfl
      | some child =>
          rw [List.cons_append, putAt_cons hinside, atPath_cons (inside_putInside_self hinside), ih,
            atPath_cons hinside]

theorem atPath_putAt_apart (hpq : ¬p <+: q) (hqp : ¬q <+: p) :
    (o.putAt p x).atPath q = o.atPath q := by
  induction p generalizing o q with
  | nil => exact absurd List.nil_prefix hpq
  | cons hop p ih =>
      cases q with
      | nil => exact absurd List.nil_prefix hqp
      | cons hop' q =>
          cases hinside : o.inside hop with
          | none => rw [putAt, hinside]
          | some child =>
              rw [putAt_cons hinside]
              by_cases hhop : hop = hop'
              · obtain rfl := hhop
                rw [List.prefix_cons_inj] at hpq hqp
                rw [atPath_cons (inside_putInside_self hinside), ih hpq hqp, atPath_cons hinside]
              · rw [atPath, atPath, inside_putInside_of_ne hhop]

theorem Consistent.atPath (ho : o.Consistent) (h : o.atPath p = some x) : x.Consistent := by
  induction p generalizing o with
  | nil => exact Option.some.inj h ▸ ho
  | cons hop p ih =>
      obtain ⟨child, hchild, h⟩ := atPath_cons_eq_some h
      exact ih (ho.inside hchild) h

theorem Consistent.putAt (ho : o.Consistent) (hx : x.Consistent) : (o.putAt p x).Consistent := by
  induction p generalizing o with
  | nil => exact hx
  | cons hop p ih =>
      cases hinside : o.inside hop with
      | none => rw [ObjectFields.putAt, hinside]; exact ho
      | some child =>
          rw [putAt_cons hinside]
          exact ho.putInside (ih (ho.inside hinside))

end ObjectFields

/-! ## Places -/

/-- A variable of the program, and the way from there into its object. -/
structure Place where
  root : Nat
  path : List Hop
  deriving DecidableEq

namespace Place

def under (p : Place) (r : List Hop) : Place := { p with path := p.path ++ r }

/-- The object at `q` is inside the one at `p`. -/
def Contains (p q : Place) : Prop := p.root = q.root ∧ p.path <+: q.path ∧ p.path ≠ q.path

instance : DecidableRel Contains := fun _ _ => inferInstanceAs (Decidable (_ ∧ _ ∧ _))

/-- Neither is the one object inside the other, nor are they one. -/
def Apart (p q : Place) : Prop :=
  p.root = q.root → ¬p.path <+: q.path ∧ ¬q.path <+: p.path

def Mutable (p : Place) : Prop := ∀ hop ∈ p.path, hop.isConst = false

instance : DecidablePred Mutable := fun _ => inferInstanceAs (Decidable (∀ _ ∈ _, _))

theorem contains_iff {p q : Place} : p.Contains q ↔ ∃ r, r ≠ [] ∧ q = p.under r := by
  constructor
  · intro h
    obtain ⟨hroot, ⟨r, hr⟩, hne⟩ := h
    refine ⟨r, fun hnil => hne ?_, ?_⟩
    · rw [← hr, hnil, List.append_nil]
    · obtain ⟨root, path⟩ := q
      obtain rfl : p.root = root := hroot
      exact congrArg (Place.mk p.root) hr.symm
  · intro h
    obtain ⟨r, hr, rfl⟩ := h
    exact ⟨rfl, List.prefix_append p.path r, fun heq => hr (List.self_eq_append_right.mp heq)⟩

theorem not_contains_self (p : Place) : ¬p.Contains p := fun h => h.2.2 rfl

theorem not_contains_of_contains {p q : Place} (h : p.Contains q) : ¬q.Contains p :=
  fun h' => h.2.2 (h.2.1.eq_of_length_le h'.2.1.length_le)

theorem Apart.not_contains {p q : Place} (h : p.Apart q) : ¬p.Contains q :=
  fun h' => (h h'.1).1 h'.2.1

theorem Apart.not_contained {p q : Place} (h : p.Apart q) : ¬q.Contains p :=
  fun h' => (h h'.1.symm).2 h'.2.1

theorem eq_or_contains_or_apart (p q : Place) :
    q = p ∨ p.Contains q ∨ q.Contains p ∨ p.Apart q := by
  by_cases hroot : p.root = q.root
  · by_cases heq : p.path = q.path
    · obtain ⟨root, path⟩ := q
      obtain rfl : p.root = root := hroot
      obtain rfl : p.path = path := heq
      exact .inl rfl
    · by_cases hpq : p.path <+: q.path
      · exact .inr (.inl ⟨hroot, hpq, heq⟩)
      · by_cases hqp : q.path <+: p.path
        · exact .inr (.inr (.inl ⟨hroot.symm, hqp, Ne.symm heq⟩))
        · exact .inr (.inr (.inr fun _ => ⟨hpq, hqp⟩))
  · exact .inr (.inr (.inr fun h => absurd h hroot))

end Place

/-- The objects of a program, by the order in which they are made. -/
abbrev Objects := List ObjectFields

namespace Objects

def read (s : Objects) (p : Place) : Option ObjectFields := do (← s[p.root]?).atPath p.path

def put (s : Objects) (p : Place) (x : ObjectFields) : Objects :=
  s.modify p.root (·.putAt p.path x)

variable {s : Objects} {p q : Place} {r : List Hop} {x y : ObjectFields}

theorem read_eq_some (h : s.read p = some x) :
    ∃ o, s[p.root]? = some o ∧ o.atPath p.path = some x :=
  Option.bind_eq_some_iff.mp h

theorem getElem?_put_root (o : ObjectFields) (h : s[p.root]? = some o) :
    (s.put p x)[p.root]? = some (o.putAt p.path x) := by
  rw [put, List.getElem?_modify_eq, h]
  rfl

theorem read_put_below (h : s.read p = some y) : (s.put p x).read (p.under r) = x.atPath r := by
  obtain ⟨o, ho, h⟩ := read_eq_some h
  show ((s.put p x)[p.root]?).bind _ = _
  rw [getElem?_put_root o ho]
  exact ObjectFields.atPath_putAt_append h

theorem read_put_self (h : s.read p = some y) : (s.put p x).read p = some x := by
  have hbelow := read_put_below (x := x) (r := []) h
  rwa [Place.under, List.append_nil] at hbelow

theorem read_put_above : (s.put (p.under r) x).read p = (s.read p).map (·.putAt r x) := by
  show ((s.modify p.root _)[p.root]?).bind _ = ((s[p.root]?).bind _).map _
  rw [List.getElem?_modify_eq]
  cases s[p.root]? with
  | none => rfl
  | some o => exact ObjectFields.atPath_putAt_prefix

theorem read_put_apart (h : p.Apart q) : (s.put p x).read q = s.read q := by
  by_cases hroot : p.root = q.root
  · obtain ⟨hpq, hqp⟩ := h hroot
    show ((s.modify p.root _)[q.root]?).bind _ = (s[q.root]?).bind _
    rw [← hroot, List.getElem?_modify_eq]
    cases s[p.root]? with
    | none => rfl
    | some o => exact ObjectFields.atPath_putAt_apart hpq hqp
  · show (s.modify p.root _)[q.root]?.bind _ = _
    rw [List.getElem?_modify_ne _ s hroot]
    rfl

theorem put_read (h : s.read p = some x) : s.put p x = s := by
  obtain ⟨o, ho, h⟩ := read_eq_some h
  refine ObjectFields.modify_of_fixed fun o' ho' => ?_
  obtain rfl := Option.some.inj (ho.symm.trans ho')
  exact ObjectFields.putAt_atPath h

theorem put_put : (s.put p x).put p y = s.put p y := by
  have hputs : (fun o : ObjectFields => (o.putAt p.path x).putAt p.path y) =
      fun o => o.putAt p.path y := by
    funext o
    exact ObjectFields.putAt_putAt
  exact (List.modify_modify_eq _ _ p.root s).trans (congrArg (s.modify p.root) hputs)

theorem read_under : s.read (p.under r) = (s.read p).bind (·.atPath r) := by
  show (s[p.root]?).bind _ = ((s[p.root]?).bind _).bind _
  cases s[p.root]? with
  | none => rfl
  | some o => exact ObjectFields.atPath_append

theorem read_consistent (hs : ∀ o ∈ s, o.Consistent) (h : s.read p = some x) : x.Consistent := by
  obtain ⟨o, ho, h⟩ := read_eq_some h
  exact (hs o (List.mem_of_getElem? ho)).atPath h

theorem put_consistent (hs : ∀ o ∈ s, o.Consistent) (hx : x.Consistent) :
    ∀ o ∈ s.put p x, o.Consistent :=
  ObjectFields.forall_mem_modify hs fun o ho => (hs o ho).putAt hx

/-- What is not inside the object that is replaced is still there. -/
theorem read_put_isSome (hp : s.read p = some y) (hq : (s.read q).isSome)
    (hpq : ¬p.Contains q) : ((s.put p x).read q).isSome := by
  obtain rfl | hinside | haround | hapart := p.eq_or_contains_or_apart q
  · rw [read_put_self hp]
    rfl
  · exact absurd hinside hpq
  · obtain ⟨r, -, rfl⟩ := Place.contains_iff.mp haround
    rw [read_put_above, Option.isSome_map]
    exact hq
  · rw [read_put_apart hapart]
    exact hq

end Objects

end Haze.Cpp
