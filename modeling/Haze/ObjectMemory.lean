import Haze.Collections.Ledger
import Haze.ObjectArray

/-
  Strings, buffers and objects as programs that allocate: the constructors, `ObjectCopy`,
  `ObjectFree`, `ObjectArrayCreate`, `ObjectArrayAppend`, `ObjectArrayCopy` and `ObjectArrayFree`.

  A cell is a structure of the C code: its address, and what its fields hold, with the blocks they
  own. `ObjectFree` frees the structure of a `RawBuffer` and not its bytes, so the bytes of a
  binary are left behind; they are the `leftover` of the object. Each function has one lemma, which
  says what is owned behind it and what was lost.
-/

open Collections Msgpack

namespace Haze

open Alloc Triple

variable {pre : Multiset Address} {lasts : Prop}

/-! ## Texts -/

/-- A text in a block of its own. -/
structure TextCell where
  addr : Address
  text : CString

namespace TextCell

def block (t : Option TextCell) : Multiset Address := Triple.block (t.map (·.addr))

def free (t : Option TextCell) : Alloc Unit := Alloc.free (t.map (·.addr))

def strdup (src : CString) : Alloc (Option TextCell) := do
  let some a ← malloc | return none
  return some { addr := a, text := src }

theorem strdup_when (src : CString) :
    TripleWhen lasts pre (strdup src) fun t owned =>
      owned = block t + pre ∧ (∀ x ∈ t, x.text = src) ∧ (lasts → t.isSome) := by
  refine TripleWhen.malloc.bind ?_
  rintro (_ | a) _ ⟨rfl, ha⟩
  · exact .pure ⟨rfl, by simp, ha⟩
  · exact .pure ⟨rfl, by simp, fun _ => rfl⟩

theorem strdup_owned (src : CString) :
    TripleWhen lasts pre (strdup src) fun t owned =>
      owned = block t + pre ∧ ∀ x ∈ t, x.text = src :=
  (strdup_when src).conseq fun _ _ h => ⟨h.1, h.2.1⟩

theorem free_owned (t : Option TextCell) :
    TripleWhen lasts (block t + pre) (free t) fun _ owned => owned = pre :=
  Triple.free

end TextCell

/-! ## Buffers -/

/-- `RawBuffer`: its structure, the block of its bytes, if they have one of their own, and the
bytes. -/
structure BufferCell where
  addr : Address
  data : Option Address
  content : RawBuffer
  stored : data.isSome → content.bytes ≠ []

namespace BufferCell

def owned (b : BufferCell) : Multiset Address := {b.addr} + block b.data

/-- `RawBufferNew`. No storage is asked for if there are no bytes. -/
def new (bytes : Bytes) : Alloc (Option BufferCell) := do
  let some b ← malloc | return none
  match bytes with
  | [] => return some { addr := b, data := none, content := rawBufferNew none, stored := nofun }
  | byte :: bytes =>
    let some data ← malloc
      | do
        release b
        return none
    return some
      { addr := b
        data := some data
        content := rawBufferNew (some (byte :: bytes))
        stored := fun _ => List.cons_ne_nil byte bytes }

/-- `RawBufferDup`. -/
def dup (b : BufferCell) : Alloc (Option BufferCell) := do
  touch b.addr
  new b.content.bytes

/-- Whether there are bytes. -/
def filled (bytes : Bytes) : Nat := if bytes = [] then 0 else 1

theorem new_owned (bytes : Bytes) : TripleWhen lasts pre (new bytes) fun b owned =>
    owned = b.elim 0 BufferCell.owned + pre ∧
      (∀ x ∈ b, x.content = rawBufferNew (some bytes) ∧ (block x.data).card = filled bytes) ∧
      (lasts → b.isSome) := by
  refine TripleWhen.malloc.bind ?_
  rintro (_ | b) _ ⟨rfl, hb⟩
  · exact .pure ⟨rfl, by simp, hb⟩
  cases bytes with
  | nil =>
      refine .pure ⟨?_, by simp [rawBufferNew, block, filled], fun _ => rfl⟩
      show {b} + pre = {b} + 0 + pre
      rw [add_zero]
  | cons byte bytes =>
      refine TripleWhen.malloc.bind ?_
      rintro (_ | data) _ ⟨rfl, hdata⟩
      · refine (Triple.release.of_eq (zero_add _)).bind ?_
        rintro _ _ rfl
        exact .pure ⟨(zero_add _).symm, by simp, hdata⟩
      · refine .pure ⟨?_, by simp [block, filled], fun _ => rfl⟩
        show {data} + ({b} + pre) = {b} + {data} + pre
        ac_rfl

theorem dup_owned (b : BufferCell) : TripleWhen lasts (b.owned + pre) b.dup fun copy owned =>
    owned = copy.elim 0 BufferCell.owned + (b.owned + pre) ∧
      (∀ x ∈ copy, x.content = rawBufferDup b.content ∧
        (block x.data).card = filled b.content.bytes) ∧
      (lasts → copy.isSome) := by
  have hdup : rawBufferNew (some b.content.bytes) = rawBufferDup b.content := by
    obtain ⟨_ | _ | _⟩ := b.content <;> rfl
  refine (Triple.touch (by simp [owned])).bind ?_
  rintro _ _ rfl
  rw [← hdup]
  exact new_owned b.content.bytes

end BufferCell

/-! ## Objects -/

namespace Object

/-- The object points to nothing. -/
def Bare : Object → Prop
  | .str _ | .bin _ | .array _ | .map (some _) => False
  | _ => True

mutual

/-- How many binaries with bytes there are in the object. -/
def binaries : Object → Nat
  | .bin (some b) => BufferCell.filled b.bytes
  | .array (some xs) => binariesAll xs
  | _ => 0

def binariesAll : List Object → Nat
  | [] => 0
  | x :: xs => binaries x + binariesAll xs

end

theorem binariesAll_eq_sum (xs : List Object) : binariesAll xs = (xs.map binaries).sum := by
  induction xs with
  | nil => rfl
  | cons x xs ih => rw [binariesAll, ih, List.map_cons, List.sum_cons]

theorem binaries_of_bare {o : Object} (ho : o.Bare) : o.binaries = 0 := by
  cases o with
  | bin b => exact ho.elim
  | array xs => exact ho.elim
  | _ => rfl

theorem objectCopy_of_bare {o : Object} (ho : o.Bare) : objectCopy o = o := by
  cases o with
  | bin b => exact ho.elim
  | array xs => exact ho.elim
  | map pairs =>
      cases pairs with
      | none => rfl
      | some pairs => exact ho.elim
  | _ => rfl

end Object

/-- An object that points to nothing. -/
structure BareObject where
  object : Object
  bare : object.Bare

/-- `ObjectArray`, with elements that are `α`. -/
structure ArrayCell (α : Type) where
  addr : Address
  objects : Address
  capacity : Nat
  elems : List α

/-- `Object`. Maps have no entries here. -/
inductive ObjectCell where
  | bare (addr : Address) (value : BareObject)
  | str (addr : Address) (text : Option TextCell)
  | bin (addr : Address) (buffer : Option BufferCell)
  | array (addr : Address) (array : Option (ArrayCell ObjectCell))

namespace ArrayCell

variable {α : Type}

def ownedBy (own : α → Multiset Address) (arr : ArrayCell α) : Multiset Address :=
  {arr.addr} + {arr.objects} + (arr.elems.map own).sum

/-- `ObjectArrayCreate`. -/
def create : Alloc (Option (ArrayCell α)) := do
  let some array ← malloc | return none
  let some objects ← malloc
    | do
      release array
      return none
  return some { addr := array, objects := objects, capacity := objectArrayInitialCapacity,
                elems := [] }

/-- Room for one more element, if there is memory. -/
def grow (arr : ArrayCell α) : Alloc (Option (ArrayCell α)) := do
  if arr.capacity ≤ arr.elems.length then
    let some objects ← realloc (some arr.objects) | return none
    return some { arr with objects := objects, capacity := arr.capacity * 2 }
  else return some arr

/-- `ObjectArrayAppend` of an object that is there, which is copied by `copy`. -/
def appendBy (arr : ArrayCell α) (copy : Alloc (Option α)) : Alloc (Bool × ArrayCell α) := do
  touch arr.addr
  let some arr ← arr.grow | return (false, arr)
  let some x ← copy | return (false, arr)
  return (true, { arr with elems := arr.elems ++ [x] })

/-- `ObjectArrayFree` of an array that is there, whose elements are freed by `freeAll`. -/
def freeBy (arr : ArrayCell α) (freeAll : Alloc Unit) : Alloc Unit := do
  touch arr.addr
  freeAll
  release arr.objects
  release arr.addr

variable {own : α → Multiset Address}

theorem create_owned (own : α → Multiset Address) : TripleWhen lasts pre create fun arr owned =>
    owned = arr.elim 0 (ownedBy own) + pre ∧ (∀ x ∈ arr, x.elems = []) ∧
      (lasts → arr.isSome) := by
  refine TripleWhen.malloc.bind ?_
  rintro (_ | array) _ ⟨rfl, harray⟩
  · exact .pure ⟨rfl, by simp, harray⟩
  refine TripleWhen.malloc.bind ?_
  rintro (_ | objects) _ ⟨rfl, hobjects⟩
  · refine (Triple.release.of_eq (zero_add _)).bind ?_
    rintro _ _ rfl
    exact .pure ⟨(zero_add _).symm, by simp, hobjects⟩
  · refine .pure ⟨?_, by simp, fun _ => rfl⟩
    show {objects} + ({array} + pre) = {array} + {objects} + 0 + pre
    rw [add_zero]
    ac_rfl

theorem grow_owned (arr : ArrayCell α) :
    TripleWhen lasts (arr.ownedBy own + pre) arr.grow fun out owned =>
      (∀ x ∈ out, x.elems = arr.elems) ∧ owned = (out.getD arr).ownedBy own + pre ∧
        (lasts → out.isSome) := by
  unfold grow
  split_ifs with hfull
  · have hsplit : arr.ownedBy own + pre =
        block (some arr.objects) + ({arr.addr} + (arr.elems.map own).sum + pre) := by
      show {arr.addr} + {arr.objects} + _ + pre = {arr.objects} + _
      ac_rfl
    refine (TripleWhen.realloc.of_eq hsplit).bind ?_
    rintro (_ | objects) _ ⟨rfl, hlasts⟩
    · exact .pure ⟨by simp, hsplit.symm, hlasts⟩
    · refine .pure ⟨by simp, ?_, fun _ => rfl⟩
      show {objects} + ({arr.addr} + (arr.elems.map own).sum + pre) =
        {arr.addr} + {objects} + (arr.elems.map own).sum + pre
      ac_rfl
  · exact .pure ⟨by simp, rfl, fun _ => rfl⟩

/-- `copy` loses what `R` says, and so does the call. -/
theorem appendBy_owned (arr : ArrayCell α) {copy : Alloc (Option α)} {src : Multiset Address}
    {R : Option α → Multiset Address → Prop}
    (hcopy : ∀ pre, TripleWhen lasts (src + pre) copy fun x owned =>
      ∃ lost, owned = x.elim 0 own + lost + (src + pre) ∧ R x lost)
    (hrefused : ¬lasts → R none 0) :
    TripleWhen lasts (arr.ownedBy own + (src + pre)) (arr.appendBy copy) fun out owned =>
      ∃ x lost, owned = out.2.ownedBy own + lost + (src + pre) ∧ R x lost ∧ out.1 = x.isSome ∧
        out.2.elems = arr.elems ++ x.toList := by
  refine (Triple.touch (by simp [ownedBy])).bind ?_
  rintro _ _ rfl
  refine (arr.grow_owned).bind ?_
  rintro (_ | grown) _ ⟨helems, rfl, hgrown⟩
  · refine .pure ⟨none, 0, ?_, hrefused (not_lasts hgrown), rfl,
      (List.append_nil _).symm⟩
    rw [add_zero]
    rfl
  replace helems : grown.elems = arr.elems := helems grown rfl
  refine ((hcopy (grown.ownedBy own + pre)).of_eq (add_left_comm _ _ _)).bind ?_
  rintro (_ | x) _ ⟨lost, rfl, hR⟩
  · refine .pure ⟨none, lost, ?_, hR, rfl, helems.trans (List.append_nil _).symm⟩
    show 0 + lost + (src + (grown.ownedBy own + pre)) = grown.ownedBy own + lost + (src + pre)
    rw [zero_add]
    ac_rfl
  · refine .pure ⟨some x, lost, ?_, hR, rfl, congrArg (· ++ [x]) helems⟩
    show own x + lost + (src + (grown.ownedBy own + pre)) =
      {grown.addr} + {grown.objects} + ((grown.elems ++ [x]).map own).sum + lost + (src + pre)
    rw [List.map_append, List.sum_append, List.map_singleton, List.sum_singleton, ownedBy]
    ac_rfl

theorem freeBy_owned (arr : ArrayCell α) {freeAll : Alloc Unit} {left : Multiset Address}
    (hfree : ∀ pre, TripleWhen lasts ((arr.elems.map own).sum + pre) freeAll fun _ owned =>
      owned = left + pre) :
    TripleWhen lasts (arr.ownedBy own + pre) (arr.freeBy freeAll) fun _ owned =>
      owned = left + pre := by
  refine (Triple.touch (by simp [ownedBy])).bind ?_
  rintro _ _ rfl
  have hsplit : arr.ownedBy own + pre =
      (arr.elems.map own).sum + ({arr.objects} + ({arr.addr} + pre)) := by
    unfold ownedBy
    ac_rfl
  refine ((hfree _).of_eq hsplit).bind ?_
  rintro _ _ rfl
  refine (Triple.release.of_eq (add_left_comm _ _ _)).bind ?_
  rintro _ _ rfl
  exact Triple.release.of_eq (add_left_comm _ _ _)

end ArrayCell

namespace ObjectCell

/-! ### What an object owns, and what it holds -/

mutual

def owned : ObjectCell → Multiset Address
  | .bare addr _ => {addr}
  | .str addr text => {addr} + TextCell.block text
  | .bin addr buffer => {addr} + buffer.elim 0 BufferCell.owned
  | .array addr none => {addr}
  | .array addr (some ⟨arr, objects, _, elems⟩) => {addr} + ({arr} + {objects} + ownedAll elems)

def ownedAll : List ObjectCell → Multiset Address
  | [] => 0
  | x :: xs => owned x + ownedAll xs

end

mutual

/-- The bytes of binaries that `ObjectFree` leaves behind. -/
def leftover : ObjectCell → Multiset Address
  | .bin _ (some b) => Triple.block b.data
  | .array _ (some ⟨_, _, _, elems⟩) => leftoverAll elems
  | _ => 0

def leftoverAll : List ObjectCell → Multiset Address
  | [] => 0
  | x :: xs => leftover x + leftoverAll xs

end

mutual

def content : ObjectCell → Object
  | .bare _ value => value.object
  | .str _ text => .str (text.map TextCell.text)
  | .bin _ buffer => .bin (buffer.map BufferCell.content)
  | .array _ none => .array none
  | .array _ (some ⟨_, _, _, elems⟩) => .array (some (contents elems))

def contents : List ObjectCell → List Object
  | [] => []
  | x :: xs => content x :: contents xs

end

/-! ### Programs -/

/-- The constructors of the objects that point to nothing. -/
def createBare (value : BareObject) : Alloc (Option ObjectCell) := do
  let some obj ← malloc | return none
  return some (.bare obj value)

def new : Alloc (Option ObjectCell) := createBare ⟨.und, trivial⟩
def createNil : Alloc (Option ObjectCell) := createBare ⟨.nil, trivial⟩
def createBool (v : Bool) : Alloc (Option ObjectCell) := createBare ⟨.bool v, trivial⟩
def createInt (v : Int64) : Alloc (Option ObjectCell) := createBare ⟨.int v, trivial⟩
def createUInt (v : UInt64) : Alloc (Option ObjectCell) := createBare ⟨.uint v, trivial⟩
def createFloat (v : UInt32) : Alloc (Option ObjectCell) := createBare ⟨.float v, trivial⟩
def createDouble (v : UInt64) : Alloc (Option ObjectCell) := createBare ⟨.double v, trivial⟩

/-- `ObjectCreateStr`. `NULL` becomes the text `NULL`. -/
def createStr (str : Option CString) : Alloc (Option ObjectCell) := do
  let some obj ← malloc | return none
  let some text ← TextCell.strdup (str.getD (.ofString "NULL"))
    | do
      release obj
      return none
  return some (.str obj (some text))

mutual

/-- `ObjectFree`. Of a buffer only the structure is freed. -/
def free : ObjectCell → Alloc Unit
  | .bare addr _ => release addr
  | .str addr text => do
    touch addr
    TextCell.free text
    release addr
  | .bin addr buffer => do
    touch addr
    Alloc.free (buffer.map BufferCell.addr)
    release addr
  | .array addr none => release addr
  | .array addr (some ⟨arr, objects, capacity, elems⟩) => do
    touch addr
    (ArrayCell.mk arr objects capacity elems).freeBy (freeAll elems)
    release addr

/-- The loop of `ObjectArrayFree`. -/
def freeAll : List ObjectCell → Alloc Unit
  | [] => return ()
  | x :: xs => do
    free x
    freeAll xs

end

mutual

/-- `ObjectCopy`. -/
def copy : ObjectCell → Alloc (Option ObjectCell)
  | .bare addr value => do
    touch addr
    createBare value
  | .str addr text => do
    touch addr
    let some copy ← malloc | return none
    match text with
    | none => return some (.str copy none)
    | some text =>
      touch text.addr
      let some dup ← TextCell.strdup text.text
        | do
          release copy
          return none
      return some (.str copy (some dup))
  | .bin addr buffer => do
    touch addr
    let some copy ← malloc | return none
    match buffer with
    | none => return some (.bin copy none)
    | some buffer =>
      let some dup ← buffer.dup
        | do
          release copy
          return none
      return some (.bin copy (some dup))
  | .array addr none => do
    touch addr
    let some copy ← malloc | return none
    return some (.array copy none)
  | .array addr (some ⟨arr, _, _, elems⟩) => do
    touch addr
    let some copy ← malloc | return none
    touch arr
    let some dst ← ArrayCell.create
      | do
        release copy
        return none
    let some dst ← copyAll dst elems
      | do
        release copy
        return none
    return some (.array copy (some dst))

/-- The loop of `ObjectArrayCopy`, which frees what it has if an element cannot be appended. -/
def copyAll (dst : ArrayCell ObjectCell) : List ObjectCell →
    Alloc (Option (ArrayCell ObjectCell))
  | [] => return some dst
  | x :: xs => do
    let (ok, dst) ← dst.appendBy (copy x)
    if ok then copyAll dst xs
    else
      dst.freeBy (freeAll dst.elems)
      return none

end

/-! ### Elements -/

/-- The elements of an array object. -/
def elements : ObjectCell → List ObjectCell
  | .array _ (some arr) => arr.elems
  | _ => []

/-- Induction over objects: a property that passes from the elements of an array to the array
holds of every object. -/
@[elab_as_elim]
theorem elementInduction {P : ObjectCell → Prop}
    (step : ∀ o, (∀ x ∈ o.elements, P x) → P o) (o : ObjectCell) : P o := by
  refine ObjectCell.rec (motive_1 := P)
    (motive_2 := fun arr => ∀ x, arr = some x → ∀ y ∈ x.elems, P y)
    (motive_3 := fun arr => ∀ y ∈ arr.elems, P y) (motive_4 := fun xs => ∀ x ∈ xs, P x)
    ?bare ?str ?bin ?array ?noArray ?someArray ?cell ?noElems ?elems o
  case array =>
    intro addr arr ih
    cases arr with
    | none => exact step _ (List.forall_mem_nil P)
    | some arr => exact step _ (ih arr rfl)
  case noArray => nofun
  case someArray => exact fun arr ih x hx => Option.some.inj hx ▸ ih
  case cell => exact fun _ _ _ _ ih => ih
  case noElems => exact List.forall_mem_nil P
  case elems => exact fun x xs hx hxs => List.forall_mem_cons.mpr ⟨hx, hxs⟩
  all_goals intros; exact step _ (List.forall_mem_nil P)

theorem ownedAll_eq_sum (xs : List ObjectCell) : ownedAll xs = (xs.map owned).sum := by
  induction xs with
  | nil => rfl
  | cons x xs ih => rw [ownedAll, ih, List.map_cons, List.sum_cons]

theorem leftoverAll_eq_sum (xs : List ObjectCell) : leftoverAll xs = (xs.map leftover).sum := by
  induction xs with
  | nil => rfl
  | cons x xs ih => rw [leftoverAll, ih, List.map_cons, List.sum_cons]

theorem contents_eq_map (xs : List ObjectCell) : contents xs = xs.map content := by
  induction xs with
  | nil => rfl
  | cons x xs ih => rw [contents, ih, List.map_cons]

theorem contents_append (xs ys : List ObjectCell) :
    contents (xs ++ ys) = contents xs ++ contents ys := by
  simp only [contents_eq_map, List.map_append]

theorem leftoverAll_append (xs ys : List ObjectCell) :
    leftoverAll (xs ++ ys) = leftoverAll xs + leftoverAll ys := by
  simp only [leftoverAll_eq_sum, List.map_append, List.sum_append]

theorem owned_array (addr : Address) (arr : ArrayCell ObjectCell) :
    (array addr (some arr)).owned = {addr} + arr.ownedBy owned := by
  rw [owned, ownedAll_eq_sum]
  rfl

/-! ### Freeing -/

theorem freeAll_owned {xs : List ObjectCell}
    (hfree : ∀ x ∈ xs, ∀ pre, TripleWhen lasts (x.owned + pre) x.free fun _ owned =>
      owned = x.leftover + pre) (pre : Multiset Address) :
    TripleWhen lasts ((xs.map owned).sum + pre) (freeAll xs) fun _ owned =>
      owned = leftoverAll xs + pre := by
  induction xs generalizing pre with
  | nil => exact .pure rfl
  | cons x xs ih =>
      obtain ⟨hx, hxs⟩ := List.forall_mem_cons.mp hfree
      rw [List.map_cons, List.sum_cons, add_assoc]
      refine (hx _).bind ?_
      rintro _ _ rfl
      refine ((ih hxs _).of_eq (add_left_comm _ _ _)).conseq ?_
      rintro _ _ rfl
      rw [leftoverAll]
      ac_rfl

/-- All is freed but the bytes of the binaries. -/
theorem free_owned (o : ObjectCell) : TripleWhen lasts (o.owned + pre) o.free fun _ owned =>
    owned = o.leftover + pre := by
  induction o using elementInduction generalizing pre with
  | step o ih =>
      cases o with
      | bare addr value =>
          refine Triple.release.conseq ?_
          rintro _ _ rfl
          exact (zero_add _).symm
      | str addr text =>
          refine (Triple.touch (by simp [owned])).bind ?_
          rintro _ _ rfl
          have hsplit : (str addr text).owned + pre = TextCell.block text + ({addr} + pre) := by
            unfold owned
            ac_rfl
          refine ((TextCell.free_owned text).of_eq hsplit).bind ?_
          rintro _ _ rfl
          refine Triple.release.conseq ?_
          rintro _ _ rfl
          exact (zero_add _).symm
      | bin addr buffer =>
          refine (Triple.touch (by simp [owned])).bind ?_
          rintro _ _ rfl
          have hsplit : (bin addr buffer).owned + pre = block (buffer.map BufferCell.addr) +
              ({addr} + ((bin addr buffer).leftover + pre)) := by
            cases buffer with
            | none =>
                show ({addr} : Multiset Address) + 0 + pre = 0 + ({addr} + (0 + pre))
                rw [add_zero, zero_add, zero_add]
            | some b =>
                show {addr} + ({b.addr} + block b.data) + pre =
                  {b.addr} + ({addr} + (block b.data + pre))
                ac_rfl
          refine (Triple.free.of_eq hsplit).bind ?_
          rintro _ _ rfl
          exact Triple.release
      | array addr arr =>
          cases arr with
          | none =>
              refine Triple.release.conseq ?_
              rintro _ _ rfl
              exact (zero_add _).symm
          | some arr =>
              refine (Triple.touch (by simp [owned])).bind ?_
              rintro _ _ rfl
              rw [owned_array, add_right_comm, add_comm]
              refine (arr.freeBy_owned fun pre =>
                freeAll_owned (fun x hx pre => ih x hx) pre).bind ?_
              rintro _ _ rfl
              refine (Triple.release.of_eq (add_left_comm _ _ _)).conseq ?_
              rintro _ _ rfl
              rfl

/-- `ObjectArrayFree`. -/
theorem freeArray_owned (arr : ArrayCell ObjectCell) :
    TripleWhen lasts (arr.ownedBy owned + pre) (arr.freeBy (freeAll arr.elems)) fun _ owned =>
      owned = leftoverAll arr.elems + pre :=
  arr.freeBy_owned (freeAll_owned fun x _ _ => x.free_owned)

/-- A structure is freed with the text and the array that it points to. -/
theorem freeFields_owned (addr : Address) (text : Option TextCell) (arr : ArrayCell ObjectCell) :
    TripleWhen lasts ({addr} + TextCell.block text + arr.ownedBy owned + pre)
      (do
        touch addr
        TextCell.free text
        arr.freeBy (freeAll arr.elems)
        release addr) fun _ owned => owned = leftoverAll arr.elems + pre := by
  refine (Triple.touch (by simp)).bind ?_
  rintro _ _ rfl
  have hsplit : {addr} + TextCell.block text + arr.ownedBy owned + pre =
      TextCell.block text + (arr.ownedBy owned + ({addr} + pre)) := by
    ac_rfl
  refine ((TextCell.free_owned text).of_eq hsplit).bind ?_
  rintro _ _ rfl
  refine (freeArray_owned arr).bind ?_
  rintro _ _ rfl
  exact Triple.release.of_eq (add_left_comm _ _ _)

/-! ### Creating -/

theorem createBare_owned (value : BareObject) :
    TripleWhen lasts pre (createBare value) fun o owned =>
      owned = o.elim 0 ObjectCell.owned + pre ∧ (∀ x ∈ o, x.content = value.object ∧
        x.leftover = 0) ∧ (lasts → o.isSome) := by
  refine TripleWhen.malloc.bind ?_
  rintro (_ | obj) _ ⟨rfl, hobj⟩
  · exact .pure ⟨rfl, by simp, hobj⟩
  · refine .pure ⟨rfl, fun x hx => ?_, fun _ => rfl⟩
    obtain rfl := Option.some.inj hx
    exact ⟨rfl, rfl⟩

theorem createStr_owned (s : Option CString) :
    TripleWhen lasts pre (createStr s) fun o owned =>
      owned = o.elim 0 ObjectCell.owned + pre ∧
        (∀ x ∈ o, x.content = objectCreateStr (s.map CString.bytes) ∧ x.leftover = 0) ∧
        (lasts → o.isSome) := by
  refine TripleWhen.malloc.bind ?_
  rintro (_ | obj) _ ⟨rfl, hobj⟩
  · exact .pure ⟨rfl, by simp, hobj⟩
  refine (TextCell.strdup_when _).bind ?_
  rintro (_ | text) _ ⟨rfl, htext, hlasts⟩
  · refine (Triple.release.of_eq (zero_add _)).bind ?_
    rintro _ _ rfl
    exact .pure ⟨(zero_add _).symm, by simp, hlasts⟩
  · refine .pure ⟨?_, fun x hx => ?_, fun _ => rfl⟩
    · show {text.addr} + ({obj} + pre) = {obj} + {text.addr} + pre
      ac_rfl
    · obtain rfl := Option.some.inj hx
      refine ⟨?_, rfl⟩
      show Object.str (some text.text) = _
      rw [htext text rfl]
      cases s with
      | none => rfl
      | some s => exact congrArg (fun s => Object.str (some s)) (CString.ofBytes_self s).symm

/-! ### Copying -/

/-- What `ObjectCopy` makes of an object that holds `src`: a copy, and nothing is lost, or no copy,
and the bytes of binaries that were copied are lost. -/
structure Copies (lasts : Prop) (src : Object) (copy : Option ObjectCell)
    (lost : Multiset Address) : Prop where
  bound : lost.card ≤ src.binaries
  done : ∀ x ∈ copy, lost = 0 ∧ x.content = objectCopy src ∧ x.leftover.card = src.binaries
  granted : lasts → copy.isSome

/-- The program owns `src`, copies what holds `content`, and keeps `src`. -/
def CopyRuns (lasts : Prop) (src : Multiset Address) (content : Object)
    (prog : Alloc (Option ObjectCell)) : Prop :=
  ∀ pre, TripleWhen lasts (src + pre) prog fun copy owned =>
    ∃ lost, owned = copy.elim 0 ObjectCell.owned + lost + (src + pre) ∧
      Copies lasts content copy lost

theorem Copies.refused {src : Object} (h : ¬lasts) : Copies lasts src none 0 where
  bound := Nat.zero_le _
  done := nofun
  granted hlasts := absurd hlasts h

/-- There was no memory for the object itself. -/
theorem refused_owned {src : Object} (h : lasts → (none : Option Address).isSome) :
    ∃ lost, block none + pre = (none : Option ObjectCell).elim 0 ObjectCell.owned + lost + pre ∧
      Copies lasts src none lost :=
  ⟨0, rfl, .refused (not_lasts h)⟩

/-- There was no memory for what the object points to, and the object is freed again. -/
theorem released_owned {copy : Address} {src : Object} {lost owned' : Multiset Address}
    (hlost : Copies lasts src none lost) (howned : owned' = {copy} + (lost + pre)) :
    TripleWhen lasts owned'
      (do
        release copy
        return none) fun copy owned =>
      ∃ lost, owned = copy.elim 0 ObjectCell.owned + lost + pre ∧ Copies lasts src copy lost := by
  refine (Triple.release.of_eq howned).bind ?_
  rintro _ _ rfl
  exact .pure ⟨lost, by rw [Option.elim_none, zero_add], hlost⟩

/-- A loop that copies the elements that are left. -/
theorem copyAll_owned {xs : List ObjectCell}
    (hcopy : ∀ x ∈ xs, CopyRuns lasts x.owned x.content x.copy) (dst : ArrayCell ObjectCell)
    (pre : Multiset Address) :
    TripleWhen lasts (dst.ownedBy owned + ((xs.map owned).sum + pre)) (copyAll dst xs)
      fun out owned =>
        ∃ lost, owned = out.elim 0 (ArrayCell.ownedBy ObjectCell.owned) + lost +
            ((xs.map ObjectCell.owned).sum + pre) ∧
          lost.card ≤ (leftoverAll dst.elems).card + Object.binariesAll (contents xs) ∧
          (∀ arr ∈ out, lost = 0 ∧
            contents arr.elems = contents dst.elems ++ objectArrayCopy (contents xs) ∧
            (leftoverAll arr.elems).card =
              (leftoverAll dst.elems).card + Object.binariesAll (contents xs)) ∧
          (lasts → out.isSome) := by
  induction xs generalizing dst pre with
  | nil =>
      refine .pure ⟨0, ?_, Nat.zero_le _, fun arr harr => ?_, fun _ => rfl⟩
      · rw [add_zero]
        rfl
      · obtain rfl := Option.some.inj harr
        exact ⟨rfl, (List.append_nil _).symm, rfl⟩
  | cons x xs ih =>
      obtain ⟨hx, hxs⟩ := List.forall_mem_cons.mp hcopy
      rw [List.map_cons, List.sum_cons, add_assoc]
      refine (dst.appendBy_owned hx .refused).bind ?_
      rintro ⟨ok, dst'⟩ _ ⟨copy, lost, rfl, hcopies, rfl, helems⟩
      cases copy with
      | none =>
          -- what was copied so far is freed again
          rw [Option.toList_none, List.append_nil] at helems
          refine ((freeArray_owned dst').of_eq (add_assoc _ _ _)).bind ?_
          rintro _ _ rfl
          refine .pure ⟨leftoverAll dst'.elems + lost, ?_, ?_, nofun, hcopies.granted⟩
          · show _ = 0 + (leftoverAll dst'.elems + lost) + _
            rw [zero_add, add_assoc]
          · have hbound := hcopies.bound
            rw [helems, Multiset.card_add, contents, Object.binariesAll]
            omega
      | some copy =>
          obtain ⟨rfl, hcontent, hleftover⟩ := hcopies.done copy rfl
          rw [Option.toList_some] at helems
          have hsplit : dst'.ownedBy owned + 0 + (x.owned + ((xs.map owned).sum + pre)) =
              dst'.ownedBy owned + ((xs.map owned).sum + (x.owned + pre)) := by
            rw [add_zero, add_left_comm x.owned]
          refine ((ih hxs dst' (x.owned + pre)).of_eq hsplit).conseq ?_
          rintro out _ ⟨lost, rfl, hbound, hdone, hgranted⟩
          have hleft : (leftoverAll dst'.elems).card =
              (leftoverAll dst.elems).card + x.content.binaries := by
            rw [helems, leftoverAll_eq_sum, leftoverAll_eq_sum, List.map_append, List.sum_append,
              List.map_singleton, List.sum_singleton, Multiset.card_add, hleftover]
          have hbinaries : Object.binariesAll (contents (x :: xs)) =
              x.content.binaries + Object.binariesAll (contents xs) := rfl
          refine ⟨lost, ?_, by omega, fun arr harr => ?_, hgranted⟩
          · rw [add_left_comm x.owned]
          · obtain ⟨hlost, hcontents, hcard⟩ := hdone arr harr
            refine ⟨hlost, ?_, by omega⟩
            rw [hcontents, helems, contents_eq_map, contents_eq_map dst.elems, List.map_append,
              List.map_singleton, List.append_assoc, hcontent]
            rfl

theorem copy_bare_runs (addr : Address) (value : BareObject) :
    CopyRuns lasts (bare addr value).owned value.object (bare addr value).copy := by
  intro pre
  refine (Triple.touch (by simp [owned])).bind ?_
  rintro _ _ rfl
  refine (createBare_owned value).conseq ?_
  rintro copy _ ⟨rfl, hdone, hgranted⟩
  refine ⟨0, by rw [add_zero], Nat.zero_le _, fun x hx => ?_, hgranted⟩
  obtain ⟨hcontent, hleftover⟩ := hdone x hx
  refine ⟨rfl, hcontent.trans (Object.objectCopy_of_bare value.bare).symm, ?_⟩
  rw [hleftover]
  exact (Object.binaries_of_bare value.bare).symm

theorem copy_str_runs (addr : Address) (text : Option TextCell) :
    CopyRuns lasts (str addr text).owned (str addr text).content (str addr text).copy := by
  intro pre
  refine (Triple.touch (by simp [owned])).bind ?_
  rintro _ _ rfl
  refine TripleWhen.malloc.bind ?_
  rintro (_ | copy) _ ⟨rfl, hgranted⟩
  · exact .pure (refused_owned hgranted)
  cases text with
  | none =>
      refine .pure ⟨0, ?_, Nat.zero_le _, fun x hx => ?_, fun _ => rfl⟩
      · rw [add_zero]
        rfl
      · obtain rfl := Option.some.inj hx
        exact ⟨rfl, rfl, rfl⟩
  | some text =>
      refine (Triple.touch (by simp [owned, TextCell.block, block])).bind ?_
      rintro _ _ rfl
      refine (TextCell.strdup_when text.text).bind ?_
      rintro (_ | dup) _ ⟨rfl, hdup, hgranted⟩
      · refine released_owned (.refused (not_lasts hgranted)) ?_
        rw [zero_add]
        exact zero_add _
      · refine .pure ⟨0, ?_, Nat.zero_le _, fun x hx => ?_, fun _ => rfl⟩
        · generalize (str addr (some text)).owned + pre = rest
          show {dup.addr} + ({copy} + rest) = {copy} + {dup.addr} + 0 + rest
          rw [add_zero]
          ac_rfl
        · obtain rfl := Option.some.inj hx
          refine ⟨rfl, ?_, rfl⟩
          show Object.str (some dup.text) = Object.str (some text.text)
          rw [hdup dup rfl]

theorem copy_bin_runs (addr : Address) (buffer : Option BufferCell) :
    CopyRuns lasts (bin addr buffer).owned (bin addr buffer).content (bin addr buffer).copy := by
  intro pre
  refine (Triple.touch (by simp [owned])).bind ?_
  rintro _ _ rfl
  refine TripleWhen.malloc.bind ?_
  rintro (_ | copy) _ ⟨rfl, hgranted⟩
  · exact .pure (refused_owned hgranted)
  cases buffer with
  | none =>
      refine .pure ⟨0, ?_, Nat.zero_le _, fun x hx => ?_, fun _ => rfl⟩
      · rw [add_zero]
        rfl
      · obtain rfl := Option.some.inj hx
        exact ⟨rfl, rfl, rfl⟩
  | some b =>
      have hsplit : block (some copy) + ((bin addr (some b)).owned + pre) =
          b.owned + ({copy} + ({addr} + pre)) := by
        show {copy} + ({addr} + b.owned + pre) = b.owned + ({copy} + ({addr} + pre))
        ac_rfl
      refine (b.dup_owned.of_eq hsplit).bind ?_
      rintro (_ | dup) _ ⟨rfl, hdup, hgranted⟩
      · refine released_owned (.refused (not_lasts hgranted)) ?_
        rw [zero_add, ← hsplit]
        exact zero_add _
      · rw [← hsplit]
        refine .pure ⟨0, ?_, Nat.zero_le _, fun x hx => ?_, fun _ => rfl⟩
        · generalize (bin addr (some b)).owned + pre = rest
          show dup.owned + ({copy} + rest) = {copy} + dup.owned + 0 + rest
          rw [add_zero]
          ac_rfl
        · obtain rfl := Option.some.inj hx
          obtain ⟨hcontent, hcard⟩ := hdup dup rfl
          refine ⟨rfl, ?_, hcard⟩
          show Object.bin (some dup.content) = Object.bin (some (rawBufferDup b.content))
          rw [hcontent]

theorem copy_array_runs (addr : Address) (arr : Option (ArrayCell ObjectCell))
    (hcopy : ∀ x ∈ (array addr arr).elements, CopyRuns lasts x.owned x.content x.copy) :
    CopyRuns lasts (array addr arr).owned (array addr arr).content (array addr arr).copy := by
  intro pre
  cases arr with
  | none =>
      refine (Triple.touch (by simp [owned])).bind ?_
      rintro _ _ rfl
      refine TripleWhen.malloc.bind ?_
      rintro (_ | copy) _ ⟨rfl, hgranted⟩
      · exact .pure (refused_owned hgranted)
      refine .pure ⟨0, ?_, Nat.zero_le _, fun x hx => ?_, fun _ => rfl⟩
      · rw [add_zero]
        rfl
      · obtain rfl := Option.some.inj hx
        exact ⟨rfl, rfl, rfl⟩
  | some arr =>
      obtain ⟨arr, objects, capacity, elems⟩ := arr
      refine (Triple.touch (by simp [owned])).bind ?_
      rintro _ _ rfl
      refine TripleWhen.malloc.bind ?_
      rintro (_ | copy) _ ⟨rfl, hgranted⟩
      · exact .pure (refused_owned hgranted)
      refine (Triple.touch (by simp [owned])).bind ?_
      rintro _ _ rfl
      refine (ArrayCell.create_owned owned).bind ?_
      rintro (_ | dst) _ ⟨rfl, hdst, hgranted⟩
      · refine released_owned (.refused (not_lasts hgranted)) ?_
        rw [zero_add]
        exact zero_add _
      have hempty : (leftoverAll dst.elems).card = 0 := by
        rw [hdst dst rfl]
        rfl
      have hsplit : (array addr (some ⟨arr, objects, capacity, elems⟩)).owned + pre =
          (elems.map owned).sum + ({addr} + ({arr} + {objects}) + pre) := by
        rw [owned_array, ArrayCell.ownedBy]
        ac_rfl
      have hsplit' : dst.ownedBy owned + (block (some copy) +
          ((array addr (some ⟨arr, objects, capacity, elems⟩)).owned + pre)) =
          dst.ownedBy owned +
            ((elems.map owned).sum + ({copy} + ({addr} + ({arr} + {objects}) + pre))) := by
        rw [hsplit]
        exact congrArg _ (add_left_comm _ _ _)
      refine ((copyAll_owned hcopy dst _).of_eq hsplit').bind ?_
      rintro (_ | dst') _ ⟨lost, rfl, hbound, hdone, hgranted⟩
      · rw [hempty, zero_add] at hbound
        have hlost : Copies lasts (.array (some (contents elems))) none lost :=
          ⟨hbound, nofun, hgranted⟩
        refine released_owned hlost ?_
        rw [hsplit, Option.elim_none, zero_add]
        show lost + ((elems.map owned).sum + _) = _
        ac_rfl
      · obtain ⟨rfl, hcontents, hcard⟩ := hdone dst' rfl
        refine .pure ⟨0, ?_, Nat.zero_le _, fun x hx => ?_, fun _ => rfl⟩
        · rw [hsplit]
          show dst'.ownedBy owned + 0 + _ = (array copy (some dst')).owned + 0 + _
          rw [owned_array]
          ac_rfl
        · obtain rfl := Option.some.inj hx
          obtain ⟨arr', objects', capacity', elems'⟩ := dst'
          rw [hdst dst rfl, contents, List.nil_append] at hcontents
          rw [hempty, zero_add] at hcard
          refine ⟨rfl, ?_, hcard⟩
          show Object.array (some (contents elems')) = _
          rw [hcontents]
          rfl

/-- An object is copied as `objectCopy` does. -/
theorem copy_runs (o : ObjectCell) : CopyRuns lasts o.owned o.content o.copy := by
  induction o using elementInduction with
  | step o ih =>
      cases o with
      | bare addr value => exact copy_bare_runs addr value
      | str addr text => exact copy_str_runs addr text
      | bin addr buffer => exact copy_bin_runs addr buffer
      | array addr arr => exact copy_array_runs addr arr ih

end ObjectCell

end Haze
