import Haze.ObjectMemory
import Haze.Proto.NotificationRead

/-
  Notifications as programs that allocate: `NotificationReadObject`, `NotificationNew`,
  `NotificationUnmarshal` and `NotificationFree`.

  The reader puts a `RawBuffer` and its bytes in one block, since `ObjectFree` frees only the
  structure. But what it reads is copied into arrays, and a copy has a block of its own for the
  bytes, so a binary leaves one block behind for each array it is in (`Object.copies`). Behind a
  `NULL` the mpack reader is not read again, and so it is not part of the result.

  `notification_memory` says so of every buffer and whatever the allocator answers; the result is
  that of `notificationUnmarshal`, or `NULL` if a request was refused.
-/

open Collections Msgpack

namespace Haze

open Alloc Triple

variable {pre : Multiset Address} {lasts : Prop}

/-! ## Copies -/

namespace Object

mutual

/-- The copies that were made of the binaries with bytes, of an object that was copied `d`
times. -/
def copies (d : Nat) : Object → Nat
  | .bin (some b) => d * BufferCell.filled b.bytes
  | .array (some xs) => copiesAll (d + 1) xs
  | _ => 0

def copiesAll (d : Nat) : List Object → Nat
  | [] => 0
  | x :: xs => copies d x + copiesAll d xs

end

theorem copiesAll_eq_sum (d : Nat) (xs : List Object) :
    copiesAll d xs = (xs.map (copies d)).sum := by
  induction xs with
  | nil => rfl
  | cons x xs ih => rw [copiesAll, ih, List.map_cons, List.sum_cons]

theorem copiesAll_append (d : Nat) (xs ys : List Object) :
    copiesAll d (xs ++ ys) = copiesAll d xs + copiesAll d ys := by
  rw [copiesAll_eq_sum, copiesAll_eq_sum, copiesAll_eq_sum, List.map_append, List.sum_append]

theorem copies_succ (d : Nat) (o : Object) : copies (d + 1) o = copies d o + o.binaries := by
  induction o using elementInduction generalizing d with
  | step o ih =>
      cases o with
      | bin b =>
          cases b with
          | none => rfl
          | some b => exact Nat.succ_mul d _
      | array xs =>
          cases xs with
          | none => rfl
          | some xs =>
              rw [copies, copies, binaries, copiesAll_eq_sum, copiesAll_eq_sum,
                binariesAll_eq_sum, ← List.sum_map_add]
              exact congrArg List.sum (List.map_congr_left fun x hx => ih x hx (d + 1))
      | _ => rfl

theorem copies_objectCopy (d : Nat) (o : Object) : copies d (objectCopy o) = copies d o := by
  induction o using elementInduction generalizing d with
  | step o ih =>
      cases o with
      | bin b =>
          cases b with
          | none => rfl
          | some b =>
              have hbytes : (rawBufferDup b).bytes = b.bytes := bytes_rawBufferNew b.data
              rw [objectCopy, copies, copies, hbytes]
      | array xs =>
          cases xs with
          | none => rfl
          | some xs =>
              rw [objectCopy, copies, copies, copiesAll_eq_sum, copiesAll_eq_sum,
                objectArrayCopy_eq_map, List.map_map]
              exact congrArg List.sum (List.map_congr_left fun x hx => ih x hx (d + 1))
      | _ => rfl

theorem binaries_objectCopy (o : Object) : (objectCopy o).binaries = o.binaries := by
  have hcopy := copies_succ 0 (objectCopy o)
  rw [copies_objectCopy, copies_objectCopy, copies_succ] at hcopy
  exact (Nat.add_left_cancel hcopy).symm

theorem binariesAll_append (xs ys : List Object) :
    binariesAll (xs ++ ys) = binariesAll xs + binariesAll ys := by
  rw [binariesAll_eq_sum, binariesAll_eq_sum, binariesAll_eq_sum, List.map_append, List.sum_append]

theorem copies_of_bare (d : Nat) {o : Object} (ho : o.Bare) : copies d o = 0 := by
  cases o with
  | bin b => exact ho.elim
  | array xs => exact ho.elim
  | _ => rfl

end Object

/-! ## Programs -/

/-- `Notification`. Its params are there. -/
structure NotificationCell where
  addr : Address
  method : Option TextCell
  params : ArrayCell ObjectCell

namespace NotificationCell

def owned (n : NotificationCell) : Multiset Address :=
  {n.addr} + TextCell.block n.method + n.params.ownedBy ObjectCell.owned

def content (n : NotificationCell) : Notification where
  type := hazeRpcNotification
  method := n.method.map TextCell.text
  params := some (ObjectCell.contents n.params.elems)

/-- `NotificationNew`. -/
def new : Alloc (Option NotificationCell) := do
  let some n ← malloc | return none
  let some params ← ArrayCell.create
    | do
      release n
      return none
  return some { addr := n, method := none, params := params }

/-- `NotificationFree`, of a notification that is there. -/
def free (n : NotificationCell) : Alloc Unit := do
  touch n.addr
  TextCell.free n.method
  n.params.freeBy (ObjectCell.freeAll n.params.elems)
  release n.addr

/-- A program that makes an object, and the reader behind it. -/
def made (create : Alloc (Option ObjectCell)) (reader : Reader) :
    Alloc (Option (ObjectCell × Reader)) := do
  let some obj ← create | return none
  return some (obj, reader)

def readStr (reader : Reader) : Alloc (Option (ObjectCell × Reader)) :=
  match mpackExpectStr reader with
  | (_, .failed _) => return none
  | (len, reader) => do
    let some buffer ← malloc | return none
    match mpackReadBytes reader len.toNat with
    | (_, .failed _) =>
      release buffer
      return none
    | (bytes, reader) =>
      if 0 ∈ bytes then
        release buffer
        return none
      else
        let some obj ← malloc
          | do
            release buffer
            return none
        return some (.str obj (some { addr := buffer, text := .ofBytes bytes }), reader)

/-- The bytes are in the block of the `RawBuffer`. -/
def readBin (reader : Reader) : Alloc (Option (ObjectCell × Reader)) :=
  match mpackExpectBin reader with
  | (_, .failed _) => return none
  | (len, reader) => do
    let some buffer ← malloc | return none
    match (if 0 < len.toNat then mpackReadBytes reader len.toNat else ([], reader)) with
    | (_, .failed _) =>
      release buffer
      return none
    | (data, reader) =>
      let some obj ← malloc
        | do
          release buffer
          return none
      let cell : BufferCell :=
        { addr := buffer, data := none, content := rawBufferNew (some data), stored := nofun }
      return some (.bin obj (some cell), reader)

/-- The loop over `n` objects, with the array it appends to. It stops without a reader. -/
def readElements (checked : Bool) (read : Reader → Alloc (Option (ObjectCell × Reader))) :
    Nat → Reader → ArrayCell ObjectCell → Alloc (ArrayCell ObjectCell × Option Reader)
  | 0, reader, array => return (array, some reader)
  | n + 1, reader, array => do
    if checked ∧ mpackReaderError reader ≠ none then return (array, none)
    else
      let some (value, reader) ← read reader | return (array, none)
      let (ok, array) ← array.appendBy value.copy
      value.free
      if ok then readElements checked read n reader array else return (array, none)

/-- An array behind its header. -/
def readArray (read : Reader → Alloc (Option (ObjectCell × Reader))) (count : UInt32)
    (reader : Reader) : Alloc (Option (ObjectCell × Reader)) := do
  let some array ← ArrayCell.create | return none
  match ← readElements true read count.toNat reader array with
  | (array, some (.ok data)) =>
    let some obj ← malloc
      | do
        array.freeBy (ObjectCell.freeAll array.elems)
        return none
    return some (.array obj (some array), .ok data)
  | (array, _) =>
    array.freeBy (ObjectCell.freeAll array.elems)
    return none

def readObject : Nat → Reader → Alloc (Option (ObjectCell × Reader))
  | 0, _ => failure
  | fuel + 1, reader =>
    match mpackPeekTag reader with
    | (.nil, reader) => made ObjectCell.createNil (mpackExpectNil reader)
    | (.bool _, reader) =>
      let (v, reader) := mpackExpectBool reader
      made (ObjectCell.createBool v) reader
    | (.int _, reader) =>
      let (v, reader) := mpackExpectI64 reader
      made (ObjectCell.createInt v) reader
    | (.uint _, reader) =>
      let (v, reader) := mpackExpectU64 reader
      made (ObjectCell.createUInt v) reader
    | (.float _, reader) =>
      let (v, reader) := mpackExpectFloatStrict reader
      made (ObjectCell.createFloat v) reader
    | (.double _, reader) =>
      let (v, reader) := mpackExpectDoubleStrict reader
      made (ObjectCell.createDouble v) reader
    | (.str _, reader) => readStr reader
    | (.bin _, reader) => readBin reader
    | (.array _, reader) =>
      match mpackExpectArrayMax reader notificationMaxParams with
      | (_, .failed _) => return none
      | (count, reader) => readArray (readObject fuel) count reader
    | (.map _, _) => return none

/-- `mpack_expect_cstr_alloc`. -/
def expectCstrAlloc (reader : Reader) (maxsize : UInt32) : Alloc (Option (TextCell × Reader)) :=
  match mpackExpectStrMax reader (maxsize - 1) with
  | (_, .failed _) => return none
  | (length, reader) => do
    let some str ← malloc | return none
    match mpackReadBytes reader length.toNat with
    | (_, .failed _) =>
      release str
      return none
    | (bytes, reader) =>
      if 0 ∈ bytes then
        release str
        return none
      else return some ({ addr := str, text := .ofBytes bytes }, reader)

/-- `NotificationUnmarshal` up to the parameter loop. -/
def unmarshalHeader (b : Bytes) : Alloc (Option (NotificationCell × UInt32 × Reader)) := do
  let (count, reader) := mpackExpectArrayMax (mpackReaderInitData b) 3
  if mpackReaderError reader ≠ none ∨ count ≠ 3 then return none
  else
    let reader := mpackExpectUintMatch reader hazeRpcNotification.toUInt64
    if mpackReaderError reader ≠ none then return none
    else
      let some (method, reader) ← expectCstrAlloc reader notificationMaxMethodSize | return none
      let (paramCount, reader) := mpackExpectArrayMax reader notificationMaxParams
      if mpackReaderError reader ≠ none then
        release method.addr
        return none
      else
        let some notification ← new
          | do
            release method.addr
            return none
        return some ({ notification with method := some method }, paramCount, reader)

/-- `NotificationUnmarshal`. -/
def unmarshal (b : Bytes) : Alloc (Option NotificationCell) := do
  if b.length = 0 then return none
  else
    let some (notification, paramCount, reader) ← unmarshalHeader b | return none
    let (params, reader) ←
      readElements false (readObject (b.length + 1)) paramCount.toNat reader notification.params
    let notification := { notification with params := params }
    match reader with
    | some (.ok _) => return some notification
    | _ =>
      notification.free
      return none

/-! ## Readers -/

/-- No byte opens a binary. -/
def BinFree (bs : Bytes) : Prop := ∀ b ∈ bs, b ≠ 0xc4 ∧ b ≠ 0xc5 ∧ b ≠ 0xc6

/-- No byte ahead opens a binary. -/
def ReaderBinFree : Reader → Prop
  | .ok data => BinFree data
  | .failed _ => True

theorem BinFree.suffix {bs rest : Bytes} (h : BinFree bs) (hrest : rest <:+ bs) : BinFree rest :=
  fun b hb => h b (hrest.subset hb)

/-- A header of a binary has such a byte. -/
theorem not_binFree_of_spells {n : UInt32} {h : Bytes} (hs : Spells (.bin n) h) (tail : Bytes) :
    ¬BinFree (h ++ tail) := by
  intro hfree
  obtain ⟨b, body, f, rfl, hf, -, htag⟩ := hs
  obtain ⟨h8, h16, h32⟩ := hfree b List.mem_cons_self
  obtain rfl | rfl | rfl := format_bin hf htag
  · exact h8 rfl
  · exact h16 rfl
  · exact h32 rfl

theorem not_binFree_of_peek {reader reader' : Reader} {n : UInt32}
    (hpeek : mpackPeekTag reader = (.bin n, reader')) : ¬ReaderBinFree reader := by
  intro hfree
  cases reader with
  | failed e => cases hpeek
  | ok data =>
      obtain ⟨t, h, tail, hs, rfl⟩ | ⟨e, -, hcut⟩ := mpackReadTag_cases data
      · rw [mpackPeekTag_spells hs] at hpeek
        obtain ⟨rfl, -⟩ := Prod.mk.inj hpeek
        exact not_binFree_of_spells hs tail hfree
      · cases hcut.symm.trans hpeek

/-- What a program that reads an object makes of what `result` says without the memory: an
object and what it left behind, or nothing, if there is none or a request was refused. -/
structure Reads (lasts : Prop) (reader : Reader) (result : Option Object × Reader)
    (out : Option (ObjectCell × Reader)) (lost : Multiset Address) : Prop where
  same : ∀ x ∈ out, result = (some x.1.content, x.2)
  granted : lasts → out = none → result.1 = none
  counted : ∀ x ∈ out, lost.card + x.1.leftover.card = x.1.content.copies 0
  binFree : ReaderBinFree reader →
    lost = 0 ∧ ∀ x ∈ out, x.1.content.binaries = 0 ∧ x.1.leftover = 0

/-- The program owns what it made and keeps what it owned. -/
def ReadRuns (lasts : Prop) (reader : Reader) (result : Option Object × Reader)
    (prog : Alloc (Option (ObjectCell × Reader))) : Prop :=
  ∀ pre, TripleWhen lasts pre prog fun out owned =>
    ∃ lost, owned = out.elim 0 (ObjectCell.owned ∘ Prod.fst) + lost + pre ∧
      Reads lasts reader result out lost

/-- Nothing comes of it. -/
theorem Reads.lost {reader : Reader} {result : Option Object × Reader} {lost : Multiset Address}
    (h : lasts → result.1 = none) (hlost : ReaderBinFree reader → lost = 0) :
    Reads lasts reader result none lost where
  same x hx := absurd hx (Option.not_mem_none x)
  granted hlasts _ := h hlasts
  counted x hx := absurd hx (Option.not_mem_none x)
  binFree hfree := ⟨hlost hfree, fun x hx => absurd hx (Option.not_mem_none x)⟩

/-- Nothing comes of it, and nothing is left behind. -/
theorem Reads.nothing {reader : Reader} {result : Option Object × Reader}
    (h : lasts → result.1 = none) : Reads lasts reader result none 0 :=
  .lost h fun _ => rfl

theorem Reads.refused {reader : Reader} {result : Option Object × Reader} (h : ¬lasts) :
    Reads lasts reader result none 0 :=
  .nothing fun hlasts => absurd hlasts h

/-- An object of which nothing will be left behind. -/
theorem Reads.clean {start reader : Reader} {o : ObjectCell} {v : Object} (hcontent : o.content = v)
    (hleft : o.leftover = 0) (hcopies : v.copies 0 = 0)
    (hbin : ReaderBinFree start → v.binaries = 0) :
    Reads lasts start (some v, reader) (some (o, reader)) 0 where
  same x hx := by
    obtain rfl := Option.some.inj hx
    rw [hcontent]
  granted _ h := absurd h (Option.some_ne_none _)
  counted x hx := by
    obtain rfl := Option.some.inj hx
    rw [hleft, hcontent, hcopies]
    rfl
  binFree hfree := ⟨rfl, fun x hx => by
    obtain rfl := Option.some.inj hx
    exact ⟨(congrArg Object.binaries hcontent).trans (hbin hfree), hleft⟩⟩

theorem made_runs (value : BareObject) (start reader : Reader) :
    ReadRuns lasts start (some value.object, reader)
      (made (ObjectCell.createBare value) reader) := by
  intro pre
  refine (ObjectCell.createBare_owned value).bind ?_
  rintro (_ | obj) _ ⟨rfl, hobj, hgranted⟩
  · exact .pure ⟨0, rfl, .refused (not_lasts hgranted)⟩
  · obtain ⟨hcontent, hleftover⟩ := hobj obj rfl
    refine .pure ⟨0, ?_, .clean hcontent hleftover (Object.copies_of_bare 0 value.bare) fun _ =>
      Object.binaries_of_bare value.bare⟩
    rw [add_zero]
    rfl

/-- Nothing is owned but what was. -/
theorem nothing_owned :
    pre =
      (none : Option (ObjectCell × Reader)).elim 0 (ObjectCell.owned ∘ Prod.fst) + 0 + pre := by
  rw [Option.elim_none, zero_add, zero_add]

/-- There was no memory. -/
theorem refused_owned {α : Type} {start : Reader} {result : Option Object × Reader}
    (h : lasts → (none : Option α).isSome) :
    ∃ lost, 0 + pre =
        (none : Option (ObjectCell × Reader)).elim 0 (ObjectCell.owned ∘ Prod.fst) + lost + pre ∧
      Reads lasts start result none lost :=
  ⟨0, (zero_add pre).trans nothing_owned, .refused (not_lasts h)⟩

/-- The block that was read to is freed, and nothing comes of it. -/
theorem released_runs {start : Reader} {result : Option Object × Reader} {a : Address}
    {owned' : Multiset Address} (howned : owned' = {a} + pre) (h : lasts → result.1 = none) :
    TripleWhen lasts owned'
      (do
        release a
        return (none : Option (ObjectCell × Reader))) fun out owned =>
      ∃ lost, owned = out.elim 0 (ObjectCell.owned ∘ Prod.fst) + lost + pre ∧
        Reads lasts start result out lost := by
  refine (Triple.release.of_eq howned).bind ?_
  rintro _ _ rfl
  exact .pure ⟨0, nothing_owned, .nothing h⟩

theorem readStr_runs (start reader : Reader) :
    ReadRuns lasts start (notificationReadStr reader) (readStr reader) := by
  intro pre
  unfold readStr notificationReadStr
  generalize mpackExpectStr reader = expected
  obtain ⟨len, data | e⟩ := expected
  swap
  · exact .pure ⟨0, nothing_owned, .nothing fun _ => rfl⟩
  simp only
  refine TripleWhen.malloc.bind ?_
  rintro (_ | buffer) _ ⟨rfl, hgranted⟩
  · exact .pure (refused_owned hgranted)
  generalize mpackReadBytes (.ok data) len.toNat = read
  obtain ⟨bytes, rest | e⟩ := read
  swap
  · exact released_runs rfl fun _ => rfl
  simp only
  split_ifs with hnul
  · exact released_runs rfl fun _ => rfl
  refine TripleWhen.malloc.bind ?_
  rintro (_ | obj) _ ⟨rfl, hgranted⟩
  · exact released_runs (zero_add _) fun h => absurd h (not_lasts hgranted)
  · refine .pure ⟨0, ?_, .clean rfl rfl rfl fun _ => rfl⟩
    show {obj} + ({buffer} + pre) = {obj} + {buffer} + 0 + pre
    rw [add_zero, add_assoc]

/-- There are no binaries where no byte opens one, and so the object has none. -/
theorem readBin_runs {start : Reader} (hstart : ¬ReaderBinFree start) (reader : Reader) :
    ReadRuns lasts start (notificationReadBin reader) (readBin reader) := by
  intro pre
  unfold readBin notificationReadBin
  generalize mpackExpectBin reader = expected
  obtain ⟨len, data | e⟩ := expected
  swap
  · exact .pure ⟨0, nothing_owned, .nothing fun _ => rfl⟩
  simp only
  refine TripleWhen.malloc.bind ?_
  rintro (_ | buffer) _ ⟨rfl, hgranted⟩
  · exact .pure (refused_owned hgranted)
  generalize (if 0 < len.toNat then mpackReadBytes (.ok data) len.toNat else ([], .ok data)) = read
  obtain ⟨bytes, rest | e⟩ := read
  swap
  · exact released_runs rfl fun _ => rfl
  simp only
  refine TripleWhen.malloc.bind ?_
  rintro (_ | obj) _ ⟨rfl, hgranted⟩
  · exact released_runs (zero_add _) fun h => absurd h (not_lasts hgranted)
  · refine .pure ⟨0, ?_, .clean rfl rfl (Nat.zero_mul _) fun h => absurd h hstart⟩
    show {obj} + ({buffer} + pre) = {obj} + ({buffer} + 0) + 0 + pre
    rw [add_zero, add_zero, add_assoc]

/-! ## The loop over objects -/

/-- What the loop makes of an array: what `result` says, and what it left behind. -/
structure ReadsAll (lasts : Prop) (reader : Reader) (result : Option (List Object) × Reader)
    (array : ArrayCell ObjectCell) (out : ArrayCell ObjectCell × Option Reader)
    (lost : Multiset Address) : Prop where
  same : ∀ r ∈ out.2, result = (some (ObjectCell.contents out.1.elems), r)
  granted : lasts → out.2 = none → result.1 = none
  counted : out.2.isSome →
    lost.card + (ObjectCell.leftoverAll out.1.elems).card +
        Object.copiesAll 1 (ObjectCell.contents array.elems) =
      (ObjectCell.leftoverAll array.elems).card +
        Object.copiesAll 1 (ObjectCell.contents out.1.elems)
  binFree : ReaderBinFree reader → ObjectCell.leftoverAll array.elems = 0 →
    Object.binariesAll (ObjectCell.contents array.elems) = 0 →
    lost = 0 ∧ ObjectCell.leftoverAll out.1.elems = 0 ∧
      Object.binariesAll (ObjectCell.contents out.1.elems) = 0

/-- The loop stopped with the array it has. -/
theorem ReadsAll.stopped {reader : Reader} {result : Option (List Object) × Reader}
    {array array' : ArrayCell ObjectCell} {lost : Multiset Address}
    (helems : array'.elems = array.elems) (h : lasts → result.1 = none)
    (hlost : ReaderBinFree reader → lost = 0) :
    ReadsAll lasts reader result array (array', none) lost where
  same := nofun
  granted hlasts _ := h hlasts
  counted hsome := absurd hsome Bool.false_ne_true
  binFree hfree hleft hbin := ⟨hlost hfree, helems ▸ hleft, helems ▸ hbin⟩

theorem readElements_runs {checked : Bool}
    {cellRead : Reader → Alloc (Option (ObjectCell × Reader))}
    {read : Reader → Except Fault (Option Object × Reader)}
    (hread : ∀ reader res, read reader = .ok res → ReadRuns lasts reader res (cellRead reader))
    (hfree : ∀ reader o reader', read reader = .ok (some o, reader') →
      ReaderBinFree reader → ReaderBinFree reader')
    (n : Nat) (reader : Reader) (array : ArrayCell ObjectCell) (pre : Multiset Address)
    {res : Option (List Object) × Reader}
    (hres : notificationReadElements checked read n reader (ObjectCell.contents array.elems) =
      .ok res) :
    TripleWhen lasts (array.ownedBy ObjectCell.owned + pre)
      (readElements checked cellRead n reader array) fun out owned =>
        ∃ lost, owned = out.1.ownedBy ObjectCell.owned + lost + pre ∧
          ReadsAll lasts reader res array out lost := by
  induction n generalizing reader array pre with
  | zero =>
      obtain rfl := Except.ok.inj hres
      refine .pure ⟨0, by rw [add_zero], ?_, fun _ h => ?_, ?_, fun _ hleft hbin => ?_⟩
      · rintro _ ⟨⟩
        rfl
      · cases h
      · intro _
        rw [Multiset.card_zero, Nat.zero_add]
      · exact ⟨rfl, hleft, hbin⟩
  | succ n ih =>
      rw [notificationReadElements] at hres
      unfold readElements
      split_ifs at hres ⊢ with hfailed
      · obtain rfl := Except.ok.inj hres
        exact .pure ⟨0, by rw [add_zero], .stopped rfl (fun _ => rfl) fun _ => rfl⟩
      obtain ⟨⟨o, r⟩, hone, hrest⟩ := bind_eq_ok.mp hres
      refine (hread reader _ hone _).bind ?_
      rintro (_ | ⟨value, r'⟩) _ ⟨lost, rfl, hreads⟩
      · -- there is no object, or no memory for it
        refine .pure ⟨lost, ?_, .stopped rfl (fun h => ?_) fun h => (hreads.binFree h).1⟩
        · rw [Option.elim_none, zero_add]
          ac_rfl
        · obtain rfl : o = none := hreads.granted h rfl
          obtain rfl := Except.ok.inj hrest
          rfl
      obtain ⟨rfl, rfl⟩ := Prod.mk.inj (hreads.same _ rfl)
      have hvalue : lost.card + value.leftover.card = value.content.copies 0 :=
        hreads.counted _ rfl
      have hsplit : (some (value, r)).elim 0 (ObjectCell.owned ∘ Prod.fst) + lost +
          (array.ownedBy ObjectCell.owned + pre) =
          array.ownedBy ObjectCell.owned + (value.owned + (lost + pre)) := by
        show value.owned + lost + _ = _
        ac_rfl
      refine ((array.appendBy_owned value.copy_runs .refused).of_eq hsplit).bind ?_
      rintro ⟨ok, array'⟩ _ ⟨copy, lost', rfl, hcopies, rfl, helems⟩
      refine (value.free_owned.of_eq (add_left_comm _ _ _)).bind ?_
      rintro _ _ rfl
      cases copy with
      | none =>
          -- no room or no memory for the copy
          rw [Option.toList_none, List.append_nil] at helems
          refine .pure
            ⟨value.leftover + lost + lost', ?_, .stopped helems (fun h => ?_) fun h => ?_⟩
          · ac_rfl
          · exact absurd h (not_lasts hcopies.granted)
          · obtain ⟨rfl, hnone⟩ := hreads.binFree h
            obtain ⟨hbinaries, hleft⟩ := hnone _ rfl
            have hbound := hcopies.bound
            rw [hbinaries, Nat.le_zero, Multiset.card_eq_zero] at hbound
            rw [hleft, hbound, add_zero, add_zero]
      | some copy =>
          obtain ⟨rfl, hcontent, hleftover⟩ := hcopies.done copy rfl
          rw [Option.toList_some] at helems
          have happend : ObjectCell.contents array'.elems =
              objectArrayAppend (ObjectCell.contents array.elems) value.content := by
            rw [helems, ObjectCell.contents_append, objectArrayAppend, ← hcontent]
            rfl
          have hleftAll : ObjectCell.leftoverAll array'.elems =
              ObjectCell.leftoverAll array.elems + copy.leftover := by
            rw [helems, ObjectCell.leftoverAll_append]
            exact congrArg _ (add_zero _)
          have hsplit' : value.leftover + (array'.ownedBy ObjectCell.owned + 0 + (lost + pre)) =
              array'.ownedBy ObjectCell.owned + (value.leftover + (lost + pre)) := by
            rw [add_zero, add_left_comm]
          have hloop := ih r array' (value.leftover + (lost + pre)) (happend.symm ▸ hrest)
          refine (hloop.of_eq hsplit').conseq ?_
          rintro out _ ⟨lost', rfl, hall⟩
          refine ⟨lost' + value.leftover + lost, by ac_rfl, hall.same, hall.granted, ?_, ?_⟩
          · intro hsome
            have hcounted := hall.counted hsome
            have hcopy : Object.copies 1 (objectCopy value.content) =
                value.content.copies 0 + value.content.binaries := by
              rw [Object.copies_objectCopy, Object.copies_succ]
            rw [happend, hleftAll, objectArrayAppend, Object.copiesAll_append, Object.copiesAll,
              Object.copiesAll, hcopy, Multiset.card_add, hleftover] at hcounted
            rw [Multiset.card_add, Multiset.card_add]
            omega
          · intro hstart hleft hbin
            obtain ⟨rfl, hnone⟩ := hreads.binFree hstart
            obtain ⟨hbinaries, hvalueLeft⟩ := hnone _ rfl
            rw [hbinaries, Multiset.card_eq_zero] at hleftover
            obtain ⟨rfl, hout⟩ := hall.binFree (hfree _ _ _ hone hstart)
              (by rw [hleftAll, hleft, hleftover, add_zero])
              (by
                rw [happend, objectArrayAppend, Object.binariesAll_append, hbin,
                  Object.binariesAll, Object.binariesAll, Object.binaries_objectCopy, hbinaries])
            exact ⟨by rw [hvalueLeft, add_zero, add_zero], hout⟩

theorem readArray_runs {start reader : Reader} {count : UInt32}
    {cellRead : Reader → Alloc (Option (ObjectCell × Reader))}
    {read : Reader → Except Fault (Option Object × Reader)}
    (hread : ∀ reader res, read reader = .ok res → ReadRuns lasts reader res (cellRead reader))
    (hfree : ∀ reader o reader', read reader = .ok (some o, reader') →
      ReaderBinFree reader → ReaderBinFree reader')
    (hstart : ReaderBinFree start → ReaderBinFree reader) {out : Option (List Object) × Reader}
    (hloop : notificationReadElements true read count.toNat reader [] = .ok out)
    {res : Option Object × Reader}
    (hok : ∀ array data, out = (some array, .ok data) →
      res = (some (.array (some array)), .ok data))
    (hnone : (∀ array data, out ≠ (some array, .ok data)) → res.1 = none) :
    ReadRuns lasts start res (readArray cellRead count reader) := by
  intro pre
  unfold readArray
  refine (ArrayCell.create_owned ObjectCell.owned).bind ?_
  rintro (_ | array) _ ⟨rfl, hempty, hgranted⟩
  · exact .pure (refused_owned hgranted)
  replace hempty : array.elems = [] := hempty array rfl
  have hcontents : ObjectCell.contents array.elems = [] := by
    rw [hempty]
    rfl
  refine (readElements_runs hread hfree count.toNat reader array pre
    (hcontents.symm ▸ hloop)).bind ?_
  rintro ⟨array', read'⟩ _ ⟨lost, rfl, hall⟩
  have hbinFree := fun h => hall.binFree (hstart h) (by rw [hempty]; rfl) (by rw [hcontents]; rfl)
  have freed : ∀ {owned'}, owned' = array'.ownedBy ObjectCell.owned + (lost + pre) →
      (lasts → res.1 = none) →
      TripleWhen lasts owned'
        (do
          array'.freeBy (ObjectCell.freeAll array'.elems)
          return none) fun out owned =>
        ∃ lost, owned = out.elim 0 (ObjectCell.owned ∘ Prod.fst) + lost + pre ∧
          Reads lasts start res out lost := by
    intro owned' howned h
    refine ((ObjectCell.freeArray_owned array').of_eq howned).bind ?_
    rintro _ _ rfl
    refine .pure ⟨ObjectCell.leftoverAll array'.elems + lost, ?_, .lost h fun hfree => ?_⟩
    · rw [Option.elim_none, zero_add, add_assoc]
    · obtain ⟨rfl, hleft, -⟩ := hbinFree hfree
      rw [hleft, add_zero]
  obtain _ | data | e := read'
  · refine freed (add_assoc _ _ _) fun h => hnone fun elems data heq => ?_
    have hout := hall.granted h rfl
    rw [heq] at hout
    cases hout
  · obtain rfl := hall.same _ rfl
    have hres := hok _ _ rfl
    refine TripleWhen.malloc.bind ?_
    rintro (_ | obj) _ ⟨rfl, hgranted⟩
    · refine freed ?_ fun h => absurd h (not_lasts hgranted)
      exact (zero_add _).trans (add_assoc _ _ _)
    · have hcounted := hall.counted rfl
      rw [hempty] at hcounted
      obtain ⟨arr, objects, capacity, elems⟩ := array'
      refine .pure ⟨lost, ?_, ?_, ?_, ?_, ?_⟩
      · rw [Option.elim_some]
        show {obj} + _ = ({obj} + ({arr} + {objects} + ObjectCell.ownedAll elems)) + lost + pre
        rw [ObjectCell.ownedAll_eq_sum, ArrayCell.ownedBy]
        ac_rfl
      · rintro _ ⟨⟩
        exact hres
      · exact fun _ h => absurd h (Option.some_ne_none _)
      · rintro _ ⟨⟩
        exact hcounted.trans (Nat.zero_add _)
      · intro hfree
        obtain ⟨hlost, hleft, hbin⟩ := hbinFree hfree
        refine ⟨hlost, ?_⟩
        rintro _ ⟨⟩
        exact ⟨hbin, hleft⟩
  · obtain rfl := hall.same _ rfl
    refine freed (add_assoc _ _ _) fun _ => hnone fun elems data heq => ?_
    cases heq

/-! ## Objects -/

/-- What is behind an object lay ahead of it. -/
theorem notificationReadObject_binFree {fuel : Nat} {reader reader' : Reader} {o : Object}
    (hres : notificationReadObject fuel reader = .ok (some o, reader'))
    (hfree : ReaderBinFree reader) : ReaderBinFree reader' := by
  cases reader with
  | failed e =>
      obtain rfl := notificationReadObject_failed hres
      exact hfree
  | ok data =>
      cases reader' with
      | failed e => trivial
      | ok rest =>
          obtain ⟨b, rfl, -⟩ := notificationReadObject_sound fuel hres
          exact BinFree.suffix hfree (List.suffix_append b rest)

theorem arrayHeader_binFree {reader reader' : Reader} {n count max : UInt32} {data : Bytes}
    (hpeek : mpackPeekTag reader = (.array n, reader'))
    (hmax : mpackExpectArrayMax reader' max = (count, .ok data)) (hfree : ReaderBinFree reader) :
    ReaderBinFree (.ok data) := by
  cases reader with
  | failed e => cases hpeek
  | ok bytes =>
      obtain ⟨t, h, tail, hs, rfl⟩ | ⟨e, -, hcut⟩ := mpackReadTag_cases bytes
      · rw [mpackPeekTag_spells hs] at hpeek
        obtain ⟨-, rfl⟩ := Prod.mk.inj hpeek
        obtain ⟨h', -, -, heq⟩ := mpackExpectArrayMax_sound hmax
        exact BinFree.suffix hfree (heq ▸ List.suffix_append h' data)
      · cases hcut.symm.trans hpeek

theorem readObject_runs (fuel : Nat) (reader : Reader) (res : Option Object × Reader)
    (hres : notificationReadObject fuel reader = .ok res) :
    ReadRuns lasts reader res (readObject fuel reader) := by
  induction fuel generalizing reader res with
  | zero => cases hres
  | succ fuel ih =>
      rw [notificationReadObject] at hres
      unfold readObject
      generalize hpeek : mpackPeekTag reader = peeked at hres ⊢
      obtain ⟨tag, r⟩ := peeked
      cases tag with
      | nil =>
          obtain rfl := Except.ok.inj hres
          exact made_runs ⟨.nil, trivial⟩ reader (mpackExpectNil r)
      | bool _ =>
          obtain rfl := Except.ok.inj hres
          exact made_runs ⟨.bool (mpackExpectBool r).1, trivial⟩ reader (mpackExpectBool r).2
      | int _ =>
          obtain rfl := Except.ok.inj hres
          exact made_runs ⟨.int (mpackExpectI64 r).1, trivial⟩ reader (mpackExpectI64 r).2
      | uint _ =>
          obtain rfl := Except.ok.inj hres
          exact made_runs ⟨.uint (mpackExpectU64 r).1, trivial⟩ reader (mpackExpectU64 r).2
      | float _ =>
          obtain rfl := Except.ok.inj hres
          exact made_runs ⟨.float (mpackExpectFloatStrict r).1, trivial⟩ reader
            (mpackExpectFloatStrict r).2
      | double _ =>
          obtain rfl := Except.ok.inj hres
          exact made_runs ⟨.double (mpackExpectDoubleStrict r).1, trivial⟩ reader
            (mpackExpectDoubleStrict r).2
      | str _ =>
          obtain rfl := Except.ok.inj hres
          exact readStr_runs reader r
      | bin _ =>
          obtain rfl := Except.ok.inj hres
          exact readBin_runs (not_binFree_of_peek hpeek) r
      | array _ =>
          simp only at hres ⊢
          generalize hmax : mpackExpectArrayMax r notificationMaxParams = header at hres ⊢
          obtain ⟨count, data | e⟩ := header
          · obtain ⟨out, hloop, hrest⟩ := bind_eq_ok.mp hres
            refine readArray_runs ih (fun _ _ _ => notificationReadObject_binFree)
              (arrayHeader_binFree hpeek hmax) hloop ?_ fun hother => ?_
            · rintro array data rfl
              exact (Except.ok.inj hrest).symm
            · split at hrest
              · exact absurd rfl (hother _ _)
              · obtain rfl := Except.ok.inj hrest
                rfl
          · obtain rfl := Except.ok.inj hres
            exact fun pre => .pure ⟨0, nothing_owned, .nothing fun _ => rfl⟩
      | map _ =>
          obtain rfl := Except.ok.inj hres
          exact fun pre => .pure ⟨0, nothing_owned, .nothing fun _ => rfl⟩

/-! ## Notifications -/

theorem new_owned : TripleWhen lasts pre new fun n owned =>
    owned = n.elim 0 NotificationCell.owned + pre ∧
      (∀ x ∈ n, x.content = notificationNew ∧ x.params.elems = [] ∧ x.method = none) ∧
      (lasts → n.isSome) := by
  refine TripleWhen.malloc.bind ?_
  rintro (_ | n) _ ⟨rfl, hn⟩
  · exact .pure ⟨rfl, by simp, hn⟩
  refine (ArrayCell.create_owned ObjectCell.owned).bind ?_
  rintro (_ | params) _ ⟨rfl, hempty, hparams⟩
  · refine (Triple.release.of_eq (zero_add _)).bind ?_
    rintro _ _ rfl
    exact .pure ⟨(zero_add _).symm, by simp, hparams⟩
  · refine .pure ⟨?_, fun x hx => ?_, fun _ => rfl⟩
    · show params.ownedBy ObjectCell.owned + ({n} + pre) =
        {n} + 0 + params.ownedBy ObjectCell.owned + pre
      rw [add_zero]
      ac_rfl
    · obtain rfl := Option.some.inj hx
      refine ⟨?_, hempty params rfl, rfl⟩
      rw [content, hempty params rfl]
      rfl

/-- All is freed but the bytes of the binaries in the params. -/
theorem free_owned (n : NotificationCell) :
    TripleWhen lasts (n.owned + pre) n.free fun _ owned =>
      owned = ObjectCell.leftoverAll n.params.elems + pre :=
  ObjectCell.freeFields_owned n.addr n.method n.params

theorem expectCstrAlloc_owned (reader : Reader) (maxsize : UInt32) :
    TripleWhen lasts pre (expectCstrAlloc reader maxsize) fun out owned =>
      owned = TextCell.block (out.map Prod.fst) + pre ∧
        (∀ x ∈ out, ∃ str data, mpackExpectCstrAlloc reader maxsize = (some str, x.2) ∧
          x.1.text = .ofBytes str ∧ x.2 = .ok data) ∧
        (lasts → out = none → (mpackExpectCstrAlloc reader maxsize).1 = none) := by
  unfold expectCstrAlloc mpackExpectCstrAlloc
  generalize mpackExpectStrMax reader (maxsize - 1) = expected
  obtain ⟨length, data | e⟩ := expected
  swap
  · exact .pure ⟨(zero_add pre).symm, by simp, fun _ _ => rfl⟩
  simp only [mpackReadBytesAllocImpl]
  refine TripleWhen.malloc.bind ?_
  rintro (_ | str) _ ⟨rfl, hstr⟩
  · exact .pure ⟨rfl, by simp, fun h => absurd h (not_lasts hstr)⟩
  generalize mpackReadBytes (.ok data) length.toNat = read
  obtain ⟨bytes, rest | e⟩ := read
  swap
  · refine Triple.release.bind ?_
    rintro _ _ rfl
    exact .pure ⟨(zero_add _).symm, by simp, fun _ _ => rfl⟩
  simp only
  split_ifs with hnul
  · refine Triple.release.bind ?_
    rintro _ _ rfl
    exact .pure ⟨(zero_add _).symm, by simp, fun _ _ => rfl⟩
  · refine .pure ⟨rfl, ?_, fun _ h => absurd h (Option.some_ne_none _)⟩
    rintro _ ⟨⟩
    exact ⟨bytes, rest, rfl, rfl, rfl⟩

/-- The notification that the params are read into. -/
theorem unmarshalHeader_owned (b : Bytes) :
    TripleWhen lasts pre (unmarshalHeader b) fun out owned =>
      owned = out.elim 0 (NotificationCell.owned ∘ Prod.fst) + pre ∧
        (∀ x ∈ out, notificationUnmarshalHeader b = some (x.1.content, x.2) ∧
          x.1.params.elems = []) ∧
        (lasts → out = none → notificationUnmarshalHeader b = none) := by
  unfold unmarshalHeader notificationUnmarshalHeader
  generalize mpackExpectArrayMax (mpackReaderInitData b) 3 = three
  obtain ⟨count, r₁⟩ := three
  simp only
  split_ifs with herr₁ herr₂
  · exact .pure ⟨(zero_add pre).symm, by simp, fun _ _ => rfl⟩
  · exact .pure ⟨(zero_add pre).symm, by simp, fun _ _ => rfl⟩
  refine (expectCstrAlloc_owned _ _).bind ?_
  rintro (_ | ⟨method, r₂⟩) _ ⟨rfl, hsome, hnone⟩
  · refine .pure ⟨rfl, by simp, fun h _ => ?_⟩
    have hcstr := hnone h rfl
    generalize mpackExpectCstrAlloc _ _ = expected at hcstr ⊢
    obtain ⟨str, r₂⟩ := expected
    obtain rfl : str = none := hcstr
    rfl
  obtain ⟨str, data, hcstr, htext, rfl⟩ := hsome _ rfl
  simp only at hcstr htext ⊢
  rw [hcstr]
  simp only [mpackReaderError_ok]
  generalize mpackExpectArrayMax (.ok data) notificationMaxParams = params
  obtain ⟨paramCount, r₃⟩ := params
  simp only [ne_eq, not_true_eq_false, if_false]
  split_ifs with herr₃
  swap
  · refine Triple.release.bind ?_
    rintro _ _ rfl
    exact .pure ⟨(zero_add _).symm, by simp, fun _ _ => rfl⟩
  refine new_owned.bind ?_
  rintro (_ | n) _ ⟨rfl, hnew, hgranted⟩
  · refine (Triple.release.of_eq (zero_add _)).bind ?_
    rintro _ _ rfl
    exact .pure ⟨(zero_add _).symm, by simp, fun h => absurd h (not_lasts hgranted)⟩
  · obtain ⟨hcontent, helems, hmethod⟩ := hnew n rfl
    refine .pure ⟨?_, ?_, fun _ h => absurd h (Option.some_ne_none _)⟩
    · show n.owned + ({method.addr} + pre) =
        {n.addr} + {method.addr} + n.params.ownedBy ObjectCell.owned + pre
      rw [owned, hmethod]
      show ({n.addr} : Multiset Address) + 0 + _ + _ = _
      rw [add_zero]
      ac_rfl
    · rintro _ ⟨⟩
      refine ⟨?_, helems⟩
      rw [← hcontent, ← htext]
      rfl

/-- What a program that reads a notification makes of what `result` says: the notification, or
nothing, if there is none or a request was refused. -/
structure Unmarshals (lasts : Prop) (b : Bytes) (result : Option Notification)
    (out : Option NotificationCell) (lost : Multiset Address) : Prop where
  same : ∀ n ∈ out, result = some n.content
  granted : lasts → out = none → result = none
  counted : ∀ n ∈ out, lost.card + (ObjectCell.leftoverAll n.params.elems).card =
    Object.copiesAll 1 (ObjectCell.contents n.params.elems)
  binFree : BinFree b → lost = 0 ∧ ∀ n ∈ out, ObjectCell.leftoverAll n.params.elems = 0

theorem Unmarshals.lost {b : Bytes} {result : Option Notification} {lost : Multiset Address}
    (h : lasts → result = none) (hlost : BinFree b → lost = 0) :
    Unmarshals lasts b result none lost where
  same n hn := absurd hn (Option.not_mem_none n)
  granted hlasts _ := h hlasts
  counted n hn := absurd hn (Option.not_mem_none n)
  binFree hfree := ⟨hlost hfree, fun n hn => absurd hn (Option.not_mem_none n)⟩

/-- The notification is freed, and nothing comes of it. -/
theorem freed_runs {b : Bytes} {result : Option Notification} {n : NotificationCell}
    {lost : Multiset Address} (h : lasts → result = none)
    (hlost : BinFree b → lost = 0 ∧ ObjectCell.leftoverAll n.params.elems = 0) :
    TripleWhen lasts (n.owned + (lost + pre))
      (do
        n.free
        return none) fun out owned =>
      ∃ lost, owned = out.elim 0 NotificationCell.owned + lost + pre ∧
        Unmarshals lasts b result out lost := by
  refine n.free_owned.bind ?_
  rintro _ _ rfl
  refine .pure ⟨ObjectCell.leftoverAll n.params.elems + lost, ?_, .lost h fun hfree => ?_⟩
  · rw [Option.elim_none, zero_add, add_assoc]
  · obtain ⟨rfl, hleft⟩ := hlost hfree
    rw [hleft, add_zero]

theorem unmarshal_owned (b : Bytes) {result : Option Notification}
    (hresult : notificationUnmarshal b = .ok result) :
    TripleWhen lasts pre (unmarshal b) fun out owned =>
      ∃ lost, owned = out.elim 0 NotificationCell.owned + lost + pre ∧
        Unmarshals lasts b result out lost := by
  unfold unmarshal
  rw [notificationUnmarshal] at hresult
  split_ifs at hresult ⊢ with hempty
  · obtain rfl := Except.ok.inj hresult
    exact .pure ⟨0, by simp, .lost (fun _ => rfl) fun _ => rfl⟩
  refine (unmarshalHeader_owned b).bind ?_
  rintro (_ | ⟨n, count, reader⟩) _ ⟨rfl, hsome, hnone⟩
  · refine .pure ⟨0, by simp, .lost (fun h => ?_) fun _ => rfl⟩
    rw [hnone h rfl] at hresult
    exact (Except.ok.inj hresult).symm
  obtain ⟨hheader, helems⟩ := hsome _ rfl
  obtain ⟨method, h, rest, rfl, -, rfl, -⟩ := notificationUnmarshalHeader_sound hheader
  have hcontents : ObjectCell.contents n.params.elems = [] := by
    rw [helems]
    rfl
  rw [hheader] at hresult
  obtain ⟨⟨params, r⟩, hloop, hrest⟩ := bind_eq_ok.mp hresult
  have hsplit : n.owned + pre = n.params.ownedBy ObjectCell.owned +
      ({n.addr} + TextCell.block n.method + pre) := by
    rw [owned]
    ac_rfl
  refine ((readElements_runs (readObject_runs _) (fun _ _ _ => notificationReadObject_binFree)
    count.toNat (.ok rest) n.params _ (hcontents.symm ▸ hloop)).of_eq hsplit).bind ?_
  rintro ⟨array, r'⟩ _ ⟨lost, rfl, hall⟩
  have howned : array.ownedBy ObjectCell.owned + lost +
      ({n.addr} + TextCell.block n.method + pre) =
      ({ n with params := array } : NotificationCell).owned + (lost + pre) := by
    rw [owned]
    ac_rfl
  have hbinFree : BinFree (h ++ rest) → lost = 0 ∧ ObjectCell.leftoverAll array.elems = 0 := by
    intro hfree
    obtain ⟨hlost, hleft, -⟩ := hall.binFree (BinFree.suffix hfree (List.suffix_append h rest))
      (by rw [helems]; rfl) (by rw [hcontents]; rfl)
    exact ⟨hlost, hleft⟩
  obtain _ | data | e := r'
  · refine (freed_runs (fun hlasts => ?_) hbinFree).of_eq howned
    obtain rfl : params = none := hall.granted hlasts rfl
    exact (Except.ok.inj hrest).symm
  · obtain ⟨rfl, rfl⟩ := Prod.mk.inj (hall.same _ rfl)
    have hcounted := hall.counted rfl
    rw [helems] at hcounted
    refine .pure ⟨lost, howned.trans (add_assoc _ _ _).symm, ?_, ?_, ?_, ?_⟩
    · rintro _ ⟨⟩
      exact (Except.ok.inj hrest).symm
    · exact fun _ h => absurd h (Option.some_ne_none _)
    · rintro _ ⟨⟩
      exact hcounted.trans (Nat.zero_add _)
    · intro hfree
      refine ⟨(hbinFree hfree).1, ?_⟩
      rintro _ ⟨⟩
      exact (hbinFree hfree).2
  · refine (freed_runs (fun _ => ?_) hbinFree).of_eq howned
    obtain ⟨rfl, rfl⟩ := Prod.mk.inj (hall.same _ rfl)
    exact (Except.ok.inj hrest).symm

/-- `NotificationUnmarshal` over any heap, with an allocator that may refuse. What comes of it is
the notification in the buffer, or `NULL`, and without a refusal it is `NULL` only if there is none.
What was allocated still is; of what was added the notification owns all but bytes of binaries, and
there are none of these if no byte opens a binary. Behind `NotificationFree` what is left is one
block of bytes for each binary and each array that it was in. -/
theorem notification_memory (b : Bytes) {s : Allocator} {pre : Multiset Address}
    (howns : Owns s.heap pre) :
    ∃ out s' lost, unmarshal b s = some (out, s') ∧
      Owns s'.heap (out.elim 0 NotificationCell.owned + lost + pre) ∧
      (∀ n ∈ out, notificationUnmarshal b = .ok (some n.content)) ∧
      (s.Lasts → notificationUnmarshal b = .ok (out.map content)) ∧
      (BinFree b → lost = 0) ∧
      ∀ n ∈ out, ∃ s'' left, n.free s' = some ((), s'') ∧ Owns s''.heap (left + pre) ∧
        left.card = Object.copiesAll 1 (ObjectCell.contents n.params.elems) ∧
        (BinFree b → left = 0) := by
  obtain ⟨result, hresult⟩ := notificationUnmarshal_total b
  obtain ⟨out, s', _, hrun, -, ⟨lost, rfl, hout⟩, howns'⟩ :=
    unmarshal_owned b hresult s (fun h : s.Lasts => h) howns
  refine ⟨out, s', lost, hrun, howns', fun n hn => ?_, fun hlasts => ?_, fun hfree => ?_,
    fun n hn => ?_⟩
  · rw [hresult, hout.same n hn]
  · rw [hresult]
    cases out with
    | none => rw [hout.granted hlasts rfl, Option.map_none]
    | some n => rw [hout.same n rfl, Option.map_some]
  · exact (hout.binFree hfree).1
  · obtain rfl : out = some n := hn
    rw [Option.elim_some, add_assoc] at howns'
    obtain ⟨_, s'', _, hfree, rfl, howns''⟩ := Triple.run n.free_owned howns'
    refine ⟨s'', ObjectCell.leftoverAll n.params.elems + lost, hfree, ?_, ?_, fun h => ?_⟩
    · rwa [add_assoc]
    · rw [Multiset.card_add, Nat.add_comm]
      exact hout.counted n rfl
    · obtain ⟨rfl, hleft⟩ := hout.binFree h
      rw [hleft n rfl, add_zero]

/-- Two blocks are left of a binary that is in an array in the params. -/
theorem notification_memory_nested :
    ∃ n s s' left,
      unmarshal [0x93, 0x02, 0xa1, 0x6d, 0x91, 0x91, 0xc4, 0x01, 0x07] ⟨⟨[]⟩, []⟩ =
        some (some n, s) ∧
      n.free s = some ((), s') ∧ Owns s'.heap left ∧ left.card = 2 := by
  obtain ⟨out, s, lost, hrun, -, -, hsame, -, hfree⟩ :=
    notification_memory [0x93, 0x02, 0xa1, 0x6d, 0x91, 0x91, 0xc4, 0x01, 0x07]
      (s := ⟨⟨[]⟩, []⟩) owns_empty
  have hread : notificationUnmarshal [0x93, 0x02, 0xa1, 0x6d, 0x91, 0x91, 0xc4, 0x01, 0x07] =
      .ok (some { type := 2, method := some (.ofString "m"),
                  params := some [.array (some [.bin (some (rawBufferNew (some [7])))])] }) := rfl
  have hout := Except.ok.inj (hread.symm.trans (hsame nofun))
  cases out with
  | none => cases hout
  | some n =>
      obtain ⟨s', left, hrun', howns, hcard, -⟩ := hfree n rfl
      have hparams := congrArg Notification.params (Option.some.inj hout)
      rw [← Option.some.inj hparams] at hcard
      rw [add_zero] at howns
      exact ⟨n, s, s', left, hrun, hrun', howns, hcard⟩

end NotificationCell

end Haze
