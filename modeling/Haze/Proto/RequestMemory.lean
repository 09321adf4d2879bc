import Haze.ObjectMemory
import Haze.Proto.RequestFrame

/-
  Requests as programs that allocate: `RequestNew`, `RequestSetMethod`, `RequestParamAppend`,
  `RequestUnmarshal` and `RequestFree`.

  `RequestParamAppend` appends a copy, and `RequestUnmarshal` does not free what was copied: of each
  parameter it leaves the object that it made, and so it does for the nils in a gap. Nor does it
  look at what `RequestNew`, `ObjectNew` and `malloc` return, and a refused request can end in a
  write to `NULL`. `request_memory` counts what is left of a request when no request for memory is
  refused: a block for each parameter at least.
-/

open Collections Msgpack

namespace Haze

open Alloc Triple

variable {pre : Multiset Address} {lasts : Prop}

/-! ## What is left of a parameter -/

namespace Object

/-- The blocks that are left of a parameter: those of the object that was read, and the bytes of a
binary in its copy. -/
def leaked : Object → Nat
  | .str _ => 2
  | .bin (some b) => 2 + 2 * BufferCell.filled b.bytes
  | _ => 1

theorem leaked_of_bare {o : Object} (ho : o.Bare) : o.leaked = 1 := by
  cases o with
  | str s => exact ho.elim
  | bin b => exact ho.elim
  | _ => rfl

def leakedAll (xs : List Object) : Nat := (xs.map leaked).sum

theorem leakedAll_append (xs ys : List Object) :
    leakedAll (xs ++ ys) = leakedAll xs + leakedAll ys := by
  rw [leakedAll, List.map_append, List.sum_append]
  rfl

theorem leakedAll_singleton (x : Object) : leakedAll [x] = leaked x := List.sum_singleton

theorem leaked_pos (o : Object) : 0 < leaked o := by
  unfold leaked
  split <;> omega

theorem leakedAll_eq_zero {xs : List Object} : leakedAll xs = 0 ↔ xs = [] := by
  cases xs with
  | nil => exact iff_of_true rfl rfl
  | cons x xs =>
      refine iff_of_false (fun h => ?_) (List.cons_ne_nil x xs)
      rw [leakedAll, List.map_cons, List.sum_cons] at h
      exact (leaked_pos x).ne' (Nat.eq_zero_of_add_eq_zero_right h)

end Object

/-! ## Programs -/

/-- `Request`. Its parameters are there. -/
structure RequestCell where
  addr : Address
  type : HazeServerRPCType
  msgid : UInt32
  method : Option TextCell
  params : ArrayCell ObjectCell

namespace RequestCell

def owned (r : RequestCell) : Multiset Address :=
  {r.addr} + TextCell.block r.method + r.params.ownedBy ObjectCell.owned

def content (r : RequestCell) : Request where
  type := r.type
  msgid := r.msgid
  method := r.method.map TextCell.text
  parameters := ObjectCell.contents r.params.elems

/-- `RequestNew`. -/
def new : Alloc (Option RequestCell) := do
  let some request ← malloc | return none
  let some method ← malloc
    | do
      release request
      return none
  let some params ← ArrayCell.create
    | do
      release method
      release request
      return none
  return some
    { addr := request
      type := hazeRpcRequest
      msgid := 0
      method := some { addr := method, text := .ofBytes [] }
      params := params }

/-- `RequestFree`, of a request that is there. -/
def free (r : RequestCell) : Alloc Unit := do
  touch r.addr
  TextCell.free r.method
  r.params.freeBy (ObjectCell.freeAll r.params.elems)
  release r.addr

/-- `RequestSetMethod`. There is no method if there is no memory. -/
def setMethod (r : RequestCell) (method : Bytes) : Alloc RequestCell := do
  touch r.addr
  TextCell.free r.method
  let some temp ← malloc | return { r with method := none }
  return { r with method := some { addr := temp, text := .ofBytes method } }

/-- How many answers of the allocator are given. A pass of a loop that is refused uses one up. -/
def answers : Alloc Nat := fun s => some (s.grants.length, s)

/-- The loop that appends nils until there are `ind` parameters. The nil that is copied is not
freed. -/
def fillGap (ind : Nat) : Nat → ArrayCell ObjectCell → Alloc (ArrayCell ObjectCell)
  | 0, params => if params.elems.length < ind then failure else return params
  | fuel + 1, params =>
    if params.elems.length < ind then do
      match ← ObjectCell.createNil with
      | none => fillGap ind fuel params
      | some obj =>
        let (_, params) ← params.appendBy obj.copy
        fillGap ind fuel params
    else return params

/-- `RequestParamAppend`. No slot of the array is `NULL`. -/
def paramAppend (r : RequestCell) (param : Option ObjectCell) (ind : UInt32) :
    Alloc (Bool × RequestCell) :=
  match param with
  | none => return (false, r)
  | some param => do
    touch r.addr
    if ind.toNat = r.params.elems.length then
      let (ok, params) ← r.params.appendBy param.copy
      return (ok, { r with params := params })
    else if ind.toNat < r.params.elems.length then return (false, r)
    else
      let refusals ← answers
      let params ← fillGap ind.toNat (refusals + ind.toNat) r.params
      let (ok, params) ← params.appendBy param.copy
      return (ok, { r with params := params })

/-- A parameter that is created and appended. -/
def createParam (r : RequestCell) (create : Alloc (Option ObjectCell)) (i : UInt32)
    (reader : Reader) : Alloc (RequestCell × Reader) := do
  let param ← create
  let (_, r) ← r.paramAppend param i
  return (r, reader)

/-- One pass of the parameter loop. The buffers for a string and for bytes are written to. -/
def unmarshalParam (r : RequestCell) (reader : Reader) (i : UInt32) :
    Alloc (RequestCell × Reader) :=
  match mpackReadTag reader with
  | (.nil, reader) => r.createParam ObjectCell.createNil i reader
  | (.bool v, reader) => r.createParam (ObjectCell.createBool v) i reader
  | (.int v, reader) => r.createParam (ObjectCell.createInt v) i reader
  | (.uint v, reader) => r.createParam (ObjectCell.createUInt v) i reader
  | (.float v, reader) => r.createParam (ObjectCell.createFloat v) i reader
  | (.double v, reader) => r.createParam (ObjectCell.createDouble v) i reader
  | (.str len, reader) => do
    let some buff ← malloc | failure
    let (bytes, reader) := mpackReadBytes reader len.toNat
    let (r, reader) ← r.createParam (ObjectCell.createStr (some (.ofBytes bytes))) i reader
    release buff
    return (r, reader)
  | (.bin len, reader) => do
    let buff ← malloc
    if buff = none ∧ 0 < len then failure
    else
      let (bytes, reader) := mpackReadBytes reader len.toNat
      let some obj ← malloc | failure
      let buffer ← BufferCell.new bytes
      let (_, r) ← r.paramAppend (some (.bin obj buffer)) i
      Alloc.free buff
      return (r, reader)
  | (.array _, reader) => return (r, reader)
  | (.map _, reader) => return (r, reader)

/-- The parameter loop from index `i` with the given number of passes left. -/
def unmarshalParams (r : RequestCell) (reader : Reader) (i : UInt32) :
    Nat → Alloc (RequestCell × Reader)
  | 0 => return (r, reader)
  | left + 1 => do
    let (r, reader) ← r.unmarshalParam reader i
    r.unmarshalParams reader (i + 1) left

/-- `RequestUnmarshal` behind the method. -/
def unmarshalMethod (r : RequestCell) (reader : Reader) :
    Alloc (Option (RequestCell × UInt32 × Reader)) :=
  match mpackReadTag reader with
  | (.str len, reader) =>
    match mpackReadBytesInplace reader len.toNat with
    | (none, _) => do
      r.free
      return none
    | (some method, reader) => do
      let some copy ← malloc
        | do
          r.free
          return none
      let r ← r.setMethod method
      release copy
      match mpackReadTag reader with
      | (.array count, reader) => return some (r, count, reader)
      | _ =>
        r.free
        return none
  | _ => do
    r.free
    return none

/-- `RequestUnmarshal` up to the parameter loop. The type is written to a request that may not be
there. -/
def unmarshalHeader (reader : Reader) : Alloc (Option (RequestCell × UInt32 × Reader)) := do
  let (tag, reader) := mpackReadTag reader
  if tag ≠ .array 4 then return none
  else
    let request ← new
    let (tag, reader) := mpackReadTag reader
    match request, tagCast tag with
    | none, none => return none
    | none, some _ => failure
    | some r, none =>
      r.free
      return none
    | some r, some type =>
      if type ≠ hazeRpcRequest then
        r.free
        return none
      else
        let (tag, reader) := mpackReadTag reader
        match tagCast tag with
        | none =>
          r.free
          return none
        | some msgid => unmarshalMethod { r with type := type, msgid := msgid } reader

/-- `RequestUnmarshal`. -/
def unmarshal (b : Bytes) : Alloc (Option RequestCell) := do
  if b.length = 0 then return none
  else
    let some (r, count, reader) ← unmarshalHeader (mpackReaderInitData b) | return none
    let (r, _) ← r.unmarshalParams reader 0 count.toNat
    return some r

/-! ## Appending -/

/-- What was appended, and what was lost with it. -/
def Counted (params out : ArrayCell ObjectCell) (lost : Multiset Address) : Prop :=
  lost.card + (ObjectCell.leftoverAll out.elems).card +
      Object.leakedAll (ObjectCell.contents params.elems) =
    (ObjectCell.leftoverAll params.elems).card + Object.leakedAll (ObjectCell.contents out.elems)

theorem Counted.refl (params : ArrayCell ObjectCell) : Counted params params 0 := by
  rw [Counted, Multiset.card_zero, Nat.zero_add]

theorem Counted.trans {params mid out : ArrayCell ObjectCell} {lost lost' : Multiset Address}
    (h : Counted params mid lost) (h' : Counted mid out lost') :
    Counted params out (lost + lost') := by
  unfold Counted at h h' ⊢
  rw [Multiset.card_add]
  omega

/-- The object and the bytes in its copy are what is left of its copy. -/
def Leaks (obj : ObjectCell) : Prop :=
  obj.owned.card + obj.content.binaries = (objectCopy obj.content).leaked

theorem append_owned (params : ArrayCell ObjectCell) {obj : ObjectCell} (hobj : Leaks obj) :
    TripleWhen True (params.ownedBy ObjectCell.owned + (obj.owned + pre))
      (params.appendBy obj.copy) fun out owned =>
        ∃ lost, owned = out.2.ownedBy ObjectCell.owned + lost + pre ∧
          Counted params out.2 lost ∧
          ObjectCell.contents out.2.elems =
            objectArrayAppend (ObjectCell.contents params.elems) obj.content := by
  refine (params.appendBy_owned obj.copy_runs .refused).conseq ?_
  rintro ⟨ok, out⟩ _ ⟨copy, lost, rfl, hcopies, -, helems⟩
  obtain ⟨copy, rfl⟩ := Option.isSome_iff_exists.mp (hcopies.granted trivial)
  obtain ⟨rfl, hcontent, hleftover⟩ := hcopies.done copy rfl
  rw [Option.toList_some] at helems
  have hcontents : ObjectCell.contents out.elems =
      objectArrayAppend (ObjectCell.contents params.elems) obj.content := by
    simp only at helems
    rw [helems, ObjectCell.contents_append, objectArrayAppend, ← hcontent]
    rfl
  refine ⟨obj.owned, ?_, ?_, hcontents⟩
  · rw [add_zero, add_assoc]
  · simp only at helems
    unfold Counted
    rw [hcontents, objectArrayAppend, Object.leakedAll_append, Object.leakedAll_singleton, helems,
      ObjectCell.leftoverAll_append, Multiset.card_add, ← hobj]
    have hone : (ObjectCell.leftoverAll [copy]).card = obj.content.binaries := by
      rw [← hleftover]
      exact congrArg _ (add_zero _)
    omega

/-! ## Creating -/

/-- The program makes an object that holds `v`. -/
def Creates (create : Alloc (Option ObjectCell)) (v : Object) : Prop :=
  ∀ pre, TripleWhen True pre create fun o owned =>
    ∃ x, o = some x ∧ owned = x.owned + pre ∧ x.content = v ∧ Leaks x

theorem leaks_bare {obj : ObjectCell} (h : obj.content.Bare) : Leaks obj := by
  cases obj with
  | bare addr value =>
      unfold Leaks
      rw [Object.binaries_of_bare h, Object.objectCopy_of_bare h, Object.leaked_of_bare h]
      rfl
  | str addr text => exact h.elim
  | bin addr buffer => exact h.elim
  | array addr arr => cases arr <;> exact h.elim

theorem leaks_str {obj : ObjectCell} {text : CString} (h : obj.content = .str (some text)) :
    Leaks obj := by
  cases obj with
  | bare addr value =>
      have hbare := value.bare
      rw [show value.object = .str (some text) from h] at hbare
      exact hbare.elim
  | str addr copy =>
      cases copy with
      | none => cases h
      | some copy => rfl
  | bin addr buffer => cases h
  | array addr arr => cases arr <;> cases h

theorem leaks_bin (addr : Address) {buffer : BufferCell}
    (h : (block buffer.data).card = BufferCell.filled buffer.content.bytes) :
    Leaks (.bin addr (some buffer)) := by
  have hcard : (ObjectCell.bin addr (some buffer)).owned.card =
      2 + BufferCell.filled buffer.content.bytes := by
    show ({addr} + ({buffer.addr} + block buffer.data) : Multiset Address).card = _
    rw [Multiset.card_add, Multiset.card_add, h, Multiset.card_singleton, Multiset.card_singleton]
    omega
  have hbytes : (rawBufferDup buffer.content).bytes = buffer.content.bytes :=
    bytes_rawBufferNew buffer.content.data
  show (ObjectCell.bin addr (some buffer)).owned.card + BufferCell.filled buffer.content.bytes =
    2 + 2 * BufferCell.filled (rawBufferDup buffer.content).bytes
  rw [hcard, hbytes]
  omega

theorem creates_bare (value : BareObject) :
    Creates (ObjectCell.createBare value) value.object := by
  intro pre
  refine (ObjectCell.createBare_owned value).conseq ?_
  rintro (_ | x) _ ⟨rfl, hx, h⟩
  · exact absurd trivial (not_lasts h)
  · obtain ⟨hcontent, -⟩ := hx x rfl
    exact ⟨x, rfl, rfl, hcontent, leaks_bare (hcontent ▸ value.bare)⟩

theorem creates_str (bytes : Bytes) :
    Creates (ObjectCell.createStr (some (.ofBytes bytes))) (objectCreateStr (some bytes)) := by
  intro pre
  refine (ObjectCell.createStr_owned _).conseq ?_
  rintro (_ | x) _ ⟨rfl, hx, h⟩
  · exact absurd trivial (not_lasts h)
  · obtain ⟨hcontent, -⟩ := hx x rfl
    have hstr : x.content = .str (some (.ofBytes bytes)) :=
      hcontent.trans (congrArg (fun s => Object.str (some s)) (CString.ofBytes_self _))
    exact ⟨x, rfl, rfl, hstr, leaks_str hstr⟩

/-! ## The gap -/

theorem answers_owned : TripleWhen True pre answers fun _ owned => owned = pre :=
  fun s hlasts howns => ⟨_, s, pre, rfl, hlasts, rfl, howns⟩

theorem length_contents (xs : List ObjectCell) : (ObjectCell.contents xs).length = xs.length := by
  rw [ObjectCell.contents_eq_map, List.length_map]

theorem fillGap_owned {ind fuel : Nat} (params : ArrayCell ObjectCell) (pre : Multiset Address)
    (hfuel : ind - params.elems.length ≤ fuel) :
    TripleWhen True (params.ownedBy ObjectCell.owned + pre) (fillGap ind fuel params)
      fun out owned =>
        ∃ lost, owned = out.ownedBy ObjectCell.owned + lost + pre ∧ Counted params out lost ∧
          ObjectCell.contents out.elems = ObjectCell.contents params.elems ++
            List.replicate (ind - params.elems.length) .nil := by
  induction fuel generalizing params pre with
  | zero =>
      rw [fillGap, if_neg (by omega)]
      refine .pure ⟨0, by rw [add_zero], .refl params, ?_⟩
      rw [Nat.le_zero.mp hfuel, List.replicate_zero, List.append_nil]
  | succ fuel ih =>
      unfold fillGap
      split_ifs with hlt
      · refine (creates_bare ⟨.nil, trivial⟩ _).bind ?_
        rintro _ _ ⟨obj, rfl, rfl, hcontent, hleaks⟩
        refine ((append_owned params hleaks).of_eq (add_left_comm _ _ _)).bind ?_
        rintro ⟨ok, mid⟩ _ ⟨lost, rfl, hcounted, hcontents⟩
        have hlen : mid.elems.length = params.elems.length + 1 := by
          rw [← length_contents, hcontents, objectArrayAppend, List.length_append, length_contents]
          rfl
        simp only at hcounted hcontents hlen
        refine ((ih mid (lost + pre) (by omega)).of_eq (add_assoc _ _ _)).conseq ?_
        rintro out _ ⟨lost', rfl, hcounted', hcontents'⟩
        refine ⟨lost + lost', by ac_rfl, hcounted.trans hcounted', ?_⟩
        have hgap : ind - params.elems.length = ind - mid.elems.length + 1 := by omega
        rw [hcontents', hcontents, hgap, List.replicate_succ, objectArrayAppend, hcontent,
          List.append_assoc]
        rfl
      · refine .pure ⟨0, by rw [add_zero], .refl params, ?_⟩
        rw [Nat.sub_eq_zero_of_le (Nat.not_lt.mp hlt), List.replicate_zero, List.append_nil]

/-! ## The parameter loop -/

/-- A pass at index `i` made `r'` of the request, which is `result`, and lost what it lost. -/
structure Passes (r : RequestCell) (i : UInt32) (result : Request) (r' : RequestCell)
    (lost : Multiset Address) : Prop where
  content : r'.content = result
  counted : Counted r.params r'.params lost
  length : r'.params.elems.length ≤ i.toNat + 1

theorem length_parameters (r : RequestCell) :
    r.content.parameters.length = r.params.elems.length := length_contents r.params.elems

theorem paramAppend_owned (r : RequestCell) {param : ObjectCell} (hparam : Leaks param)
    {i : UInt32} (hle : r.params.elems.length ≤ i.toNat) :
    TripleWhen True (r.owned + (param.owned + pre)) (r.paramAppend (some param) i) fun out owned =>
      ∃ lost, owned = out.2.owned + lost + pre ∧
        Passes r i (requestParamAppend r.content param.content i).2 out.2 lost := by
  have hpast := requestParamAppend_past param.content ((length_parameters r).symm ▸ hle)
  have hsplit : r.owned + (param.owned + pre) = r.params.ownedBy ObjectCell.owned +
      (param.owned + ({r.addr} + TextCell.block r.method + pre)) := by
    rw [owned]
    ac_rfl
  have done : ∀ {params lost}, Counted r.params params lost →
      ObjectCell.contents params.elems = r.content.parameters ++
        List.replicate (i.toNat - r.content.parameters.length) .nil ++
        [objectCopy param.content] →
      Passes r i (requestParamAppend r.content param.content i).2 { r with params := params }
        lost := by
    intro params lost hcounted hcontents
    refine ⟨?_, hcounted, ?_⟩
    · rw [hpast, ← hcontents]
      rfl
    · rw [← length_contents, hcontents, List.length_append, List.length_append,
        List.length_replicate, length_parameters]
      exact (congrArg (· + 1) (Nat.add_sub_cancel' hle)).le
  refine (Triple.touch (by simp [owned])).bind ?_
  rintro _ _ rfl
  split_ifs with heq hlt
  · refine ((append_owned r.params hparam).of_eq hsplit).bind ?_
    rintro ⟨ok, params⟩ _ ⟨lost, rfl, hcounted, hcontents⟩
    refine .pure ⟨lost, ?_, done hcounted ?_⟩
    · rw [owned]
      ac_rfl
    · rw [length_parameters, heq, Nat.sub_self, List.replicate_zero, List.append_nil]
      exact hcontents
  · omega
  · refine answers_owned.bind ?_
    rintro refusals _ rfl
    refine ((fillGap_owned r.params _ (by omega)).of_eq hsplit).bind ?_
    rintro mid _ ⟨lost, rfl, hcounted, hcontents⟩
    have hmid : mid.ownedBy ObjectCell.owned + lost +
        (param.owned + ({r.addr} + TextCell.block r.method + pre)) =
        mid.ownedBy ObjectCell.owned +
          (param.owned + (lost + ({r.addr} + TextCell.block r.method + pre))) := by
      ac_rfl
    refine ((append_owned mid hparam).of_eq hmid).bind ?_
    rintro ⟨ok, params⟩ _ ⟨lost', rfl, hcounted', hcontents'⟩
    refine .pure ⟨lost + lost', ?_, done (hcounted.trans hcounted') ?_⟩
    · rw [owned]
      ac_rfl
    · rw [length_parameters]
      exact hcontents'.trans (congrArg (· ++ [objectCopy param.content]) hcontents)

theorem createParam_owned (r : RequestCell) {create : Alloc (Option ObjectCell)} {v : Object}
    (hcreate : Creates create v) {i : UInt32} (hle : r.params.elems.length ≤ i.toNat)
    (reader : Reader) :
    TripleWhen True (r.owned + pre) (r.createParam create i reader) fun out owned =>
      out.2 = reader ∧ ∃ lost, owned = out.1.owned + lost + pre ∧
        Passes r i (requestParamAppend r.content v i).2 out.1 lost := by
  refine (hcreate _).bind ?_
  rintro _ _ ⟨param, rfl, rfl, rfl, hparam⟩
  refine ((r.paramAppend_owned hparam hle).of_eq (add_left_comm _ _ _)).bind ?_
  rintro ⟨ok, r'⟩ _ ⟨lost, rfl, hpasses⟩
  exact .pure ⟨rfl, lost, rfl, hpasses⟩

theorem unmarshalParam_owned (r : RequestCell) (reader : Reader) {i : UInt32}
    (hle : r.params.elems.length ≤ i.toNat) :
    TripleWhen True (r.owned + pre) (r.unmarshalParam reader i) fun out owned =>
      out.2 = (requestUnmarshalParam r.content reader i).2 ∧
        ∃ lost, owned = out.1.owned + lost + pre ∧
          Passes r i (requestUnmarshalParam r.content reader i).1 out.1 lost := by
  have skipped : Passes r i r.content r 0 := ⟨rfl, .refl r.params, Nat.le_succ_of_le hle⟩
  unfold unmarshalParam requestUnmarshalParam
  obtain ⟨tag, reader⟩ := mpackReadTag reader
  cases tag with
  | nil => exact r.createParam_owned (creates_bare ⟨.nil, trivial⟩) hle reader
  | bool v => exact r.createParam_owned (creates_bare ⟨.bool v, trivial⟩) hle reader
  | int v => exact r.createParam_owned (creates_bare ⟨.int v, trivial⟩) hle reader
  | uint v => exact r.createParam_owned (creates_bare ⟨.uint v, trivial⟩) hle reader
  | float v => exact r.createParam_owned (creates_bare ⟨.float v, trivial⟩) hle reader
  | double v => exact r.createParam_owned (creates_bare ⟨.double v, trivial⟩) hle reader
  | str len =>
      refine TripleWhen.granted.bind ?_
      rintro _ _ ⟨buff, rfl, rfl⟩
      refine ((r.createParam_owned (creates_str _) hle _).of_eq (add_left_comm _ _ _)).bind ?_
      rintro ⟨r', reader'⟩ _ ⟨rfl, lost, rfl, hpasses⟩
      refine (Triple.release.of_eq (add_left_comm _ _ _)).bind ?_
      rintro _ _ rfl
      exact .pure ⟨rfl, lost, rfl, hpasses⟩
  | bin len =>
      refine TripleWhen.granted.bind ?_
      rintro _ _ ⟨buff, rfl, rfl⟩
      rw [if_neg (fun h => absurd h.1 (Option.some_ne_none buff))]
      refine TripleWhen.granted.bind ?_
      rintro _ _ ⟨obj, rfl, rfl⟩
      refine (BufferCell.new_owned _).bind ?_
      rintro (_ | buffer) _ ⟨rfl, hbuffer, h⟩
      · exact absurd trivial (not_lasts h)
      obtain ⟨hcontent, hcard⟩ := hbuffer buffer rfl
      have hbytes : buffer.content.bytes = (mpackReadBytes reader len.toNat).1 := by
        rw [hcontent]
        exact bytes_rawBufferNew _
      have hsplit : buffer.owned + ({obj} + ({buff} + (r.owned + pre))) =
          r.owned + ((ObjectCell.bin obj (some buffer)).owned + ({buff} + pre)) := by
        show _ = r.owned + ({obj} + buffer.owned + _)
        ac_rfl
      refine ((r.paramAppend_owned (leaks_bin obj (hbytes.symm ▸ hcard)) hle).of_eq hsplit).bind ?_
      rintro ⟨ok, r'⟩ _ ⟨lost, rfl, hpasses⟩
      have hfreed : r'.owned + lost + ({buff} + pre) =
          block (some buff) + (r'.owned + lost + pre) := add_left_comm _ _ _
      refine (Triple.free.of_eq hfreed).bind ?_
      rintro _ _ rfl
      refine .pure ⟨rfl, lost, rfl, ?_⟩
      have hvalue : (ObjectCell.bin obj (some buffer)).content =
          .bin (some (rawBufferNew (some (mpackReadBytes reader len.toNat).1))) :=
        congrArg (fun b => Object.bin (some b)) hcontent
      rwa [hvalue] at hpasses
  | array n => exact .pure ⟨rfl, 0, by rw [add_zero], skipped⟩
  | map n => exact .pure ⟨rfl, 0, by rw [add_zero], skipped⟩

theorem unmarshalParams_owned (r : RequestCell) (reader : Reader) {i : UInt32} {left : Nat}
    (hlt : i.toNat + left < 2 ^ 32) (hle : r.params.elems.length ≤ i.toNat)
    (pre : Multiset Address) :
    TripleWhen True (r.owned + pre) (r.unmarshalParams reader i left) fun out owned =>
      ∃ lost, owned = out.1.owned + lost + pre ∧
        out.1.content = (requestUnmarshalParams r.content reader i left).1 ∧
        Counted r.params out.1.params lost := by
  induction left generalizing r reader i pre with
  | zero => exact .pure ⟨0, by rw [add_zero], rfl, .refl r.params⟩
  | succ left ih =>
      refine (r.unmarshalParam_owned reader hle).bind ?_
      rintro ⟨r', reader'⟩ _ ⟨rfl, lost, rfl, hpasses⟩
      have hi : (i + 1).toNat = i.toNat + 1 := by
        rw [UInt32.toNat_add]
        exact Nat.mod_eq_of_lt (by simp; omega)
      have hloop := ih r' (requestUnmarshalParam r.content reader i).2 (i := i + 1) (by omega)
        (hi.symm ▸ hpasses.length) (lost + pre)
      refine (hloop.of_eq (add_assoc _ _ _)).conseq ?_
      rintro ⟨out, last⟩ _ ⟨lost', rfl, hcontent, hcounted⟩
      refine ⟨lost + lost', by ac_rfl, ?_, hpasses.counted.trans hcounted⟩
      rw [hcontent, hpasses.content]
      rfl

/-! ## The header -/

theorem new_owned : TripleWhen True pre new fun r owned =>
    ∃ x, r = some x ∧ owned = x.owned + pre ∧ x.content = requestNew ∧ x.params.elems = [] := by
  refine TripleWhen.granted.bind ?_
  rintro _ _ ⟨request, rfl, rfl⟩
  refine TripleWhen.granted.bind ?_
  rintro _ _ ⟨method, rfl, rfl⟩
  refine (ArrayCell.create_owned ObjectCell.owned).bind ?_
  rintro (_ | params) _ ⟨rfl, hempty, h⟩
  · exact absurd trivial (not_lasts h)
  · refine .pure ⟨_, rfl, ?_, ?_, hempty params rfl⟩
    · show params.ownedBy ObjectCell.owned + ({method} + ({request} + pre)) =
        {request} + {method} + params.ownedBy ObjectCell.owned + pre
      ac_rfl
    · rw [content, hempty params rfl]
      rfl

/-- All is freed but the bytes of the binaries in the parameters. -/
theorem free_owned (r : RequestCell) :
    TripleWhen lasts (r.owned + pre) r.free fun _ owned =>
      owned = ObjectCell.leftoverAll r.params.elems + pre :=
  ObjectCell.freeFields_owned r.addr r.method r.params

theorem setMethod_owned (r : RequestCell) (method : Bytes) :
    TripleWhen True (r.owned + pre) (r.setMethod method) fun r' owned =>
      owned = r'.owned + pre ∧ r'.content = requestSetMethod r.content method ∧
        r'.params = r.params := by
  refine (Triple.touch (by simp [owned])).bind ?_
  rintro _ _ rfl
  have hsplit : r.owned + pre = TextCell.block r.method +
      ({r.addr} + r.params.ownedBy ObjectCell.owned + pre) := by
    rw [owned]
    ac_rfl
  refine ((TextCell.free_owned r.method).of_eq hsplit).bind ?_
  rintro _ _ rfl
  refine TripleWhen.granted.bind ?_
  rintro _ _ ⟨temp, rfl, rfl⟩
  refine .pure ⟨?_, rfl, rfl⟩
  show {temp} + ({r.addr} + r.params.ownedBy ObjectCell.owned + pre) =
    {r.addr} + {temp} + r.params.ownedBy ObjectCell.owned + pre
  ac_rfl

/-- What is read is `spec`, and there are no parameters yet. -/
def Headed (spec : Option (Request × UInt32 × Reader)) (pre : Multiset Address)
    (out : Option (RequestCell × UInt32 × Reader)) (owned : Multiset Address) : Prop :=
  owned = out.elim 0 (RequestCell.owned ∘ Prod.fst) + pre ∧ (∀ x ∈ out, x.1.params.elems = []) ∧
    out.map (Prod.map content id) = spec

theorem headed_none {spec : Option (Request × UInt32 × Reader)} (h : spec = none) :
    Headed spec pre none pre :=
  ⟨(zero_add pre).symm, by simp, h.symm⟩

/-- The request is freed, and nothing comes of it. -/
theorem freed_headed {r : RequestCell} (hempty : r.params.elems = [])
    {spec : Option (Request × UInt32 × Reader)} (h : spec = none) :
    TripleWhen True (r.owned + pre)
      (do
        r.free
        return none) (Headed spec pre) := by
  refine r.free_owned.bind ?_
  rintro _ _ rfl
  rw [hempty]
  exact .pure ⟨rfl, by simp, h.symm⟩

/-- The method, and the header of the params. -/
def requestUnmarshalMethod (request : Request) (reader : Reader) :
    Option (Request × UInt32 × Reader) := do
  let (tag, reader) := mpackReadTag reader
  let methodLen ← (match tag with | .str len => some len | _ => none)
  let (methodBytes, reader) := mpackReadBytesInplace reader methodLen.toNat
  let method ← methodBytes
  let request := requestSetMethod request method
  let (paramArr, reader) := mpackReadTag reader
  let count ← (match paramArr with | .array count => some count | _ => none)
  return (request, count, reader)

theorem unmarshalMethod_owned {r : RequestCell} (hempty : r.params.elems = []) (reader : Reader) :
    TripleWhen True (r.owned + pre) (r.unmarshalMethod reader)
      (Headed (requestUnmarshalMethod r.content reader) pre) := by
  unfold unmarshalMethod requestUnmarshalMethod
  obtain ⟨tag, reader⟩ := mpackReadTag reader
  cases tag with
  | str len =>
      simp only [Option.bind_eq_bind, Option.bind_some]
      generalize mpackReadBytesInplace reader len.toNat = bytes
      obtain ⟨_ | method, rest⟩ := bytes
      · exact freed_headed hempty rfl
      refine TripleWhen.granted.bind ?_
      rintro _ _ ⟨copy, rfl, rfl⟩
      refine ((r.setMethod_owned method).of_eq (add_left_comm _ _ _)).bind ?_
      rintro r' _ ⟨rfl, hcontent, hparams⟩
      refine (Triple.release.of_eq (add_left_comm _ _ _)).bind ?_
      rintro _ _ rfl
      replace hempty : r'.params.elems = [] := hparams ▸ hempty
      simp only [Option.bind_some]
      generalize mpackReadTag rest = params
      obtain ⟨tag, rest⟩ := params
      cases tag with
      | array count =>
          refine .pure ⟨rfl, ?_, ?_⟩
          · rintro _ ⟨⟩
            exact hempty
          · rw [← hcontent]
            rfl
      | _ => exact freed_headed hempty rfl
  | _ => exact freed_headed hempty rfl

theorem unmarshalHeader_owned (reader : Reader) :
    TripleWhen True pre (unmarshalHeader reader)
      (Headed (requestUnmarshalHeader reader) pre) := by
  unfold unmarshalHeader requestUnmarshalHeader
  obtain ⟨tag, reader⟩ := mpackReadTag reader
  simp only
  by_cases htag : tag = .array 4
  swap
  · rw [if_pos htag]
    exact .pure (headed_none (by simp [guard, htag]))
  rw [if_neg (not_not.mpr htag)]
  refine new_owned.bind ?_
  rintro _ _ ⟨r, rfl, rfl, hcontent, hempty⟩
  simp only [guard, htag, if_true, Option.bind_eq_bind, Option.pure_def, Option.bind_some]
  generalize mpackReadTag reader = second
  obtain ⟨tag, reader⟩ := second
  simp only
  cases htype : tagCast tag with
  | none => exact freed_headed hempty rfl
  | some type =>
      simp only [Option.bind_some]
      by_cases hrequest : type = hazeRpcRequest
      swap
      · rw [if_pos hrequest]
        exact freed_headed hempty (by simp [hrequest])
      rw [if_neg (not_not.mpr hrequest), if_pos hrequest, Option.bind_some]
      generalize mpackReadTag reader = third
      obtain ⟨tag, reader⟩ := third
      simp only
      cases hmsgid : tagCast tag with
      | none => exact freed_headed hempty rfl
      | some msgid =>
          have hmethod : ({ r with type := type, msgid := msgid } : RequestCell).content =
              { requestNew with type := type, msgid := msgid } := by
            rw [← hcontent]
            rfl
          have hrun := @unmarshalMethod_owned pre { r with type := type, msgid := msgid } hempty
            reader
          rw [hmethod] at hrun
          exact hrun

theorem unmarshal_owned (b : Bytes) :
    TripleWhen True pre (unmarshal b) fun out owned =>
      ∃ lost, owned = out.elim 0 RequestCell.owned + lost + pre ∧
        out.map content = (requestUnmarshal b).1 ∧ (out = none → lost = 0) ∧
        ∀ r ∈ out, lost.card + (ObjectCell.leftoverAll r.params.elems).card =
          Object.leakedAll r.content.parameters := by
  unfold unmarshal requestUnmarshal
  split_ifs with hempty
  · exact .pure ⟨0, by simp, rfl, fun _ => rfl, by simp⟩
  refine (unmarshalHeader_owned _).bind ?_
  rintro (_ | ⟨r, count, reader⟩) _ ⟨rfl, hparams, hspec⟩
  · rw [← hspec]
    exact .pure ⟨0, by simp, rfl, fun _ => rfl, by simp⟩
  rw [← hspec]
  replace hparams : r.params.elems = [] := hparams _ rfl
  have hlt : UInt32.toNat 0 + count.toNat < 2 ^ 32 := by
    rw [UInt32.toNat_zero, Nat.zero_add]
    exact count.toNat_lt
  have hle : r.params.elems.length ≤ UInt32.toNat 0 := by
    rw [hparams]
    exact Nat.zero_le _
  refine (r.unmarshalParams_owned reader hlt hle pre).bind ?_
  rintro ⟨r', last⟩ _ ⟨lost, rfl, hcontent, hcounted⟩
  refine .pure ⟨lost, rfl, congrArg some hcontent, fun h => absurd h (Option.some_ne_none _), ?_⟩
  rintro _ ⟨⟩
  rw [Counted, hparams] at hcounted
  exact hcounted.trans (Nat.zero_add _)

/-- `RequestUnmarshal` over any heap, while no request for memory is refused: what comes of it is
the request in the buffer, what was allocated still is, and nothing is lost if there is no request.
Behind `RequestFree` a block is left of each parameter and of each nil in a gap, two of a string,
and two of a binary with its bytes twice. So nothing is left only if there are no parameters. -/
theorem request_memory (b : Bytes) {s : Allocator} {pre : Multiset Address}
    (howns : Owns s.heap pre) (hlasts : s.Lasts) :
    ∃ out s' lost, unmarshal b s = some (out, s') ∧
      Owns s'.heap (out.elim 0 RequestCell.owned + lost + pre) ∧
      out.map content = (requestUnmarshal b).1 ∧ (out = none → lost = 0) ∧
      ∀ r ∈ out, ∃ s'' left, r.free s' = some ((), s'') ∧ Owns s''.heap (left + pre) ∧
        left.card = Object.leakedAll r.content.parameters ∧
        (left = 0 ↔ r.content.parameters = []) := by
  obtain ⟨out, s', _, hrun, -, ⟨lost, rfl, hcontent, hnone, hcounted⟩, howns'⟩ :=
    unmarshal_owned b s (fun _ => hlasts) howns
  refine ⟨out, s', lost, hrun, howns', hcontent, hnone, fun r hr => ?_⟩
  obtain rfl : out = some r := hr
  rw [Option.elim_some, add_assoc] at howns'
  obtain ⟨_, s'', _, hfree, rfl, howns''⟩ := Triple.run r.free_owned howns'
  have hcard : (ObjectCell.leftoverAll r.params.elems + lost).card =
      Object.leakedAll r.content.parameters := by
    rw [Multiset.card_add, Nat.add_comm]
    exact hcounted r rfl
  refine ⟨s'', ObjectCell.leftoverAll r.params.elems + lost, hfree, ?_, hcard, ?_⟩
  · rwa [add_assoc]
  · rw [← Multiset.card_eq_zero, hcard, Object.leakedAll_eq_zero]

/-- Three blocks are left of a request with a number and a string. -/
theorem request_memory_two :
    ∃ r s s' left, unmarshal [0x94, 0x00, 0x01, 0xa1, 0x6d, 0x92, 0x07, 0xa1, 0x61] ⟨⟨[]⟩, []⟩ =
        some (some r, s) ∧
      r.free s = some ((), s') ∧ Owns s'.heap left ∧ left.card = 3 := by
  obtain ⟨out, s, lost, hrun, -, hcontent, -, hfree⟩ :=
    request_memory [0x94, 0x00, 0x01, 0xa1, 0x6d, 0x92, 0x07, 0xa1, 0x61] (s := ⟨⟨[]⟩, []⟩)
      owns_empty (List.forall_mem_nil _)
  have hread : (requestUnmarshal [0x94, 0x00, 0x01, 0xa1, 0x6d, 0x92, 0x07, 0xa1, 0x61]).1 =
      some { type := 0, msgid := 1, method := some (.ofString "m"),
             parameters := [.uint 7, .str (some (.ofString "a"))] } := rfl
  rw [hread] at hcontent
  obtain ⟨r, rfl, hr⟩ := Option.map_eq_some_iff.mp hcontent
  obtain ⟨s', left, hrun', howns, hcard, -⟩ := hfree r rfl
  rw [hr] at hcard
  rw [add_zero] at howns
  exact ⟨r, s, s', left, hrun, hrun', howns, hcard⟩

end RequestCell

end Haze
