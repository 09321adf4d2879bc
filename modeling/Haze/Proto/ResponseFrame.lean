import Haze.Msgpack.Stream
import Haze.Proto.Response

/-
  What `ResponseUnmarshal` reads of a frame.

  The object decoder takes nodes off the stream without looking at the bodies of maps.
  `touched k ns` and `skim k ns` are the nodes it takes and leaves when it reads `k`
  objects from the nodes `ns`; `objectUnmarshalMPack_reads` is the correspondence. The
  decoder ends exactly behind a value when every map inside it is empty (`touched_preorderAll`,
  `length_skim_lt`).
-/

open Msgpack

namespace Haze

/-! ## Reading nodes -/

/-- How many objects are read inside a node: the elements of an array, none of a map. -/
def arity : Value → Nat
  | .array vs => vs.length
  | _ => 0

/-- The nodes read for `k` objects. -/
def touched : Nat → List Value → List Value
  | 0, _ => []
  | _ + 1, [] => []
  | k + 1, v :: ns => v :: touched (k + arity v) ns

/-- The nodes left behind `k` objects. -/
def skim : Nat → List Value → List Value
  | 0, ns => ns
  | _ + 1, [] => []
  | k + 1, v :: ns => skim (k + arity v) ns

@[simp] theorem touched_zero (ns : List Value) : touched 0 ns = [] := by rw [touched]

@[simp] theorem skim_zero (ns : List Value) : skim 0 ns = ns := by rw [skim]

theorem skim_add (a b : Nat) (ns : List Value) : skim (a + b) ns = skim b (skim a ns) := by
  induction ns generalizing a with
  | nil => cases a <;> cases b <;> simp [skim]
  | cons v ns ih =>
      cases a with
      | zero => simp
      | succ a =>
          have hab : a + 1 + b = (a + b) + 1 := by omega
          have hshift : a + b + arity v = (a + arity v) + b := by omega
          rw [hab, skim, skim, hshift, ih]

theorem touched_add (a b : Nat) (ns : List Value) :
    touched (a + b) ns = touched a ns ++ touched b (skim a ns) := by
  induction ns generalizing a with
  | nil => cases a <;> cases b <;> simp [skim, touched]
  | cons v ns ih =>
      cases a with
      | zero => simp
      | succ a =>
          have hab : a + 1 + b = (a + b) + 1 := by omega
          have hshift : a + b + arity v = (a + arity v) + b := by omega
          rw [hab, touched, touched, skim, hshift, ih, List.cons_append]

/-- A string whose terminated copy does not fit a 32-bit size. -/
def Overlong : Value → Prop
  | .str s => s.length + 1 = 2 ^ 32
  | _ => False

/-- The outcome of reading `k` objects from the encodings `bs` of `vs`: the overflow when
an overlong string is reached, and otherwise a result with property `Q`, the reader
behind the nodes it took. -/
def Reads {α : Type} (k : Nat) (vs : List Value) (bs : Bytes) (Q : α → Prop)
    (out : Except Fault (α × Reader)) : Prop :=
  ((∃ u ∈ touched k (preorderAll vs), Overlong u) ∧ out = .error .heapOverflow) ∨
    (∀ u ∈ touched k (preorderAll vs), ¬Overlong u) ∧
      ∃ a left taken rest, out = .ok (a, .ok rest) ∧ Q a ∧ EncodesAll left rest ∧
        preorderAll left = skim k (preorderAll vs) ∧ vs.length ≤ left.length + k ∧
        Nodes (touched k (preorderAll vs)) taken ∧ bs = taken ++ rest

theorem reads_zero {α : Type} {Q : α → Prop} {a : α} {vs : List Value} {bs : Bytes} (ha : Q a)
    (hbs : EncodesAll vs bs) : Reads 0 vs bs Q (.ok (a, .ok bs)) :=
  .inr ⟨by simp, a, vs, [], bs, rfl, ha, hbs, by simp, le_rfl, by simpa using .nil, rfl⟩

/-- Reading is sequential. -/
theorem reads_bind {α β : Type} {a b : Nat} {vs : List Value} {bs : Bytes} {Q : α → Prop}
    {Q' : β → Prop} {out : Except Fault (α × Reader)}
    {f : α × Reader → Except Fault (β × Reader)} (hout : Reads a vs bs Q out)
    (hf : ∀ x left rest, Q x → EncodesAll left rest → vs.length ≤ left.length + a →
      rest.length ≤ bs.length → Reads b left rest Q' (f (x, .ok rest))) :
    Reads (a + b) vs bs Q' (out >>= f) := by
  rw [Reads, touched_add, skim_add]
  obtain ⟨⟨u, hu, hover⟩, rfl⟩ | ⟨hsafe, x, left, taken, rest, rfl, hx, hleft, hpre, hlen,
    hnodes, rfl⟩ := hout
  · exact .inl ⟨⟨u, List.mem_append_left _ hu, hover⟩, rfl⟩
  · have hnext := hf x left rest hx hleft hlen (by simp)
    rw [Reads, hpre] at hnext
    obtain ⟨⟨u, hu, hover⟩, heq⟩ | ⟨hsafe', y, left', taken', rest', heq, hy, hleft', hpre', hlen',
      hnodes', rfl⟩ := hnext
    · exact .inl ⟨⟨u, List.mem_append_right _ hu, hover⟩, heq⟩
    · refine .inr ⟨fun u hu => ?_, y, left', taken ++ taken', rest', heq, hy, hleft', hpre',
        by omega, nodes_append hnodes hnodes', by rw [List.append_assoc]⟩
      exact (List.mem_append.mp hu).elim (hsafe u) (hsafe' u)

/-- Reading one object takes its node and then the objects inside it. -/
theorem reads_node {α : Type} {Q : α → Prop} {v : Value} {vs : List Value} {h body : Bytes}
    {out : Except Fault (α × Reader)} (hh : Spells v.tag h) (hcount : v.count < 2 ^ 32)
    (hsafe : ¬Overlong v) (hbody : Reads (arity v) (v.children ++ vs) body Q out) :
    Reads 1 (v :: vs) (h ++ v.payload ++ body) Q out := by
  have harity : arity v ≤ v.children.length := by cases v <;> simp [arity, Value.children]
  rw [Reads, preorderAll_cons, touched, skim, Nat.zero_add]
  obtain ⟨⟨u, hu, hover⟩, rfl⟩ | ⟨hsafe', x, left, taken, rest, rfl, hx, hleft, hpre, hlen,
    hnodes, rfl⟩ := hbody
  · exact .inl ⟨⟨u, List.mem_cons_of_mem _ hu, hover⟩, rfl⟩
  · refine .inr ⟨List.forall_mem_cons.mpr ⟨hsafe, hsafe'⟩, x, left, _, rest, rfl, hx, hleft, hpre,
      ?_, .cons hh hcount hnodes, by simp only [List.append_assoc]⟩
    rw [List.length_append] at hlen
    rw [List.length_cons]
    omega

/-! ## The object decoder -/

/-- What is known of an object read from the node of `v`. -/
def ReadFrom (v : Value) (obj : Option Object) : Prop :=
  ∃ o, obj = some o ∧ (o = .nil ↔ v = .nil ∨ ∃ kvs, v = .map kvs)

/-- The element loop reads as many objects as it makes passes. -/
theorem objectUnmarshalElements_reads {read : Reader → Except Fault (Option Object × Reader)}
    {bound : Nat}
    (hread : ∀ {v vs bs}, EncodesAll (v :: vs) bs → bs.length < bound →
      Reads 1 (v :: vs) bs (ReadFrom v) (read (.ok bs)))
    (k : Nat) {vs : List Value} {bs : Bytes} (hbs : EncodesAll vs bs) (hk : k ≤ vs.length)
    (hbound : bs.length < bound) (arr : List Object) :
    Reads k vs bs (fun _ => True) (objectUnmarshalElements read k (.ok bs) arr) := by
  induction k generalizing vs bs arr with
  | zero => exact reads_zero trivial hbs
  | succ k ih =>
      cases vs with
      | nil => cases hk
      | cons v vs =>
          have hk1 : k + 1 = 1 + k := Nat.add_comm k 1
          rw [objectUnmarshalElements, hk1]
          refine reads_bind (hread hbs hbound) fun child left rest _ hleft hlen hle => ?_
          rw [List.length_cons] at hk hlen
          exact ih hleft (by omega) (by omega) _

/-- The 32-bit size of a terminated copy wraps around. -/
theorem toNat_add_one_lt_iff {s : Bytes} (hcount : s.length < 2 ^ 32) :
    (UInt32.ofNat s.length + 1).toNat < s.length + 1 ↔ Overlong (.str s) := by
  have hto : (UInt32.ofNat s.length).toNat = s.length := UInt32.toNat_ofNat_of_lt' hcount
  rw [UInt32.toNat_add, hto, Overlong]
  simp
  omega

/-- The decoder reads one object from the stream. -/
theorem objectUnmarshalMPack_reads (fuel : Nat) {v : Value} {vs : List Value} {bs : Bytes}
    (hbs : EncodesAll (v :: vs) bs) (hfuel : bs.length < fuel) :
    Reads 1 (v :: vs) bs (ReadFrom v) (objectUnmarshalMPack fuel (.ok bs)) := by
  induction fuel generalizing v vs bs with
  | zero => cases hfuel
  | succ fuel ih =>
      cases hbs with
      | @cons _ _ h body hh hcount hbody =>
          have hpos := spells_length_pos hh
          rw [List.append_assoc, objectUnmarshalMPack, mpackReadTag_spells hh, ← List.append_assoc]
          cases v with
          | str s =>
              have hto : (UInt32.ofNat s.length).toNat = s.length :=
                UInt32.toNat_ofNat_of_lt' hcount
              simp only [Value.tag, Value.payload, hto, mpackReadBytes_append]
              split_ifs with hover
              · have hover := (toNat_add_one_lt_iff hcount).mp hover
                exact .inl ⟨⟨.str s, by simp [preorderAll_cons, touched], hover⟩, rfl⟩
              · exact reads_node hh hcount (hover ∘ (toNat_add_one_lt_iff hcount).mpr)
                  (reads_zero ⟨_, rfl, by simp [objectCreateStr]⟩ hbody)
          | bin s =>
              have hto : (UInt32.ofNat s.length).toNat = s.length :=
                UInt32.toNat_ofNat_of_lt' hcount
              simp only [Value.tag, Value.payload, hto, mpackReadBytes_append]
              exact reads_node hh hcount id (reads_zero ⟨_, rfl, by simp⟩ hbody)
          | array xs =>
              have hto : (UInt32.ofNat xs.length).toNat = xs.length :=
                UInt32.toNat_ofNat_of_lt' hcount
              simp only [Value.tag, Value.payload, hto]
              have hloop := @objectUnmarshalElements_reads _ fuel
                (fun hvs hlt => ih hvs hlt) xs.length _ _ hbody (by simp [Value.children])
                (by simp [Value.payload] at hfuel; omega) []
              refine reads_node hh hcount id
                (reads_bind (b := 0) hloop fun arr left rest _ hleft _ _ => ?_)
              exact reads_zero ⟨_, rfl, by simp⟩ hleft
          | map kvs => exact reads_node hh hcount id (reads_zero ⟨_, rfl, by simp⟩ hbody)
          | _ => exact reads_node hh hcount id (reads_zero ⟨_, rfl, by simp⟩ hbody)

/-! ## Exact consumption -/

/-- Everything inside the node is read: it is not a map with entries. -/
def Entered (v : Value) : Prop := arity v = v.children.length

theorem arity_le (v : Value) : arity v ≤ v.children.length := by
  cases v <;> simp [arity, Value.children]

theorem touched_preorderAll {vs : List Value} (hvs : ∀ u ∈ preorderAll vs, Entered u)
    (ns : List Value) : touched vs.length (preorderAll vs ++ ns) = preorderAll vs := by
  induction hn : (preorderAll vs).length using Nat.strong_induction_on generalizing vs with
  | _ n ih =>
      cases vs with
      | nil => simp
      | cons v vs =>
          rw [preorderAll_cons, List.length_cons] at hn
          rw [preorderAll_cons, List.forall_mem_cons] at hvs
          have hlen : vs.length + arity v = (v.children ++ vs).length := by
            rw [hvs.1, List.length_append, Nat.add_comm]
          rw [preorderAll_cons, List.cons_append, List.length_cons, touched, hlen,
            ih _ (by omega) hvs.2 rfl]

/-- Fewer nodes are taken than the values have when one of them is not entered. -/
theorem length_skim_lt {k : Nat} {vs ns : List Value} (hk : k ≤ vs.length)
    (hshort : k < vs.length ∨ ∃ u ∈ preorderAll vs, ¬Entered u) :
    ns.length < (skim k (preorderAll vs ++ ns)).length := by
  induction hn : (preorderAll vs).length using Nat.strong_induction_on generalizing vs k with
  | _ n ih =>
      cases vs with
      | nil => simp at hk hshort
      | cons v vs =>
          rw [preorderAll_cons, List.length_cons] at hn
          rw [preorderAll_cons, List.cons_append]
          cases k with
          | zero => simp; omega
          | succ k =>
              have harity := arity_le v
              rw [List.length_cons] at hk hshort
              rw [skim]
              refine ih _ (by omega) (by rw [List.length_append]; omega) ?_ rfl
              rw [List.length_append]
              obtain hlt | ⟨u, hu, hne⟩ := hshort
              · exact .inl (by omega)
              · rw [preorderAll_cons, List.mem_cons] at hu
                obtain rfl | hu := hu
                · rw [Entered] at hne
                  exact .inl (by omega)
                · exact .inr ⟨u, hu, hne⟩

theorem entered_iff {v : Value} : Entered v ↔ ∀ kvs, v = .map kvs → kvs = [] := by
  cases v <;> simp [Entered, arity, Value.children, eq_comm]

/-! ## Frames -/

/-- A well-formed frame `[1, msgid, error, result]`, in any encoding, with the bytes of the
error and of the result. -/
def ResponseFrame (msgid : UInt32) (e r : Value) (bE bR f : Bytes) : Prop :=
  ∃ (type id : Value) (hArr bType bId : Bytes), Spells (.array 4) hArr ∧
    (type.norm = .uint 1 ∧ Encodes type bType) ∧
    (id.norm = .uint msgid.toUInt64 ∧ Encodes id bId) ∧ Encodes e bE ∧ Encodes r bR ∧
    f = hArr ++ (bType ++ (bId ++ (bE ++ bR)))

/-- The canonical frame of a response. -/
theorem responseFrame_encode (msgid : UInt32) {e r : Value} (he : e.Fits) (hr : r.Fits) :
    ResponseFrame msgid e.norm r.norm (encode e) (encode r)
      (encode (.array [.uint 1, .uint msgid.toUInt64, e, r])) := by
  refine ⟨.uint 1, .uint msgid.toUInt64, header (.array 4), encode (.uint 1),
    encode (.uint msgid.toUInt64), spells_header (.array 4), ⟨rfl, ?_⟩, ⟨rfl, ?_⟩,
    encodes_encode he, encodes_encode hr, by simp [encode]⟩
  · exact encodes_encode (Value.fits_uint 1)
  · exact encodes_encode (Value.fits_uint _)

/-- The response as the fields before the error leave it. -/
def headerResponse (msgid : UInt32) : Response :=
  { type := hazeRpcResponse, msgid := msgid, error := none, result := none }

theorem responseUnmarshalError_frame {msgid : UInt32} {e r : Value} {bE bR f : Bytes}
    (hf : ResponseFrame msgid e r bE bR f) :
    responseUnmarshalError f = do
      let (error, reader) ← objectUnmarshalMPack (f.length + 1) (.ok (bE ++ bR))
      if mpackReaderError reader = none then
        return some ({ headerResponse msgid with error := dropNil error }, reader)
      return none := by
  obtain ⟨type, id, hArr, bType, bId, harr, ⟨htype, hbType⟩, ⟨hid, hbId⟩, -, -, hf⟩ := hf
  obtain ⟨htype, hbType⟩ := spells_of_norm_uint htype hbType
  obtain ⟨hid, hbId⟩ := spells_of_norm_uint hid hbId
  have hid32 : msgid.toUInt64 ≤ 0xffffffff := by
    rw [UInt64.le_iff_toNat_le, UInt32.toNat_toUInt64]
    exact Nat.le_of_lt_succ msgid.toNat_lt
  generalize hlen : f.length = n
  rw [responseUnmarshalError, hlen, hf, mpackReaderInitData]
  simp [mpackExpectArray_spells harr, mpackExpectU8, mpackExpectU32,
    mpackExpectUnsigned_spells hbType htype (by decide : (1 : UInt64) ≤ 0xff),
    mpackExpectUnsigned_spells hbId hid hid32, headerResponse, responseNew, hazeRpcResponse]

theorem responseFrame_ne_nil {msgid : UInt32} {e r : Value} {bE bR f : Bytes}
    (hf : ResponseFrame msgid e r bE bR f) : f ≠ [] := by
  obtain ⟨_, _, hArr, _, _, harr, -, -, -, -, rfl⟩ := hf
  exact List.append_ne_nil_of_left_ne_nil (spells_ne_nil harr) _

theorem responseFrame_length {msgid : UInt32} {e r : Value} {bE bR f : Bytes}
    (hf : ResponseFrame msgid e r bE bR f) : (bE ++ bR).length < f.length + 1 := by
  obtain ⟨_, _, hArr, bType, bId, -, -, -, -, -, rfl⟩ := hf
  simp only [List.length_append]
  omega

theorem responseFrame_encodes {msgid : UInt32} {e r : Value} {bE bR f : Bytes}
    (hf : ResponseFrame msgid e r bE bR f) : Encodes e bE ∧ Encodes r bR := by
  obtain ⟨_, _, _, _, _, -, -, -, hbE, hbR, -⟩ := hf
  exact ⟨hbE, hbR⟩

theorem responseUnmarshal_overflow {msgid : UInt32} {e r : Value} {bE bR f : Bytes}
    (hf : ResponseFrame msgid e r bE bR f)
    (hread : objectUnmarshalMPack (f.length + 1) (.ok (bE ++ bR)) = .error .heapOverflow) :
    responseUnmarshal f = .error .heapOverflow := by
  have hne : ¬f.length = 0 := fun h0 => responseFrame_ne_nil hf (List.length_eq_zero_iff.mp h0)
  rw [responseUnmarshal, if_neg hne, responseUnmarshalError_frame hf, hread]
  rfl

/-- The result is read from where the error ended. -/
theorem responseUnmarshal_frame {msgid : UInt32} {e r : Value} {bE bR f rest : Bytes}
    {error : Option Object} (hf : ResponseFrame msgid e r bE bR f)
    (hread : objectUnmarshalMPack (f.length + 1) (.ok (bE ++ bR)) = .ok (error, .ok rest)) :
    responseUnmarshalError f =
        .ok (some ({ headerResponse msgid with error := dropNil error }, .ok rest)) ∧
      responseUnmarshal f = do
        let (result, reader) ← objectUnmarshalMPack (f.length + 1) (.ok rest)
        if mpackReaderError reader ≠ none then return none
        return some { headerResponse msgid with
          error := dropNil error, result := dropNil result } := by
  have hne : ¬f.length = 0 := fun h0 => responseFrame_ne_nil hf (List.length_eq_zero_iff.mp h0)
  have herror : responseUnmarshalError f =
      .ok (some ({ headerResponse msgid with error := dropNil error }, .ok rest)) := by
    rw [responseUnmarshalError_frame hf, hread]
    rfl
  refine ⟨herror, ?_⟩
  rw [responseUnmarshal, if_neg hne, herror]
  rfl

end Haze
