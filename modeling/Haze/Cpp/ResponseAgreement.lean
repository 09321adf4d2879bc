import Haze.Cpp.Response
import Haze.Msgpack.Walk

/-
  When the server and the C++ client decode the same response.

  Both object decoders take the same nodes off the stream: they are run side by side over
  the walk of the bytes (`objectUnmarshalMPack_parallel`). They part at a string header
  of `2 ^ 32 - 1` bytes, where the C code writes past its allocation, and at a string with
  a NUL inside, which the C object cuts short. So the two agree on a buffer exactly when
  neither is met (`responseUnmarshal_agree_iff`).
-/

open Msgpack Transition

namespace Haze.Cpp

/-! ## Nodes on which the decoders part -/

/-- The header of a string whose terminated copy does not fit a 32-bit size. -/
def overlongTag : Tag := .str 0xffffffff

def Safe (ns : List Node) : Prop := ∀ n ∈ ns, n.1 ≠ overlongTag

/-- No string has a NUL inside. -/
def NulFree (ns : List Node) : Prop := ∀ n ∈ ns, ∀ len, n.1 = .str len → 0 ∉ n.2

theorem safe_nil : Safe [] := List.forall_mem_nil _

theorem safe_cons {n : Node} {ns : List Node} (hn : n.1 ≠ overlongTag) (hns : Safe ns) :
    Safe (n :: ns) :=
  List.forall_mem_cons.mpr ⟨hn, hns⟩

theorem safe_append {ns ms : List Node} (hns : Safe ns) (hms : Safe ms) : Safe (ns ++ ms) :=
  List.forall_mem_append.mpr ⟨hns, hms⟩

theorem nulFree_nil : NulFree [] := List.forall_mem_nil _

theorem nulFree_append_iff {ns ms : List Node} :
    NulFree (ns ++ ms) ↔ NulFree ns ∧ NulFree ms :=
  List.forall_mem_append

theorem nulFree_cons_iff {n : Node} {ns : List Node} :
    NulFree (n :: ns) ↔ (∀ len, n.1 = .str len → 0 ∉ n.2) ∧ NulFree ns :=
  List.forall_mem_cons

/-- The 32-bit size of a terminated copy wraps around. -/
theorem wraps_iff {len : UInt32} : (len + 1).toNat < len.toNat + 1 ↔ Tag.str len = overlongTag := by
  have hlt := len.toNat_lt
  have hone : (1 : UInt32).toNat = 1 := rfl
  have hmax : (0xffffffff : UInt32).toNat = 2 ^ 32 - 1 := rfl
  rw [overlongTag, Tag.str.injEq, ← UInt32.toNat_inj, UInt32.toNat_add, hone, hmax]
  omega

/-! ## Running side by side -/

/-- What two decoders make of `wanted` objects from `bs`: the first one overflows at an
overlong header, both fail where the stream ends, or both end behind the walk with results
related by `Q`. -/
inductive Parallel {α β : Type} (wanted : Nat) (bs : Bytes) (Q : List Node → α → β → Prop) :
    Except Fault (α × Reader) → Except Fault (β × Reader) → Prop where
  | overflow {ns : List Node} {left : Nat} {rest : Bytes} {out : Except Fault (β × Reader)} :
      Walk (wanted, bs) ns (left + 1, rest) → Opens overlongTag rest →
        Parallel wanted bs Q (.error .heapOverflow) out
  | failed {ns : List Node} {left : Nat} {rest : Bytes} {x : α} {y : β} {e : MpackError} :
      Walk (wanted, bs) ns (left + 1, rest) → Safe ns → Stuck rest → ¬Opens overlongTag rest →
        Parallel wanted bs Q (.ok (x, .failed e)) (.ok (y, .failed e))
  | done {ns : List Node} {rest : Bytes} {x : α} {y : β} :
      Walk (wanted, bs) ns (0, rest) → Safe ns → Q ns x y →
        Parallel wanted bs Q (.ok (x, .ok rest)) (.ok (y, .ok rest))

section

variable {α β : Type} {Q : List Node → α → β → Prop} {bs : Bytes}

theorem parallel_pure {x : α} {y : β} (hQ : Q [] x y) :
    Parallel 0 bs Q (.ok (x, .ok bs)) (.ok (y, .ok bs)) :=
  .done .nil safe_nil hQ

theorem parallel_imp {Q' : List Node → α → β → Prop} {wanted : Nat}
    {out : Except Fault (α × Reader)} {out' : Except Fault (β × Reader)}
    (h : Parallel wanted bs Q out out') (hQ : ∀ ns x y, Q ns x y → Q' ns x y) :
    Parallel wanted bs Q' out out' := by
  cases h with
  | overflow hwalk hopens => exact .overflow hwalk hopens
  | failed hwalk hsafe hstuck hopens => exact .failed hwalk hsafe hstuck hopens
  | done hwalk hsafe h => exact .done hwalk hsafe (hQ _ _ _ h)

/-- Reading goes on behind what was read, and nowhere behind a failure. -/
theorem parallel_bind {γ δ : Type} {Q' : List Node → γ → δ → Prop} {a b : Nat}
    {out : Except Fault (α × Reader)} {out' : Except Fault (β × Reader)}
    {f : α × Reader → Except Fault (γ × Reader)} {f' : β × Reader → Except Fault (δ × Reader)}
    (hout : Parallel a bs Q out out')
    (hdone : ∀ ns rest x y, rest.length ≤ bs.length → Q ns x y →
      Parallel b rest (fun ms => Q' (ns ++ ms)) (f (x, .ok rest)) (f' (y, .ok rest)))
    (hfailed : ∀ x y e, ∃ x' y',
      f (x, .failed e) = .ok (x', .failed e) ∧ f' (y, .failed e) = .ok (y', .failed e)) :
    Parallel (a + b) bs Q' (out >>= f) (out' >>= f') := by
  cases hout with
  | @overflow ns left rest out' hwalk hopens =>
      have hwalk := walk_add hwalk b
      rw [Nat.add_right_comm] at hwalk
      exact .overflow hwalk hopens
  | @failed ns left rest x y e hwalk hsafe hstuck hopens =>
      have hwalk := walk_add hwalk b
      rw [Nat.add_right_comm] at hwalk
      obtain ⟨x', y', hx, hy⟩ := hfailed x y e
      show Parallel (a + b) bs Q' (f (x, .failed e)) (f' (y, .failed e))
      rw [hx, hy]
      exact .failed hwalk hsafe hstuck hopens
  | @done ns rest x y hwalk hsafe hQ =>
      have hlen := walk_length_le hwalk
      have hfront := walk_add hwalk b
      rw [Nat.zero_add] at hfront
      show Parallel (a + b) bs Q' (f (x, .ok rest)) (f' (y, .ok rest))
      generalize f (x, .ok rest) = next, f' (y, .ok rest) = next', hdone ns rest x y hlen hQ = hnext
      cases hnext with
      | overflow hback hopens => exact .overflow (hfront.append hback) hopens
      | failed hback hsafe' hstuck hopens =>
          exact .failed (hfront.append hback) (safe_append hsafe hsafe') hstuck hopens
      | done hback hsafe' hQ' =>
          exact .done (hfront.append hback) (safe_append hsafe hsafe') hQ'

/-- One object takes its node and then the objects inside it. -/
theorem parallel_node {t : Tag} {h payload : Bytes} {out : Except Fault (α × Reader)}
    {out' : Except Fault (β × Reader)} (hh : Spells t h) (hlen : payload.length = t.payloadLength)
    (ht : t ≠ overlongTag)
    (hbody : Parallel t.elements bs (fun ns => Q ((t, payload) :: ns)) out out') :
    Parallel 1 (h ++ payload ++ bs) Q out out' := by
  have htake : Take (1, h ++ payload ++ bs) (t, payload) (t.elements, bs) := by
    have htake := @Take.intro 0 t h payload bs hh hlen
    rwa [Nat.zero_add, Nat.zero_add] at htake
  cases hbody with
  | overflow hwalk hopens => exact .overflow (.cons htake hwalk) hopens
  | failed hwalk hsafe hstuck hopens =>
      exact .failed (.cons htake hwalk) (safe_cons ht hsafe) hstuck hopens
  | done hwalk hsafe hQ => exact .done (.cons htake hwalk) (safe_cons ht hsafe) hQ

theorem parallel_leaf {t : Tag} {h : Bytes} {x : α} {y : β} (hh : Spells t h)
    (hlen : t.payloadLength = 0) (helements : t.elements = 0) (ht : t ≠ overlongTag)
    (hQ : Q [(t, [])] x y) : Parallel 1 (h ++ bs) Q (.ok (x, .ok bs)) (.ok (y, .ok bs)) := by
  have hnode := @parallel_node _ _ Q bs t h [] _ _ hh hlen.symm ht
    (helements ▸ parallel_pure hQ)
  rwa [List.append_nil] at hnode

/-- A payload is read whole, or the stream ends inside it. -/
theorem parallel_payload {t : Tag} {h : Bytes} (g : Bytes → α) (g' : Bytes → β)
    (hh : Spells t h) (helements : t.elements = 0) (ht : t ≠ overlongTag)
    (hQ : ∀ s, Q [(t, s)] (g s) (g' s)) :
    Parallel 1 (h ++ bs) Q
      (.ok (g (mpackReadBytes (.ok bs) t.payloadLength).1,
        (mpackReadBytes (.ok bs) t.payloadLength).2))
      (.ok (g' (mpackReadBytes (.ok bs) t.payloadLength).1,
        (mpackReadBytes (.ok bs) t.payloadLength).2)) := by
  by_cases hle : t.payloadLength ≤ bs.length
  · have hread : mpackReadBytes (.ok bs) t.payloadLength =
        (bs.take t.payloadLength, .ok (bs.drop t.payloadLength)) := if_pos hle
    have hnode := @parallel_node _ _ Q (bs.drop t.payloadLength) t h (bs.take t.payloadLength)
      _ _ hh (List.length_take_of_le hle) ht (helements ▸ parallel_pure (hQ _))
    rw [List.append_assoc, List.take_append_drop] at hnode
    rwa [hread]
  · have hread : mpackReadBytes (.ok bs) t.payloadLength =
        (List.replicate t.payloadLength 0, .failed .invalid) := if_neg hle
    rw [hread]
    refine .failed .nil safe_nil ?_ ?_
    · intro u k rest hk heq
      obtain ⟨rfl, rfl⟩ := spells_prefix_free hh hk heq
      rw [← spells_unique hh hk]
      exact not_le.mp hle
    · intro hopens
      exact ht (opens_unique ⟨h, bs, hh, rfl⟩ hopens)

end

/-! ## The object decoders -/

/-- What the decoders return for one object: a C object that is its own copy, and that
corresponds to the C++ object when no string was cut. -/
def Same (ns : List Node) (obj : Option Haze.Object) (p : Object) : Prop :=
  ∃ o, obj = some o ∧ objectCopy o = o ∧ (Corresponds o p ↔ NulFree ns)

theorem same_leaf {t : Tag} {s : Bytes} {o : Haze.Object} {p : Object}
    (ht : ∀ len, t ≠ .str len) (hcopy : objectCopy o = o) (h : Corresponds o p) :
    Same [(t, s)] (some o) p :=
  ⟨o, rfl, hcopy, iff_of_true h (nulFree_cons_iff.mpr
    ⟨fun len hlen => absurd hlen (ht len), nulFree_nil⟩)⟩

/-- A node with neither payload nor elements, and no string. -/
theorem parallel_scalar {t : Tag} {h : Bytes} {o : Haze.Object} {p : Object} {bs : Bytes}
    (hh : Spells t h) (hlen : t.payloadLength = 0) (helements : t.elements = 0)
    (ht : ∀ len, t ≠ .str len) (hcopy : objectCopy o = o) (hcorr : Corresponds o p) :
    Parallel 1 (h ++ bs) Same (.ok (some o, .ok bs)) (.ok (p, .ok bs)) :=
  parallel_leaf hh hlen helements (ht _) (same_leaf ht hcopy hcorr)

theorem objectUnmarshalElements_failed {read : Reader → Except Fault (Option Haze.Object × Reader)}
    {e : MpackError} (hread : read (.failed e) = .ok (none, .failed e)) (n : Nat)
    (arr : List Haze.Object) :
    Haze.objectUnmarshalElements read n (.failed e) arr = .ok (arr, .failed e) := by
  induction n with
  | zero => rfl
  | succ n ih =>
      rw [Haze.objectUnmarshalElements, hread]
      exact ih

theorem objectUnmarshalElements_failed_cpp {read : Reader → Except Fault (Object × Reader)}
    {e : MpackError} (hread : read (.failed e) = .ok (.nil, .failed e)) (n : Nat)
    (arr : List Object) : ∃ arr', objectUnmarshalElements read n (.failed e) arr =
      .ok (arr', .failed e) := by
  induction n generalizing arr with
  | zero => exact ⟨arr, rfl⟩
  | succ n ih =>
      rw [objectUnmarshalElements, hread]
      exact ih _

theorem objectUnmarshalElements_parallel
    {read : Reader → Except Fault (Option Haze.Object × Reader)}
    {read' : Reader → Except Fault (Object × Reader)} {bound : Nat}
    (hread : ∀ {bs}, bs.length < bound → Parallel 1 bs Same (read (.ok bs)) (read' (.ok bs)))
    (hfailed : ∀ e, read (.failed e) = .ok (none, .failed e) ∧
      read' (.failed e) = .ok (.nil, .failed e))
    (n : Nat) {bs : Bytes} (hbs : bs.length < bound) (arr : List Haze.Object)
    (arr' : List Object) :
    Parallel n bs (fun ns as as' => ∃ xs ys, as = arr ++ xs ∧ as' = arr' ++ ys ∧
        xs.map objectCopy = xs ∧ (List.Forall₂ Corresponds xs ys ↔ NulFree ns))
      (Haze.objectUnmarshalElements read n (.ok bs) arr)
      (objectUnmarshalElements read' n (.ok bs) arr') := by
  induction n generalizing bs arr arr' with
  | zero =>
      refine parallel_pure ⟨[], [], ?_, ?_, rfl, iff_of_true .nil nulFree_nil⟩
      · rw [List.append_nil]
      · rw [List.append_nil]
  | succ n ih =>
      rw [Haze.objectUnmarshalElements, objectUnmarshalElements, Nat.add_comm]
      refine parallel_bind (hread hbs) (fun ns rest x y hle hsame => ?_) fun x y e => ?_
      · obtain ⟨o, rfl, hcopy, hiff⟩ := hsame
        refine parallel_imp (ih (lt_of_le_of_lt hle hbs) (objectArrayAppend arr o) (arr' ++ [y])) ?_
        intro ms as as' hrest
        obtain ⟨xs, ys, has, has', hxs, hall⟩ := hrest
        rw [objectArrayAppend, hcopy] at has
        refine ⟨o :: xs, y :: ys, ?_, ?_, ?_, ?_⟩
        · rw [has, List.append_assoc, List.singleton_append]
        · rw [has', List.append_assoc, List.singleton_append]
        · rw [List.map_cons, hcopy, hxs]
        · rw [List.forall₂_cons, hiff, hall, nulFree_append_iff]
      · obtain ⟨as', has'⟩ :=
          objectUnmarshalElements_failed_cpp (hfailed e).2 n (arr' ++ [y])
        exact ⟨_, as', objectUnmarshalElements_failed (hfailed e).1 n _, has'⟩

/-- Both decoders take the same nodes. -/
theorem objectUnmarshalMPack_parallel (fuel : Nat) {bs : Bytes} (hfuel : bs.length < fuel) :
    Parallel 1 bs Same (Haze.objectUnmarshalMPack fuel (.ok bs))
      (objectUnmarshalMPack fuel (.ok bs)) := by
  induction fuel generalizing bs with
  | zero => cases hfuel
  | succ fuel ih =>
      rw [Haze.objectUnmarshalMPack, objectUnmarshalMPack]
      obtain ⟨t, h, rest, hh, rfl⟩ | ⟨e, he, -⟩ := mpackReadTag_cases bs
      · have hpos := spells_length_pos hh
        rw [List.length_append] at hfuel
        rw [mpackReadTag_spells hh]
        cases t with
        | str len =>
            dsimp only
            split_ifs with hwraps
            · exact .overflow .nil ⟨h, rest, wraps_iff.mp hwraps ▸ hh, rfl⟩
            · refine parallel_payload (fun s => some (objectCreateStr (some s))) Object.str hh rfl
                (hwraps ∘ wraps_iff.mpr) fun s => ?_
              refine ⟨_, rfl, rfl, corresponds_str_iff.trans ?_⟩
              rw [nulFree_cons_iff, and_iff_left nulFree_nil]
              exact ⟨fun hs _ _ => hs, fun hs => hs len rfl⟩
        | bin len =>
            have hbin : ∀ len', Tag.bin len ≠ .str len' := by simp
            exact parallel_payload (fun s => some (.bin (some (rawBufferNew (some s))))) Object.bin
              hh rfl (hbin _) fun s => same_leaf hbin (by simp [objectCopy]) (.bin s)
        | array count =>
            have harray : ∀ len, Tag.array count ≠ .str len := by simp
            have hloop := objectUnmarshalElements_parallel ih
              (fun e => by
                obtain ⟨fuel, rfl⟩ := Nat.exists_eq_succ_of_ne_zero (by omega : fuel ≠ 0)
                exact ⟨rfl, rfl⟩)
              count.toNat (by omega : rest.length < fuel) [] []
            rw [← List.append_nil h]
            refine parallel_node hh rfl (harray _) ?_
            refine parallel_bind (b := 0) hloop (fun ns rest' as as' _ hsame => parallel_pure ?_)
              fun x y e => ⟨_, _, rfl, rfl⟩
            · obtain ⟨xs, ys, rfl, rfl, hxs, hall⟩ := hsame
              refine ⟨_, rfl, ?_, ?_⟩
              · rw [objectCopy, objectArrayCopy_eq_map, hxs]
              · rw [corresponds_array_iff, hall, List.append_nil, nulFree_cons_iff]
                exact (and_iff_right fun len heq => absurd heq (harray len)).symm
        | nil => exact parallel_scalar hh rfl rfl (by simp) rfl .nil
        | bool v => exact parallel_scalar hh rfl rfl (by simp) rfl (.bool v)
        | int v => exact parallel_scalar hh rfl rfl (by simp) rfl (.int v)
        | uint v => exact parallel_scalar hh rfl rfl (by simp) rfl (.uint v)
        | float v => exact parallel_scalar hh rfl rfl (by simp) rfl (.float v)
        | double v => exact parallel_scalar hh rfl rfl (by simp) rfl (.double v)
        | map count => exact parallel_scalar hh rfl rfl (by simp) rfl .nil
      · -- no header stands at the front
        rw [he]
        have hnot : ∀ t, ¬Opens t bs := by
          intro t hopens
          obtain ⟨h, rest, hh, heq⟩ := hopens
          rw [heq, mpackReadTag_spells hh] at he
          cases (Prod.mk.inj he).2
        exact .failed .nil safe_nil
          (fun t h rest hh heq => absurd ⟨h, rest, hh, heq⟩ (hnot t)) (hnot _)

/-! ## Headers of responses -/

/-- `b` opens with an array of four, the type 1 and the number, in any encoding, and the
error and the result are read from `body`. -/
def ResponseHeader (msgid : UInt32) (b body : Bytes) : Prop :=
  ∃ (type id : Tag) (hArr hType hId : Bytes), Spells (.array 4) hArr ∧
    (type.norm = .uint 1 ∧ Spells type hType) ∧
    (id.norm = .uint msgid.toUInt64 ∧ Spells id hId) ∧ b = hArr ++ (hType ++ (hId ++ body))

theorem responseHeader_unique {m m' : UInt32} {b body body' : Bytes}
    (h : ResponseHeader m b body) (h' : ResponseHeader m' b body') : body = body' := by
  obtain ⟨type, id, hArr, hType, hId, harr, ⟨-, htype⟩, ⟨-, hid⟩, rfl⟩ := h
  obtain ⟨type', id', hArr', hType', hId', harr', ⟨-, htype'⟩, ⟨-, hid'⟩, heq⟩ := h'
  obtain ⟨-, heq⟩ := spells_prefix_free harr harr' heq
  obtain ⟨-, heq⟩ := spells_prefix_free htype htype' heq
  exact (spells_prefix_free hid hid' heq).2

theorem responseHeader_length {msgid : UInt32} {b body : Bytes}
    (h : ResponseHeader msgid b body) : b ≠ [] ∧ body.length < b.length := by
  obtain ⟨type, id, hArr, hType, hId, harr, -, -, rfl⟩ := h
  have hpos := spells_length_pos harr
  refine ⟨List.append_ne_nil_of_left_ne_nil (spells_ne_nil harr) _, ?_⟩
  simp only [List.length_append]
  omega

/-- The reads in front of the error. -/
theorem responseHeader_read {msgid : UInt32} {b body : Bytes} (h : ResponseHeader msgid b body) :
    ∃ r₁ r₂, mpackExpectArray (.ok b) = (4, .ok r₁) ∧ mpackExpectU8 (.ok r₁) = (1, .ok r₂) ∧
      mpackExpectU32 (.ok r₂) = (msgid, .ok body) := by
  obtain ⟨type, id, hArr, hType, hId, harr, ⟨hone, htype⟩, ⟨hmsgid, hid⟩, rfl⟩ := h
  have hmax : msgid.toUInt64 ≤ 0xffffffff := by
    rw [UInt64.le_iff_toNat_le, UInt32.toNat_toUInt64]
    exact Nat.le_of_lt_succ msgid.toNat_lt
  refine ⟨hType ++ (hId ++ body), hId ++ body, mpackExpectArray_spells harr _, ?_, ?_⟩
  · rw [mpackExpectU8, mpackExpectUnsigned_spells htype hone (by decide : (1 : UInt64) ≤ 0xff)]
    rfl
  · rw [mpackExpectU32, mpackExpectUnsigned_spells hid hmsgid hmax]
    simp

/-- Where these reads go through, the buffer opens with such a header. -/
theorem responseHeader_of_reads {b : Bytes} {count msgid : UInt32} {type : UInt8}
    {r₁ r₂ r₃ : Reader} (harr : mpackExpectArray (.ok b) = (count, r₁))
    (htype : mpackExpectU8 r₁ = (type, r₂)) (hid : mpackExpectU32 r₂ = (msgid, r₃))
    (h₁ : mpackReaderError r₁ = none ∧ count = 4) (h₂ : mpackReaderError r₂ = none ∧ type = 1)
    (h₃ : mpackReaderError r₃ = none) : ∃ body, ResponseHeader msgid b body := by
  obtain ⟨h₁, rfl⟩ := h₁
  obtain ⟨h₂, rfl⟩ := h₂
  obtain ⟨d₁, rfl⟩ := mpackReaderError_eq_none h₁
  obtain ⟨d₂, rfl⟩ := mpackReaderError_eq_none h₂
  obtain ⟨d₃, rfl⟩ := mpackReaderError_eq_none h₃
  obtain ⟨hArr, hspell, rfl⟩ := mpackExpectArray_sound harr
  unfold mpackExpectU8 at htype
  unfold mpackExpectU32 at hid
  cases hv : mpackExpectUnsigned 0xff (.ok d₁) with
  | mk v r =>
    rw [hv] at htype
    obtain ⟨hone, rfl⟩ := Prod.mk.inj htype
    obtain ⟨t, hType, hspell₁, hnorm, hmax, rfl⟩ := mpackExpectUnsigned_sound hv
    cases hw : mpackExpectUnsigned 0xffffffff (.ok d₂) with
    | mk w r =>
      rw [hw] at hid
      obtain ⟨hmsgid, rfl⟩ := Prod.mk.inj hid
      obtain ⟨u, hId, hspell₂, hnorm', hmax', rfl⟩ := mpackExpectUnsigned_sound hw
      have hv1 : v = 1 := by
        have hnat := congrArg UInt8.toNat hone
        rw [UInt64.le_iff_toNat_le] at hmax
        rw [UInt64.toNat_toUInt8] at hnat
        apply UInt64.toNat_inj.mp
        simp at hnat hmax ⊢
        omega
      have hwid : w = msgid.toUInt64 := by
        rw [UInt64.le_iff_toNat_le] at hmax'
        apply UInt64.toNat_inj.mp
        rw [← hmsgid, UInt32.toNat_toUInt64, UInt64.toNat_toUInt32]
        simp at hmax'
        omega
      exact ⟨d₃, t, u, hArr, hType, hId, hspell, ⟨hv1 ▸ hnorm, hspell₁⟩,
        ⟨hwid ▸ hnorm', hspell₂⟩, rfl⟩

/-- Without such a header the server rejects the buffer. -/
theorem responseUnmarshalError_foreign {b : Bytes}
    (hforeign : ∀ msgid body, ¬ResponseHeader msgid b body) :
    Haze.responseUnmarshalError b = .ok none := by
  rw [Haze.responseUnmarshalError, mpackReaderInitData]
  simp only []
  split_ifs with h₁ h₂ h₃
  · rfl
  · rfl
  · rfl
  · rw [not_or, not_not, not_not] at h₁ h₂
    have hone : (mpackExpectU8 (mpackExpectArray (.ok b)).2).1 = 1 := by
      have hnat := congrArg UInt32.toNat h₂.2
      rw [UInt8.toNat_toUInt32] at hnat
      exact UInt8.toNat_inj.mp hnat
    obtain ⟨body, hheader⟩ :=
      responseHeader_of_reads rfl rfl rfl h₁ ⟨h₂.1, hone⟩ (not_not.mp h₃)
    exact absurd hheader (hforeign _ body)

/-- The client rejects it too. -/
theorem responseUnmarshalError_foreign_cpp {b : Bytes}
    (hforeign : ∀ msgid body, ¬ResponseHeader msgid b body) :
    responseUnmarshalError b = .ok none := by
  rw [responseUnmarshalError, mpackReaderInitData]
  simp only []
  split_ifs with h₁ h₂ h₃
  · rfl
  · rfl
  · rfl
  · rw [not_or, not_not, not_not] at h₁ h₂
    obtain ⟨body, hheader⟩ := responseHeader_of_reads rfl rfl rfl h₁ h₂ (not_not.mp h₃)
    exact absurd hheader (hforeign _ body)

/-! ## The error and the result -/

/-- Two objects, one behind the other. -/
def readPair {α : Type} (read : Reader → Except Fault (α × Reader)) (reader : Reader) :
    Except Fault ((α × α) × Reader) := do
  let (error, reader) ← read reader
  let (result, reader) ← read reader
  return ((error, result), reader)

/-- A decoder that checks the reader after each of the two objects reads the pair, as a
reader that failed reads nothing more. -/
theorem bind_readPair {α β γ : Type} (make : α → β) (pair : α → α → γ)
    {read : Reader → Except Fault (α × Reader)} {x : α} {reader : Reader}
    {first : Except Fault (Option (β × Reader))}
    {next : Option (β × Reader) → Except Fault (Option γ)}
    (hfailed : ∀ e, read (.failed e) = .ok (x, .failed e))
    (hfirst : first = do
      let out ← read reader
      if mpackReaderError out.2 ≠ none then return none
      return some (make out.1, out.2))
    (hnone : next none = .ok none)
    (hsome : ∀ error reader, next (some (make error, reader)) = do
      let out ← read reader
      if mpackReaderError out.2 ≠ none then return none
      return some (pair error out.1)) :
    first >>= next = do
      let out ← readPair read reader
      if mpackReaderError out.2 ≠ none then return none
      return some (pair out.1.1 out.1.2) := by
  rw [hfirst, readPair]
  cases read reader with
  | error fault => rfl
  | ok out =>
      obtain ⟨error, reader | e⟩ := out
      · show next (some (make error, .ok reader)) = _
        rw [hsome]
        simp only [bind, Except.bind]
        cases read (.ok reader) <;> rfl
      · show next none = _
        rw [hnone]
        simp only [bind, Except.bind, hfailed]
        rfl

/-- Behind the header the server reads the pair. -/
theorem responseUnmarshal_pair {msgid : UInt32} {b body : Bytes}
    (h : ResponseHeader msgid b body) :
    Haze.responseUnmarshal b = do
      let out ← readPair (Haze.objectUnmarshalMPack (b.length + 1)) (.ok body)
      if mpackReaderError out.2 ≠ none then return none
      return some { headerResponse msgid with
        error := dropNil out.1.1, result := dropNil out.1.2 } := by
  obtain ⟨r₁, r₂, harr, htype, hid⟩ := responseHeader_read h
  have hne : ¬b.length = 0 := fun h0 =>
    (responseHeader_length h).1 (List.length_eq_zero_iff.mp h0)
  have hfailed : ∀ e,
      Haze.objectUnmarshalMPack (b.length + 1) (.failed e) = .ok (none, .failed e) := fun e => rfl
  have herror : Haze.responseUnmarshalError b = do
      let out ← Haze.objectUnmarshalMPack (b.length + 1) (.ok body)
      if mpackReaderError out.2 ≠ none then return none
      return some ({ headerResponse msgid with error := dropNil out.1 }, out.2) := by
    simp [Haze.responseUnmarshalError, mpackReaderInitData, harr, htype, hid, headerResponse,
      Haze.responseNew, hazeRpcResponse]
  rw [Haze.responseUnmarshal, if_neg hne]
  refine bind_readPair (fun error => { headerResponse msgid with error := dropNil error })
    (fun error result =>
      { headerResponse msgid with error := dropNil error, result := dropNil result })
    hfailed herror ?_ ?_
  · rfl
  · intro error reader
    rfl

/-- Behind the header the client reads the pair. -/
theorem responseUnmarshal_pair_cpp {msgid : UInt32} {b body : Bytes}
    (h : ResponseHeader msgid b body) :
    responseUnmarshal b = do
      let out ← readPair (objectUnmarshalMPack (b.length + 1)) (.ok body)
      if mpackReaderError out.2 ≠ none then return none
      return some
        { type := rpcTypeResponse, msgid := msgid, error := out.1.1, result := out.1.2 } := by
  obtain ⟨r₁, r₂, harr, htype, hid⟩ := responseHeader_read h
  have hfailed : ∀ e, objectUnmarshalMPack (b.length + 1) (.failed e) = .ok (.nil, .failed e) :=
    fun e => rfl
  have herror : responseUnmarshalError b = do
      let out ← objectUnmarshalMPack (b.length + 1) (.ok body)
      if mpackReaderError out.2 ≠ none then return none
      return some (⟨rpcTypeResponse, msgid, out.1, .nil⟩, out.2) := by
    simp [responseUnmarshalError, mpackReaderInitData, harr, htype, hid, responseNew,
      rpcTypeResponse]
  rw [responseUnmarshal, if_neg (responseHeader_length h).1]
  refine bind_readPair (fun error => Response.mk rpcTypeResponse msgid error .nil)
    (Response.mk rpcTypeResponse msgid) hfailed herror ?_ ?_
  · rfl
  · intro error reader
    rfl

/-- What is known of the error and the result when both are read. -/
def SamePair (ns : List Node) (pair : Option Haze.Object × Option Haze.Object)
    (pair' : Object × Object) : Prop :=
  CorrespondsField (dropNil pair.1) pair'.1 ∧ CorrespondsField (dropNil pair.2) pair'.2 ↔ NulFree ns

theorem correspondsField_dropNil {o : Haze.Object} {p : Object} :
    CorrespondsField (dropNil (some o)) p ↔ Corresponds o p := by
  cases o with
  | nil => exact corresponds_nil_iff.symm
  | _ => exact Iff.rfl

theorem readPair_parallel {fuel : Nat} {bs : Bytes} (hfuel : bs.length < fuel) :
    Parallel 2 bs SamePair (readPair (Haze.objectUnmarshalMPack fuel) (.ok bs))
      (readPair (objectUnmarshalMPack fuel) (.ok bs)) := by
  obtain ⟨fuel, rfl⟩ := Nat.exists_eq_succ_of_ne_zero (Nat.ne_zero_of_lt hfuel)
  refine parallel_bind (a := 1) (b := 1) (objectUnmarshalMPack_parallel _ hfuel)
    (fun ns rest x y hle hsame => ?_) fun x y e => ⟨_, _, rfl, rfl⟩
  refine parallel_bind (a := 1) (b := 0)
    (objectUnmarshalMPack_parallel _ (lt_of_le_of_lt hle hfuel))
    (fun ms rest' x' y' _ hsame' => parallel_pure ?_) fun x y e => ⟨_, _, rfl, rfl⟩
  obtain ⟨o, rfl, -, hiff⟩ := hsame
  obtain ⟨o', rfl, -, hiff'⟩ := hsame'
  unfold SamePair
  rw [correspondsField_dropNil, correspondsField_dropNil, hiff, hiff', List.append_nil,
    nulFree_append_iff]

/-! ## Agreement -/

/-- The same number, and corresponding errors and results. -/
structure CorrespondingResponses (s : Haze.Response) (r : Response) : Prop where
  msgid : s.msgid = r.msgid
  error : CorrespondsField s.error r.error
  result : CorrespondsField s.result r.result

/-- Both decoders return; both return nothing, or they return corresponding responses. -/
def Agree (b : Bytes) : Prop :=
  ∃ s r, Haze.responseUnmarshal b = .ok s ∧ responseUnmarshal b = .ok r ∧
    Option.Rel CorrespondingResponses s r

/-- The decoders agree on a buffer exactly when it does not open with the header of a
response, or behind it no string header of `2 ^ 32 - 1` bytes is reached and, if the
error and the result are whole, no string in them has a NUL inside. -/
theorem responseUnmarshal_agree_iff (b : Bytes) :
    Agree b ↔ ∀ msgid body, ResponseHeader msgid b body → ¬Reaches overlongTag 2 body ∧
      ∀ ns rest, Walk (2, body) ns (0, rest) → NulFree ns := by
  by_cases hheader : ∃ msgid body, ResponseHeader msgid b body
  · obtain ⟨msgid, body, hheader⟩ := hheader
    have honly : (∀ msgid body, ResponseHeader msgid b body → ¬Reaches overlongTag 2 body ∧
        ∀ ns rest, Walk (2, body) ns (0, rest) → NulFree ns) ↔ ¬Reaches overlongTag 2 body ∧
          ∀ ns rest, Walk (2, body) ns (0, rest) → NulFree ns := by
      constructor
      · intro h
        exact h msgid body hheader
      · intro h msgid' body' hheader'
        exact responseHeader_unique hheader hheader' ▸ h
    rw [honly]
    have hfuel : body.length < b.length + 1 := (responseHeader_length hheader).2.trans_le (by omega)
    unfold Agree
    rw [responseUnmarshal_pair hheader, responseUnmarshal_pair_cpp hheader]
    generalize readPair (Haze.objectUnmarshalMPack (b.length + 1)) (.ok body) = out,
      readPair (objectUnmarshalMPack (b.length + 1)) (.ok body) = out',
      readPair_parallel hfuel = hpair
    cases hpair with
    | overflow hwalk hopens =>
        apply iff_of_false
        · intro ⟨s, r, hs, _⟩
          cases hs
        · intro h
          exact h.1 ⟨_, _, _, hwalk, hopens⟩
    | @failed ns left rest x y e hwalk hsafe hstuck hopens =>
        have hend := not_take_of_stuck hstuck (left + 1)
        apply iff_of_true
        · exact ⟨none, none, rfl, rfl, .none⟩
        · refine ⟨fun h => hopens ((reaches_iff hwalk hend hsafe).mp h).2,
            fun ms rest' hwhole => ?_⟩
          have heq := (hwalk.end_unique take_deterministic hend hwhole (not_take_zero rest')).2
          cases heq
    | @done ns rest x y hwalk hsafe hsame =>
        have hend := not_take_zero rest
        have hreach : ¬Reaches overlongTag 2 body := fun h =>
          ((reaches_iff hwalk hend hsafe).mp h).1 rfl
        have hwhole : (∀ ms rest', Walk (2, body) ms (0, rest') → NulFree ms) ↔ NulFree ns := by
          constructor
          · intro h
            exact h ns rest hwalk
          · intro h ms rest' hwalk'
            have heq := hwalk.end_unique take_deterministic hend hwalk' (not_take_zero rest')
            exact heq.1 ▸ h
        rw [hwhole, and_iff_right hreach, ← show _ ↔ NulFree ns from hsame]
        constructor
        · intro ⟨s, r, hs, hr, hrel⟩
          obtain rfl := Except.ok.inj hs
          obtain rfl := Except.ok.inj hr
          cases hrel with
          | some h => exact ⟨h.error, h.result⟩
        · intro ⟨herror, hresult⟩
          exact ⟨_, _, rfl, rfl, .some ⟨rfl, herror, hresult⟩⟩
  · have hforeign : ∀ msgid body, ¬ResponseHeader msgid b body := fun msgid body h =>
      hheader ⟨msgid, body, h⟩
    apply iff_of_true
    · refine ⟨none, none, ?_, ?_, .none⟩
      · rw [Haze.responseUnmarshal, responseUnmarshalError_foreign hforeign]
        split_ifs <;> rfl
      · rw [responseUnmarshal, responseUnmarshalError_foreign_cpp hforeign]
        split_ifs <;> rfl
    · intro msgid body h
      exact absurd h (hforeign msgid body)

/-- The frame `[1, 7, "a\0b", nil]`. The server keeps `a`, the client all three bytes. -/
theorem responseUnmarshal_disagree_nul :
    ¬∀ b, Agree b := by
  intro hall
  obtain ⟨s, r, hs, hr, hrel⟩ := hall [0x94, 0x01, 0x07, 0xa3, 0x61, 0x00, 0x62, 0xc0]
  have hsome : Haze.responseUnmarshal [0x94, 0x01, 0x07, 0xa3, 0x61, 0x00, 0x62, 0xc0] =
      .ok (some { headerResponse 7 with error := some (.str (some (.ofBytes [0x61]))) }) := rfl
  have hsome' : responseUnmarshal [0x94, 0x01, 0x07, 0xa3, 0x61, 0x00, 0x62, 0xc0] =
      .ok (some ⟨1, 7, .str [0x61, 0x00, 0x62], .nil⟩) := rfl
  obtain rfl := Except.ok.inj (hs.symm.trans hsome)
  obtain rfl := Except.ok.inj (hr.symm.trans hsome')
  cases hrel with
  | some h => cases h.error

end Haze.Cpp
