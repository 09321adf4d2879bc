import Haze.Mpack.Reader

/-
  The mpack expect API over the memory reader.

  Each function reads one value and checks its kind, flagging an error and yielding a
  dummy value when the kind is another. `mpack_expect_str` and the nil and bool
  functions read the type byte themselves instead of going through the tag parser;
  `mpackExpectStr_spells` and its companions bring them back to headers. The `_sound`
  lemmas say what was in the buffer when a call leaves the reader without an error.
-/

open Msgpack

namespace Haze

/-! ## Numbers -/

/-- The common body of the unsigned expect functions, for a type with the given
maximum. -/
def mpackExpectUnsigned (max : UInt64) (r : Reader) : UInt64 × Reader :=
  match mpackReadTag r with
  | (.uint u, r) => if u ≤ max then (u, r) else (0, mpackReaderFlagError r .type)
  | (.int i, r) =>
    if 0 ≤ i ∧ i.toUInt64 ≤ max then (i.toUInt64, r) else (0, mpackReaderFlagError r .type)
  | (_, r) => (0, mpackReaderFlagError r .type)

def mpackExpectU8 (r : Reader) : UInt8 × Reader :=
  let (v, r) := mpackExpectUnsigned 0xff r
  (v.toUInt8, r)

def mpackExpectU32 (r : Reader) : UInt32 × Reader :=
  let (v, r) := mpackExpectUnsigned 0xffffffff r
  (v.toUInt32, r)

def mpackExpectU64 (r : Reader) : UInt64 × Reader :=
  mpackExpectUnsigned 0xffffffffffffffff r

def mpackExpectI64 (r : Reader) : Int64 × Reader :=
  match mpackReadTag r with
  | (.uint u, r) =>
    if u ≤ 0x7fffffffffffffff then (u.toInt64, r) else (0, mpackReaderFlagError r .type)
  | (.int i, r) => (i, r)
  | (_, r) => (0, mpackReaderFlagError r .type)

def mpackExpectUintMatch (r : Reader) (value : UInt64) : Reader :=
  let (v, r) := mpackExpectU64 r
  if v ≠ value then mpackReaderFlagError r .type else r

def mpackExpectFloatStrict (r : Reader) : UInt32 × Reader :=
  match mpackReadTag r with
  | (.float f, r) => (f, r)
  | (_, r) => (0, mpackReaderFlagError r .type)

/-- A float tag is widened to a double. -/
def mpackExpectDoubleStrict (r : Reader) : UInt64 × Reader :=
  match mpackReadTag r with
  | (.float f, r) => ((Float32.ofBits f).toFloat.toBits, r)
  | (.double d, r) => (d, r)
  | (_, r) => (0, mpackReaderFlagError r .type)

/-! ## Type bytes -/

/-- The common body of the native loads: `size` bytes, or zero with the error flagged. -/
def mpackExpectNative (size : Nat) : Reader → Nat × Reader
  | .failed error => (0, .failed error)
  | .ok data =>
    if data.length < size then (0, .failed .invalid)
    else (beNat (data.take size), .ok (data.drop size))

def mpackExpectTypeByte (r : Reader) : UInt8 × Reader :=
  let (v, r) := mpackExpectNative 1 r
  (.ofNat v, r)

def mpackExpectNil (r : Reader) : Reader :=
  let (type, r) := mpackExpectTypeByte r
  if type ≠ 0xc0 then mpackReaderFlagError r .type else r

def mpackExpectBool (r : Reader) : Bool × Reader :=
  let (type, r) := mpackExpectTypeByte r
  let r := if type &&& ~~~1 ≠ 0xc2 then mpackReaderFlagError r .type else r
  (type &&& 1 ≠ 0, r)

/-! ## Compounds -/

def mpackExpectArray (r : Reader) : UInt32 × Reader :=
  match mpackReadTag r with
  | (.array n, r) => (n, r)
  | (_, r) => (0, mpackReaderFlagError r .type)

def mpackExpectArrayRange (r : Reader) (minValue maxValue : UInt32) : UInt32 × Reader :=
  match mpackExpectArray r with
  | (_, .failed error) => (minValue, .failed error)
  | (val, r) =>
    if val < minValue ∨ maxValue < val then (minValue, mpackReaderFlagError r .type)
    else (val, r)

def mpackExpectArrayMax (r : Reader) (maxCount : UInt32) : UInt32 × Reader :=
  mpackExpectArrayRange r 0 maxCount

def mpackExpectStr (r : Reader) : UInt32 × Reader :=
  let (type, r) := mpackExpectTypeByte r
  if type >>> 5 = 5 then ((type &&& ~~~0xe0).toUInt32, r)
  else if type = 0xd9 then
    let (v, r) := mpackExpectNative 1 r
    (.ofNat v, r)
  else if type = 0xda then
    let (v, r) := mpackExpectNative 2 r
    (.ofNat v, r)
  else if type = 0xdb then
    let (v, r) := mpackExpectNative 4 r
    (.ofNat v, r)
  else (0, mpackReaderFlagError r .type)

def mpackExpectStrMax (r : Reader) (maxsize : UInt32) : UInt32 × Reader :=
  let (length, r) := mpackExpectStr r
  if maxsize < length then (0, mpackReaderFlagError r .tooBig) else (length, r)

def mpackExpectBin (r : Reader) : UInt32 × Reader :=
  match mpackReadTag r with
  | (.bin l, r) => (l, r)
  | (_, r) => (0, mpackReaderFlagError r .type)

/-- The allocated copy without its terminator, `none` for `NULL`. -/
def mpackReadBytesAllocImpl : Reader → Nat → Option Bytes × Reader
  | .failed error, _ => (none, .failed error)
  | .ok data, count =>
    match mpackReadBytes (.ok data) count with
    | (_, .failed error) => (none, .failed error)
    | (bytes, .ok data) => (some bytes, .ok data)

/-- The size counts the terminator, so the string has at most `maxsize - 1` bytes. -/
def mpackExpectCstrAlloc (r : Reader) (maxsize : UInt32) : Option Bytes × Reader :=
  let (length, r) := mpackExpectStrMax r (maxsize - 1)
  match mpackReadBytesAllocImpl r length.toNat with
  | (none, r) => (none, r)
  | (some str, r) => if 0 ∈ str then (none, mpackReaderFlagError r .type) else (some str, r)

/-! ## Headers -/

@[simp] theorem mpackExpectNative_failed (size : Nat) (e : MpackError) :
    mpackExpectNative size (.failed e) = (0, .failed e) := rfl

theorem mpackExpectNative_append (p rest : Bytes) :
    mpackExpectNative p.length (.ok (p ++ rest)) = (beNat p, .ok rest) := by
  simp [mpackExpectNative]

theorem mpackExpectTypeByte_cons (b : UInt8) (rest : Bytes) :
    mpackExpectTypeByte (.ok (b :: rest)) = (b, .ok rest) := by
  simp [mpackExpectTypeByte, mpackExpectNative]

theorem mpackExpectNil_spells {h : Bytes} (hs : Spells .nil h) (rest : Bytes) :
    mpackExpectNil (.ok (h ++ rest)) = .ok rest := by
  obtain rfl : h = [0xc0] := shape_of_spells hs
  rfl

theorem mpackExpectBool_spells {v : Bool} {h : Bytes} (hs : Spells (.bool v) h)
    (rest : Bytes) : mpackExpectBool (.ok (h ++ rest)) = (v, .ok rest) := by
  obtain rfl : h = [if v then 0xc3 else 0xc2] := shape_of_spells hs
  cases v <;> simp +decide [mpackExpectBool, mpackExpectTypeByte_cons]

private theorem shiftRight_eq_five {b : UInt8} : b >>> 5 = 5 ↔ 0xa0 ≤ b ∧ b ≤ 0xbf := by
  have hb := b.toNat_lt
  have h5 : (5 : UInt8).toNat = 5 := rfl
  have hlo : (0xa0 : UInt8).toNat = 0xa0 := rfl
  have hhi : (0xbf : UInt8).toNat = 0xbf := rfl
  have hshift : (b >>> 5).toNat = b.toNat / 32 := by
    rw [UInt8.toNat_shiftRight, h5, Nat.shiftRight_eq_div_pow]
  rw [← UInt8.toNat_inj, UInt8.le_iff_toNat_le, UInt8.le_iff_toNat_le, hshift, h5, hlo, hhi]
  omega

theorem mpackExpectStr_spells {n : UInt32} {h : Bytes} (hs : Spells (.str n) h)
    (rest : Bytes) : mpackExpectStr (.ok (h ++ rest)) = (n, .ok rest) := by
  obtain ⟨b, hb, rfl, rfl⟩ | ⟨c, hc, body, rfl, hlen, rfl⟩ := shape_of_spells hs
  · have hfix := shiftRight_eq_five.mpr hb
    rw [List.cons_append, List.nil_append, mpackExpectStr, mpackExpectTypeByte_cons]
    simp only [hfix, if_true]
    rfl
  · simp only [List.mem_cons, List.not_mem_nil, or_false] at hc
    rw [List.cons_append, mpackExpectStr, mpackExpectTypeByte_cons]
    obtain rfl | rfl | rfl := hc <;>
    · have hnative := mpackExpectNative_append body rest
      rw [hlen] at hnative
      simp +decide [hnative]

theorem mpackExpectNative_sound {size v : Nat} {data rest : Bytes}
    (hr : mpackExpectNative size (.ok data) = (v, .ok rest)) :
    ∃ p, p.length = size ∧ v = beNat p ∧ data = p ++ rest := by
  simp only [mpackExpectNative] at hr
  split at hr
  · simp at hr
  · rename_i hge
    simp only [Prod.mk.injEq, Reader.ok.injEq] at hr
    obtain ⟨rfl, rfl⟩ := hr
    exact ⟨data.take size, List.length_take_of_le (by omega), rfl,
      (List.take_append_drop size data).symm⟩

theorem mpackExpectStr_sound {data rest : Bytes} {n : UInt32}
    (hr : mpackExpectStr (.ok data) = (n, .ok rest)) :
    ∃ h, Spells (.str n) h ∧ data = h ++ rest := by
  have wide : ∀ (b : UInt8) (size : Nat) (tail : Bytes),
      format b = some ⟨size, fun p => .str (.ofNat (beNat p))⟩ →
      ((.ofNat (mpackExpectNative size (.ok tail)).1, (mpackExpectNative size (.ok tail)).2) :
        UInt32 × Reader) = (n, .ok rest) →
      ∃ h, Spells (.str n) h ∧ b :: tail = h ++ rest := by
    intro b size tail hf heq
    obtain ⟨hn, hok⟩ := Prod.mk.inj heq
    obtain ⟨p, hlen, hv, rfl⟩ := mpackExpectNative_sound (Prod.ext rfl hok)
    exact ⟨b :: p, ⟨b, p, _, rfl, hf, hlen, by simp only [← hn, hv]⟩, rfl⟩
  cases data with
  | nil =>
      rw [mpackExpectStr] at hr
      simp +decide [mpackExpectTypeByte, mpackExpectNative, mpackReaderFlagError] at hr
  | cons b tail =>
      rw [mpackExpectStr, mpackExpectTypeByte_cons] at hr
      simp only at hr
      split_ifs at hr with hfix h8 h16 h32
      · simp only [Prod.mk.injEq, Reader.ok.injEq] at hr
        obtain ⟨rfl, rfl⟩ := hr
        have hf := format_fixstr (shiftRight_eq_five.mp hfix)
        exact ⟨[b], ⟨b, [], _, rfl, hf, rfl, rfl⟩, rfl⟩
      · exact wide b 1 tail (by rw [h8]; rfl) hr
      · exact wide b 2 tail (by rw [h16]; rfl) hr
      · exact wide b 4 tail (by rw [h32]; rfl) hr
      · simp [mpackReaderFlagError] at hr

/-! ## Checked reads -/

theorem mpackExpectUnsigned_spells {max v : UInt64} {t : Tag} {h : Bytes} (hs : Spells t h)
    (ht : t.norm = .uint v) (hmax : v ≤ max) (rest : Bytes) :
    mpackExpectUnsigned max (.ok (h ++ rest)) = (v, .ok rest) := by
  rw [mpackExpectUnsigned, mpackReadTag_spells hs]
  cases t <;> simp only [Tag.norm, reduceCtorEq] at ht
  case uint n => simp_all
  case int n =>
    split at ht
    · simp_all
    · cases ht

theorem mpackExpectUnsigned_sound {max v : UInt64} {data rest : Bytes}
    (hr : mpackExpectUnsigned max (.ok data) = (v, .ok rest)) :
    ∃ t h, Spells t h ∧ t.norm = .uint v ∧ v ≤ max ∧ data = h ++ rest := by
  obtain ⟨t, h, rest', hs, rfl⟩ | ⟨e, he, -⟩ := mpackReadTag_cases data
  · rw [mpackExpectUnsigned, mpackReadTag_spells hs] at hr
    cases t <;> simp only [mpackReaderFlagError_ok, Prod.mk.injEq, reduceCtorEq, and_false] at hr
    case uint n =>
      split at hr
      · rename_i hle
        simp only [Prod.mk.injEq, Reader.ok.injEq] at hr
        obtain ⟨rfl, rfl⟩ := hr
        exact ⟨_, h, hs, rfl, hle, rfl⟩
      · simp at hr
    case int n =>
      split at hr
      · rename_i hle
        simp only [Prod.mk.injEq, Reader.ok.injEq] at hr
        obtain ⟨rfl, rfl⟩ := hr
        exact ⟨_, h, hs, if_pos hle.1, hle.2, rfl⟩
      · simp at hr
  · simp [mpackExpectUnsigned, he] at hr

theorem mpackExpectU64_spells {t : Tag} {v : UInt64} {h : Bytes} (hs : Spells t h)
    (ht : t.norm = .uint v) (rest : Bytes) :
    mpackExpectU64 (.ok (h ++ rest)) = (v, .ok rest) := by
  have hmax : v ≤ 0xffffffffffffffff := UInt64.le_iff_toNat_le.mpr (Nat.le_of_lt_succ v.toNat_lt)
  exact mpackExpectUnsigned_spells hs ht hmax rest

theorem mpackExpectI64_spells {v : Int64} {h : Bytes} (hs : Spells (.int v) h) (rest : Bytes) :
    mpackExpectI64 (.ok (h ++ rest)) = (v, .ok rest) := by
  simp [mpackExpectI64, mpackReadTag_spells hs]

theorem mpackExpectFloatStrict_spells {bits : UInt32} {h : Bytes} (hs : Spells (.float bits) h)
    (rest : Bytes) : mpackExpectFloatStrict (.ok (h ++ rest)) = (bits, .ok rest) := by
  simp [mpackExpectFloatStrict, mpackReadTag_spells hs]

theorem mpackExpectDoubleStrict_spells {bits : UInt64} {h : Bytes}
    (hs : Spells (.double bits) h) (rest : Bytes) :
    mpackExpectDoubleStrict (.ok (h ++ rest)) = (bits, .ok rest) := by
  simp [mpackExpectDoubleStrict, mpackReadTag_spells hs]

theorem mpackExpectUintMatch_spells {v : UInt64} {t : Tag} {h : Bytes} (hs : Spells t h)
    (ht : t.norm = .uint v) (rest : Bytes) :
    mpackExpectUintMatch (.ok (h ++ rest)) v = .ok rest := by
  simp [mpackExpectUintMatch, mpackExpectU64_spells hs ht]

theorem mpackExpectUintMatch_sound {v : UInt64} {data rest : Bytes}
    (hr : mpackExpectUintMatch (.ok data) v = .ok rest) :
    ∃ t h, Spells t h ∧ t.norm = .uint v ∧ data = h ++ rest := by
  rw [mpackExpectUintMatch] at hr
  cases hu : mpackExpectU64 (.ok data) with
  | mk u r =>
      simp only [hu] at hr
      split at hr
      · cases r <;> simp at hr
      · rename_i hne
        obtain rfl : u = v := not_not.mp hne
        subst hr
        obtain ⟨t, h, hs, ht, -, rfl⟩ := mpackExpectUnsigned_sound hu
        exact ⟨t, h, hs, ht, rfl⟩

theorem mpackExpectArray_spells {n : UInt32} {h : Bytes} (hs : Spells (.array n) h)
    (rest : Bytes) : mpackExpectArray (.ok (h ++ rest)) = (n, .ok rest) := by
  simp [mpackExpectArray, mpackReadTag_spells hs]

theorem mpackExpectArray_sound {n : UInt32} {data rest : Bytes}
    (hr : mpackExpectArray (.ok data) = (n, .ok rest)) :
    ∃ h, Spells (.array n) h ∧ data = h ++ rest := by
  obtain ⟨t, h, rest', hs, rfl⟩ | ⟨e, he, -⟩ := mpackReadTag_cases data
  · rw [mpackExpectArray, mpackReadTag_spells hs] at hr
    cases t <;> simp only [mpackReaderFlagError_ok, Prod.mk.injEq, Reader.ok.injEq, reduceCtorEq,
      and_false] at hr
    obtain ⟨rfl, rfl⟩ := hr
    exact ⟨h, hs, rfl⟩
  · simp [mpackExpectArray, he] at hr

theorem mpackExpectArrayMax_spells {n max : UInt32} {h : Bytes} (hs : Spells (.array n) h)
    (hmax : n ≤ max) (rest : Bytes) :
    mpackExpectArrayMax (.ok (h ++ rest)) max = (n, .ok rest) := by
  have hn : ¬max < n := UInt32.not_lt.mpr hmax
  simp [mpackExpectArrayMax, mpackExpectArrayRange, mpackExpectArray_spells hs, hn]

theorem mpackExpectArrayMax_sound {n max : UInt32} {data rest : Bytes}
    (hr : mpackExpectArrayMax (.ok data) max = (n, .ok rest)) :
    ∃ h, Spells (.array n) h ∧ n ≤ max ∧ data = h ++ rest := by
  rw [mpackExpectArrayMax, mpackExpectArrayRange] at hr
  split at hr
  · simp at hr
  · rename_i val r _ heq
    split at hr
    · cases r <;> simp at hr
    · rename_i hrange
      simp only [Prod.mk.injEq] at hr
      obtain ⟨rfl, rfl⟩ := hr
      obtain ⟨h, hs, rfl⟩ := mpackExpectArray_sound heq
      exact ⟨h, hs, UInt32.not_lt.mp fun hlt => hrange (.inr hlt), rfl⟩

theorem mpackExpectBin_spells {n : UInt32} {h : Bytes} (hs : Spells (.bin n) h)
    (rest : Bytes) : mpackExpectBin (.ok (h ++ rest)) = (n, .ok rest) := by
  simp [mpackExpectBin, mpackReadTag_spells hs]

theorem mpackExpectCstrAlloc_spells {maxsize : UInt32} {s h : Bytes}
    (hs : Spells (.str (.ofNat s.length)) h) (hlen : s.length ≤ (maxsize - 1).toNat)
    (hnul : 0 ∉ s) (rest : Bytes) :
    mpackExpectCstrAlloc (.ok (h ++ s ++ rest)) maxsize = (some s, .ok rest) := by
  have hlt := (maxsize - 1).toNat_lt
  have hto : (UInt32.ofNat s.length).toNat = s.length := by simp; omega
  have hmax : ¬maxsize - 1 < UInt32.ofNat s.length := by
    rw [UInt32.lt_iff_toNat_lt, hto]
    omega
  rw [mpackExpectCstrAlloc, mpackExpectStrMax, List.append_assoc, mpackExpectStr_spells hs]
  simp only [hmax, if_false, hto, mpackReadBytesAllocImpl, mpackReadBytes_append, hnul]

theorem mpackExpectStrMax_sound {n max : UInt32} {data rest : Bytes}
    (hr : mpackExpectStrMax (.ok data) max = (n, .ok rest)) :
    ∃ h, Spells (.str n) h ∧ n ≤ max ∧ data = h ++ rest := by
  rw [mpackExpectStrMax] at hr
  cases he : mpackExpectStr (.ok data) with
  | mk length r =>
      simp only [he] at hr
      split at hr
      · cases r <;> simp at hr
      · rename_i hge
        obtain ⟨rfl, rfl⟩ := Prod.mk.inj hr
        obtain ⟨h, hs, rfl⟩ := mpackExpectStr_sound he
        exact ⟨h, hs, UInt32.not_lt.mp hge, rfl⟩

theorem mpackReadBytesAllocImpl_sound {r : Reader} {n : Nat} {s rest : Bytes}
    (hr : mpackReadBytesAllocImpl r n = (some s, .ok rest)) :
    s.length = n ∧ r = .ok (s ++ rest) := by
  cases r with
  | failed e => simp [mpackReadBytesAllocImpl] at hr
  | ok data =>
      rw [mpackReadBytesAllocImpl] at hr
      split at hr
      · simp at hr
      · rename_i bytes data' heq
        simp only [Prod.mk.injEq, Option.some.injEq, Reader.ok.injEq] at hr
        obtain ⟨rfl, rfl⟩ := hr
        obtain ⟨hlen, rfl⟩ := mpackReadBytes_sound heq
        exact ⟨hlen, rfl⟩

theorem mpackExpectCstrAlloc_sound {maxsize : UInt32} {data rest s : Bytes}
    (hr : mpackExpectCstrAlloc (.ok data) maxsize = (some s, .ok rest)) :
    ∃ h, Spells (.str (.ofNat s.length)) h ∧ s.length ≤ (maxsize - 1).toNat ∧ 0 ∉ s ∧
      data = h ++ s ++ rest := by
  rw [mpackExpectCstrAlloc] at hr
  cases hm : mpackExpectStrMax (.ok data) (maxsize - 1) with
  | mk length r =>
      simp only [hm] at hr
      split at hr
      · simp at hr
      · rename_i str r' halloc
        split at hr
        · simp at hr
        · rename_i hnul
          simp only [Prod.mk.injEq, Option.some.injEq] at hr
          obtain ⟨rfl, rfl⟩ := hr
          obtain ⟨hlen, rfl⟩ := mpackReadBytesAllocImpl_sound halloc
          obtain ⟨h, hs, hmax, rfl⟩ := mpackExpectStrMax_sound hm
          refine ⟨h, ?_, ?_, hnul, ?_⟩
          · rwa [hlen, UInt32.ofNat_toNat]
          · rw [hlen]
            exact UInt32.le_iff_toNat_le.mp hmax
          · rw [List.append_assoc]

/-! ## What is left ahead -/

theorem mpackExpectUnsigned_follows (max : UInt64) (r : Reader) :
    r.Follows (mpackExpectUnsigned max r).2 := by
  have hfollows := (mpackReadTag_follows r).1
  rw [mpackExpectUnsigned]
  generalize mpackReadTag r = out at hfollows ⊢
  split
  · split_ifs
    · exact hfollows
    · exact mpackReaderFlagError_follows r _ _
  · split_ifs
    · exact hfollows
    · exact mpackReaderFlagError_follows r _ _
  · exact mpackReaderFlagError_follows r _ _

theorem mpackExpectArray_follows (r : Reader) : r.Follows (mpackExpectArray r).2 := by
  have hfollows := (mpackReadTag_follows r).1
  rw [mpackExpectArray]
  generalize mpackReadTag r = out at hfollows ⊢
  split
  · exact hfollows
  · exact mpackReaderFlagError_follows r _ _

end Haze
