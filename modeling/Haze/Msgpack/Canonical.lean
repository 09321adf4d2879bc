import Haze.Msgpack.Value

/-
  Canonical encodings.

  `header t` is the shortest header of a tag; a non-negative signed integer takes the
  header of the unsigned integer of the same value, so what it spells is `t.norm`
  (`spells_header`). `encode v` puts these headers on a whole value. Where every count
  fits a header it encodes `v.norm` (`encodesAll_encodeAll`), and no encoding of `v` is
  shorter (`encodeAll_length_le`).
-/

namespace Msgpack

/-! ## Headers -/

def headerUint (n : UInt64) : Bytes :=
  if n ≤ 0x7f then [n.toUInt8]
  else if n ≤ 0xff then 0xcc :: beBytes 1 n.toNat
  else if n ≤ 0xffff then 0xcd :: beBytes 2 n.toNat
  else if n ≤ 0xffffffff then 0xce :: beBytes 4 n.toNat
  else 0xcf :: beBytes 8 n.toNat

/-- The header of a negative integer. -/
def headerNegInt (n : Int64) : Bytes :=
  if -32 ≤ n then [n.toInt8.toUInt8]
  else if -128 ≤ n then 0xd0 :: beBytesInt 1 n.toInt
  else if -32768 ≤ n then 0xd1 :: beBytesInt 2 n.toInt
  else if -2147483648 ≤ n then 0xd2 :: beBytesInt 4 n.toInt
  else 0xd3 :: beBytesInt 8 n.toInt

def headerStr (n : UInt32) : Bytes :=
  if n ≤ 31 then [0xa0 ||| n.toUInt8]
  else if n ≤ 0xff then 0xd9 :: beBytes 1 n.toNat
  else if n ≤ 0xffff then 0xda :: beBytes 2 n.toNat
  else 0xdb :: beBytes 4 n.toNat

def headerBin (n : UInt32) : Bytes :=
  if n ≤ 0xff then 0xc4 :: beBytes 1 n.toNat
  else if n ≤ 0xffff then 0xc5 :: beBytes 2 n.toNat
  else 0xc6 :: beBytes 4 n.toNat

def headerArray (n : UInt32) : Bytes :=
  if n ≤ 15 then [0x90 ||| n.toUInt8]
  else if n ≤ 0xffff then 0xdc :: beBytes 2 n.toNat
  else 0xdd :: beBytes 4 n.toNat

def headerMap (n : UInt32) : Bytes :=
  if n ≤ 15 then [0x80 ||| n.toUInt8]
  else if n ≤ 0xffff then 0xde :: beBytes 2 n.toNat
  else 0xdf :: beBytes 4 n.toNat

/-- The shortest header of a tag. -/
def header : Tag → Bytes
  | .nil => [0xc0]
  | .bool b => [if b then 0xc3 else 0xc2]
  | .uint n => headerUint n
  | .int n => if 0 ≤ n then headerUint n.toUInt64 else headerNegInt n
  | .float bits => 0xca :: beBytes 4 bits.toNat
  | .double bits => 0xcb :: beBytes 8 bits.toNat
  | .str n => headerStr n
  | .bin n => headerBin n
  | .array n => headerArray n
  | .map n => headerMap n

/-! ## What the headers spell -/

private theorem spells_single {b : UInt8} {t : Tag} (hf : format b = some (.single t)) :
    Spells t [b] := ⟨b, [], _, rfl, hf, rfl, rfl⟩

private theorem spells_wide {c : UInt8} {k n : Nat} {tag : Bytes → Tag} {t : Tag}
    (hf : format c = some ⟨k, tag⟩) (ht : tag (beBytes k n) = t) :
    Spells t (c :: beBytes k n) :=
  ⟨c, _, _, rfl, hf, length_beBytes k n, ht⟩

private theorem spells_wideInt {c : UInt8} {k : Nat} {n : Int64}
    (hf : format c = some ⟨k, fun p => .int (.ofInt (beInt p))⟩)
    (hlo : -((256 ^ k : Nat) / 2 : Int) ≤ n.toInt)
    (hhi : n.toInt < ((256 ^ k : Nat) + 1 : Int) / 2) :
    Spells (.int n) (c :: beBytesInt k n.toInt) :=
  ⟨c, _, _, rfl, hf, length_beBytesInt k n.toInt, by
    simp only [beInt_beBytesInt hlo hhi, Int64.ofInt_toInt]⟩

private theorem ofNat_beNat_beBytes {k : Nat} {n : UInt32} (h : n.toNat < 256 ^ k) :
    UInt32.ofNat (beNat (beBytes k n.toNat)) = n := by
  rw [beNat_beBytes_of_lt h, UInt32.ofNat_toNat]

private theorem fixuint_byte {n : UInt64} (h : n ≤ 0x7f) :
    n.toUInt8 ≤ 0x7f ∧ n.toUInt8.toUInt64 = n := by
  have key : ∀ k < 128, (UInt64.ofNat k).toUInt8 ≤ 0x7f ∧
      (UInt64.ofNat k).toUInt8.toUInt64 = UInt64.ofNat k := by decide
  have := key n.toNat (Nat.lt_succ_of_le (UInt64.le_iff_toNat_le.mp h))
  rwa [UInt64.ofNat_toNat] at this

private theorem fixint_byte {n : Int64} (hlo : -32 ≤ n) (hneg : ¬0 ≤ n) :
    0xe0 ≤ n.toInt8.toUInt8 ∧ n.toInt8.toUInt8.toInt8.toInt64 = n := by
  have key : ∀ k : Nat, k < 32 → 0xe0 ≤ (Int64.ofInt (k - 32)).toInt8.toUInt8 ∧
      (Int64.ofInt (k - 32)).toInt8.toUInt8.toInt8.toInt64 = Int64.ofInt (k - 32) := by decide
  have h32 : (-32 : Int64).toInt = -32 := by decide
  have h0 : (0 : Int64).toInt = 0 := by decide
  rw [Int64.le_iff_toInt_le] at hlo hneg
  obtain ⟨k, hk⟩ : ∃ k : Nat, n.toInt = k - 32 := ⟨(n.toInt + 32).toNat, by omega⟩
  have := key k (by omega)
  rwa [← hk, Int64.ofInt_toInt] at this

private theorem fixstr_byte {n : UInt32} (h : n ≤ 31) :
    (0xa0 ≤ 0xa0 ||| n.toUInt8 ∧ 0xa0 ||| n.toUInt8 ≤ 0xbf) ∧
      ((0xa0 ||| n.toUInt8) &&& 0x1f).toUInt32 = n := by
  have key : ∀ k < 32, (0xa0 ≤ 0xa0 ||| (UInt32.ofNat k).toUInt8 ∧
      0xa0 ||| (UInt32.ofNat k).toUInt8 ≤ 0xbf) ∧
      ((0xa0 ||| (UInt32.ofNat k).toUInt8) &&& 0x1f).toUInt32 = UInt32.ofNat k := by decide
  have := key n.toNat (Nat.lt_succ_of_le (UInt32.le_iff_toNat_le.mp h))
  rwa [UInt32.ofNat_toNat] at this

private theorem fixcount_byte {n : UInt32} (h : n ≤ 15) :
    ((0x90 ≤ 0x90 ||| n.toUInt8 ∧ 0x90 ||| n.toUInt8 ≤ 0x9f) ∧
      ((0x90 ||| n.toUInt8) &&& 0x0f).toUInt32 = n) ∧
    (0x80 ≤ 0x80 ||| n.toUInt8 ∧ 0x80 ||| n.toUInt8 ≤ 0x8f) ∧
      ((0x80 ||| n.toUInt8) &&& 0x0f).toUInt32 = n := by
  have key : ∀ k < 16, ((0x90 ≤ 0x90 ||| (UInt32.ofNat k).toUInt8 ∧
      0x90 ||| (UInt32.ofNat k).toUInt8 ≤ 0x9f) ∧
      ((0x90 ||| (UInt32.ofNat k).toUInt8) &&& 0x0f).toUInt32 = UInt32.ofNat k) ∧
      (0x80 ≤ 0x80 ||| (UInt32.ofNat k).toUInt8 ∧ 0x80 ||| (UInt32.ofNat k).toUInt8 ≤ 0x8f) ∧
      ((0x80 ||| (UInt32.ofNat k).toUInt8) &&& 0x0f).toUInt32 = UInt32.ofNat k := by decide
  have := key n.toNat (Nat.lt_succ_of_le (UInt32.le_iff_toNat_le.mp h))
  rwa [UInt32.ofNat_toNat] at this

private theorem spells_headerUint (n : UInt64) : Spells (.uint n) (headerUint n) := by
  have back : ∀ k, n.toNat < 256 ^ k → Tag.uint (.ofNat (beNat (beBytes k n.toNat))) = .uint n :=
    fun k hk => by rw [beNat_beBytes_of_lt hk, UInt64.ofNat_toNat]
  unfold headerUint
  split_ifs with h1 h2 h3 h4
  · obtain ⟨hb, hv⟩ := fixuint_byte h1
    exact spells_single (by rw [format_fixuint hb, hv])
  · exact spells_wide rfl (back 1 (Nat.lt_succ_of_le (UInt64.le_iff_toNat_le.mp h2)))
  · exact spells_wide rfl (back 2 (Nat.lt_succ_of_le (UInt64.le_iff_toNat_le.mp h3)))
  · exact spells_wide rfl (back 4 (Nat.lt_succ_of_le (UInt64.le_iff_toNat_le.mp h4)))
  · exact spells_wide rfl (back 8 n.toNat_lt)

private theorem spells_headerNegInt {n : Int64} (hneg : ¬0 ≤ n) :
    Spells (.int n) (headerNegInt n) := by
  have hlo := Int64.le_toInt n
  have h0 : n.toInt < 0 := by
    simpa using mt Int64.le_iff_toInt_le.mpr hneg
  unfold headerNegInt
  split_ifs with h1 h2 h3 h4
  · obtain ⟨hb, hv⟩ := fixint_byte h1 hneg
    exact spells_single (by rw [format_fixint hb, hv])
  · have := Int64.le_iff_toInt_le.mp h2
    exact spells_wideInt rfl (by simpa using this) (by omega)
  · have := Int64.le_iff_toInt_le.mp h3
    exact spells_wideInt rfl (by simpa using this) (by omega)
  · have := Int64.le_iff_toInt_le.mp h4
    exact spells_wideInt rfl (by simpa using this) (by omega)
  · exact spells_wideInt rfl (by simpa using hlo) (by omega)

private theorem spells_headerStr (n : UInt32) : Spells (.str n) (headerStr n) := by
  unfold headerStr
  split_ifs with h1 h2 h3
  · obtain ⟨hb, hv⟩ := fixstr_byte h1
    exact spells_single (by rw [format_fixstr hb, hv])
  · exact spells_wide rfl (congrArg _ (ofNat_beNat_beBytes (k := 1)
      (Nat.lt_succ_of_le (UInt32.le_iff_toNat_le.mp h2))))
  · exact spells_wide rfl (congrArg _ (ofNat_beNat_beBytes (k := 2)
      (Nat.lt_succ_of_le (UInt32.le_iff_toNat_le.mp h3))))
  · exact spells_wide rfl (congrArg _ (ofNat_beNat_beBytes (k := 4) n.toNat_lt))

private theorem spells_headerBin (n : UInt32) : Spells (.bin n) (headerBin n) := by
  unfold headerBin
  split_ifs with h1 h2
  · exact spells_wide rfl (congrArg _ (ofNat_beNat_beBytes (k := 1)
      (Nat.lt_succ_of_le (UInt32.le_iff_toNat_le.mp h1))))
  · exact spells_wide rfl (congrArg _ (ofNat_beNat_beBytes (k := 2)
      (Nat.lt_succ_of_le (UInt32.le_iff_toNat_le.mp h2))))
  · exact spells_wide rfl (congrArg _ (ofNat_beNat_beBytes (k := 4) n.toNat_lt))

private theorem spells_headerArray (n : UInt32) : Spells (.array n) (headerArray n) := by
  unfold headerArray
  split_ifs with h1 h2
  · obtain ⟨⟨hb, hv⟩, -⟩ := fixcount_byte h1
    exact spells_single (by rw [format_fixarray hb, hv])
  · exact spells_wide rfl (congrArg _ (ofNat_beNat_beBytes (k := 2)
      (Nat.lt_succ_of_le (UInt32.le_iff_toNat_le.mp h2))))
  · exact spells_wide rfl (congrArg _ (ofNat_beNat_beBytes (k := 4) n.toNat_lt))

private theorem spells_headerMap (n : UInt32) : Spells (.map n) (headerMap n) := by
  unfold headerMap
  split_ifs with h1 h2
  · obtain ⟨-, hb, hv⟩ := fixcount_byte h1
    exact spells_single (by rw [format_fixmap hb, hv])
  · exact spells_wide rfl (congrArg _ (ofNat_beNat_beBytes (k := 2)
      (Nat.lt_succ_of_le (UInt32.le_iff_toNat_le.mp h2))))
  · exact spells_wide rfl (congrArg _ (ofNat_beNat_beBytes (k := 4) n.toNat_lt))

theorem spells_header (t : Tag) : Spells t.norm (header t) := by
  cases t with
  | nil => exact spells_single rfl
  | bool b => cases b <;> exact spells_single rfl
  | uint n => exact spells_headerUint n
  | int n =>
      simp only [Tag.norm, header]
      split_ifs with h
      · exact spells_headerUint _
      · exact spells_headerNegInt h
  | float bits => exact spells_wide rfl (congrArg _ (ofNat_beNat_beBytes (k := 4) bits.toNat_lt))
  | double bits =>
      refine spells_wide rfl (congrArg Tag.double ?_)
      rw [beNat_beBytes_of_lt bits.toNat_lt, UInt64.ofNat_toNat]
  | str n => exact spells_headerStr n
  | bin n => exact spells_headerBin n
  | array n => exact spells_headerArray n
  | map n => exact spells_headerMap n

/-! ## Their lengths -/

theorem header_norm (t : Tag) : header t.norm = header t := by
  cases t with
  | int n =>
      rw [Tag.norm]
      split_ifs with hn
      · simp [header, hn]
      · rfl
  | _ => rfl

private theorem length_headerUint (n : UInt64) :
    (headerUint n).length = if n.toNat ≤ 0x7f then 1 else if n.toNat ≤ 0xff then 2
      else if n.toNat ≤ 0xffff then 3 else if n.toNat ≤ 0xffffffff then 5 else 9 := by
  simp only [headerUint, UInt64.le_iff_toNat_le, UInt64.toNat_ofNat]
  split_ifs <;> simp_all

private theorem length_headerNegInt (n : Int64) :
    (headerNegInt n).length = if -32 ≤ n.toInt then 1 else if -128 ≤ n.toInt then 2
      else if -32768 ≤ n.toInt then 3 else if -2147483648 ≤ n.toInt then 5 else 9 := by
  have h1 : (-32 : Int64).toInt = -32 := by decide
  have h2 : (-128 : Int64).toInt = -128 := by decide
  have h3 : (-32768 : Int64).toInt = -32768 := by decide
  have h4 : (-2147483648 : Int64).toInt = -2147483648 := by decide
  simp only [headerNegInt, Int64.le_iff_toInt_le, h1, h2, h3, h4]
  split_ifs <;> simp_all

private theorem length_headerStr (n : UInt32) :
    (headerStr n).length = if n.toNat ≤ 31 then 1 else if n.toNat ≤ 0xff then 2
      else if n.toNat ≤ 0xffff then 3 else 5 := by
  simp only [headerStr, UInt32.le_iff_toNat_le, UInt32.toNat_ofNat]
  split_ifs <;> simp_all

private theorem length_headerBin (n : UInt32) :
    (headerBin n).length = if n.toNat ≤ 0xff then 2 else if n.toNat ≤ 0xffff then 3 else 5 := by
  simp only [headerBin, UInt32.le_iff_toNat_le, UInt32.toNat_ofNat]
  split_ifs <;> simp_all

private theorem length_headerArray (n : UInt32) :
    (headerArray n).length = if n.toNat ≤ 15 then 1 else if n.toNat ≤ 0xffff then 3 else 5 := by
  simp only [headerArray, UInt32.le_iff_toNat_le, UInt32.toNat_ofNat]
  split_ifs <;> simp_all

private theorem length_headerMap (n : UInt32) :
    (headerMap n).length = if n.toNat ≤ 15 then 1 else if n.toNat ≤ 0xffff then 3 else 5 := by
  simp only [headerMap, UInt32.le_iff_toNat_le, UInt32.toNat_ofNat]
  split_ifs <;> simp_all

/-- A wide header has its format's length, which bounds what its bytes count. -/
private theorem wide_bounds {formats : List (UInt8 × Nat)} {P : Bytes → Prop} {h : Bytes}
    (hw : Wide formats P h) :
    ∃ c ∈ formats, ∃ body, h.length = c.2 + 1 ∧ body.length = c.2 ∧
      beNat body < 256 ^ c.2 ∧ P body := by
  obtain ⟨c, hc, body, rfl, hlen, hP⟩ := hw
  exact ⟨c, hc, body, by simp [hlen], hlen, hlen ▸ beNat_lt body, hP⟩

private theorem fixint_toInt {b : UInt8} (hb : 0xe0 ≤ b) :
    -32 ≤ b.toInt8.toInt64.toInt ∧ b.toInt8.toInt64.toInt < 0 := by
  have hlo := UInt8.le_iff_toNat_le.mp hb
  have hhi := b.toNat_lt
  have h224 : (0xe0 : UInt8).toNat = 0xe0 := rfl
  have hval : b.toInt8.toInt = (b.toNat : Int).bmod 256 := by
    conv_lhs => rw [← UInt8.ofNat_toNat (x := b)]
    rw [UInt8.toInt8_ofNat', Int8.toInt_ofNat']
  rw [Int8.toInt_toInt64, hval, Int.bmod_def]
  omega

private theorem uint_length_le {n : UInt64} {h : Bytes} (hshape : Shape h (.uint n)) :
    (header (.uint n)).length ≤ h.length := by
  rw [header, length_headerUint]
  obtain ⟨b, hb, rfl, rfl⟩ | hw := hshape
  · have := UInt8.le_iff_toNat_le.mp hb
    simp_all
  · obtain ⟨c, hc, body, hlen, -, hlt, rfl⟩ := wide_bounds hw
    simp only [List.mem_cons, List.not_mem_nil, or_false] at hc
    rw [hlen, UInt64.toNat_ofNat']
    obtain rfl | rfl | rfl | rfl := hc <;> simp only at hlt ⊢ <;> split_ifs <;> omega

private theorem int_length_le {n : Int64} {h : Bytes} (hshape : Shape h (.int n)) :
    (header (.int n)).length ≤ h.length := by
  have hlen : (header (.int n)).length =
      if 0 ≤ n.toInt then (headerUint n.toUInt64).length else (headerNegInt n).length := by
    simp only [header, Int64.le_iff_toInt_le, show (0 : Int64).toInt = 0 from rfl]
    split_ifs <;> rfl
  have hnat : 0 ≤ n.toInt → n.toUInt64.toNat = n.toInt.toNat := fun h0 =>
    Int64.toNat_toUInt64_of_le (Int64.le_iff_toInt_le.mpr h0)
  rw [hlen, length_headerUint, length_headerNegInt]
  obtain ⟨b, hb, rfl, rfl⟩ | ⟨c, hc, body, rfl, hbody, rfl⟩ := hshape
  · have hbounds := fixint_toInt hb
    rw [List.length_singleton]
    split_ifs <;> omega
  · simp only [List.mem_cons, List.not_mem_nil, or_false] at hc
    have hne : body ≠ [] := by
      rintro rfl
      obtain rfl | rfl | rfl | rfl := hc <;> cases hbody
    obtain ⟨hlo, hhi⟩ := beInt_bounds hne
    rw [hbody] at hlo hhi
    rw [List.length_cons, hbody]
    have hval : (Int64.ofInt (beInt body)).toInt = beInt body := by
      obtain rfl | rfl | rfl | rfl := hc <;> simp only at hlo hhi <;>
        exact Int64.toInt_ofInt_of_le (by omega) (by omega)
    rw [hval] at hnat ⊢
    obtain rfl | rfl | rfl | rfl := hc <;> simp only at hlo hhi ⊢ <;> split_ifs <;> omega

private theorem str_length_le {n : UInt32} {h : Bytes} (hshape : Shape h (.str n)) :
    (header (.str n)).length ≤ h.length := by
  rw [header, length_headerStr]
  obtain ⟨b, -, rfl, rfl⟩ | hw := hshape
  · have hle : ((b &&& 0x1f).toUInt32).toNat ≤ 31 := by
      simpa using Nat.and_le_right (n := b.toNat) (m := 31)
    rw [if_pos hle, List.length_singleton]
  · obtain ⟨c, hc, body, hlen, -, hlt, rfl⟩ := wide_bounds hw
    simp only [List.mem_cons, List.not_mem_nil, or_false] at hc
    rw [hlen, UInt32.toNat_ofNat']
    obtain rfl | rfl | rfl := hc <;> simp only at hlt ⊢ <;> split_ifs <;> omega

private theorem bin_length_le {n : UInt32} {h : Bytes} (hshape : Shape h (.bin n)) :
    (header (.bin n)).length ≤ h.length := by
  rw [header, length_headerBin]
  obtain ⟨c, hc, body, hlen, -, hlt, rfl⟩ := wide_bounds hshape
  simp only [List.mem_cons, List.not_mem_nil, or_false] at hc
  rw [hlen, UInt32.toNat_ofNat']
  obtain rfl | rfl | rfl := hc <;> simp only at hlt ⊢ <;> split_ifs <;> omega

/-- Arrays and maps have one layout, behind different bytes. -/
private theorem container_length_le {f g : UInt8} {n : UInt32} {P : UInt8 → Prop} {h : Bytes}
    (hshape : (∃ b : UInt8, P b ∧ h = [b] ∧ n = (b &&& 0x0f).toUInt32) ∨
      Wide [(f, 2), (g, 4)] (fun p => n = .ofNat (beNat p)) h) :
    (if n.toNat ≤ 15 then 1 else if n.toNat ≤ 0xffff then 3 else 5) ≤ h.length := by
  obtain ⟨b, -, rfl, rfl⟩ | hw := hshape
  · have hle : ((b &&& 0x0f).toUInt32).toNat ≤ 15 := by
      simpa using Nat.and_le_right (n := b.toNat) (m := 15)
    rw [if_pos hle, List.length_singleton]
  · obtain ⟨c, hc, body, hlen, -, hlt, rfl⟩ := wide_bounds hw
    simp only [List.mem_cons, List.not_mem_nil, or_false] at hc
    rw [hlen, UInt32.toNat_ofNat']
    obtain rfl | rfl := hc <;> simp only at hlt ⊢ <;> split_ifs <;> omega

/-- No header of a tag is shorter than the canonical one. -/
theorem header_length_le {t : Tag} {h : Bytes} (hs : Spells t h) :
    (header t).length ≤ h.length := by
  have hpos := spells_length_pos hs
  have hshape := shape_of_spells hs
  cases t with
  | nil => exact hpos
  | bool b => exact hpos
  | uint n => exact uint_length_le hshape
  | int n => exact int_length_le hshape
  | float bits =>
      obtain ⟨c, hc, body, hlen, -⟩ := wide_bounds hshape
      obtain rfl := List.mem_singleton.mp hc
      simp [header, hlen]
  | double bits =>
      obtain ⟨c, hc, body, hlen, -⟩ := wide_bounds hshape
      obtain rfl := List.mem_singleton.mp hc
      simp [header, hlen]
  | str n => exact str_length_le hshape
  | bin n => exact bin_length_le hshape
  | array n =>
      rw [header, length_headerArray]
      exact container_length_le hshape
  | map n =>
      rw [header, length_headerMap]
      exact container_length_le hshape

/-! ## Values -/

namespace Value

mutual

/-- The same value with every non-negative integer taken as unsigned. -/
def norm : Value → Value
  | .int n => if 0 ≤ n then .uint n.toUInt64 else .int n
  | .array vs => .array (normAll vs)
  | .map kvs => .map (normPairs kvs)
  | v => v

def normAll : List Value → List Value
  | [] => []
  | v :: vs => v.norm :: normAll vs

def normPairs : List (Value × Value) → List (Value × Value)
  | [] => []
  | (k, v) :: kvs => (k.norm, v.norm) :: normPairs kvs

end

theorem normAll_eq_map (vs : List Value) : normAll vs = vs.map norm := by
  induction vs with
  | nil => rfl
  | cons v vs ih => rw [normAll, ih, List.map_cons]

theorem normPairs_eq_map (kvs : List (Value × Value)) :
    normPairs kvs = kvs.map fun kv => (kv.1.norm, kv.2.norm) := by
  induction kvs with
  | nil => rfl
  | cons kv kvs ih => rw [normPairs, ih, List.map_cons]

@[simp] theorem tag_norm (v : Value) : v.norm.tag = v.tag.norm := by
  cases v <;> simp [norm, tag, Tag.norm, normAll_eq_map, normPairs_eq_map]
  split_ifs <;> rfl

@[simp] theorem payload_norm (v : Value) : v.norm.payload = v.payload := by
  cases v <;> simp [norm, payload]
  split_ifs <;> rfl

@[simp] theorem count_norm (v : Value) : v.norm.count = v.count := by
  cases v <;> simp [norm, count, normAll_eq_map, normPairs_eq_map]
  split_ifs <;> rfl

@[simp] theorem children_norm (v : Value) : v.norm.children = v.children.map norm := by
  cases v <;> simp [norm, children, normAll_eq_map, normPairs_eq_map, List.flatMap_map,
    List.map_flatMap]
  split_ifs <;> rfl

theorem scalar_norm (v : Value) : v.norm.scalar = v.scalar := by
  cases v with
  | int n =>
      rw [norm]
      split_ifs <;> rfl
  | _ => rfl

theorem norm_eq_array {v : Value} {vs : List Value} (h : v.norm = .array vs) :
    ∃ ws, v = .array ws ∧ ws.map norm = vs := by
  cases v with
  | array ws =>
      rw [norm, normAll_eq_map] at h
      exact ⟨ws, rfl, Value.array.inj h⟩
  | int n =>
      rw [norm] at h
      split_ifs at h
  | _ => cases h

theorem norm_eq_str {v : Value} {s : Bytes} (h : v.norm = .str s) : v = .str s := by
  cases v with
  | str => exact h
  | int n =>
      rw [norm] at h
      split_ifs at h
  | _ => cases h

/-- `p` holds of the value and of everything inside it. -/
inductive Everywhere (p : Value → Prop) : Value → Prop where
  | intro {v : Value} : p v → (∀ w ∈ v.children, Everywhere p w) → Everywhere p v

theorem everywhere_iff {p : Value → Prop} {v : Value} :
    v.Everywhere p ↔ p v ∧ ∀ w ∈ v.children, w.Everywhere p :=
  ⟨fun ⟨hv, hw⟩ => ⟨hv, hw⟩, fun ⟨hv, hw⟩ => .intro hv hw⟩

theorem Everywhere.leaf {p : Value → Prop} {v : Value} (hp : p v) (hleaf : v.children = []) :
    v.Everywhere p :=
  .intro hp (hleaf ▸ List.forall_mem_nil _)

theorem Everywhere.mono {p q : Value → Prop} (h : ∀ v, p v → q v) {v : Value}
    (hv : v.Everywhere p) : v.Everywhere q := by
  induction hv with
  | intro hp _ ih => exact .intro (h _ hp) ih

theorem Everywhere.and {p q : Value → Prop} {v : Value} (hp : v.Everywhere p)
    (hq : v.Everywhere q) : v.Everywhere fun w => p w ∧ q w := by
  induction hp with
  | intro hpv _ ih =>
      obtain ⟨hqv, hqw⟩ := hq
      exact .intro ⟨hpv, hqv⟩ fun w hw => ih w hw (hqw w hw)

theorem Everywhere.norm {p q : Value → Prop} (h : ∀ v, p v → q v.norm) {v : Value}
    (hv : v.Everywhere p) : v.norm.Everywhere q := by
  induction hv with
  | @intro v hp _ ih =>
      refine .intro (h v hp) ?_
      rw [children_norm, List.forall_mem_map]
      exact ih

@[simp] theorem norm_norm (v : Value) : v.norm.norm = v.norm := by
  induction v using childInduction with
  | step v ih =>
      cases v with
      | int n =>
          rw [norm]
          split_ifs with hn
          · rfl
          · rw [norm, if_neg hn]
      | array vs =>
          simp only [norm, normAll_eq_map, List.map_map]
          exact congrArg array (List.map_congr_left ih)
      | map kvs =>
          have hkvs : ∀ kv ∈ kvs, kv.1.norm.norm = kv.1.norm ∧ kv.2.norm.norm = kv.2.norm :=
            fun kv hkv => ⟨ih _ (List.mem_flatMap.mpr ⟨kv, hkv, by simp⟩),
              ih _ (List.mem_flatMap.mpr ⟨kv, hkv, by simp⟩)⟩
          simp only [norm, normPairs_eq_map, List.map_map]
          exact congrArg map (List.map_congr_left fun kv hkv =>
            Prod.ext (hkvs kv hkv).1 (hkvs kv hkv).2)
      | _ => rfl

/-- Every length and count fits a 32-bit header. -/
def Fits : Value → Prop := Everywhere fun v => v.count < 2 ^ 32

theorem fits_iff {v : Value} : v.Fits ↔ v.count < 2 ^ 32 ∧ ∀ w ∈ v.children, w.Fits :=
  everywhere_iff

@[simp] theorem fits_array {vs : List Value} :
    (array vs).Fits ↔ vs.length < 2 ^ 32 ∧ ∀ v ∈ vs, v.Fits := fits_iff

theorem fits_of_scalar {v : Value} (hv : v.scalar) (hcount : v.count < 2 ^ 32) : v.Fits :=
  fits_iff.mpr ⟨hcount, by simp [children_of_scalar hv]⟩

@[simp] theorem fits_uint (n : UInt64) : (uint n).Fits :=
  fits_of_scalar rfl (by simp [count])

end Value

theorem fits_of_encodesAll {vs : List Value} {bs : Bytes} (hbs : EncodesAll vs bs) :
    ∀ v ∈ vs, v.Fits := by
  induction hbs with
  | nil => exact nofun
  | cons _ hcount _ ih =>
      rw [List.forall_mem_append] at ih
      exact List.forall_mem_cons.mpr ⟨Value.fits_iff.mpr ⟨hcount, ih.1⟩, ih.2⟩

/-- An encoding of an unsigned integer is a header and nothing else. -/
theorem spells_of_norm_uint {v : Value} {n : UInt64} {bs : Bytes} (hv : v.norm = .uint n)
    (hbs : Encodes v bs) : v.tag.norm = .uint n ∧ Spells v.tag bs := by
  obtain ⟨h, body, hh, -, hbody, rfl⟩ := encodes_iff.mp hbs
  have htag : v.tag.norm = .uint n := by rw [← Value.tag_norm, hv, Value.tag]
  have hpayload : v.payload = [] := by
    rw [← Value.payload_norm, hv]
    rfl
  have hchildren : v.children = [] := by
    rw [← List.map_eq_nil_iff (f := Value.norm), ← Value.children_norm, hv]
    rfl
  rw [hchildren] at hbody
  obtain rfl := encodesAll_nil_iff.mp hbody
  rw [hpayload, List.append_nil, List.append_nil]
  exact ⟨htag, hh⟩

/-- Every header of an unsigned integer encodes a value of it. -/
theorem encodes_of_norm_uint {t : Tag} {n : UInt64} {h : Bytes} (ht : t.norm = .uint n)
    (hh : Spells t h) : ∃ v : Value, v.norm = .uint n ∧ Encodes v h := by
  have leaf : ∀ {v : Value}, v.scalar → v.payload = [] → v.count < 2 ^ 32 → v.tag = t →
      Encodes v h := by
    rintro v hv hpayload hcount rfl
    have henc := encodes_of_scalar hv hh hcount
    rwa [hpayload, List.append_nil] at henc
  cases t <;> simp only [Tag.norm, reduceCtorEq] at ht
  case uint m =>
    obtain rfl := Tag.uint.inj ht
    exact ⟨.uint m, rfl, leaf rfl rfl (by simp [Value.count]) rfl⟩
  case int m =>
    split at ht
    · rename_i hm
      obtain rfl := Tag.uint.inj ht
      exact ⟨.int m, if_pos hm, leaf rfl rfl (by simp [Value.count]) rfl⟩
    · cases ht

/-! ## Canonical encodings -/

mutual

/-- The encoding with the shortest header everywhere. -/
def encode : Value → Bytes
  | .array vs => header (.array (.ofNat vs.length)) ++ encodeAll vs
  | .map kvs => header (.map (.ofNat kvs.length)) ++ encodePairs kvs
  | v => header v.tag ++ v.payload

def encodeAll : List Value → Bytes
  | [] => []
  | v :: vs => encode v ++ encodeAll vs

def encodePairs : List (Value × Value) → Bytes
  | [] => []
  | (k, v) :: kvs => encode k ++ encode v ++ encodePairs kvs

end

@[simp] theorem encodeAll_nil : encodeAll [] = [] := rfl

@[simp] theorem encodeAll_cons (v : Value) (vs : List Value) :
    encodeAll (v :: vs) = encode v ++ encodeAll vs := by rw [encodeAll]

@[simp] theorem encodeAll_append (vs ws : List Value) :
    encodeAll (vs ++ ws) = encodeAll vs ++ encodeAll ws := by
  induction vs with
  | nil => rfl
  | cons v vs ih => simp [ih]

theorem encodePairs_eq (kvs : List (Value × Value)) :
    encodePairs kvs = encodeAll (Value.map kvs).children := by
  induction kvs with
  | nil => rfl
  | cons kv kvs ih => simp [encodePairs, ih, Value.children]

theorem encode_eq (v : Value) :
    encode v = header v.tag ++ v.payload ++ encodeAll v.children := by
  cases v <;> simp [encode, Value.tag, Value.payload, Value.children, encodePairs_eq]

/-- The canonical encoding does not tell a non-negative signed integer from an unsigned
one. -/
theorem encode_norm (v : Value) : encode v.norm = encode v := by
  induction v using Value.childInduction with
  | step v ih =>
      have hchildren : encodeAll (v.children.map Value.norm) = encodeAll v.children := by
        generalize v.children = vs at ih
        induction vs with
        | nil => rfl
        | cons w ws ihws =>
            obtain ⟨hw, hws⟩ := List.forall_mem_cons.mp ih
            rw [List.map_cons, encodeAll_cons, encodeAll_cons, hw, ihws hws]
      rw [encode_eq, encode_eq, Value.tag_norm, Value.payload_norm, Value.children_norm,
        header_norm, hchildren]

theorem encodesAll_of_forall {vs : List Value} (h : ∀ v ∈ vs, Encodes v.norm (encode v)) :
    EncodesAll (vs.map Value.norm) (encodeAll vs) := by
  induction vs with
  | nil => exact .nil
  | cons v vs ih =>
      obtain ⟨hv, hvs⟩ := List.forall_mem_cons.mp h
      rw [encodeAll_cons]
      exact encodesAll_append hv (ih hvs)

theorem encodes_encode {v : Value} (hfits : v.Fits) : Encodes v.norm (encode v) := by
  induction hfits with
  | @intro v hcount _ ih =>
      refine encodes_iff.mpr ⟨header v.tag, encodeAll v.children, ?_, ?_, ?_, ?_⟩
      · rw [Value.tag_norm]
        exact spells_header _
      · rwa [Value.count_norm]
      · rw [Value.children_norm]
        exact encodesAll_of_forall ih
      · rw [Value.payload_norm]
        exact encode_eq _

theorem encodesAll_encodeAll {vs : List Value} (hfits : ∀ v ∈ vs, v.Fits) :
    EncodesAll (vs.map Value.norm) (encodeAll vs) :=
  encodesAll_of_forall fun v hv => encodes_encode (hfits v hv)

/-- No sequence of encodings is shorter than the canonical one. -/
theorem encodeAll_length_le {vs : List Value} {bs : Bytes} (hbs : EncodesAll vs bs) :
    (encodeAll vs).length ≤ bs.length := by
  induction hbs with
  | nil => simp
  | cons hh _ _ ih =>
      have hle := header_length_le hh
      rw [encodeAll_cons, encode_eq]
      rw [encodeAll_append] at ih
      simp only [List.length_append] at ih ⊢
      omega

end Msgpack
