import Haze.Mpack.Reader
import Haze.Msgpack.Canonical

/-
  The mpack growable writer.

  The writer is the bytes written so far and its first error. Every write picks the
  shortest header: the lemmas at the end rewrite the size switches of the source to the
  canonical headers, `w.put (header t)`.
-/

open Msgpack

namespace Haze

/-! ## Writer state -/

/-- `mpack_writer_t` over a growable buffer. -/
structure Writer where
  written : Bytes
  error : Option MpackError
  deriving DecidableEq, Repr

def mpackWriterInitGrowable : Writer := ⟨[], none⟩

/-- Appends bytes at the writer's position. -/
def Writer.put (w : Writer) (bs : Bytes) : Writer := { w with written := w.written ++ bs }

def mpackWriterFlagError (w : Writer) (error : MpackError) : Writer :=
  { w with error := w.error.or (some error) }

/-- The bytes of a writer torn down without an error. -/
def mpackWriterDestroy (w : Writer) : Except MpackError Bytes :=
  match w.error with
  | some error => .error error
  | none => .ok w.written

/-- Whether the writer has no error, with the writer. -/
def Writer.checked (w : Writer) : Bool × Writer := (w.error.isNone, w)

@[simp] theorem Writer.put_nil (w : Writer) : w.put [] = w := by
  simp [Writer.put]

@[simp] theorem Writer.put_put (w : Writer) (bs cs : Bytes) :
    (w.put bs).put cs = w.put (bs ++ cs) := by
  simp [Writer.put]

@[simp] theorem Writer.error_put (w : Writer) (bs : Bytes) : (w.put bs).error = w.error := rfl

/-! ## Writes -/

def mpackStoreU8 (v : UInt8) : Bytes := [v]
def mpackStoreU16 (v : UInt16) : Bytes := beBytes 2 v.toNat
def mpackStoreU32 (v : UInt32) : Bytes := beBytes 4 v.toNat
def mpackStoreU64 (v : UInt64) : Bytes := beBytes 8 v.toNat

def mpackWriteNil (w : Writer) : Writer := w.put [0xc0]

def mpackWriteBool (w : Writer) (value : Bool) : Writer :=
  w.put [0xc2 ||| (if value then 1 else 0)]

def mpackWriteU8 (w : Writer) (value : UInt8) : Writer :=
  if value ≤ 127 then w.put (mpackStoreU8 value)
  else w.put (0xcc :: mpackStoreU8 value)

def mpackWriteU32 (w : Writer) (value : UInt32) : Writer :=
  if value ≤ 127 then w.put (mpackStoreU8 value.toUInt8)
  else if value ≤ 0xff then w.put (0xcc :: mpackStoreU8 value.toUInt8)
  else if value ≤ 0xffff then w.put (0xcd :: mpackStoreU16 value.toUInt16)
  else w.put (0xce :: mpackStoreU32 value)

def mpackWriteU64 (w : Writer) (value : UInt64) : Writer :=
  if value ≤ 127 then w.put (mpackStoreU8 value.toUInt8)
  else if value ≤ 0xff then w.put (0xcc :: mpackStoreU8 value.toUInt8)
  else if value ≤ 0xffff then w.put (0xcd :: mpackStoreU16 value.toUInt16)
  else if value ≤ 0xffffffff then w.put (0xce :: mpackStoreU32 value.toUInt32)
  else w.put (0xcf :: mpackStoreU64 value)

def mpackWriteI64 (w : Writer) (value : Int64) : Writer :=
  if -32 ≤ value then
    if value ≤ 127 then w.put (mpackStoreU8 value.toInt8.toUInt8)
    else if value ≤ 0xff then w.put (0xcc :: mpackStoreU8 value.toUInt64.toUInt8)
    else if value ≤ 0xffff then w.put (0xcd :: mpackStoreU16 value.toUInt64.toUInt16)
    else if value ≤ 0xffffffff then w.put (0xce :: mpackStoreU32 value.toUInt64.toUInt32)
    else w.put (0xcf :: mpackStoreU64 value.toUInt64)
  else if -128 ≤ value then w.put (0xd0 :: mpackStoreU8 value.toInt8.toUInt8)
  else if -32768 ≤ value then w.put (0xd1 :: mpackStoreU16 value.toInt16.toUInt16)
  else if -2147483648 ≤ value then w.put (0xd2 :: mpackStoreU32 value.toInt32.toUInt32)
  else w.put (0xd3 :: mpackStoreU64 value.toUInt64)

def mpackWriteUint (w : Writer) (value : UInt64) : Writer := mpackWriteU64 w value
def mpackWriteInt (w : Writer) (value : Int64) : Writer := mpackWriteI64 w value

def mpackWriteFloat (w : Writer) (bits : UInt32) : Writer := w.put (0xca :: mpackStoreU32 bits)
def mpackWriteDouble (w : Writer) (bits : UInt64) : Writer := w.put (0xcb :: mpackStoreU64 bits)

/-- The header, then the first `count` bytes at `data`. -/
def mpackWriteStr (w : Writer) (data : Bytes) (count : UInt32) : Writer :=
  if count ≤ 31 then w.put ((0xa0 ||| count.toUInt8) :: data.take count.toNat)
  else if count ≤ 0xff then w.put (0xd9 :: mpackStoreU8 count.toUInt8 ++ data.take count.toNat)
  else if count ≤ 0xffff then
    w.put (0xda :: mpackStoreU16 count.toUInt16 ++ data.take count.toNat)
  else w.put (0xdb :: mpackStoreU32 count ++ data.take count.toNat)

def mpackStartBin (w : Writer) (count : UInt32) : Writer :=
  if count ≤ 0xff then w.put (0xc4 :: mpackStoreU8 count.toUInt8)
  else if count ≤ 0xffff then w.put (0xc5 :: mpackStoreU16 count.toUInt16)
  else w.put (0xc6 :: mpackStoreU32 count)

def mpackWriteBin (w : Writer) (data : Bytes) (count : UInt32) : Writer :=
  (mpackStartBin w count).put (data.take count.toNat)

def mpackStartArray (w : Writer) (count : UInt32) : Writer :=
  if count ≤ 15 then w.put [0x90 ||| count.toUInt8]
  else if count ≤ 0xffff then w.put (0xdc :: mpackStoreU16 count.toUInt16)
  else w.put (0xdd :: mpackStoreU32 count)

/-! ## Canonical headers -/

private theorem beBytes_mod (k n : Nat) : beBytes k (n % 256 ^ k) = beBytes k n := by
  have h := beBytes_beNat (beBytes k n)
  rwa [length_beBytes, beNat_beBytes] at h

private theorem toNat_eq_of_bmod_eq {x : Int} {n m : Nat} (h : x.bmod m = (n : Int).bmod m)
    (hn : n < m) : n = (x % m).toNat := by
  have hmod := congrArg (· % (m : Int)) h
  have hself : (n : Int) % m = n := Int.emod_eq_of_lt (by omega) (by omega)
  simp only [Int.bmod_emod, hself] at hmod
  rw [hmod, Int.toNat_natCast]

private theorem storeI_eq (v : Int64) :
    mpackStoreU8 v.toInt8.toUInt8 = beBytesInt 1 v.toInt ∧
      mpackStoreU16 v.toInt16.toUInt16 = beBytesInt 2 v.toInt ∧
      mpackStoreU32 v.toInt32.toUInt32 = beBytesInt 4 v.toInt ∧
      mpackStoreU64 v.toUInt64 = beBytesInt 8 v.toInt := by
  have bits8 : v.toInt8.toInt = (v.toInt8.toUInt8.toNat : Int).bmod (2 ^ 8) :=
    BitVec.toInt_eq_toNat_bmod _
  have bits16 : v.toInt16.toInt = (v.toInt16.toUInt16.toNat : Int).bmod (2 ^ 16) :=
    BitVec.toInt_eq_toNat_bmod _
  have bits32 : v.toInt32.toInt = (v.toInt32.toUInt32.toNat : Int).bmod (2 ^ 32) :=
    BitVec.toInt_eq_toNat_bmod _
  have bits64 : v.toInt = (v.toUInt64.toNat : Int).bmod (2 ^ 64) :=
    BitVec.toInt_eq_toNat_bmod _
  rw [Int64.toInt_toInt8] at bits8
  rw [Int64.toInt_toInt16] at bits16
  rw [Int64.toInt_toInt32] at bits32
  refine ⟨?_, ?_, ?_, ?_⟩
  · have hv := toNat_eq_of_bmod_eq bits8 (UInt8.toNat_lt _)
    have hbyte : v.toInt8.toUInt8 = .ofNat (v.toInt % (2 ^ 8 : Nat)).toNat := by
      rw [← hv, UInt8.ofNat_toNat]
    rw [mpackStoreU8, hbyte]
    rfl
  · rw [mpackStoreU16, toNat_eq_of_bmod_eq bits16 (UInt16.toNat_lt _)]
    rfl
  · rw [mpackStoreU32, toNat_eq_of_bmod_eq bits32 (UInt32.toNat_lt _)]
    rfl
  · have hwrap : v.toInt.bmod (2 ^ 64) = (v.toUInt64.toNat : Int).bmod (2 ^ 64) := by
      conv_lhs => rw [bits64, Int.bmod_bmod]
    rw [mpackStoreU64, toNat_eq_of_bmod_eq hwrap (UInt64.toNat_lt _)]
    rfl

private theorem store64_eq (v : UInt64) :
    mpackStoreU8 v.toUInt8 = beBytes 1 v.toNat ∧ mpackStoreU16 v.toUInt16 = beBytes 2 v.toNat ∧
      mpackStoreU32 v.toUInt32 = beBytes 4 v.toNat := by
  refine ⟨?_, ?_, ?_⟩
  · simp [mpackStoreU8, beBytes]
  · rw [mpackStoreU16, UInt64.toNat_toUInt16]
    exact beBytes_mod 2 v.toNat
  · rw [mpackStoreU32, UInt64.toNat_toUInt32]
    exact beBytes_mod 4 v.toNat

private theorem store32_eq (v : UInt32) :
    mpackStoreU8 v.toUInt8 = beBytes 1 v.toNat ∧
      mpackStoreU16 v.toUInt16 = beBytes 2 v.toNat := by
  refine ⟨?_, ?_⟩
  · simp [mpackStoreU8, beBytes]
  · rw [mpackStoreU16, UInt32.toNat_toUInt16]
    exact beBytes_mod 2 v.toNat

@[simp] theorem mpackWriteNil_eq (w : Writer) : mpackWriteNil w = w.put (header .nil) := rfl

@[simp] theorem mpackWriteBool_eq (w : Writer) (b : Bool) :
    mpackWriteBool w b = w.put (header (.bool b)) := by
  cases b <;> rfl

@[simp] theorem mpackWriteU64_eq (w : Writer) (v : UInt64) :
    mpackWriteU64 w v = w.put (header (.uint v)) := by
  obtain ⟨h8, h16, h32⟩ := store64_eq v
  simp only [mpackWriteU64, header, headerUint, h8, h16, h32, mpackStoreU64]
  split_ifs <;> rfl

@[simp] theorem mpackWriteU32_eq (w : Writer) (v : UInt32) :
    mpackWriteU32 w v = w.put (header (.uint v.toUInt64)) := by
  obtain ⟨h8, h16⟩ := store32_eq v
  have hlt := v.toNat_lt
  simp only [mpackWriteU32, header, headerUint, h8, h16, mpackStoreU32, UInt32.le_iff_toNat_le,
    UInt64.le_iff_toNat_le, UInt32.toNat_toUInt64, UInt64.toNat_ofNat, UInt32.toNat_ofNat,
    Nat.reducePow, Nat.reduceMod]
  split_ifs <;> first | rfl | omega

@[simp] theorem mpackWriteU8_eq (w : Writer) (v : UInt8) :
    mpackWriteU8 w v = w.put (header (.uint v.toUInt64)) := by
  have hlt := v.toNat_lt
  have hbyte : beBytes 1 v.toNat = [v] := by simp [beBytes]
  simp only [mpackWriteU8, header, headerUint, mpackStoreU8, UInt8.le_iff_toNat_le,
    UInt64.le_iff_toNat_le, UInt8.toNat_toUInt64, UInt64.toNat_ofNat, UInt8.toNat_ofNat,
    UInt8.toUInt8_toUInt64, Nat.reducePow, Nat.reduceMod, hbyte]
  split_ifs <;> first | rfl | omega

@[simp] theorem mpackWriteI64_eq (w : Writer) (v : Int64) :
    mpackWriteI64 w v = w.put (header (.int v)) := by
  obtain ⟨h8, h16, h32, h64⟩ := storeI_eq v
  obtain ⟨u8, u16, u32⟩ := store64_eq v.toUInt64
  have h0 : (0 : Int64).toInt = 0 := by decide
  by_cases hneg : 0 ≤ v
  · -- the size switch of the unsigned forms, on the same value
    have hnonneg : 0 ≤ v.toInt := by simpa [h0] using Int64.le_iff_toInt_le.mp hneg
    have hnat : (v.toUInt64.toNat : Int) = v.toInt := by
      rw [Int64.toNat_toUInt64_of_le hneg]
      exact Int.toNat_of_nonneg hnonneg
    have hbyte : v.toInt8.toUInt8 = v.toUInt64.toUInt8 := by
      have hmod : beBytesInt 1 v.toInt = beBytes 1 v.toUInt64.toNat := by
        rw [← beBytes_mod, beBytesInt]
        congr 1
        omega
      exact List.singleton_inj.mp (h8.trans (hmod.trans u8.symm))
    have hle : ∀ k : Nat, k < 2 ^ 63 → (v ≤ .ofNat k ↔ v.toUInt64 ≤ .ofNat k) := fun k hk => by
      rw [Int64.le_iff_toInt_le, UInt64.le_iff_toNat_le, Int64.toInt_ofNat_of_lt hk,
        UInt64.toNat_ofNat_of_lt' (hk.trans (by decide))]
      omega
    have hfix : (-32 : Int64) ≤ v := by
      have h32 : (-32 : Int64).toInt = -32 := by decide
      rw [Int64.le_iff_toInt_le, h32]
      omega
    have h1 : v ≤ 127 ↔ v.toUInt64 ≤ 0x7f := hle 127 (by decide)
    have h2 : v ≤ 0xff ↔ v.toUInt64 ≤ 0xff := hle 0xff (by decide)
    have h3 : v ≤ 0xffff ↔ v.toUInt64 ≤ 0xffff := hle 0xffff (by decide)
    have h4 : v ≤ 0xffffffff ↔ v.toUInt64 ≤ 0xffffffff := hle 0xffffffff (by decide)
    simp only [mpackWriteI64, header, headerUint, if_pos hfix, if_pos hneg, hbyte, u8, u16, u32,
      mpackStoreU64, h1, h2, h3, h4]
    split_ifs <;> rfl
  · have h127 : v ≤ 127 := by
      have h127' : (127 : Int64).toInt = 127 := by decide
      have := mt Int64.le_iff_toInt_le.mpr hneg
      rw [Int64.le_iff_toInt_le, h127']
      omega
    simp only [mpackWriteI64, header, headerNegInt, h16, h32, h64, if_pos h127, if_neg hneg]
    split_ifs <;> first | rfl | rw [h8]

@[simp] theorem mpackWriteFloat_eq (w : Writer) (bits : UInt32) :
    mpackWriteFloat w bits = w.put (header (.float bits)) := rfl

@[simp] theorem mpackWriteDouble_eq (w : Writer) (bits : UInt64) :
    mpackWriteDouble w bits = w.put (header (.double bits)) := rfl

@[simp] theorem mpackWriteStr_eq (w : Writer) (data : Bytes) (count : UInt32) :
    mpackWriteStr w data count = w.put (header (.str count) ++ data.take count.toNat) := by
  obtain ⟨h8, h16⟩ := store32_eq count
  simp only [mpackWriteStr, header, headerStr, h8, h16, mpackStoreU32]
  split_ifs <;> rfl

@[simp] theorem mpackWriteBin_eq (w : Writer) (data : Bytes) (count : UInt32) :
    mpackWriteBin w data count = w.put (header (.bin count) ++ data.take count.toNat) := by
  obtain ⟨h8, h16⟩ := store32_eq count
  simp only [mpackWriteBin, mpackStartBin, header, headerBin, h8, h16, mpackStoreU32]
  split_ifs <;> rw [Writer.put_put]

@[simp] theorem mpackStartArray_eq (w : Writer) (count : UInt32) :
    mpackStartArray w count = w.put (header (.array count)) := by
  obtain ⟨-, h16⟩ := store32_eq count
  simp only [mpackStartArray, header, headerArray, h16, mpackStoreU32]
  split_ifs <;> rfl

end Haze
