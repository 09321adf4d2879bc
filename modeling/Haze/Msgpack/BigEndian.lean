import Mathlib

/-
  Big-endian integers over byte lists.

  `beNat` reads a byte list as a natural number, most significant byte first, and
  `beBytes k` writes the low `k` bytes of one. They invert each other
  (`beNat_beBytes`, `beBytes_beNat`). `beInt` is the two's complement reading of
  the same bytes, inverted by `beBytesInt`.
-/

namespace Msgpack

abbrev Bytes := List UInt8

/-! ## Unsigned -/

/-- The number a byte list spells, most significant byte first. -/
def beNat (bs : Bytes) : Nat := bs.foldl (fun n b => 256 * n + b.toNat) 0

/-- The low `k` bytes of `n`, most significant byte first. -/
def beBytes : Nat → Nat → Bytes
  | 0, _ => []
  | k + 1, n => beBytes k (n / 256) ++ [UInt8.ofNat n]

@[simp] theorem beNat_nil : beNat [] = 0 := rfl

theorem beNat_append_singleton (bs : Bytes) (b : UInt8) :
    beNat (bs ++ [b]) = 256 * beNat bs + b.toNat := by
  simp [beNat, List.foldl_append]

@[simp] theorem beNat_singleton (b : UInt8) : beNat [b] = b.toNat := by
  simp [beNat]

@[simp] theorem length_beBytes (k n : Nat) : (beBytes k n).length = k := by
  induction k generalizing n with
  | zero => rfl
  | succ k ih => simp [beBytes, ih]

theorem beNat_beBytes (k n : Nat) : beNat (beBytes k n) = n % 256 ^ k := by
  induction k generalizing n with
  | zero => simp [beBytes, Nat.mod_one]
  | succ k ih =>
      have hb : (UInt8.ofNat n).toNat = n % 256 := by simp
      rw [beBytes, beNat_append_singleton, ih, hb, Nat.pow_succ, Nat.mul_comm (256 ^ k),
        Nat.mod_mul]
      omega

theorem beNat_beBytes_of_lt {k n : Nat} (h : n < 256 ^ k) : beNat (beBytes k n) = n := by
  rw [beNat_beBytes, Nat.mod_eq_of_lt h]

theorem beNat_lt (bs : Bytes) : beNat bs < 256 ^ bs.length := by
  induction bs using List.reverseRecOn with
  | nil => simp
  | append_singleton bs b ih =>
      have hb := b.toNat_lt
      rw [beNat_append_singleton, List.length_append, List.length_singleton, Nat.pow_succ]
      omega

theorem beBytes_beNat (bs : Bytes) : beBytes bs.length (beNat bs) = bs := by
  induction bs using List.reverseRecOn with
  | nil => rfl
  | append_singleton bs b ih =>
      have hb := b.toNat_lt
      have hdiv : (256 * beNat bs + b.toNat) / 256 = beNat bs := by omega
      have hmod : UInt8.ofNat (256 * beNat bs + b.toNat) = b := by
        apply UInt8.toNat_inj.mp
        rw [UInt8.toNat_ofNat']
        omega
      rw [List.length_append, List.length_singleton, beBytes, beNat_append_singleton, hdiv, ih,
        hmod]

/-! ## Two's complement -/

/-- The two's complement reading of a byte list. -/
def beInt (bs : Bytes) : Int := (beNat bs : Int).bmod (256 ^ bs.length)

/-- The low `k` bytes of the two's complement form of `z`. -/
def beBytesInt (k : Nat) (z : Int) : Bytes := beBytes k (z % (256 ^ k : Nat)).toNat

@[simp] theorem length_beBytesInt (k : Nat) (z : Int) : (beBytesInt k z).length = k := by
  simp [beBytesInt]

theorem beInt_beBytesInt {k : Nat} {z : Int} (hlo : -((256 ^ k : Nat) / 2 : Int) ≤ z)
    (hhi : z < ((256 ^ k : Nat) + 1 : Int) / 2) : beInt (beBytesInt k z) = z := by
  have hpos : (0 : Int) < (256 ^ k : Nat) := by exact_mod_cast Nat.pow_pos (by decide)
  have hnn := Int.emod_nonneg z (ne_of_gt hpos)
  have hlt := Int.emod_lt_of_pos z hpos
  have hval : (beNat (beBytesInt k z) : Int) = z % (256 ^ k : Nat) := by
    rw [beBytesInt, beNat_beBytes_of_lt (by omega), Int.toNat_of_nonneg hnn]
  rw [beInt, hval, length_beBytesInt, Int.emod_bmod]
  exact Int.bmod_eq_of_le hlo hhi

/-- A `k`-byte two's complement reading lies in the signed range. -/
theorem beInt_bounds {bs : Bytes} (hne : bs ≠ []) :
    -((256 ^ bs.length : Nat) / 2 : Int) ≤ beInt bs ∧
      beInt bs < ((256 ^ bs.length : Nat) : Int) / 2 := by
  have hpos : 0 < 256 ^ bs.length := Nat.pow_pos (by decide)
  have heven : (256 : Nat) ^ bs.length % 2 = 0 := by
    obtain ⟨k, hk⟩ : ∃ k, bs.length = k + 1 :=
      ⟨bs.length - 1, by have := List.length_pos_iff.mpr hne; omega⟩
    rw [hk, Nat.pow_succ]
    omega
  have h1 := Int.le_bmod (x := (beNat bs : Int)) hpos
  have h2 := Int.bmod_lt (x := (beNat bs : Int)) hpos
  unfold beInt
  omega

end Msgpack
