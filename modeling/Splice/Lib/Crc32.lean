import Mathlib.Data.List.Basic

/-! The checksum of zlib, by its table of one entry a byte. -/

namespace Splice.Lib

def crcBit (c : UInt32) : UInt32 :=
  if c &&& 1 = 1 then (0xEDB88320 : UInt32) ^^^ (c >>> 1) else c >>> 1

/-- The table's entry for a byte. -/
def crcTable (i : UInt32) : UInt32 := (List.range 8).foldl (fun c _ => crcBit c) i

def crcByte (crc : UInt32) (b : UInt8) : UInt32 :=
  crcTable ((crc ^^^ b.toUInt32) &&& 0xFF) ^^^ (crc >>> 8)

def crc32Update (crc : UInt32) (p : List UInt8) : UInt32 :=
  p.foldl crcByte (crc ^^^ 0xFFFFFFFF) ^^^ 0xFFFFFFFF

@[simp] theorem crc32Update_nil (crc : UInt32) : crc32Update crc [] = crc := by
  rw [crc32Update, List.foldl_nil, UInt32.xor_assoc, UInt32.xor_self, UInt32.xor_zero]

/-- Checksums are taken piece by piece. -/
theorem crc32Update_append (crc : UInt32) (p q : List UInt8) :
    crc32Update crc (p ++ q) = crc32Update (crc32Update crc p) q := by
  simp only [crc32Update, List.foldl_append, UInt32.xor_assoc, UInt32.xor_self, UInt32.xor_zero]

/-! A checksum is linear in its state, and a byte takes no two states to one. -/

private theorem and_xor (a b c : UInt32) : (a ^^^ b) &&& c = (a &&& c) ^^^ (b &&& c) := by
  rw [← UInt32.toNat_inj]
  simp only [UInt32.toNat_and, UInt32.toNat_xor, Nat.and_xor_distrib_right]

private theorem xor_shuffle (a b c d : UInt32) : a ^^^ b ^^^ (c ^^^ d) = a ^^^ c ^^^ (b ^^^ d) := by
  rw [UInt32.xor_assoc, ← UInt32.xor_assoc b, UInt32.xor_comm b c, UInt32.xor_assoc c,
    UInt32.xor_assoc]

private theorem low_bit (c : UInt32) : c &&& 1 = 0 ∨ c &&& 1 = 1 := by
  have bit := Nat.mod_two_eq_zero_or_one c.toNat
  rw [← Nat.and_one_is_mod] at bit
  rw [← UInt32.toNat_inj, ← UInt32.toNat_inj, UInt32.toNat_and]
  exact bit

theorem crcBit_xor (a b : UInt32) : crcBit (a ^^^ b) = crcBit a ^^^ crcBit b := by
  have even : ¬(0 : UInt32) = 1 := by decide
  rw [crcBit, crcBit, crcBit, and_xor, UInt32.shiftRight_xor]
  rcases low_bit a with ha | ha
  · rw [ha, UInt32.zero_xor, if_neg even]
    split
    · rw [← UInt32.xor_assoc, ← UInt32.xor_assoc, UInt32.xor_comm (a >>> 1)]
    · rfl
  · rcases low_bit b with hb | hb
    · rw [ha, hb, if_pos (by decide), if_pos rfl, if_neg even, UInt32.xor_assoc]
    · rw [ha, hb, if_neg (by decide), if_pos rfl, if_pos rfl, xor_shuffle, UInt32.xor_self,
        UInt32.zero_xor]

theorem crcTable_xor (a b : UInt32) : crcTable (a ^^^ b) = crcTable a ^^^ crcTable b := by
  rw [crcTable, crcTable, crcTable]
  induction List.range 8 generalizing a b with
  | nil => rfl
  | cons _ _ ih => rw [List.foldl_cons, List.foldl_cons, List.foldl_cons, crcBit_xor, ih]

/-- Only the first of the table's entries has its top byte clear. -/
theorem crcTable_top : ∀ i : Fin 256, crcTable (UInt32.ofNat i) >>> 24 = 0 → i = 0 := by
  decide +kernel

theorem crcByte_inj {c d : UInt32} {b : UInt8} (h : crcByte c b = crcByte d b) : c = d := by
  rw [← UInt32.xor_eq_zero_iff] at h ⊢
  rw [crcByte, crcByte, xor_shuffle, ← crcTable_xor, ← UInt32.shiftRight_xor, ← and_xor,
    xor_shuffle, UInt32.xor_self, UInt32.xor_zero, UInt32.xor_eq_zero_iff] at h
  generalize c ^^^ d = x at h ⊢
  have top : crcTable (x &&& 0xFF) >>> 24 = 0 := by
    rw [h, ← UInt32.toNat_inj]
    simp [UInt32.toNat_shiftRight, Nat.shiftRight_eq_div_pow]
    have := x.toNat_lt
    omega
  have small : (x &&& 0xFF).toNat < 256 := by
    rw [UInt32.toNat_and]
    exact Nat.lt_of_le_of_lt Nat.and_le_right (by decide)
  have zero := Fin.ext_iff.mp (crcTable_top ⟨(x &&& 0xFF).toNat, small⟩ (by simpa using top))
  have low : x &&& 0xFF = 0 := UInt32.toNat_inj.mp zero
  rw [low] at h
  have high : x >>> 8 = 0 := h.symm.trans (by decide)
  have whole : x.toNat % 256 = 0 ∧ x.toNat / 256 = 0 := by
    rw [← UInt32.toNat_inj, UInt32.toNat_and] at low
    rw [← UInt32.toNat_inj, UInt32.toNat_shiftRight] at high
    constructor
    · rw [← Nat.and_two_pow_sub_one_eq_mod x.toNat 8]
      exact low
    · simpa [Nat.shiftRight_eq_div_pow] using high
  rw [← UInt32.toNat_inj]
  simp only [UInt32.toNat_zero]
  omega

theorem crc_foldl_inj (p : List UInt8) {c d : UInt32}
    (h : p.foldl crcByte c = p.foldl crcByte d) : c = d := by
  induction p generalizing c d with
  | nil => exact h
  | cons b p ih => exact crcByte_inj (ih h)

/-- Two checksums that the same bytes make equal were equal before. -/
theorem crc32Update_inj {c d : UInt32} {p : List UInt8}
    (h : crc32Update c p = crc32Update d p) : c = d :=
  (UInt32.xor_left_inj _).mp (crc_foldl_inj p ((UInt32.xor_left_inj _).mp h))

end Splice.Lib
