import Splice.Lib.Crc32
import Mathlib.Algebra.Group.Nat.Defs
import Mathlib.Logic.Function.Iterate

/-!
The checksum by its definition: a register that takes in the message bit by bit, the low bit of
a byte first, and the table of `crc32Update` as a shortcut through eight of its steps.
-/

namespace Splice.Lib

/-- The low bit goes out; when it differs from the message's, the polynomial goes in. -/
def shiftIn (c : UInt32) (bit : Bool) : UInt32 :=
  if c.toNat.testBit 0 ≠ bit then (c >>> 1) ^^^ (0xEDB88320 : UInt32) else c >>> 1

def bitsOf (b : UInt8) : List Bool := (List.range 8).map b.toNat.testBit

/-- The reflected CRC-32 of a message, bit by bit. -/
def crc32Bits (s : List UInt8) : UInt32 :=
  (s.flatMap bitsOf).foldl shiftIn 0xFFFFFFFF ^^^ 0xFFFFFFFF

def halve (c : UInt32) : UInt32 := c >>> 1

theorem toNat_halves (k : Nat) (c : UInt32) : (halve^[k] c).toNat = c.toNat / 2 ^ k := by
  induction k with
  | zero => simp
  | succ k ih =>
      rw [Function.iterate_succ_apply', halve, UInt32.toNat_shiftRight, ih]
      rw [show (1 : UInt32).toNat % 32 = 1 from rfl, Nat.shiftRight_eq_div_pow, Nat.pow_one,
        Nat.div_div_eq_div_mul, ← Nat.pow_succ]

theorem halves_eight (c : UInt32) : halve^[8] c = c >>> 8 := by
  rw [← UInt32.toNat_inj, toNat_halves, UInt32.toNat_shiftRight, Nat.shiftRight_eq_div_pow]
  rfl

theorem crcTable_eq_iterate (c : UInt32) : crcTable c = crcBit^[8] c := rfl

private theorem and_one (c : UInt32) : c &&& 1 = if c.toNat.testBit 0 then 1 else 0 := by
  rw [← UInt32.toNat_inj, UInt32.toNat_and, show (1 : UInt32).toNat = 1 from rfl,
    Nat.and_one_is_mod, Nat.testBit_zero]
  rcases Nat.mod_two_eq_zero_or_one c.toNat with h | h <;> rw [h] <;> rfl

/-- A bit goes into the register as it goes into the state of the table's loop. -/
theorem shiftIn_eq (c : UInt32) (bit : Bool) :
    shiftIn c bit = crcBit (c ^^^ if bit then 1 else 0) := by
  have plain : crcBit c = if c.toNat.testBit 0 then
      (c >>> 1) ^^^ (0xEDB88320 : UInt32) else c >>> 1 := by
    rw [crcBit, and_one]
    cases c.toNat.testBit 0
    · rfl
    · exact UInt32.xor_comm ..
  rw [crcBit_xor, plain, shiftIn]
  cases c.toNat.testBit 0 <;> cases bit
  · rw [if_neg (by decide), if_neg (by decide)]
    exact (UInt32.xor_zero).symm
  · rw [if_pos (by decide), if_neg (by decide)]
    rfl
  · rw [if_pos (by decide), if_pos rfl]
    exact (UInt32.xor_zero).symm
  · rw [if_neg (by decide), if_pos rfl, UInt32.xor_assoc]
    exact (UInt32.xor_zero).symm

/-- A state whose low bit is cleared only moves down. -/
theorem crcBit_clear (c : UInt32) : crcBit (c ^^^ (c &&& 1)) = halve c := by
  have one : (c &&& 1) >>> 1 = 0 := by
    rw [and_one]
    split <;> rfl
  have even : ¬(c ^^^ (c &&& 1)) &&& 1 = 1 := by
    rw [and_one (c ^^^ _), UInt32.toNat_xor, UInt32.toNat_and, Nat.testBit_xor, Nat.testBit_and]
    simp
  rw [crcBit, if_neg even, UInt32.shiftRight_xor, one, UInt32.xor_zero, halve]

/-- `k` bits of `m` into the register: the state with `m` in it, `k` steps on, less what `m`
still has to give. -/
theorem shiftIn_bits (k : Nat) (c m : UInt32) :
    ((List.range k).map m.toNat.testBit).foldl shiftIn c =
      crcBit^[k] (c ^^^ m) ^^^ halve^[k] m := by
  induction k with
  | zero =>
      rw [List.range_zero, List.map_nil, List.foldl_nil, Function.iterate_zero_apply,
        Function.iterate_zero_apply, UInt32.xor_assoc, UInt32.xor_self, UInt32.xor_zero]
  | succ k ih =>
      have bit : (if m.toNat.testBit k then (1 : UInt32) else 0) = halve^[k] m &&& 1 := by
        rw [and_one, toNat_halves, Nat.testBit_div_two_pow, Nat.zero_add]
      rw [List.range_succ, List.map_append, List.foldl_append, ih, List.map_singleton,
        List.foldl_cons, List.foldl_nil, shiftIn_eq, bit, UInt32.xor_assoc, crcBit_xor,
        crcBit_clear, Function.iterate_succ_apply', Function.iterate_succ_apply']

/-- Eight steps: the table's entry for the low byte, and the rest moved down. -/
theorem crcBits_eight (x : UInt32) :
    crcBit^[8] x = crcTable (x &&& 0xFF) ^^^ (x >>> 8) := by
  have low := shiftIn_bits 8 0 (x &&& 0xFF)
  have same : (List.range 8).map (x &&& 0xFF).toNat.testBit =
      (List.range 8).map x.toNat.testBit := by
    refine List.map_congr_left fun i hi => ?_
    have bit : (0xFF : Nat).testBit i = decide (i < 8) := Nat.testBit_two_pow_sub_one 8 i
    rw [UInt32.toNat_and, Nat.testBit_and, show (0xFF : UInt32).toNat = 0xFF from rfl, bit,
      decide_eq_true (List.mem_range.mp hi), Bool.and_true]
  have none : (x &&& 0xFF) >>> 8 = 0 := by
    rw [← UInt32.toNat_inj, UInt32.toNat_shiftRight, UInt32.toNat_and, Nat.shiftRight_eq_div_pow]
    exact Nat.div_eq_of_lt (Nat.lt_of_le_of_lt Nat.and_le_right (by decide))
  rw [same, shiftIn_bits, UInt32.zero_xor, UInt32.zero_xor, halves_eight, halves_eight, none,
    UInt32.xor_zero] at low
  rw [crcTable_eq_iterate, ← low, UInt32.xor_assoc, UInt32.xor_self, UInt32.xor_zero]

theorem crcByte_bits (c : UInt32) (b : UInt8) : crcByte c b = (bitsOf b).foldl shiftIn c := by
  have none : b.toUInt32 >>> 8 = 0 := by
    rw [← UInt32.toNat_inj, UInt32.toNat_shiftRight, UInt8.toNat_toUInt32,
      Nat.shiftRight_eq_div_pow]
    exact Nat.div_eq_of_lt b.toNat_lt
  rw [bitsOf, ← UInt8.toNat_toUInt32, shiftIn_bits, crcBits_eight, halves_eight, none,
    UInt32.xor_zero, UInt32.shiftRight_xor, none, UInt32.xor_zero, crcByte]

theorem crc_foldl_bits (s : List UInt8) (c : UInt32) :
    s.foldl crcByte c = (s.flatMap bitsOf).foldl shiftIn c := by
  induction s generalizing c with
  | nil => rfl
  | cons b s ih =>
      rw [List.foldl_cons, ih, List.flatMap_cons, List.foldl_append, crcByte_bits]

/-- The table-driven checksum is the one taken bit by bit. -/
theorem crc32Update_bits (s : List UInt8) : crc32Update 0 s = crc32Bits s := by
  rw [crc32Update, crc32Bits, crc_foldl_bits, UInt32.zero_xor]

/-- Whatever the pieces a message comes in. -/
theorem crc32Update_pieces (crc : UInt32) (pieces : List (List UInt8)) :
    pieces.foldl crc32Update crc = crc32Update crc pieces.flatten := by
  induction pieces generalizing crc with
  | nil => exact (crc32Update_nil crc).symm
  | cons p pieces ih => rw [List.foldl_cons, ih, List.flatten_cons, crc32Update_append]

end Splice.Lib
