import Mathlib.Data.List.Basic
import Mathlib.Data.Vector.Basic
import Mathlib.Tactic.Ring

/-!
Byte strings and the big-endian cursor every wire codec is written with. A C++
`std::string` and a `Bytes` are both lists of bytes here; a fixed-size array is a
list that carries its length. The reader keeps the latch of the original: after the
first read past the end every read returns zero and `done` stays false.
-/

namespace Splice

abbrev Bytes := List UInt8

/-- The bytes of an ASCII literal. -/
def str (s : String) : Bytes := s.toList.map fun c => UInt8.ofNat c.toNat

/-- `std::array<uint8_t, n>` -/
abbrev ByteArr (n : Nat) := List.Vector UInt8 n

def ByteArr.zero (n : Nat) : ByteArr n := List.Vector.replicate n 0

/-- The low `8 * n` bits of `v`, most significant byte first. -/
def bigEndian : Nat → Nat → Bytes
  | 0, _ => []
  | n + 1, v => UInt8.ofNat (v / 256 ^ n) :: bigEndian n v

def ofBigEndian (b : Bytes) : Nat := b.foldl (fun acc x => acc * 256 + x.toNat) 0

@[simp] theorem bigEndian_length (n v : Nat) : (bigEndian n v).length = n := by
  induction n with
  | zero => rfl
  | succ n ih => simp [bigEndian, ih]

private theorem ofBigEndian_foldl (b : Bytes) (acc : Nat) :
    b.foldl (fun acc x => acc * 256 + x.toNat) acc = acc * 256 ^ b.length + ofBigEndian b := by
  induction b generalizing acc with
  | nil => simp [ofBigEndian]
  | cons x b ih =>
      simp only [ofBigEndian, List.foldl_cons, List.length_cons]
      rw [ih, ih (0 * 256 + x.toNat), Nat.pow_succ]
      ring

theorem ofBigEndian_bigEndian (n v : Nat) : ofBigEndian (bigEndian n v) = v % 256 ^ n := by
  induction n with
  | zero => simp [bigEndian, ofBigEndian, Nat.mod_one]
  | succ n ih =>
      simp only [bigEndian, ofBigEndian, List.foldl_cons]
      rw [ofBigEndian_foldl, ih, bigEndian_length, UInt8.toNat_ofNat',
        show 256 ^ (n + 1) = 256 ^ n * 256 from Nat.pow_succ _ _, Nat.mod_mul]
      ring

theorem ofBigEndian_cons (x : UInt8) (b : Bytes) :
    ofBigEndian (x :: b) = x.toNat * 256 ^ b.length + ofBigEndian b := by
  rw [ofBigEndian, List.foldl_cons, ofBigEndian_foldl, Nat.zero_mul, Nat.zero_add]

theorem ofBigEndian_lt (b : Bytes) : ofBigEndian b < 256 ^ b.length := by
  induction b with
  | nil => simp [ofBigEndian]
  | cons x b ih =>
      have hx : (x.toNat + 1) * 256 ^ b.length ≤ 256 * 256 ^ b.length :=
        Nat.mul_le_mul_right _ x.toNat_lt
      rw [ofBigEndian_cons, List.length_cons, Nat.pow_succ]
      rw [Nat.add_mul, Nat.one_mul] at hx
      omega

/-- Only the low digits count. -/
theorem bigEndian_add_mul (n v a : Nat) : bigEndian n (v + a * 256 ^ n) = bigEndian n v := by
  induction n generalizing a with
  | zero => rfl
  | succ n ih =>
      have hpow : a * 256 ^ (n + 1) = a * 256 * 256 ^ n := by
        rw [Nat.pow_succ]
        ring
      have hhead : UInt8.ofNat ((v + a * 256 * 256 ^ n) / 256 ^ n) = UInt8.ofNat (v / 256 ^ n) := by
        rw [Nat.add_mul_div_right _ _ (Nat.pow_pos (by decide))]
        apply UInt8.toNat_inj.mp
        rw [UInt8.toNat_ofNat', UInt8.toNat_ofNat']
        omega
      rw [bigEndian, hpow, hhead, ih, bigEndian]

theorem bigEndian_ofBigEndian (b : Bytes) : bigEndian b.length (ofBigEndian b) = b := by
  induction b with
  | nil => rfl
  | cons x b ih =>
      have hhead : UInt8.ofNat ((ofBigEndian b + x.toNat * 256 ^ b.length) / 256 ^ b.length) = x := by
        rw [Nat.add_mul_div_right _ _ (Nat.pow_pos (by decide)),
          Nat.div_eq_of_lt (ofBigEndian_lt b), Nat.zero_add, UInt8.ofNat_toNat]
      rw [ofBigEndian_cons, Nat.add_comm, List.length_cons, bigEndian, hhead, bigEndian_add_mul, ih]

structure ByteReader where
  rest : Bytes
  failed : Bool := false

namespace ByteReader

def remaining (r : ByteReader) : Nat := if r.failed then 0 else r.rest.length

def ok (r : ByteReader) : Bool := !r.failed

def done (r : ByteReader) : Bool := !r.failed && r.rest.isEmpty

/-- `u8`, `u16`, `u32` and `u64` are this read at widths 1, 2, 4 and 8. -/
def num (n : Nat) (r : ByteReader) : Nat × ByteReader :=
  if r.remaining < n then (0, { r with failed := true })
  else (ofBigEndian (r.rest.take n), { r with rest := r.rest.drop n })

def u8 (r : ByteReader) : UInt8 × ByteReader := ((r.num 1).1.toUInt8, (r.num 1).2)
def u16 (r : ByteReader) : UInt16 × ByteReader := ((r.num 2).1.toUInt16, (r.num 2).2)
def u32 (r : ByteReader) : UInt32 × ByteReader := ((r.num 4).1.toUInt32, (r.num 4).2)
def u64 (r : ByteReader) : UInt64 × ByteReader := ((r.num 8).1.toUInt64, (r.num 8).2)

def take (n : Nat) (r : ByteReader) : Bytes × ByteReader :=
  if r.remaining < n then ([], { r with failed := true })
  else (r.rest.take n, { r with rest := r.rest.drop n })

def array (n : Nat) (r : ByteReader) : ByteArr n × ByteReader :=
  if h : r.failed = false ∧ n ≤ r.rest.length then
    (⟨r.rest.take n, by simp [h.2]⟩, { r with rest := r.rest.drop n })
  else if n = 0 then (ByteArr.zero n, r)
  else (ByteArr.zero n, { r with failed := true })

def lp16 (r : ByteReader) : Bytes × ByteReader := r.u16.2.take r.u16.1.toNat

def takeRest (r : ByteReader) : Bytes × ByteReader := r.take r.remaining

@[simp] theorem num_append (n v : Nat) (b : Bytes) :
    num n ⟨bigEndian n v ++ b, false⟩ = (v % 256 ^ n, ⟨b, false⟩) := by
  have hlt : ¬ remaining ⟨bigEndian n v ++ b, false⟩ < n := by simp [remaining]
  simp only [num, hlt, if_false]
  rw [List.take_left' (bigEndian_length n v), List.drop_left' (bigEndian_length n v), ofBigEndian_bigEndian]

@[simp] theorem u8_cons (x : UInt8) (b : Bytes) : u8 ⟨x :: b, false⟩ = (x, ⟨b, false⟩) := by
  simp [u8, num, remaining, ofBigEndian]

@[simp] theorem u16_append (v : UInt16) (b : Bytes) :
    u16 ⟨bigEndian 2 v.toNat ++ b, false⟩ = (v, ⟨b, false⟩) := by
  simp [u16]

@[simp] theorem u32_append (v : UInt32) (b : Bytes) :
    u32 ⟨bigEndian 4 v.toNat ++ b, false⟩ = (v, ⟨b, false⟩) := by
  simp [u32]

@[simp] theorem u64_append (v : UInt64) (b : Bytes) :
    u64 ⟨bigEndian 8 v.toNat ++ b, false⟩ = (v, ⟨b, false⟩) := by
  simp [u64]

@[simp] theorem array_append {n : Nat} (a : ByteArr n) (b : Bytes) :
    array n ⟨a.toList ++ b, false⟩ = (a, ⟨b, false⟩) := by
  have hn : a.toList.length = n := a.toList_length
  have h : (⟨a.toList ++ b, false⟩ : ByteReader).failed = false ∧
      n ≤ (a.toList ++ b).length := by simp
  simp only [array, h, and_self, dite_true]
  rw [List.drop_left' hn]
  congr 1
  apply Subtype.ext
  exact List.take_left' hn

@[simp] theorem takeRest_ok (b : Bytes) : takeRest ⟨b, false⟩ = (b, ⟨[], false⟩) := by
  simp [takeRest, take, remaining]

theorem takeRest_of_ok {r : ByteReader} (h : r.failed = false) :
    r.takeRest = (r.rest, ⟨[], false⟩) := by
  obtain ⟨b, failed⟩ := r
  cases h
  exact takeRest_ok b

@[simp] theorem done_nil : done ⟨[], false⟩ = true := rfl

@[simp] theorem ok_false (b : Bytes) : ok ⟨b, false⟩ = true := rfl

/-! What a read that went well took off the front. -/

theorem array_ok {n : Nat} {r : ByteReader} (hn : n ≠ 0) (h : (r.array n).2.failed = false) :
    r.failed = false ∧ r.rest = (r.array n).1.toList ++ (r.array n).2.rest := by
  unfold array at h ⊢
  split at h
  · rename_i hr
    rw [dif_pos hr]
    exact ⟨hr.1, (List.take_append_drop n r.rest).symm⟩
  · cases h

theorem num_ok {n : Nat} {r : ByteReader} (h : (r.num n).2.failed = false) :
    r.failed = false ∧ n ≤ r.rest.length ∧
      r.num n = (ofBigEndian (r.rest.take n), ⟨r.rest.drop n, false⟩) := by
  unfold num at h ⊢
  split at h
  · cases h
  · rename_i hr
    have hf : r.failed = false := h
    have hlen : n ≤ r.rest.length := by
      simp only [remaining, hf, Bool.false_eq_true, if_false] at hr
      omega
    rw [if_neg hr, hf]
    exact ⟨rfl, hlen, rfl⟩

/-- A number that was read is the bytes it was read from. -/
theorem num_bytes {n : Nat} {r : ByteReader} (h : (r.num n).2.failed = false) :
    r.failed = false ∧ (r.num n).1 < 256 ^ n ∧
      r.rest = bigEndian n (r.num n).1 ++ (r.num n).2.rest := by
  obtain ⟨hf, hlen, e⟩ := num_ok h
  have htake : (r.rest.take n).length = n := by simp [hlen]
  have hlt := ofBigEndian_lt (r.rest.take n)
  have hback := bigEndian_ofBigEndian (r.rest.take n)
  rw [htake] at hlt hback
  rw [e]
  exact ⟨hf, hlt, by rw [hback, List.take_append_drop]⟩

theorem u8_ok {r : ByteReader} (h : r.u8.2.failed = false) :
    r.failed = false ∧ r.rest = r.u8.1 :: r.u8.2.rest := by
  obtain ⟨hf, -, hrest⟩ := num_bytes h
  have hbyte : ∀ m, bigEndian 1 m = [m.toUInt8] := by simp [bigEndian]
  rw [hbyte] at hrest
  exact ⟨hf, hrest⟩

theorem u16_ok {r : ByteReader} (h : r.u16.2.failed = false) :
    r.failed = false ∧ r.rest = bigEndian 2 r.u16.1.toNat ++ r.u16.2.rest := by
  obtain ⟨hf, hlt, hrest⟩ := num_bytes h
  rw [show r.u16.1.toNat = (r.num 2).1 from Nat.mod_eq_of_lt hlt]
  exact ⟨hf, hrest⟩

theorem u32_ok {r : ByteReader} (h : r.u32.2.failed = false) :
    r.failed = false ∧ r.rest = bigEndian 4 r.u32.1.toNat ++ r.u32.2.rest := by
  obtain ⟨hf, hlt, hrest⟩ := num_bytes h
  rw [show r.u32.1.toNat = (r.num 4).1 from Nat.mod_eq_of_lt hlt]
  exact ⟨hf, hrest⟩

theorem u64_ok {r : ByteReader} (h : r.u64.2.failed = false) :
    r.failed = false ∧ r.rest = bigEndian 8 r.u64.1.toNat ++ r.u64.2.rest := by
  obtain ⟨hf, hlt, hrest⟩ := num_bytes h
  rw [show r.u64.1.toNat = (r.num 8).1 from Nat.mod_eq_of_lt hlt]
  exact ⟨hf, hrest⟩

theorem take_ok {n : Nat} {r : ByteReader} (h : (r.take n).2.failed = false) :
    r.failed = false ∧ (r.take n).1.length = n ∧ r.rest = (r.take n).1 ++ (r.take n).2.rest := by
  unfold take at h ⊢
  split at h
  · cases h
  · rename_i hlen
    have hf : r.failed = false := h
    rw [if_neg hlen]
    refine ⟨hf, ?_, (List.take_append_drop n r.rest).symm⟩
    simp only [remaining, hf, Bool.false_eq_true, if_false] at hlen
    rw [List.length_take]
    omega

theorem lp16_ok {r : ByteReader} (h : r.lp16.2.failed = false) :
    r.failed = false ∧ r.rest = bigEndian 2 r.lp16.1.length ++ (r.lp16.1 ++ r.lp16.2.rest) := by
  obtain ⟨hf, hlen, hrest⟩ := take_ok h
  obtain ⟨hf', hrest'⟩ := u16_ok hf
  refine ⟨hf', ?_⟩
  rw [lp16, hlen, ← hrest, ← hrest']

theorem done_bytes {r : ByteReader} (h : r.done = true) : r.failed = false ∧ r.rest = [] := by
  simpa [done] using h

theorem lp16_append {b : Bytes} (h : b.length < 2 ^ 16) (rest : Bytes) :
    lp16 ⟨bigEndian 2 b.length ++ (b ++ rest), false⟩ = (b, ⟨rest, false⟩) := by
  have hlen : (b.length.toUInt16).toNat = b.length := Nat.mod_eq_of_lt h
  have hread := u16_append b.length.toUInt16 (b ++ rest)
  rw [hlen] at hread
  simp [lp16, hread, hlen, take, remaining]

end ByteReader
end Splice
