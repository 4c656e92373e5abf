import Splice.Common.Bytes
import Splice.Lib.Text
import Mathlib.Tactic.IntervalCases

/-!
Standard base64, the form in which key material is stored.
-/

namespace Splice

/-- The alphabet, as the table `T` spells it out. -/
def base64Char (v : Nat) : UInt8 :=
  if v < 26 then UInt8.ofNat (65 + v)
  else if v < 52 then UInt8.ofNat (71 + v)
  else if v < 62 then UInt8.ofNat (v - 4)
  else if v = 62 then 43
  else 47

def base64Encode : Bytes → Bytes
  | a :: b :: c :: rest =>
      let n := a.toNat * 2 ^ 16 + b.toNat * 2 ^ 8 + c.toNat
      base64Char (n / 2 ^ 18 % 64) :: base64Char (n / 2 ^ 12 % 64) ::
        base64Char (n / 2 ^ 6 % 64) :: base64Char (n % 64) :: base64Encode rest
  | [a, b] =>
      let n := a.toNat * 2 ^ 16 + b.toNat * 2 ^ 8
      [base64Char (n / 2 ^ 18 % 64), base64Char (n / 2 ^ 12 % 64), base64Char (n / 2 ^ 6 % 64), 61]
  | [a] =>
      let n := a.toNat * 2 ^ 16
      [base64Char (n / 2 ^ 18 % 64), base64Char (n / 2 ^ 12 % 64), 61, 61]
  | [] => []

def base64Val (c : UInt8) : Option Nat :=
  if 65 ≤ c ∧ c ≤ 90 then some (c.toNat - 65)
  else if 97 ≤ c ∧ c ≤ 122 then some (c.toNat - 71)
  else if 48 ≤ c ∧ c ≤ 57 then some (c.toNat + 4)
  else if c = 43 then some 62
  else if c = 47 then some 63
  else none

/-- Padding, line ends and blanks are passed over. -/
def base64Skipped (c : UInt8) : Bool := c = 61 || c = 10 || c = 13 || c = 32 || c = 9

/-- The loop of `base64_decode`. Only the low 16 bits of `buf` are ever looked at, so it
is not cut to the width of an `int`. -/
def base64Loop (buf bits : Nat) : Bytes → Option Bytes
  | [] => some []
  | c :: s =>
      if base64Skipped c then base64Loop buf bits s
      else match base64Val c with
        | none => none
        | some v =>
            let buf := buf * 64 + v
            if 8 ≤ bits + 6 then
              (base64Loop buf (bits - 2) s).map (UInt8.ofNat (buf / 2 ^ (bits - 2) % 256) :: ·)
            else base64Loop buf (bits + 6) s

def base64Decode (s : Bytes) : Option Bytes := base64Loop 0 0 s

theorem base64Val_char {v : Nat} (h : v < 64) : base64Val (base64Char v) = some v := by
  interval_cases v <;> rfl

theorem base64Char_printable {v : Nat} (h : v < 64) :
    base64Skipped (base64Char v) = false := by
  interval_cases v <;> rfl

/-- One character of the alphabet. -/
theorem base64Loop_char {v : Nat} (h : v < 64) (buf bits : Nat) (s : Bytes) :
    base64Loop buf bits (base64Char v :: s) =
      if 8 ≤ bits + 6 then
        (base64Loop (buf * 64 + v) (bits - 2) s).map
          (UInt8.ofNat ((buf * 64 + v) / 2 ^ (bits - 2) % 256) :: ·)
      else base64Loop (buf * 64 + v) (bits + 6) s := by
  simp only [base64Loop, base64Char_printable h, base64Val_char h, Bool.false_eq_true, if_false]

private theorem ofNat_eq {n : Nat} {a : UInt8} (h : n = a.toNat) : UInt8.ofNat n = a := by
  rw [h, UInt8.ofNat_toNat]

/-- Decoding what was encoded gives the bytes back, whatever is left in `buf`. -/
theorem base64Loop_encode (b : Bytes) (buf : Nat) : base64Loop buf 0 (base64Encode b) = some b := by
  induction b using base64Encode.induct generalizing buf with
  | case1 a b c rest ih =>
      have ha := a.toNat_lt
      have hb := b.toNat_lt
      have hc := c.toNat_lt
      rw [base64Encode]
      generalize hn : a.toNat * 2 ^ 16 + b.toNat * 2 ^ 8 + c.toNat = n
      rw [base64Loop_char (Nat.mod_lt _ (by decide)), if_neg (by decide),
        base64Loop_char (Nat.mod_lt _ (by decide)), if_pos (by decide),
        base64Loop_char (Nat.mod_lt _ (by decide)), if_pos (by decide),
        base64Loop_char (Nat.mod_lt _ (by decide)), if_pos (by decide), ih]
      simp only [Option.map_some, Option.some.injEq, List.cons.injEq, and_true]
      refine ⟨ofNat_eq ?_, ofNat_eq ?_, ofNat_eq ?_⟩ <;> omega
  | case2 a b =>
      have ha := a.toNat_lt
      have hb := b.toNat_lt
      rw [base64Encode]
      generalize hn : a.toNat * 2 ^ 16 + b.toNat * 2 ^ 8 = n
      rw [base64Loop_char (Nat.mod_lt _ (by decide)), if_neg (by decide),
        base64Loop_char (Nat.mod_lt _ (by decide)), if_pos (by decide),
        base64Loop_char (Nat.mod_lt _ (by decide)), if_pos (by decide)]
      simp only [base64Loop, base64Skipped, decide_true, Bool.true_or, if_true, Option.map_some,
        Option.some.injEq, List.cons.injEq, and_true]
      refine ⟨ofNat_eq ?_, ofNat_eq ?_⟩ <;> omega
  | case3 a =>
      have ha := a.toNat_lt
      rw [base64Encode]
      generalize hn : a.toNat * 2 ^ 16 = n
      rw [base64Loop_char (Nat.mod_lt _ (by decide)), if_neg (by decide),
        base64Loop_char (Nat.mod_lt _ (by decide)), if_pos (by decide)]
      simp only [base64Loop, base64Skipped, decide_true, Bool.true_or, if_true, Option.map_some,
        Option.some.injEq, List.cons.injEq, and_true]
      exact ofNat_eq (by omega)
  | case4 => rfl

theorem base64Decode_encode (b : Bytes) : base64Decode (base64Encode b) = some b :=
  base64Loop_encode b 0

/-- No line end in the encoded form. -/
theorem newline_notMem_base64Encode (b : Bytes) : Lib.newline ∉ base64Encode b := by
  have hchar : ∀ {v : Nat}, v < 64 → Lib.newline ≠ base64Char v := by
    intro v hv e
    have := base64Char_printable hv
    rw [← e] at this
    exact absurd this (by decide)
  induction b using base64Encode.induct with
  | case1 a b c rest ih =>
      rw [base64Encode]
      simp only [List.mem_cons, not_or]
      exact ⟨hchar (Nat.mod_lt _ (by decide)), hchar (Nat.mod_lt _ (by decide)),
        hchar (Nat.mod_lt _ (by decide)), hchar (Nat.mod_lt _ (by decide)), ih⟩
  | case2 a b =>
      rw [base64Encode]
      simp only [List.mem_cons, not_or, List.not_mem_nil, not_false_eq_true, and_true]
      exact ⟨hchar (Nat.mod_lt _ (by decide)), hchar (Nat.mod_lt _ (by decide)),
        hchar (Nat.mod_lt _ (by decide)), by decide⟩
  | case3 a =>
      rw [base64Encode]
      simp only [List.mem_cons, not_or, List.not_mem_nil, not_false_eq_true, and_true]
      exact ⟨hchar (Nat.mod_lt _ (by decide)), hchar (Nat.mod_lt _ (by decide)), by decide,
        by decide⟩
  | case4 => simp [base64Encode]

end Splice
