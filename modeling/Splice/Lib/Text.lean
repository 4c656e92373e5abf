import Mathlib.Data.List.Basic
import Mathlib.Tactic.IntervalCases
import Mathlib.Tactic.Ring

/-!
Text the way the C library reads and writes it: lines, fields between separators, decimal
and hexadecimal numerals, and the number at the start of a string (`strtoul`).
-/

namespace Splice.Lib

def newline : UInt8 := 10

/-- What repeated `getline` returns: a last line needs no newline, an empty one after
the last newline does not count. -/
def lines : List UInt8 → List (List UInt8)
  | [] => []
  | b :: bs =>
      if b = newline then [] :: lines bs
      else match lines bs with
        | [] => [[b]]
        | l :: ls => (b :: l) :: ls

theorem lines_append {l : List UInt8} (h : newline ∉ l) (s : List UInt8) :
    lines (l ++ newline :: s) = l :: lines s := by
  induction l with
  | nil => simp [lines]
  | cons b l ih =>
      simp only [List.mem_cons, not_or] at h
      simp [lines, Ne.symm h.1, ih h.2]

theorem newline_notMem_of_mem_lines {s l : List UInt8} (h : l ∈ lines s) : newline ∉ l := by
  induction s generalizing l with
  | nil => simp [lines] at h
  | cons b s ih =>
      simp only [lines] at h
      split at h
      · rcases List.mem_cons.mp h with rfl | h
        · simp
        · exact ih h
      · rename_i hb
        split at h
        · rw [List.mem_singleton] at h
          simp [h, Ne.symm hb]
        · rename_i l' ls hs
          rcases List.mem_cons.mp h with rfl | h
          · have := ih (hs ▸ List.mem_cons_self)
            simp [this, Ne.symm hb]
          · exact ih (hs ▸ List.mem_cons_of_mem l' h)

/-- The text before the first newline. -/
def firstLine (s : List UInt8) : List UInt8 := s.takeWhile (· ≠ newline)

theorem firstLine_append {s : List UInt8} (h : newline ∉ s) (t : List UInt8) :
    firstLine (s ++ t) = s ++ firstLine t := by
  apply List.takeWhile_append_of_pos
  intro b hb
  rw [decide_eq_true_eq]
  exact fun e => h (e ▸ hb)

theorem firstLine_of_notMem {s : List UInt8} (h : newline ∉ s) : firstLine s = s := by
  simpa [firstLine] using firstLine_append h []

theorem firstLine_append_of_mem {s : List UInt8} (h : newline ∈ s) (t : List UInt8) :
    firstLine (s ++ t) = firstLine s := by
  induction s with
  | nil => simp at h
  | cons b s ih =>
      rw [List.cons_append, firstLine, firstLine, List.takeWhile_cons, List.takeWhile_cons]
      split
      · rename_i hb
        congr 1
        refine ih ((List.mem_cons.mp h).resolve_left fun e => ?_)
        simp [e] at hb
      · rfl

theorem firstLine_append_newline (s : List UInt8) : firstLine (s ++ [newline]) = firstLine s := by
  by_cases h : newline ∈ s
  · exact firstLine_append_of_mem h [newline]
  · rw [firstLine_append h, firstLine_of_notMem h]
    exact List.append_nil s

theorem firstLine_length_le (s : List UInt8) : (firstLine s).length ≤ s.length :=
  (List.takeWhile_prefix _).length_le

/-! ## Fields -/

section Fields
variable {α : Type} {p : α → Bool}

/-- The runs between separators, without the empty ones: what `>>` into a string reads. -/
def fields (p : α → Bool) (xs : List α) : List (List α) :=
  (xs.splitOnP p).filter fun w => !w.isEmpty

theorem fields_append_cons (xs ys : List α) {sep : α} (h : p sep = true) :
    fields p (xs ++ sep :: ys) = fields p xs ++ fields p ys := by
  rw [fields, List.splitOnP_append_cons xs ys h, List.filter_append]
  rfl

theorem fields_whole {xs : List α} (hne : xs ≠ []) (h : ∀ x ∈ xs, p x = false) :
    fields p xs = [xs] := by
  rw [fields, List.splitOnP_eq_singleton h]
  simp [hne]

theorem splitOnP_append (xs ys : List α) (h : ∀ x ∈ xs, p x = false) :
    (xs ++ ys).splitOnP p = (ys.splitOnP p).modifyHead (xs ++ ·) := by
  induction xs with
  | nil => cases hy : ys.splitOnP p <;> simp [hy]
  | cons x xs ih =>
      rw [List.cons_append, List.splitOnP_cons_eq_if_modifyHead,
        ih fun y hy => h y (List.mem_cons_of_mem x hy),
        h x List.mem_cons_self, if_neg (by decide)]
      cases ys.splitOnP p <;> rfl

theorem mem_splitOnP {xs w : List α} (h : w ∈ xs.splitOnP p) :
    w <:+: xs ∧ (∀ x ∈ w, p x = false) ∧
      (∀ ws, xs.splitOnP p = w :: ws → w <+: xs) := by
  induction xs generalizing w with
  | nil =>
      rw [List.splitOnP_nil, List.mem_singleton] at h
      subst h
      exact ⟨List.infix_refl [], by simp, fun _ _ => List.prefix_refl []⟩
  | cons x xs ih =>
      rw [List.splitOnP_cons_eq_if_modifyHead] at h ⊢
      split at h
      · rename_i hx
        rw [if_pos hx]
        rcases List.mem_cons.mp h with rfl | h
        · exact ⟨List.nil_infix, by simp, fun _ _ => List.nil_prefix⟩
        · refine ⟨List.infix_cons (ih h).1, (ih h).2.1, ?_⟩
          intro ws hws
          rw [List.cons.injEq] at hws
          rw [← hws.1]
          exact List.nil_prefix
      · rename_i hx
        rw [if_neg hx]
        cases hs : xs.splitOnP p with
        | nil => exact absurd hs (List.splitOnP_ne_nil p xs)
        | cons v vs =>
            have hv := ih (hs ▸ List.mem_cons_self)
            have hpre : x :: v <+: x :: xs := List.prefix_cons_inj x |>.mpr (hv.2.2 vs hs)
            rw [hs, List.modifyHead_cons] at h
            rcases List.mem_cons.mp h with rfl | h
            · refine ⟨hpre.isInfix, ?_, fun _ _ => hpre⟩
              intro y hy
              rcases List.mem_cons.mp hy with rfl | hy
              · simpa using hx
              · exact hv.2.1 y hy
            · have hw := ih (hs ▸ List.mem_cons_of_mem v h)
              refine ⟨List.infix_cons hw.1, hw.2.1, ?_⟩
              intro ws hws
              rw [List.modifyHead_cons, List.cons.injEq] at hws
              rw [← hws.1]
              exact hpre

theorem mem_fields {xs w : List α} (h : w ∈ fields p xs) :
    w <:+: xs ∧ (∀ x ∈ w, p x = false) ∧ w ≠ [] := by
  obtain ⟨hmem, hne⟩ := List.mem_filter.mp h
  exact ⟨(mem_splitOnP hmem).1, (mem_splitOnP hmem).2.1, by simpa using hne⟩

/-- Text made of one piece for each symbol: where exactly the symbols of `q` make a
separator, the fields are made of the fields before. -/
theorem fields_flatMap {β : Type} {q : β → Bool} {g : β → List α} (hne : ∀ c, g c ≠ [])
    (hsep : ∀ c, q c = true → ∃ sep, p sep = true ∧ g c = [sep])
    (hkeep : ∀ c, q c = false → ∀ x ∈ g c, p x = false) (s : List β) :
    fields p (s.flatMap g) = (fields q s).map (·.flatMap g) := by
  have hsplit : (s.flatMap g).splitOnP p = (s.splitOnP q).map (·.flatMap g) := by
    induction s with
    | nil => rfl
    | cons c s ih =>
        rw [List.flatMap_cons, List.splitOnP_cons_eq_if_modifyHead]
        cases hc : q c with
        | true =>
            obtain ⟨sep, hp, hg⟩ := hsep c hc
            rw [hg, List.singleton_append, List.splitOnP_cons_eq_if_modifyHead, if_pos hp, ih]
            rfl
        | false =>
            rw [splitOnP_append _ _ (hkeep c hc), ih, if_neg (by decide)]
            cases s.splitOnP q <;> simp
  rw [fields, fields, hsplit, List.filter_map]
  congr 1
  apply List.filter_congr
  intro w _
  cases w with
  | nil => rfl
  | cons c w => simp [hne c]

end Fields

/-! ## Numerals -/

/-- The byte of an ASCII character. -/
def ascii (c : Char) : UInt8 := UInt8.ofNat c.toNat

def decimal (n : Nat) : List UInt8 := (Nat.toDigits 10 n).map ascii

/-- `n` lowercase hexadecimal digits, most significant first. -/
def hex : Nat → Nat → List UInt8
  | 0, _ => []
  | n + 1, v => ascii (Nat.digitChar (v / 16 ^ n % 16)) :: hex n v

/-- `isspace` in the C locale. -/
def isSpace (b : UInt8) : Bool := b = 32 || (9 ≤ b && b ≤ 13)

def digitVal (base : Nat) (b : UInt8) : Option Nat :=
  let d : Option Nat :=
    if 48 ≤ b ∧ b ≤ 57 then some (b.toNat - 48)
    else if 97 ≤ b ∧ b ≤ 122 then some (b.toNat - 87)
    else if 65 ≤ b ∧ b ≤ 90 then some (b.toNat - 55)
    else none
  d.filter fun d => d < base

def digitRun (base : Nat) : Nat → List UInt8 → Nat × List UInt8
  | acc, [] => (acc, [])
  | acc, b :: bs =>
      match digitVal base b with
      | some d => digitRun base (acc * base + d) bs
      | none => (acc, b :: bs)

def startsWithDigit (base : Nat) (s : List UInt8) : Bool :=
  match s with
  | [] => false
  | b :: _ => (digitVal base b).isSome

def sign : List UInt8 → Bool × List UInt8
  | [] => (false, [])
  | b :: s => if b = 45 then (true, s) else if b = 43 then (false, s) else (false, b :: s)

/-- A base 16 numeral may start with 0x. -/
def skip0x (base : Nat) : List UInt8 → List UInt8
  | z :: x :: s =>
      if base = 16 ∧ z = 48 ∧ (x = 120 ∨ x = 88) ∧ startsWithDigit 16 s then s else z :: x :: s
  | s => s

/-- Sign and digits after the leading blanks. -/
def numeralStart (base : Nat) (s : List UInt8) : Bool × List UInt8 :=
  let (neg, s) := sign (s.dropWhile isSpace)
  (neg, skip0x base s)

/-- `strtoul` and `strtoull` (64 bits both): the value and the text after the numeral. -/
def strtoul (base : Nat) (s : List UInt8) : Nat × List UInt8 :=
  let (neg, digits) := numeralStart base s
  if startsWithDigit base digits then
    let (v, rest) := digitRun base 0 digits
    (if 2 ^ 64 ≤ v then 2 ^ 64 - 1 else if neg then (2 ^ 64 - v) % 2 ^ 64 else v, rest)
  else (0, s)

theorem digitRun_suffix (base acc : Nat) (s : List UInt8) : (digitRun base acc s).2 <:+ s := by
  induction s generalizing acc with
  | nil => exact List.suffix_refl []
  | cons b s ih =>
      rw [digitRun]
      split
      · exact (ih _).trans (List.suffix_cons b s)
      · exact List.suffix_refl _

theorem numeralStart_suffix (base : Nat) (s : List UInt8) : (numeralStart base s).2 <:+ s := by
  have hskip : ∀ t : List UInt8, skip0x base t <:+ t := by
    intro t
    match t with
    | [] => exact List.suffix_refl []
    | [_] => exact List.suffix_refl _
    | z :: x :: t =>
        simp only [skip0x]
        split
        · exact (List.suffix_cons x t).trans (List.suffix_cons z (x :: t))
        · exact List.suffix_refl _
  have hsign : ∀ t : List UInt8, (sign t).2 <:+ t := by
    intro t
    cases t with
    | nil => exact List.suffix_refl []
    | cons b t =>
        simp only [sign]
        split
        · exact List.suffix_cons b t
        · split
          · exact List.suffix_cons b t
          · exact List.suffix_refl _
  exact (hskip _).trans ((hsign _).trans (List.dropWhile_suffix _))

theorem strtoul_suffix (base : Nat) (s : List UInt8) : (strtoul base s).2 <:+ s := by
  simp only [strtoul]
  split
  · exact (digitRun_suffix base 0 _).trans (numeralStart_suffix base s)
  · exact List.suffix_refl s

/-- `strtol` and `strtoll`, the value only. -/
def strtol (base : Nat) (s : List UInt8) : Int :=
  let (neg, digits) := numeralStart base s
  let v : Int := (digitRun base 0 digits).1
  if neg then max (-v) (-2 ^ 63) else min v (2 ^ 63 - 1)

/-- The `int` that `atoi` makes of it. -/
def atoi (s : List UInt8) : Int := Int.bmod (strtol 10 s) (2 ^ 32)

theorem digitVal_digitChar {base d : Nat} (hd : d < base) (h16 : d < 16) :
    digitVal base (ascii (Nat.digitChar d)) = some d := by
  interval_cases d <;> simpa [digitVal, ascii, Nat.digitChar] using hd

theorem digitChar_not_blank {d : Nat} (h16 : d < 16) :
    let b := ascii (Nat.digitChar d)
    isSpace b = false ∧ b ≠ 45 ∧ b ≠ 43 ∧ b ≠ 120 ∧ b ≠ 88 := by
  interval_cases d <;> decide

theorem decimal_eq (n : Nat) : decimal n =
    if n < 10 then [ascii (Nat.digitChar n)]
    else decimal (n / 10) ++ [ascii (Nat.digitChar (n % 10))] := by
  rw [decimal, Nat.toDigits_eq_if (by decide)]
  split <;> simp [decimal]

/-- A decimal numeral starts with a digit. -/
theorem decimal_head (n : Nat) : ∃ d s, d < 10 ∧ decimal n = ascii (Nat.digitChar d) :: s := by
  induction n using Nat.strong_induction_on with
  | _ n ih =>
      rw [decimal_eq]
      split
      · exact ⟨n, [], by assumption, rfl⟩
      · obtain ⟨d, s, hd, hs⟩ := ih (n / 10) (by omega)
        exact ⟨d, s ++ [ascii (Nat.digitChar (n % 10))], hd, by rw [hs]; rfl⟩

theorem mem_decimal {n : Nat} {b : UInt8} (h : b ∈ decimal n) :
    ∃ d, d < 10 ∧ b = ascii (Nat.digitChar d) := by
  induction n using Nat.strong_induction_on with
  | _ n ih =>
      rw [decimal_eq] at h
      split at h
      · exact ⟨n, by assumption, List.mem_singleton.mp h⟩
      · rcases List.mem_append.mp h with h | h
        · exact ih (n / 10) (by omega) h
        · exact ⟨n % 10, by omega, List.mem_singleton.mp h⟩

theorem digitRun_decimal (n : Nat) (rest : List UInt8) :
    digitRun 10 0 (decimal n ++ rest) = digitRun 10 n rest := by
  induction n using Nat.strong_induction_on generalizing rest with
  | _ n ih =>
      rw [decimal_eq]
      split
      · rename_i hn
        simp [digitRun, digitVal_digitChar hn (by omega)]
      · rw [List.append_assoc, ih (n / 10) (by omega)]
        have hd : digitVal 10 (ascii (Nat.digitChar (n % 10))) = some (n % 10) :=
          digitVal_digitChar (by omega) (by omega)
        simp only [List.singleton_append, digitRun, hd]
        congr 1
        omega

theorem digitRun_hex (n v acc : Nat) (rest : List UInt8) :
    digitRun 16 acc (hex n v ++ rest) = digitRun 16 (acc * 16 ^ n + v % 16 ^ n) rest := by
  induction n generalizing acc with
  | zero => simp [hex, Nat.mod_one]
  | succ n ih =>
      have hd : v / 16 ^ n % 16 < 16 := Nat.mod_lt _ (by decide)
      simp only [hex, List.cons_append, digitRun, digitVal_digitChar hd hd]
      rw [ih]
      congr 1
      rw [show 16 ^ (n + 1) = 16 ^ n * 16 from Nat.pow_succ .., Nat.mod_mul]
      ring

theorem digitRun_stop {base n : Nat} {rest : List UInt8} (h : startsWithDigit base rest = false) :
    digitRun base n rest = (n, rest) := by
  cases rest with
  | nil => rfl
  | cons b rest =>
      have hb : digitVal base b = none := by simpa [startsWithDigit] using h
      simp [digitRun, hb]

theorem startsWithDigit_cons {base d : Nat} (hd : d < base) (h16 : d < 16) (s : List UInt8) :
    startsWithDigit base (ascii (Nat.digitChar d) :: s) = true := by
  simp [startsWithDigit, digitVal_digitChar hd h16]

theorem numeralStart_digit {base d : Nat} (h16 : d < 16) {s : List UInt8}
    (hx : base = 16 → s.head? ≠ some 120 ∧ s.head? ≠ some 88) :
    numeralStart base (ascii (Nat.digitChar d) :: s) =
      (false, ascii (Nat.digitChar d) :: s) := by
  obtain ⟨hsp, hm, hp, -⟩ := digitChar_not_blank h16
  simp only [numeralStart, List.dropWhile_cons, hsp, Bool.false_eq_true, if_false, sign, hm, hp]
  cases s with
  | nil => rfl
  | cons x s =>
      simp only [List.head?_cons, ne_eq, Option.some.injEq] at hx
      simp only [skip0x]
      rw [if_neg]
      rintro ⟨hbase, -, hx', -⟩
      obtain ⟨h₁, h₂⟩ := hx hbase
      exact hx'.elim h₁ h₂

/-- A numeral in front of text that does not go on with digits is read back whole. -/
theorem strtoul_numeral {base n d : Nat} (hn : n < 2 ^ 64) (hd : d < base) (h16 : d < 16)
    {s rest : List UInt8} (hx : base = 16 → s.head? ≠ some 120 ∧ s.head? ≠ some 88)
    (hrun : digitRun base 0 (ascii (Nat.digitChar d) :: s) = (n, rest)) :
    strtoul base (ascii (Nat.digitChar d) :: s) = (n, rest) := by
  simp only [strtoul, numeralStart_digit h16 hx, startsWithDigit_cons hd h16, hrun, if_true,
    Bool.false_eq_true, if_false]
  rw [if_neg (by omega)]

theorem strtoul_decimal {n : Nat} (hn : n < 2 ^ 64) {rest : List UInt8}
    (hrest : startsWithDigit 10 rest = false) : strtoul 10 (decimal n ++ rest) = (n, rest) := by
  have hrun : digitRun 10 0 (decimal n ++ rest) = (n, rest) := by
    rw [digitRun_decimal, digitRun_stop hrest]
  obtain ⟨d, s, hd, hs⟩ := decimal_head n
  rw [hs, List.cons_append] at hrun ⊢
  exact strtoul_numeral hn hd (by omega) (by simp) hrun

theorem strtol_numeral {n : Nat} {neg : Bool} {s : List UInt8}
    (hs : numeralStart 10 s = (neg, decimal n)) :
    strtol 10 s = if neg then max (-(n : Int)) (-2 ^ 63) else min (n : Int) (2 ^ 63 - 1) := by
  have hrun : digitRun 10 0 (decimal n) = (n, []) := by
    have h := digitRun_decimal n []
    rwa [List.append_nil] at h
  simp only [strtol, hs, hrun]

theorem numeralStart_decimal (n : Nat) : numeralStart 10 (decimal n) = (false, decimal n) := by
  obtain ⟨d, s, hd, hs⟩ := decimal_head n
  rw [hs]
  exact numeralStart_digit (by omega) (by simp)

/-- A number is read back behind a minus sign too. -/
theorem numeralStart_minus (n : Nat) : numeralStart 10 (45 :: decimal n) = (true, decimal n) := by
  have hstart : sign ((45 :: decimal n).dropWhile isSpace) = (true, decimal n) := by
    rw [List.dropWhile_cons, if_neg (by decide)]
    rfl
  have hskip : skip0x 10 (decimal n) = decimal n := by
    unfold skip0x
    split
    · rename_i hs
      rw [if_neg (fun h => absurd h.1 (by decide)), hs]
    · rfl
  simp only [numeralStart, hstart, hskip]

theorem strtoul_hex {n v : Nat} (hn : n + 2 ≤ 16) (hv : v < 16 ^ (n + 2)) {rest : List UInt8}
    (hrest : startsWithDigit 16 rest = false) :
    strtoul 16 (hex (n + 2) v ++ rest) = (v, rest) := by
  have hrun : digitRun 16 0 (hex (n + 2) v ++ rest) = (v, rest) := by
    rw [digitRun_hex, Nat.mod_eq_of_lt hv, digitRun_stop hrest]
    simp
  have hlt : v < 2 ^ 64 := by
    calc v < 16 ^ (n + 2) := hv
      _ ≤ 16 ^ 16 := Nat.pow_le_pow_right (by decide) hn
      _ = 2 ^ 64 := by decide
  have h₁ : v / 16 ^ (n + 1) % 16 < 16 := Nat.mod_lt _ (by decide)
  have h₂ : v / 16 ^ n % 16 < 16 := Nat.mod_lt _ (by decide)
  simp only [hex, List.cons_append] at hrun ⊢
  refine strtoul_numeral hlt h₁ h₁ (fun _ => ?_) hrun
  obtain ⟨-, -, -, h⟩ := digitChar_not_blank h₂
  simpa using h

/-- No character of a numeral ends a line or a string. -/
theorem digitChar_text {d : Nat} (h16 : d < 16) :
    ascii (Nat.digitChar d) ≠ 0 ∧ ascii (Nat.digitChar d) ≠ newline := by
  interval_cases d <;> decide

theorem text_decimal {n : Nat} {b : UInt8} (h : b ∈ decimal n) : b ≠ 0 ∧ b ≠ newline := by
  obtain ⟨d, hd, rfl⟩ := mem_decimal h
  exact digitChar_text (by omega)

theorem text_hex {n v : Nat} {b : UInt8} (h : b ∈ hex n v) : b ≠ 0 ∧ b ≠ newline := by
  induction n with
  | zero => cases h
  | succ n ih =>
      rcases List.mem_cons.mp h with rfl | h
      · exact digitChar_text (Nat.mod_lt _ (by decide))
      · exact ih h

theorem length_hex (n v : Nat) : (hex n v).length = n := by
  induction n with
  | zero => rfl
  | succ n ih => rw [hex, List.length_cons, ih]

theorem length_decimal_le {n k : Nat} (hk : 0 < k) (h : n < 10 ^ k) : (decimal n).length ≤ k := by
  rw [decimal, List.length_map]
  exact (Nat.length_toDigits_le_iff (by decide) hk).mpr h

end Splice.Lib
