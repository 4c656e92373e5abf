import Mathlib.Algebra.GroupWithZero.Nat
import Mathlib.Data.List.Basic

/-!
Frames of a type byte, the payload's length in two bytes, big-endian, and the payload. A reader
takes complete frames off the front of what it has so far; those it finds do not depend on
where the stream is cut.
-/

namespace Splice.Lib

structure Frame where
  type : UInt8
  payload : List UInt8
  deriving DecidableEq

namespace Frame

/-- Its length fits. -/
def Sound (f : Frame) : Prop := f.payload.length < 65536

def encode (f : Frame) : List UInt8 :=
  f.type :: UInt8.ofNat (f.payload.length / 256) :: UInt8.ofNat f.payload.length :: f.payload

def encodeAll (fs : List Frame) : List UInt8 := fs.flatMap encode

/-- The first frame, if it is complete, and what follows it. -/
def take : List UInt8 → Option (Frame × List UInt8)
  | type :: hi :: lo :: rest =>
      let len := hi.toNat * 256 + lo.toNat
      if rest.length < len then none else some (⟨type, rest.take len⟩, rest.drop len)
  | _ => none

/-- At most `n` frames, and what follows them. -/
def takeUpTo : Nat → List UInt8 → List Frame × List UInt8
  | 0, b => ([], b)
  | n + 1, b =>
      match take b with
      | none => ([], b)
      | some (f, rest) => (f :: (takeUpTo n rest).1, (takeUpTo n rest).2)

/-- Every complete frame, and what follows them. -/
def drain (b : List UInt8) : List Frame × List UInt8 := takeUpTo b.length b

@[simp] theorem encodeAll_cons (f : Frame) (fs : List Frame) :
    encodeAll (f :: fs) = f.encode ++ encodeAll fs := rfl

@[simp] theorem encodeAll_append (fs gs : List Frame) :
    encodeAll (fs ++ gs) = encodeAll fs ++ encodeAll gs := List.flatMap_append

variable {f : Frame} {b rest : List UInt8} {fs : List Frame}

theorem take_encode (h : f.Sound) (y : List UInt8) : take (f.encode ++ y) = some (f, y) := by
  have hi : (UInt8.ofNat (f.payload.length / 256)).toNat = f.payload.length / 256 := by
    rw [UInt8.toNat_ofNat', Nat.mod_eq_of_lt]
    exact Nat.div_lt_of_lt_mul h
  have lo : (UInt8.ofNat f.payload.length).toNat = f.payload.length % 256 := UInt8.toNat_ofNat'
  have len : f.payload.length / 256 * 256 + f.payload.length % 256 = f.payload.length := by omega
  simp only [encode, List.cons_append, take, hi, lo, len]
  rw [if_neg (by simp), List.take_left, List.drop_left]

theorem take_shrinks (h : take b = some (f, rest)) : rest.length < b.length := by
  unfold take at h
  split at h
  · simp only at h
    split at h
    · cases h
    · cases h
      simp only [List.length_drop, List.length_cons]
      omega
  · cases h

/-- More bytes leave a complete frame what it is. -/
theorem take_append (h : take b = some (f, rest)) (y : List UInt8) :
    take (b ++ y) = some (f, rest ++ y) := by
  unfold take at h
  split at h
  · rename_i type hi lo tail
    simp only at h
    split at h
    · cases h
    · rename_i fits
      cases h
      have within : hi.toNat * 256 + lo.toNat ≤ tail.length := Nat.le_of_not_lt fits
      simp only [List.cons_append, take]
      rw [if_neg (by simp only [List.length_append]; omega), List.take_append_of_le_length within,
        List.drop_append_of_le_length within]
  · cases h

/-- With enough fuel the number of frames is no limit. -/
theorem takeUpTo_enough {n : Nat} (h : b.length ≤ n) : takeUpTo n b = drain b := by
  have more : ∀ (n m : Nat) (b : List UInt8), b.length ≤ n → b.length ≤ m →
      takeUpTo n b = takeUpTo m b := by
    intro n
    induction n with
    | zero =>
        intro m b hn _
        obtain rfl := List.length_eq_zero_iff.mp (Nat.le_zero.mp hn)
        cases m with
        | zero => rfl
        | succ m => rfl
    | succ n ih =>
        intro m b hn hm
        cases hb : take b with
        | none =>
            cases m with
            | zero => simp only [takeUpTo, hb]
            | succ m => simp only [takeUpTo, hb]
        | some p =>
            have shrinks := take_shrinks hb
            obtain ⟨m, rfl⟩ : ∃ m', m = m' + 1 := ⟨m - 1, by omega⟩
            simp only [takeUpTo, hb]
            rw [ih m p.2 (by omega) (by omega)]
  exact more n b.length b h (Nat.le_refl _)

theorem drain_none (h : take b = none) : drain b = ([], b) := by
  rw [← takeUpTo_enough (Nat.le_succ b.length), takeUpTo, h]

theorem drain_some (h : take b = some (f, rest)) :
    drain b = (f :: (drain rest).1, (drain rest).2) := by
  have shrinks := take_shrinks h
  rw [← takeUpTo_enough (Nat.le_succ b.length), takeUpTo, h]
  simp only [takeUpTo_enough (n := b.length) (b := rest) (by omega)]

/-- The first frame of a stream is found when all of it is there. -/
theorem take_prefix {y : List UInt8} (h : take b = some (f, rest)) (sound : ∀ g ∈ fs, g.Sound)
    (stream : b ++ y = encodeAll fs) : ∃ gs, fs = f :: gs ∧ rest ++ y = encodeAll gs := by
  have first := take_append h y
  cases fs with
  | nil =>
      rw [stream] at first
      cases first
  | cons g gs =>
      rw [stream, encodeAll_cons, take_encode (sound g List.mem_cons_self), Option.some.injEq,
        Prod.mk.injEq] at first
      exact ⟨gs, by rw [first.1], first.2.symm⟩

/-- What is taken off the front of a stream of frames are its first frames, wherever it is cut. -/
theorem drain_prefix {y : List UInt8} (sound : ∀ g ∈ fs, g.Sound) (stream : b ++ y = encodeAll fs) :
    ∃ gs, fs = (drain b).1 ++ gs ∧ (drain b).2 ++ y = encodeAll gs := by
  induction fs generalizing b with
  | nil =>
      obtain ⟨rfl, rfl⟩ := List.append_eq_nil_iff.mp stream
      exact ⟨[], rfl, rfl⟩
  | cons g gs ih =>
      cases hb : take b with
      | none =>
          rw [drain_none hb]
          exact ⟨g :: gs, rfl, stream⟩
      | some p =>
          obtain ⟨gs', hgs, tail⟩ := take_prefix hb sound stream
          obtain ⟨rfl, rfl⟩ := List.cons.inj hgs
          obtain ⟨hs, hhs, last⟩ := ih (fun g hg => sound g (List.mem_cons_of_mem _ hg)) tail
          rw [drain_some hb]
          exact ⟨hs, by rw [List.cons_append, ← hhs], last⟩

/-- No complete frame is left. -/
theorem take_drain (b : List UInt8) : take (drain b).2 = none := by
  have drained : ∀ (n : Nat) (b : List UInt8), b.length ≤ n → take (drain b).2 = none := by
    intro n
    induction n with
    | zero =>
        intro b hn
        obtain rfl := List.length_eq_zero_iff.mp (Nat.le_zero.mp hn)
        rfl
    | succ n ih =>
        intro b hn
        cases hb : take b with
        | none =>
            rw [drain_none hb]
            exact hb
        | some p =>
            rw [drain_some hb]
            have := take_shrinks hb
            exact ih p.2 (by omega)
  exact drained b.length b (Nat.le_refl _)

theorem length_encode (f : Frame) : f.encode.length = 3 + f.payload.length := by
  simp only [encode, List.length_cons]
  omega

theorem length_take (h : take b = some (f, rest)) :
    b.length = 3 + f.payload.length + rest.length := by
  unfold take at h
  split at h
  · simp only at h
    split at h
    · cases h
    · cases h
      simp only [List.length_cons, List.length_take, List.length_drop]
      omega
  · cases h

/-- An incomplete frame is shorter than the longest one. -/
theorem length_of_take (h : take b = none) : b.length < 3 + 65535 := by
  unfold take at h
  split at h
  · rename_i type hi lo rest
    simp only at h
    split at h
    · rename_i short
      have := hi.toNat_lt
      have := lo.toNat_lt
      simp only [List.length_cons]
      omega
    · cases h
  · rename_i few
    match b, few with
    | [], _ | [_], _ | [_, _], _ => simp only [List.length_nil, List.length_cons]; omega
    | x :: y :: z :: rest, few => exact absurd rfl (few x y z rest)

/-- Draining keeps every byte, in a frame or in what is left. -/
theorem length_drain (b : List UInt8) :
    ((drain b).1.map fun f => 3 + f.payload.length).sum + (drain b).2.length = b.length := by
  induction hn : b.length using Nat.strongRecOn generalizing b with
  | _ n ih =>
      cases hb : take b with
      | none => simp [drain_none hb, hn]
      | some p =>
          have whole := length_take hb
          have := ih p.2.length (by omega) p.2 rfl
          simp only [drain_some hb, List.map_cons, List.sum_cons]
          omega

/-- A stream of which no complete frame is left has come to its end. -/
theorem eq_nil_of_take (sound : ∀ g ∈ fs, g.Sound) (h : take (encodeAll fs) = none) : fs = [] := by
  cases fs with
  | nil => rfl
  | cons g gs =>
      rw [encodeAll_cons, take_encode (sound g List.mem_cons_self)] at h
      cases h

end Frame
end Splice.Lib
