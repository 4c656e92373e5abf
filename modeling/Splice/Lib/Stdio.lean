import Splice.Lib.FileEffects

/-!
Files opened for writing through the C library. A handle keeps its inode and its own
offset; what is written waits in a buffer, and any part of the front of it may have
reached the file.
-/

namespace Splice.Lib

/-- A C string ends at its first NUL. -/
def cstr (s : List UInt8) : List UInt8 := s.takeWhile (· ≠ 0)

theorem cstr_append {s : List UInt8} (h : 0 ∉ s) (t : List UInt8) :
    cstr (s ++ t) = s ++ cstr t := by
  apply List.takeWhile_append_of_pos
  intro b hb
  rw [decide_eq_true_eq]
  exact fun e => h (e ▸ hb)

theorem cstr_eq {s : List UInt8} (h : 0 ∉ s) : cstr s = s := by
  simpa [cstr] using cstr_append h []

theorem zero_notMem_cstr (s : List UInt8) : 0 ∉ cstr s := by
  intro h
  simpa using List.all_eq_true.mp List.all_takeWhile 0 h

theorem cstr_append_of_mem {s : List UInt8} (h : 0 ∈ s) (t : List UInt8) :
    cstr (s ++ t) = cstr s := by
  induction s with
  | nil => simp at h
  | cons b s ih =>
      rw [List.cons_append, cstr, cstr, List.takeWhile_cons, List.takeWhile_cons]
      split
      · rename_i hb
        congr 1
        refine ih ((List.mem_cons.mp h).resolve_left fun e => ?_)
        simp [← e] at hb
      · rfl

/-- `b` put into a content at `pos`; a hole before it reads as zeros. -/
def writeAt (content : List UInt8) (pos : Nat) (b : List UInt8) : List UInt8 :=
  if b = [] then content
  else content.take pos ++ List.replicate (pos - content.length) 0 ++ b ++
    content.drop (pos + b.length)

/-- Writing at the end appends. -/
theorem writeAt_end (content b : List UInt8) : writeAt content content.length b = content ++ b := by
  rw [writeAt]
  split
  · rename_i hb
    simp [hb]
  · simp

@[simp] theorem writeAt_nil (content : List UInt8) (pos : Nat) : writeAt content pos [] = content :=
  if_pos rfl

/-- Two writes in a row are one. -/
theorem writeAt_append (content : List UInt8) (pos : Nat) (a b : List UInt8) :
    writeAt (writeAt content pos a) (pos + a.length) b = writeAt content pos (a ++ b) := by
  by_cases ha : a = []
  · rw [ha, writeAt_nil, List.length_nil, Nat.add_zero, List.nil_append]
  · by_cases hb : b = []
    · rw [hb, writeAt_nil, List.append_nil]
    · obtain ⟨front, hfront, length⟩ : ∃ front, content.take pos ++
          List.replicate (pos - content.length) 0 ++ a = front ∧ front.length = pos + a.length := by
        refine ⟨_, rfl, ?_⟩
        simp only [List.length_append, List.length_take, List.length_replicate]
        omega
      have once : writeAt content pos a = front ++ content.drop (pos + a.length) :=
        (if_neg ha).trans (hfront ▸ rfl)
      have full : pos + a.length - (front ++ content.drop (pos + a.length)).length = 0 := by
        rw [List.length_append, length]
        omega
      rw [once, writeAt, if_neg hb, full, ← length, List.take_left, List.replicate_zero,
        List.append_nil, ← List.drop_drop, List.drop_left, List.drop_drop, length, writeAt,
        if_neg (by simp [ha]), List.length_append, Nat.add_assoc, ← hfront]
      simp only [List.append_assoc]

theorem length_writeAt (content : List UInt8) (pos : Nat) {b : List UInt8} (hb : b ≠ []) :
    (writeAt content pos b).length = max content.length (pos + b.length) := by
  rw [writeAt, if_neg hb]
  simp only [List.length_append, List.length_take, List.length_replicate, List.length_drop]
  omega

theorem FileSystem.data_setData (fs : FileSystem) (i : Nat) (b : List UInt8) :
    (fs.setData i b).data i = b := by
  simp only [setData, Function.update_self]

theorem FileSystem.setData_setData (fs : FileSystem) (i : Nat) (a b : List UInt8) :
    (fs.setData i a).setData i b = fs.setData i b := by
  simp only [setData, Function.update_idem]

/-- A `FILE` open for writing. -/
structure Handle where
  ino : Nat
  /-- where the buffer goes -/
  pos : Nat
  buf : List UInt8 := []

namespace Handle

def fwrite (h : Handle) (b : List UInt8) : Handle := { h with buf := h.buf ++ b }

/-- The first `n` buffered bytes go to the file. -/
def flush (h : Handle) (n : Nat) (fs : FileSystem) : Handle × FileSystem :=
  ({ h with pos := h.pos + (h.buf.take n).length, buf := h.buf.drop n },
    fs.setData h.ino (writeAt (fs.data h.ino) h.pos (h.buf.take n)))

def fclose (h : Handle) (fs : FileSystem) : FileSystem := (h.flush h.buf.length fs).2

@[simp] theorem node_flush (h : Handle) (n : Nat) (fs : FileSystem) (q : Path) :
    (h.flush n fs).2.node q = fs.node q := rfl

/-- Nothing is buffered any more. -/
def settled (h : Handle) : Handle := { h with pos := h.pos + h.buf.length, buf := [] }

theorem settled_flush (h : Handle) (n : Nat) (fs : FileSystem) :
    (h.flush n fs).1.settled = h.settled := by
  simp only [flush, settled, Handle.mk.injEq, true_and, and_true, List.length_take,
    List.length_drop]
  omega

/-- What was handed on before makes no difference in the end. -/
theorem fclose_flush (h : Handle) (n : Nat) (fs : FileSystem) :
    (h.flush n fs).1.fclose (h.flush n fs).2 = h.fclose fs := by
  simp only [fclose, flush, List.take_length, FileSystem.setData_setData,
    FileSystem.data_setData]
  rw [writeAt_append, List.take_append_drop]

theorem settled_fwrite (h : Handle) (b : List UInt8) :
    (h.fwrite b).settled = (h.settled.fwrite b).settled := by
  simp [fwrite, settled, Nat.add_assoc]

theorem fclose_fwrite (h : Handle) (b : List UInt8) (fs : FileSystem) :
    (h.fwrite b).fclose fs = (h.settled.fwrite b).fclose (h.fclose fs) := by
  simp only [fclose, flush, fwrite, settled, List.take_length, FileSystem.setData_setData,
    FileSystem.data_setData,
    List.nil_append]
  rw [writeAt_append]

end Handle

namespace FileSystem

theorem resolve_of_node {fs fs' : FileSystem} (hnode : ∀ q, fs'.node q = fs.node q)
    (hcwd : fs'.cwd = fs.cwd) (path : List UInt8) : fs'.resolve path = fs.resolve path :=
  resolve_congr hcwd fun q _ => hnode q

@[simp] theorem resolve_flush (h : Handle) (n : Nat) (fs : FileSystem) (path : List UInt8) :
    (h.flush n fs).2.resolve path = fs.resolve path :=
  resolve_of_node (h.node_flush n fs) rfl path

end FileSystem
end Splice.Lib
