import Splice.Lib.CrcBits
import Splice.Peer.Transfer

/-!
The checksum of a file, read piece by piece as both ends read it, and of a file that was
resumed: what stood in the part, and then whatever pieces the rest came in.
-/

namespace Splice.Peer
open Lib

/-- How much of a file is read at a time. -/
def crcChunk : Nat := 16384

/-- The loop of `crc32_file`: `left` bytes wanted still, of what `rest` of the file has. -/
def crc32Loop (rest : Bytes) (left : Nat) (crc : UInt32) : UInt32 :=
  if _h : left = 0 ∨ rest.take (min left crcChunk) = [] then crc
  else
    crc32Loop (rest.drop (min left crcChunk)) (left - (rest.take (min left crcChunk)).length)
      (crc32Update crc (rest.take (min left crcChunk)))
termination_by left
decreasing_by
  have some := List.length_pos_iff.mpr (not_or.mp _h).2
  have more := (not_or.mp _h).1
  omega

/-- Read to the end or to the bound, in however many pieces. -/
theorem crc32Loop_eq (rest : Bytes) (left : Nat) (crc : UInt32) :
    crc32Loop rest left crc = crc32Update crc (rest.take left) := by
  fun_induction crc32Loop rest left crc with
  | case1 rest left crc h =>
      have past : rest.take left = [] := by
        rcases h with h | h
        · rw [h, List.take_zero]
        · rw [List.take_eq_nil_iff] at h ⊢
          exact h.imp_left fun h => by simp only [crcChunk] at h; omega
      rw [past, crc32Update_nil]
  | case2 rest left crc h ih =>
      have pieces : rest.take left = rest.take (min left crcChunk) ++
          (rest.drop (min left crcChunk)).take
            (left - (rest.take (min left crcChunk)).length) := by
        by_cases all : rest.length ≤ min left crcChunk
        · rw [List.drop_eq_nil_of_le all, List.take_nil, List.append_nil,
            List.take_of_length_le all, List.take_of_length_le (by omega)]
        · rw [List.length_take_of_le (by omega), ← List.take_add]
          congr 1
          omega
      rw [ih, pieces, crc32Update_append]

/-- `crc32_file`, for the part of a file being received. -/
theorem crc32File_eq_loop (fs : FileSystem) (path : Bytes) (upto : Nat) :
    crc32File fs path upto = match fs.read (cstr path) with
      | none => 0
      | some content => crc32Loop content upto 0 := by
  rw [crc32File]
  cases fs.read (cstr path) with
  | none => simp
  | some content => exact (crc32Loop_eq content upto 0).symm

/-- `crc32_file`, for a file that is shared. -/
theorem sourceCrc_eq_loop (src : SourceFs) (path : Bytes) (upto : Nat) :
    src.crc32File path upto = match src.content path with
      | none => 0
      | some content => crc32Loop content upto 0 := by
  rw [SourceFs.crc32File]
  cases src.content path with
  | none => simp
  | some content => exact (crc32Loop_eq content upto 0).symm

/-- The checksum is the bitwise one whatever the pieces, and a file resumed at any offset gets
the checksum its offer was made with. -/
theorem crc32_incremental :
    (∀ pieces : List Bytes, pieces.foldl crc32Update 0 = crc32Bits pieces.flatten) ∧
    ∀ (src : SourceFs) (path whole : Bytes) (fs : FileSystem) (part : Bytes) (off : Nat)
      (pieces : List Bytes), src.content path = some whole →
      fs.read (cstr part) = some (whole.take off) → pieces.flatten = whole.drop off →
      pieces.foldl crc32Update (crc32File fs part off) = src.crc32File path whole.length := by
  refine ⟨fun pieces => (crc32Update_pieces 0 pieces).trans (crc32Update_bits _), ?_⟩
  intro src path whole fs part off pieces shared kept rest
  have prefixed : crc32File fs part off = crc32Update 0 (whole.take off) := by
    rw [crc32File, kept, Option.getD_some, List.take_take, Nat.min_self]
  have all : src.crc32File path whole.length = crc32Update 0 whole := by
    rw [SourceFs.crc32File, shared, Option.getD_some, List.take_length]
  rw [crc32Update_pieces, rest, prefixed, all, ← crc32Update_append, List.take_append_drop]

theorem resumed_hello :
    let src := Sample.dirOfOne (str "f") (str "hello") (by decide) (by decide) (by decide)
    let fs := (({ fs := FileSystem.empty } : Files).writeText (str "/f.part") (str "he")).fs
    [str "l", str "lo"].foldl crc32Update (crc32File fs (str "/f.part") 2) =
      src.crc32File (str "/d/f") 5 :=
  crc32_incremental.2 _ (str "/d/f") (str "hello") _ (str "/f.part") 2 [str "l", str "lo"]
    (by decide) (by decide +kernel) (by decide)

end Splice.Peer
