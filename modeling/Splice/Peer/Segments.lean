import Splice.Peer.Receiving

/-!
A receiving end under two cuts of one stream. What has reached the file differs from one cut to
the other, and from one C library to the other; the end itself, and the disk once its file is
closed, do not. A whole call is its bytes one after another, so nothing is left of the cuts.
-/

namespace Splice.Peer
open Lib FileSystem

namespace Files

/-- The two disks are the same, what they refuse apart from writes too, and neither refuses a
write. -/
structure Same (w w' : Files) : Prop where
  fs : w'.fs = w.fs
  touched : w'.touched = w.touched
  refuse : w'.refuse = w.refuse
  calls : w'.calls = w.calls
  grants : ∀ n, w.full n = false
  grants' : ∀ n, w'.full n = false

namespace Same
variable {w w' w'' : Files}

theorem refl (h : ∀ n, w.full n = false) : Same w w := ⟨rfl, rfl, rfl, rfl, h, h⟩

theorem symm (h : Same w w') : Same w' w :=
  ⟨h.fs.symm, h.touched.symm, h.refuse.symm, h.calls.symm, h.grants', h.grants⟩

theorem trans (h : Same w w') (h' : Same w' w'') : Same w w'' :=
  ⟨h'.fs.trans h.fs, h'.touched.trans h.touched, h'.refuse.trans h.refuse,
    h'.calls.trans h.calls, h.grants, h'.grants'⟩

theorem writes (h : Same w w') (n n' : Nat) :
    Same { w with writes := n } { w' with writes := n' } :=
  ⟨h.fs, h.touched, h.refuse, h.calls, h.grants, h.grants'⟩

theorem disk (h : Same w w') (f : FileSystem → FileSystem) :
    Same { w with fs := f w.fs } { w' with fs := f w'.fs } :=
  ⟨congrArg f h.fs, h.touched, h.refuse, h.calls, h.grants, h.grants'⟩

theorem call {α : Type} (h : Same w w') (paths : List Bytes)
    (op : FileSystem → Option (FileSystem × α)) :
    (w'.call paths op).1 = (w.call paths op).1 ∧ Same (w.call paths op).2 (w'.call paths op).2 := by
  simp only [Files.call, h.refuse, h.calls, h.fs]
  cases (if w.refuse w.calls = true then none else op w.fs) with
  | none => exact ⟨rfl, rfl, h.touched, rfl, rfl, h.grants, h.grants'⟩
  | some r => exact ⟨rfl, rfl, congrArg (· ++ paths) h.touched, rfl, rfl, h.grants, h.grants'⟩

theorem openTrunc (h : Same w w') (path : Bytes) :
    (w'.openTrunc path).1 = (w.openTrunc path).1 ∧
      Same (w.openTrunc path).2 (w'.openTrunc path).2 :=
  h.call _ _

theorem openUpdate (h : Same w w') (path : Bytes) (off : Nat) :
    (w'.openUpdate path off).1 = (w.openUpdate path off).1 ∧
      Same (w.openUpdate path off).2 (w'.openUpdate path off).2 :=
  h.call _ _

theorem rename (h : Same w w') (old new : Bytes) :
    (w'.rename old new).1 = (w.rename old new).1 ∧
      Same (w.rename old new).2 (w'.rename old new).2 := by
  have call := h.call [cstr old, cstr new] fun fs =>
    (fs.rename (cstr old) (cstr new)).map (·, ())
  revert call
  rw [Files.rename, Files.rename]
  cases w.call [cstr old, cstr new] fun fs => (fs.rename (cstr old) (cstr new)).map (·, ()) with
  | mk r w₁ =>
      cases w'.call [cstr old, cstr new] fun fs =>
        (fs.rename (cstr old) (cstr new)).map (·, ()) with
      | mk r' w₁' =>
          rintro ⟨rfl, same⟩
          cases r' with
          | none => exact ⟨rfl, same⟩
          | some _ => exact ⟨rfl, same⟩

theorem fclose (h : Same w w') (hd : Handle) : Same (w.fclose hd) (w'.fclose hd) :=
  h.disk hd.fclose

theorem mkdir (h : Same w w') (path : Bytes) : Same (w.mkdir path) (w'.mkdir path) :=
  (h.call _ _).2

theorem remove (h : Same w w') (path : Bytes) : Same (w.remove path) (w'.remove path) :=
  (h.call _ _).2

theorem writeText (h : Same w w') (path text : Bytes) :
    Same (w.writeText path text) (w'.writeText path text) :=
  (h.call _ _).2

theorem mkdirs (h : Same w w') (cur rest : Bytes) :
    Same (w.mkdirs cur rest) (w'.mkdirs cur rest) := by
  have cut : ∀ {w w' : Files}, Same w w' → ∀ cur, Same
      (if cur = [] ∨ cur = dot then w else w.mkdir cur)
      (if cur = [] ∨ cur = dot then w' else w'.mkdir cur) := by
    intro w w' h cur
    split
    · exact h
    · exact h.mkdir cur
  induction rest generalizing w w' cur with
  | nil => exact cut h cur
  | cons b rest ih =>
      rw [Files.mkdirs, Files.mkdirs]
      split
      · exact ih (cut h cur) _
      · exact ih h _

end Same
end Files

namespace GetFileEnd

/-- The same end on the same disk. -/
structure Agree (s s' : GetFileEnd × Files) : Prop where
  entry : s'.1 = s.1
  same : Files.Same s.2 s'.2

section Agree
variable {e : GetFileEnd} {w w' : Files}

theorem agree_closeFile (h : Files.Same w w') : Agree (e.closeFile w) (e.closeFile w') := by
  simp only [closeFile]
  split
  · exact ⟨rfl, h⟩
  · exact ⟨rfl, h.fclose _⟩

theorem agree_fail (h : Files.Same w w') (why : Bytes) : Agree (e.fail w why) (e.fail w' why) := by
  obtain ⟨entry, same⟩ := agree_closeFile (e := e) h
  exact ⟨congrArg (fun e : GetFileEnd => { e with err := why, shut := true }) entry, same⟩

theorem agree_finishEntry (h : Files.Same w w') : Agree (e.finishEntry w) (e.finishEntry w') := by
  obtain ⟨entry, same⟩ := agree_closeFile (e := e) h
  simp only [finishEntry, entry]
  split
  · exact agree_fail ((same.remove _).remove _) _
  · obtain ⟨moved, same⟩ := same.rename (e.closeFile w).1.part (e.closeFile w).1.dest
    revert moved same
    cases (e.closeFile w).2.rename (e.closeFile w).1.part (e.closeFile w).1.dest with
    | mk r w₁ =>
        cases (e.closeFile w').2.rename (e.closeFile w).1.part (e.closeFile w).1.dest with
        | mk r' w₁' =>
            rintro rfl same
            cases r' with
            | false => exact agree_fail same _
            | true => exact ⟨rfl, same.remove _⟩

theorem agree_startRecv (h : Files.Same w w') (hd : Handle) (off : Nat) (crc : UInt32) :
    Agree (e.startRecv w hd off crc) (e.startRecv w' hd off crc) := by
  simp only [startRecv]
  split
  · exact agree_finishEntry h
  · exact ⟨rfl, h⟩

theorem agree_openPart (h : Files.Same w w') : Agree (e.openPart w) (e.openPart w') := by
  simp only [openPart, h.fs]
  by_cases hoff : (e.resumeAt w.fs).1 > 0
  · obtain ⟨file, same⟩ := h.openUpdate e.part (e.resumeAt w.fs).1
    simp only [if_pos hoff, file]
    cases (w.openUpdate e.part (e.resumeAt w.fs).1).1 with
    | none => exact agree_fail same _
    | some hd => exact agree_startRecv same hd _ _
  · obtain ⟨file, same⟩ := h.openTrunc e.part
    simp only [if_neg hoff, file]
    cases (w.openTrunc e.part).1 with
    | none => exact agree_fail (same.writeText _ _) _
    | some hd => exact agree_startRecv (same.writeText _ _) hd _ _

theorem agree_placeEntry (h : Files.Same w w') : Agree (e.placeEntry w) (e.placeEntry w') := by
  have dest : (e.destination w').1 = (e.destination w).1 ∧
      Files.Same (e.destination w).2 (e.destination w').2 := by
    simp only [destination, h.fs]
    split
    · exact ⟨rfl, h.mkdirs _ _⟩
    · exact ⟨rfl, h⟩
  simp only [placeEntry, dest.1, dest.2.fs]
  split
  · exact agree_fail dest.2 _
  · exact agree_openPart dest.2

theorem agree_handleHeader (h : Files.Same w w') (line : Bytes) :
    Agree (e.handleHeader w line) (e.handleHeader w' line) := by
  simp only [handleHeader]
  split
  · exact ⟨rfl, h⟩
  · split
    · exact agree_fail h _
    · split
      · exact agree_fail h _
      · exact agree_placeEntry h

end Agree
/-! ## The loop -/

/-- What holds between two rounds: a file is open while an entry is received, and what was written
ends where the entry goes on, short of its end. -/
structure Ready (e : GetFileEnd) : Prop where
  header : e.state = .header → e.file = none
  recv : e.state = .recv → e.err = [] →
    e.got < e.size ∧ ∃ h, e.file = some h ∧ h.pos + h.buf.length = e.got
  done : e.state = .done → e.done = true

section Ready
variable {e : GetFileEnd} {w : Files} {b : Bytes}

theorem closeFile_fst (e : GetFileEnd) (w : Files) :
    (e.closeFile w).1 = { e with file := none } := by
  rw [closeFile]
  split
  · rename_i hf
    exact congrArg (fun f => { e with file := f }) hf
  · rfl

theorem closeFile_closeFile (e : GetFileEnd) (w w' : Files) :
    (e.closeFile w).1.closeFile w' = ((e.closeFile w).1, w') := by
  rw [closeFile_fst]
  rfl

theorem ready_fail (going : e.state ≠ .done) (w : Files) {why : Bytes} (hwhy : why ≠ []) :
    (e.fail w why).1.Ready := by
  simp only [fail, closeFile_fst]
  exact ⟨fun _ => rfl, fun _ err => absurd err hwhy, fun hs => absurd hs going⟩

theorem ready_finishEntry (receiving : e.state = .recv) (w : Files) :
    (e.finishEntry w).1.Ready := by
  have going : (e.closeFile w).1.state ≠ .done := by
    rw [closeFile_fst]
    exact fun hs => RecvState.noConfusion (receiving.symm.trans hs)
  simp only [finishEntry]
  split
  · exact ready_fail going _ (by simp [str])
  · split
    · exact ready_fail going _ (by simp [str])
    · rw [closeFile_fst]
      exact ⟨fun _ => rfl, (fun hs => by cases hs), (fun hs => by cases hs)⟩

theorem ready_startRecv {h : Handle} {off : Nat} (at_ : h.pos + h.buf.length = off)
    (within : off ≤ e.size) (w : Files) (crc : UInt32) : (e.startRecv w h off crc).1.Ready := by
  simp only [startRecv]
  split
  · exact ready_finishEntry rfl w
  · rename_i more
    exact ⟨(fun hs => by cases hs), fun _ _ => ⟨Nat.lt_of_le_of_ne within more, h, rfl, at_⟩,
      (fun hs => by cases hs)⟩

theorem resumeAt_le (e : GetFileEnd) (fs : FileSystem) : (e.resumeAt fs).1 ≤ e.size := by
  simp only [resumeAt]
  split
  · split
    · assumption
    · exact Nat.zero_le _
  · exact Nat.zero_le _

theorem ready_openPart (going : e.state ≠ .done) (w : Files) : (e.openPart w).1.Ready := by
  have within := e.resumeAt_le w.fs
  simp only [openPart]
  by_cases kept : (e.resumeAt w.fs).1 > 0
  · rw [if_pos kept]
    rcases w.openUpdate_cases e.part (e.resumeAt w.fs).1 with ⟨none, -⟩ | ⟨h, p, some, pos, buf, -⟩
    · rw [none]
      exact ready_fail going _ (by simp [str])
    · rw [some]
      exact ready_startRecv (by rw [pos, buf]; rfl) within _ _
  · rw [if_neg kept]
    rcases w.openTrunc_cases e.part with ⟨none, -⟩ | ⟨h, p, some, pos, buf, -⟩
    · rw [none]
      exact ready_fail going _ (by simp [str])
    · rw [some]
      refine ready_startRecv ?_ within _ _
      rw [pos, buf, Nat.eq_zero_of_not_pos kept]
      rfl

theorem ready_placeEntry (going : e.state ≠ .done) (w : Files) : (e.placeEntry w).1.Ready := by
  simp only [placeEntry]
  split
  · exact ready_fail (e := { e with dest := (e.destination w).1 }) going _ (by simp [str])
  · exact ready_openPart (e := { e with dest := (e.destination w).1 }) going _

theorem ready_handleHeader (going : e.state ≠ .done) (w : Files) (line : Bytes) :
    (e.handleHeader w line).1.Ready := by
  simp only [handleHeader]
  split
  · exact ⟨(fun hs => by cases hs), (fun hs => by cases hs), fun _ => rfl⟩
  · split
    · exact ready_fail going w (by simp [str])
    · split
      · exact ready_fail going w (by simp [str])
      · rename_i size crc rel _
        exact ready_placeEntry (e := { e with size := size, wantCrc := crc, relpath := rel }) going w

theorem scanHeader_line {hdr b line rest : Bytes} (h : scanHeader hdr b = .line line rest) :
    rest.length < b.length := by
  induction b generalizing hdr with
  | nil => cases h
  | cons c b ih =>
      simp only [scanHeader] at h
      split at h
      · cases h
        exact Nat.lt_succ_self _
      · split at h
        · cases h
        · exact Nat.lt_succ_of_lt (ih h)

/-- What the file takes in, before it is seen whether that is all. -/
def write (e : GetFileEnd) (x : Bytes) : GetFileEnd :=
  { e with file := e.file.map (·.fwrite x), crc := crc32Update e.crc x, got := e.got + x.length }

def complete (e : GetFileEnd) (w : Files) : GetFileEnd × Files :=
  if e.got = e.size then e.finishEntry w else (e, w)

/-- How much of `b` the entry takes. -/
def keep (e : GetFileEnd) (b : Bytes) : Nat := min b.length (e.size - e.got)

theorem round_header (header : e.state = .header) (w : Files) (b : Bytes) : e.round w b =
    match scanHeader e.hdr b with
    | .more hdr => (({ e with hdr := hdr }, w), [])
    | .line line rest => (({ e with hdr := [] }).handleHeader w line, rest)
    | .long hdr => (({ e with hdr := hdr }).fail w
        (str "not a SHARE_FILE pipe (no header)"), []) := by
  rw [round]
  split
  · rfl
  · rename_i hs
    cases header.symm.trans hs
  · rename_i hs
    cases header.symm.trans hs

/-- A round of `recv`: a write is refused, or it is done. -/
theorem round_recv (receiving : e.state = .recv) (w : Files) (b : Bytes) :
    (w.full w.writes = true ∧
      e.round w b = (e.fail { w with writes := w.writes + 1 } (str "write failed"), [])) ∨
    ∃ n, e.round w b =
      ((e.write (b.take (e.keep b))).complete { w with writes := n }, b.drop (e.keep b)) := by
  have length : (b.take (e.keep b)).length = e.keep b := by
    rw [List.length_take, keep]
    omega
  have counted : ∀ p : Prop, [Decidable p] → ∃ n,
      (if p then { w with writes := w.writes + 1 } else w) = { w with writes := n } := by
    intro p _
    split
    · exact ⟨w.writes + 1, rfl⟩
    · exact ⟨w.writes, rfl⟩
  rw [round]
  split
  · rename_i hs
    cases receiving.symm.trans hs
  · dsimp only
    split
    · rename_i refused
      exact .inl ⟨refused.2, rfl⟩
    · obtain ⟨n, hn⟩ := counted (min b.length (e.size - e.got) ≠ 0)
      refine .inr ⟨n, ?_⟩
      rw [hn, write, length, complete]
      unfold keep
      split
      · rfl
      · rfl
  · rename_i hs
    cases receiving.symm.trans hs

/-- A round takes something off what is to be read. -/
theorem Ready.shrinks (r : e.Ready) (some : b ≠ []) (err : e.err = []) :
    (e.round w b).2.length < b.length := by
  have positive : 0 < b.length := List.length_pos_iff.mpr some
  rw [GetFileEnd.round]
  split
  · split
    · exact positive
    · rename_i scan
      exact scanHeader_line scan
    · exact positive
  · rename_i receiving
    have more := (r.recv receiving err).1
    dsimp only
    split
    · exact positive
    · rw [List.length_drop]
      omega
  · exact positive

theorem Ready.receive (r : e.Ready) (receiving : e.state = .recv) (err : e.err = []) (w : Files)
    (b : Bytes) : (e.round w b).1.1.Ready := by
  have other : e.state ≠ .done := fun hs => RecvState.noConfusion (receiving.symm.trans hs)
  obtain ⟨more, h, hf, at_⟩ := r.recv receiving err
  rcases round_recv receiving w b with ⟨-, hround⟩ | ⟨n, hround⟩
  · rw [hround]
    exact ready_fail other _ (by simp [str])
  · rw [hround]
    simp only [complete]
    split
    · exact ready_finishEntry (e := e.write (b.take (e.keep b))) receiving _
    · rename_i short
      refine ⟨fun hs => RecvState.noConfusion (receiving.symm.trans hs), fun _ _ => ⟨?_, _,
        congrArg (Option.map fun h : Handle => h.fwrite (b.take (e.keep b))) hf, ?_⟩,
        fun hs => absurd hs other⟩
      · simp only [write, List.length_take, keep] at short ⊢
        omega
      · simp only [write, Handle.fwrite, List.length_append]
        omega

theorem Ready.round (r : e.Ready) (err : e.err = []) (w : Files) (b : Bytes) :
    (e.round w b).1.1.Ready := by
  cases hs : e.state with
  | recv => exact r.receive hs err w b
  | done =>
      simp only [GetFileEnd.round, hs]
      exact r
  | header =>
      have other : e.state ≠ .done := fun hd => RecvState.noConfusion (hs.symm.trans hd)
      rw [round_header hs]
      split
      · exact ⟨fun _ => r.header hs, fun hr => RecvState.noConfusion (hs.symm.trans hr),
          fun hd => absurd hd other⟩
      · exact ready_handleHeader (e := { e with hdr := [] }) other w _
      · rename_i hdr _
        exact ready_fail (e := { e with hdr := hdr }) other w (by simp [str])

theorem rounds_succ (n : Nat) (e : GetFileEnd) (w : Files) (b : Bytes) : rounds (n + 1) e w b =
    if b = [] ∨ e.done ∨ e.err ≠ [] then (e, w)
    else rounds n (e.round w b).1.1 (e.round w b).1.2 (e.round w b).2 := rfl

/-- With as much fuel as bytes the number of rounds is no limit. -/
theorem Ready.rounds_enough (r : e.Ready) {n m : Nat} (hn : b.length ≤ n) (hm : b.length ≤ m) :
    rounds n e w b = rounds m e w b := by
  induction n generalizing e w b m with
  | zero =>
      obtain rfl := List.length_eq_zero_iff.mp (Nat.le_zero.mp hn)
      cases m with
      | zero => rfl
      | succ m => simp [rounds]
  | succ n ih =>
      cases m with
      | zero =>
          obtain rfl := List.length_eq_zero_iff.mp (Nat.le_zero.mp hm)
          simp [rounds]
      | succ m =>
          rw [rounds_succ, rounds_succ]
          split
          · rfl
          · rename_i going
            simp only [not_or, Bool.not_eq_true, not_not] at going
            have := r.shrinks (w := w) going.1 going.2.2
            exact ih (r.round going.2.2 w b) (by omega) (by omega)

theorem onTunnelData_stopped (stopped : e.done = true ∨ e.err ≠ []) (w : Files) (b : Bytes) :
    e.onTunnelData w b = (e, w) := by
  rw [onTunnelData, rounds, if_pos (.inr stopped)]

@[simp] theorem onTunnelData_nil (e : GetFileEnd) (w : Files) : e.onTunnelData w [] = (e, w) := by
  rw [onTunnelData, rounds, if_pos (.inl rfl)]

/-- A call is its first round and a call for the rest. -/
theorem Ready.onTunnelData (r : e.Ready) (w : Files) (some : b ≠ []) (going : e.done = false)
    (err : e.err = []) : e.onTunnelData w b =
      (e.round w b).1.1.onTunnelData (e.round w b).1.2 (e.round w b).2 := by
  have shorter := r.shrinks (w := w) some err
  rw [GetFileEnd.onTunnelData, rounds_succ, if_neg (by simp [some, going, err])]
  exact (r.round err w b).rounds_enough (by omega) (by omega)

end Ready

/-! ## Up to what is buffered -/

def settled (e : GetFileEnd) : GetFileEnd := { e with file := e.file.map Handle.settled }

/-- The two may differ in how much of what they wrote has reached the file. -/
structure Alike (s s' : GetFileEnd × Files) : Prop where
  entry : s'.1.settled = s.1.settled
  same : Files.Same (s.1.closeFile s.2).2 (s'.1.closeFile s'.2).2

section Alike
variable {s s' s'' : GetFileEnd × Files} {e e' : GetFileEnd} {w w' : Files} {b : Bytes}

theorem full_closeFile (e : GetFileEnd) (w : Files) : (e.closeFile w).2.full = w.full := by
  rw [closeFile]
  split
  · rfl
  · rfl

theorem Alike.refl (granted : ∀ n, s.2.full n = false) : Alike s s :=
  ⟨rfl, .refl fun n => (congrFun (full_closeFile s.1 s.2) n).trans (granted n)⟩

theorem Alike.symm (a : Alike s s') : Alike s' s := ⟨a.entry.symm, a.same.symm⟩

theorem Alike.trans (a : Alike s s') (a' : Alike s' s'') : Alike s s'' :=
  ⟨a'.entry.trans a.entry, a.same.trans a'.same⟩

theorem Agree.alike (a : Agree s s') : Alike s s' := by
  refine ⟨congrArg settled a.entry, ?_⟩
  rw [a.entry]
  exact (agree_closeFile a.same).same

theorem Alike.granted (a : Alike s s') :
    (∀ n, s.2.full n = false) ∧ ∀ n, s'.2.full n = false :=
  ⟨fun n => (congrFun (full_closeFile s.1 s.2) n).symm.trans (a.same.grants n),
    fun n => (congrFun (full_closeFile s'.1 s'.2) n).symm.trans (a.same.grants' n)⟩

/-- They differ in their file only. -/
theorem Alike.field {α : Type} (a : Alike (e, w) (e', w')) (f : GetFileEnd → α)
    (plain : ∀ e, f e.settled = f e) : f e' = f e := by
  rw [← plain, ← plain e]
  exact congrArg f a.entry

/-- Once the file is closed nothing tells them apart. -/
theorem Alike.closeFile (a : Alike s s') : Agree (s.1.closeFile s.2) (s'.1.closeFile s'.2) := by
  refine ⟨?_, a.same⟩
  rw [closeFile_fst, closeFile_fst]
  exact congrArg (fun e : GetFileEnd => { e with file := none }) a.entry

theorem Alike.agree (a : Alike (e, w) (e', w')) (closed : e.file = none) :
    e' = e ∧ Files.Same w w' := by
  have closed' : e'.file = none := by
    have := congrArg file a.entry
    simp only [settled, closed, Option.map_none, Option.map_eq_none_iff] at this
    exact this
  have plain : ∀ {e : GetFileEnd}, e.file = none → e.settled = e ∧ ∀ w, (e.closeFile w).2 = w := by
    intro e hf
    refine ⟨?_, fun w => ?_⟩
    · rw [settled, hf, Option.map_none, ← hf]
    · simp only [GetFileEnd.closeFile, hf]
  have entry := a.entry
  have same := a.same
  simp only [(plain closed).1, (plain closed').1, (plain closed).2, (plain closed').2] at entry same
  exact ⟨entry, same⟩

theorem Alike.finishEntry (a : Alike (e, w) (e', w')) :
    Agree (e.finishEntry w) (e'.finishEntry w') := by
  have closes : ∀ (e : GetFileEnd) (w : Files),
      e.finishEntry w = (e.closeFile w).1.finishEntry (e.closeFile w).2 := by
    intro e w
    simp only [GetFileEnd.finishEntry, closeFile_closeFile]
  obtain ⟨entry, same⟩ := a.closeFile
  rw [closes e w, closes e' w', entry]
  exact agree_finishEntry same

theorem Alike.onTunnelClosed (a : Alike (e, w) (e', w')) :
    Alike (e.onTunnelClosed w) (e'.onTunnelClosed w') := by
  have done : e'.done = e.done := a.field GetFileEnd.done fun _ => rfl
  have err : e'.err = e.err := a.field GetFileEnd.err fun _ => rfl
  simp only [GetFileEnd.onTunnelClosed, done, err]
  split
  · exact a
  · obtain ⟨entry, same⟩ := a.closeFile
    exact Agree.alike ⟨congrArg (fun e : GetFileEnd =>
      { e with err := str "incomplete (the connection closed early)" }) entry, same⟩

theorem Alike.write (a : Alike (e, w) (e', w')) (x : Bytes) (n n' : Nat) :
    Alike (e.write x, { w with writes := n }) (e'.write x, { w' with writes := n' }) := by
  have settles : ∀ e : GetFileEnd, (e.write x).settled =
      { e.settled.write x with file := e.settled.file.map fun h => (h.fwrite x).settled } := by
    intro e
    cases hf : e.file with
    | none => simp [settled, GetFileEnd.write, hf]
    | some h => simp [settled, GetFileEnd.write, hf, ← Handle.settled_fwrite]
  refine ⟨?_, ?_⟩
  · simp only [settles, a.entry]
  · cases hf : e.file with
    | none =>
        obtain ⟨rfl, same⟩ := a.agree hf
        simp only [GetFileEnd.closeFile, GetFileEnd.write, hf, Option.map_none]
        exact same.writes n n'
    | some h =>
        have file := congrArg GetFileEnd.file a.entry
        simp only [settled, hf, Option.map_some, Option.map_eq_some_iff] at file
        obtain ⟨h', hf', settles⟩ := file
        have same := a.same
        simp only [GetFileEnd.closeFile, hf, hf'] at same
        simp only [GetFileEnd.closeFile, GetFileEnd.write, hf, hf', Option.map_some, Files.fclose]
        refine ⟨?_, same.touched, same.refuse, same.calls, same.grants, same.grants'⟩
        have disk := same.fs
        simp only [Files.fclose] at disk
        simp only [Handle.fclose_fwrite h', Handle.fclose_fwrite h, settles, disk]

theorem Alike.complete (a : Alike (e, w) (e', w')) :
    Alike (e.complete w) (e'.complete w') := by
  have got : e'.got = e.got := a.field GetFileEnd.got fun _ => rfl
  have size : e'.size = e.size := a.field GetFileEnd.size fun _ => rfl
  simp only [GetFileEnd.complete, got, size]
  split
  · exact a.finishEntry.alike
  · exact a

theorem Alike.round (a : Alike (e, w) (e', w')) (ready : e.Ready) (b : Bytes) :
    Alike (e.round w b).1 (e'.round w' b).1 ∧ (e'.round w' b).2 = (e.round w b).2 := by
  have state : e'.state = e.state := a.field GetFileEnd.state fun _ => rfl
  obtain ⟨granted, granted'⟩ := a.granted
  cases hs : e.state with
  | header =>
      obtain ⟨rfl, same⟩ := a.agree (ready.header hs)
      rw [round_header hs, round_header hs]
      split
      · exact ⟨Agree.alike ⟨rfl, same⟩, rfl⟩
      · exact ⟨(agree_handleHeader same _).alike, rfl⟩
      · exact ⟨(agree_fail same _).alike, rfl⟩
  | recv =>
      have keeps : e'.keep b = e.keep b := by
        have got : e'.got = e.got := a.field GetFileEnd.got fun _ => rfl
        have size : e'.size = e.size := a.field GetFileEnd.size fun _ => rfl
        rw [keep, keep, got, size]
      rcases round_recv hs w b with ⟨refused, -⟩ | ⟨n, round⟩
      · rw [granted] at refused
        cases refused
      · rcases round_recv (state.trans hs) w' b with ⟨refused, -⟩ | ⟨n', round'⟩
        · rw [granted'] at refused
          cases refused
        · rw [round, round', keeps]
          exact ⟨(a.write _ n n').complete, rfl⟩
  | done =>
      have idle : ∀ {e : GetFileEnd} {w : Files}, e.state = .done → e.round w b = ((e, w), []) := by
        intro e w hd
        simp only [GetFileEnd.round, hd]
      rw [idle hs, idle (state.trans hs)]
      exact ⟨a, rfl⟩

theorem Alike.rounds (a : Alike (e, w) (e', w')) (ready : e.Ready) (n : Nat) (b : Bytes) :
    Alike (rounds n e w b) (rounds n e' w' b) := by
  induction n generalizing e e' w w' b with
  | zero => exact a
  | succ n ih =>
      have done : e'.done = e.done := a.field GetFileEnd.done fun _ => rfl
      have err : e'.err = e.err := a.field GetFileEnd.err fun _ => rfl
      rw [rounds_succ, rounds_succ, done, err]
      split
      · exact a
      · rename_i going
        simp only [not_or, not_not] at going
        obtain ⟨a', rest⟩ := a.round ready b
        rw [rest]
        exact ih a' (ready.round going.2.2 w b) (e.round w b).2

theorem Alike.onTunnelData (a : Alike (e, w) (e', w')) (ready : e.Ready) (b : Bytes) :
    Alike (e.onTunnelData w b) (e'.onTunnelData w' b) :=
  a.rounds ready _ b

theorem Ready.rounds (r : e.Ready) (n : Nat) (w : Files) (b : Bytes) :
    (rounds n e w b).1.Ready := by
  induction n generalizing e w b with
  | zero => exact r
  | succ n ih =>
      rw [rounds_succ]
      split
      · exact r
      · rename_i going
        simp only [not_or, not_not] at going
        exact ih (r.round going.2.2 w b) _ _

theorem write_write (e : GetFileEnd) (x y : Bytes) : (e.write x).write y = e.write (x ++ y) := by
  simp only [write, Option.map_map, crc32Update_append, List.length_append, Nat.add_assoc,
    GetFileEnd.mk.injEq, and_true, true_and]
  congr 1
  funext h
  simp [Handle.fwrite]

theorem err_fail (e : GetFileEnd) (w : Files) (why : Bytes) : (e.fail w why).1.err = why := rfl

/-- A header byte. -/
theorem Ready.cons_header (r : e.Ready) (hs : e.state = .header) (going : e.done = false)
    (err : e.err = []) (w : Files) (c : UInt8) (b : Bytes) : e.onTunnelData w (c :: b) =
      (e.onTunnelData w [c]).1.onTunnelData (e.onTunnelData w [c]).2 b := by
  have first : ∀ {s₁ s : GetFileEnd × Files} {rest : Bytes}, e.round w [c] = (s₁, []) →
      e.round w (c :: b) = (s, rest) → s.1.onTunnelData s.2 rest = s₁.1.onTunnelData s₁.2 b →
      e.onTunnelData w (c :: b) =
        (e.onTunnelData w [c]).1.onTunnelData (e.onTunnelData w [c]).2 b := by
    intro s₁ s rest one all same
    rw [r.onTunnelData w (List.cons_ne_nil c b) going err,
      r.onTunnelData w (List.cons_ne_nil c []) going err, one, all, onTunnelData_nil]
    exact same
  rw [round_header hs, round_header hs] at first
  by_cases newline : c = newline
  · simp only [scanHeader, if_pos newline] at first
    exact first rfl rfl rfl
  · by_cases past : maxHeader < (e.hdr ++ [c]).length
    · simp only [scanHeader, if_neg newline, if_pos past] at first
      refine first rfl rfl ?_
      rw [onTunnelData_nil, onTunnelData_stopped (.inr (by rw [err_fail]; simp [str]))]
    · simp only [scanHeader, if_neg newline, if_neg past] at first
      by_cases last : b = []
      · subst last
        exact first rfl rfl rfl
      · have more : ({ e with hdr := e.hdr ++ [c] } : GetFileEnd).Ready :=
          ⟨r.header, r.recv, r.done⟩
        refine first rfl Prod.mk.eta.symm ?_
        rw [more.onTunnelData w last going err,
          round_header (e := { e with hdr := e.hdr ++ [c] }) hs]

/-- A byte of an entry. -/
theorem Ready.cons_recv (r : e.Ready) (hs : e.state = .recv) (going : e.done = false)
    (err : e.err = []) (granted : ∀ n, w.full n = false) (c : UInt8) (b : Bytes) :
    Alike (e.onTunnelData w (c :: b))
      ((e.onTunnelData w [c]).1.onTunnelData (e.onTunnelData w [c]).2 b) := by
  have accepts : ∀ {e : GetFileEnd} {w : Files}, e.state = .recv → (∀ n, w.full n = false) →
      ∀ b, ∃ n, e.round w b =
        ((e.write (b.take (e.keep b))).complete { w with writes := n }, b.drop (e.keep b)) := by
    intro e w hs granted b
    refine (round_recv hs w b).resolve_left fun ⟨refused, _⟩ => ?_
    rw [granted] at refused
    cases refused
  have more := (r.recv hs err).1
  have self : ∀ (e : GetFileEnd) (n n' : Nat),
      Alike (e, { w with writes := n }) (e, { w with writes := n' }) :=
    fun e n n' => Agree.alike ⟨rfl, (Files.Same.refl granted).writes n n'⟩
  obtain ⟨n, all⟩ := accepts hs granted (c :: b)
  obtain ⟨m, one⟩ := accepts hs granted [c]
  have keeps : e.keep [c] = 1 := by
    simp only [keep, List.length_singleton]
    omega
  rw [keeps] at one
  have rest := r.round err w (c :: b)
  rw [r.onTunnelData w (List.cons_ne_nil c b) going err,
    r.onTunnelData w (List.cons_ne_nil c []) going err]
  rw [all] at rest ⊢
  rw [one]
  simp only [List.take_succ_cons, List.take_zero, List.drop_succ_cons, List.drop_zero,
    onTunnelData_nil]
  by_cases full : e.got + 1 = e.size
  · have keepAll : e.keep (c :: b) = 1 := by
      simp only [keep, List.length_cons]
      omega
    rw [keepAll] at rest ⊢
    exact (self (e.write [c]) n m).complete.onTunnelData rest b
  · have short : ∀ m, (e.write [c]).complete { w with writes := m } =
        (e.write [c], { w with writes := m }) := fun m => if_neg full
    have ready := r.round err w [c]
    rw [one, show [c].take 1 = [c] from rfl, short] at ready
    rw [short]
    by_cases last : b = []
    · subst last
      rw [keeps, show [c].take 1 = [c] from rfl, show [c].drop 1 = [] from rfl, short,
        onTunnelData_nil, onTunnelData_nil]
      exact self (e.write [c]) n m
    · obtain ⟨k, next⟩ := accepts (e := e.write [c]) (w := { w with writes := m }) hs granted b
      have keepMore : e.keep (c :: b) = (e.write [c]).keep b + 1 := by
        simp only [keep, write, List.length_cons, List.length_nil]
        omega
      rw [ready.onTunnelData _ last going err, next, write_write]
      rw [keepMore, List.take_succ_cons] at rest ⊢
      exact (self (e.write (c :: b.take ((e.write [c]).keep b))) n k).complete.onTunnelData rest _

/-- The first byte may as well come alone. -/
theorem Ready.cons (r : e.Ready) (granted : ∀ n, w.full n = false) (c : UInt8) (b : Bytes) :
    Alike (e.onTunnelData w (c :: b))
      ((e.onTunnelData w [c]).1.onTunnelData (e.onTunnelData w [c]).2 b) := by
  have self : Alike (e, w) (e, w) := .refl granted
  by_cases stopped : e.done = true ∨ e.err ≠ []
  · rw [onTunnelData_stopped stopped, onTunnelData_stopped stopped, onTunnelData_stopped stopped]
    exact self
  · simp only [not_or, Bool.not_eq_true, not_not] at stopped
    obtain ⟨going, err⟩ := stopped
    cases hs : e.state with
    | header =>
        rw [← r.cons_header hs going err w c b]
        exact self.onTunnelData r _
    | recv => exact r.cons_recv hs going err granted c b
    | done =>
        have := r.done hs
        rw [going] at this
        cases this

/-- Two calls are as good as one. -/
theorem Ready.append (r : e.Ready) (granted : ∀ n, w.full n = false) (a b : Bytes) :
    Alike (e.onTunnelData w (a ++ b))
      ((e.onTunnelData w a).1.onTunnelData (e.onTunnelData w a).2 b) := by
  induction a generalizing e w with
  | nil =>
      rw [List.nil_append, onTunnelData_nil]
      exact (Alike.refl granted).onTunnelData r b
  | cons c a ih =>
      have ready := r.rounds (2 * [c].length + 1) w [c]
      have granted' := ((Alike.refl granted).onTunnelData r [c]).granted.1
      have first := (r.cons granted c (a ++ b)).trans (ih ready granted')
      exact first.trans ((r.cons granted c a).symm.onTunnelData
        (Ready.rounds ready (2 * a.length + 1) _ a) b)

theorem Alike.flush (granted : ∀ n, w.full n = false) (n : Nat) :
    Alike (e.flush w n) (e, w) := by
  cases hf : e.file with
  | none =>
      simp only [GetFileEnd.flush, hf]
      exact .refl granted
  | some h =>
      simp only [GetFileEnd.flush, hf]
      refine ⟨?_, ?_⟩
      · simp only [settled, hf, Option.map_some, Handle.settled_flush]
      · simp only [GetFileEnd.closeFile, hf, Files.fclose]
        exact ⟨(Handle.fclose_flush h n w.fs).symm, rfl, rfl, rfl, granted, granted⟩

theorem Ready.flush (r : e.Ready) (w : Files) (n : Nat) : (e.flush w n).1.Ready := by
  rw [GetFileEnd.flush]
  split
  · exact r
  · rename_i h hf
    refine ⟨fun hs => absurd ((r.header hs).symm.trans hf) (by simp), fun hs err => ?_, r.done⟩
    obtain ⟨more, h', hf', at_⟩ := r.recv hs err
    cases hf.symm.trans hf'
    refine ⟨more, _, rfl, ?_⟩
    simp only [Handle.flush, List.length_take, List.length_drop]
    omega

theorem Ready.onTunnelClosed (r : e.Ready) (w : Files) : (e.onTunnelClosed w).1.Ready := by
  rw [GetFileEnd.onTunnelClosed]
  split
  · exact r
  · simp only [closeFile_fst]
    exact ⟨fun _ => rfl, fun _ err => absurd err (by simp [str]), r.done⟩

theorem Ready.run (r : e.Ready) (w : Files) (as : List Event) : (e.run w as).1.Ready := by
  induction as generalizing e w with
  | nil => exact r
  | cons a as ih =>
      cases a with
      | data b => exact ih (r.rounds _ w b) _
      | closed => exact ih (r.onTunnelClosed w) _
      | flush n => exact ih (r.flush w n) _

theorem ready_start (target : Bytes) (overwrite : Bool) : ({ target, overwrite } : GetFileEnd).Ready :=
  ⟨fun _ => rfl, nofun, nofun⟩

/-- The stream, whatever the calls. -/
def received : List Event → Bytes
  | [] => []
  | .data b :: as => b ++ received as
  | .closed :: as | .flush _ :: as => received as

end Alike

/-! ## What a call does -/

/-- What a round wrote went to the file with inode `i` only and ends within `size`, what is still
buffered too; the file is no longer than it was or than that. -/
structure Within (i size : Nat) (w : Files) (s : GetFileEnd × Files) : Prop where
  buffered : ∀ h, s.1.file = some h → h.ino = i ∧ h.pos + h.buf.length ≤ size
  length : (s.2.fs.data i).length ≤ max (w.fs.data i).length size
  others : ∀ j, j ≠ i → s.2.fs.data j = w.fs.data j

section Within
variable {e : GetFileEnd} {w : Files} {h : Handle}

/-- The calls after that leave all contents alone. -/
theorem Within.moved {i size : Nat} {s s' : GetFileEnd × Files} (h : Within i size w s)
    (closed : s'.1.file = none) (data : s'.2.fs.data = s.2.fs.data) : Within i size w s' := by
  refine ⟨fun h' hh => ?_, data ▸ h.length, data ▸ h.others⟩
  rw [closed] at hh
  cases hh

end Within

end GetFileEnd
end Splice.Peer
