import Splice.Peer.GetFile
import Splice.Lib.FileEdits

/-!
What the calls of a receiving end do to the disk, and the rule for what holds along a
whole run: it has to survive one round of the data loop, a flush and the tunnel's end.
-/

namespace Splice.Peer
open Lib FileSystem

namespace Files
variable {w w' : Files}

/-- A call that failed, or the like. -/
structure Quiet (w w' : Files) : Prop where
  fs : w'.fs = w.fs
  touched : w'.touched = w.touched

namespace Quiet

theorem trans {w'' : Files} (h : Quiet w w') (h' : Quiet w' w'') : Quiet w w'' :=
  ⟨h'.fs.trans h.fs, h'.touched.trans h.touched⟩

end Quiet

theorem call_cases {α : Type} (w : Files) (paths : List Bytes)
    (op : FileSystem → Option (FileSystem × α)) :
    ((w.call paths op).1 = none ∧ Quiet w (w.call paths op).2) ∨
    ∃ fs a, op w.fs = some (fs, a) ∧ (w.call paths op).1 = some a ∧
      (w.call paths op).2.fs = fs ∧ (w.call paths op).2.touched = w.touched ++ paths := by
  rw [call]
  split
  · exact .inl ⟨rfl, rfl, rfl⟩
  · rename_i fs a hop
    split at hop
    · cases hop
    · exact .inr ⟨fs, a, hop, rfl, rfl, rfl⟩

theorem mkdir_cases (w : Files) (path : Bytes) : Quiet w (w.mkdir path) ∨
    ∃ p, w.fs.resolve (cstr path) = some p ∧ w.fs.node p = none ∧
      (w.mkdir path).fs.node p = some .dir ∧ Edits (· = p) w.fs (w.mkdir path).fs ∧
      (w.mkdir path).fs.cwd = w.fs.cwd ∧ (w.mkdir path).touched = w.touched ++ [cstr path] := by
  rw [mkdir]
  rcases call_cases w [cstr path] _ with ⟨-, hq⟩ | ⟨fs, a, hop, -, hfs, ht⟩
  · exact .inl hq
  · split at hop
    · rename_i fs' hmk
      cases hop
      obtain ⟨p, hr, hnone, hdir, hedits, hcwd⟩ := mkdir_edits hmk
      rw [hfs]
      exact .inr ⟨p, hr, hnone, hdir, hedits, hcwd, ht⟩
    · cases hop

/-- One directory on the way: nothing happens to one that is there. -/
theorem mkdirCut_spec (w : Files) (cur : Bytes) :
    let w₁ := if cur = [] ∨ cur = dot then w else w.mkdir cur
    Grows w.fs w₁.fs ∧ ∃ new, w₁.touched = w.touched ++ new ∧
      ∀ p ∈ new, w.fs.stat p = none ∧ cur ≠ [] ∧ p = cstr cur := by
  dsimp only
  split
  · exact ⟨Grows.refl w.fs, [], by simp, by simp⟩
  · rename_i hcur
    rcases w.mkdir_cases cur with hq | ⟨p, hr, hnone, -, hedits, hcwd, ht⟩
    · rw [hq.fs, hq.touched]
      exact ⟨Grows.refl w.fs, [], by simp, by simp⟩
    · refine ⟨Grows.of_edits hnone hedits hcwd, [cstr cur], ht, fun x hx => ?_⟩
      rw [List.mem_singleton] at hx
      rw [hx]
      exact ⟨by simp [stat, hr, hnone], fun e => hcur (.inl e), rfl⟩

/-- Only what was missing is made, at the cuts of the path. -/
theorem mkdirs_spec (w : Files) (cur rest : Bytes) :
    Grows w.fs (w.mkdirs cur rest).fs ∧
      ∃ new, (w.mkdirs cur rest).touched = w.touched ++ new ∧ ∀ p ∈ new, w.fs.stat p = none ∧
        ∃ a b, rest = a ++ b ∧ (b = [] ∨ b.head? = some slash) ∧ cur ++ a ≠ [] ∧
          p = cstr (cur ++ a) := by
  induction rest generalizing w cur with
  | nil =>
      obtain ⟨hg, new, ht, hnew⟩ := w.mkdirCut_spec cur
      refine ⟨hg, new, ht, fun p hp => ?_⟩
      obtain ⟨hs, hne, rfl⟩ := hnew p hp
      exact ⟨hs, [], [], rfl, .inl rfl, by simpa using hne, by simp⟩
  | cons b rest ih =>
      have step : ∀ w₁ : Files, Grows w.fs w₁.fs →
          Grows w.fs (w₁.mkdirs (cur ++ [b]) rest).fs ∧
          ∃ new, (w₁.mkdirs (cur ++ [b]) rest).touched = w₁.touched ++ new ∧
            ∀ p ∈ new, w.fs.stat p = none ∧ ∃ a c, b :: rest = a ++ c ∧
              (c = [] ∨ c.head? = some slash) ∧ cur ++ a ≠ [] ∧ p = cstr (cur ++ a) := by
        intro w₁ hg₁
        obtain ⟨hg, new, ht, hnew⟩ := ih w₁ (cur ++ [b])
        refine ⟨hg₁.trans hg, new, ht, fun p hp => ?_⟩
        obtain ⟨hs, a, c, hrest, hc, -, rfl⟩ := hnew p hp
        refine ⟨?_, b :: a, c, by rw [hrest]; rfl, hc, by simp, by simp⟩
        cases hstat : w.fs.stat (cstr (cur ++ [b] ++ a)) with
        | none => rfl
        | some n => exact absurd (hs.symm.trans (hg₁.stat hstat)) (by simp)
      rw [mkdirs]
      split
      · rename_i hb
        obtain ⟨hg, new, ht, hnew⟩ := w.mkdirCut_spec cur
        obtain ⟨hg', new', ht', hnew'⟩ := step _ hg
        refine ⟨hg', new ++ new', by rw [ht', ht, List.append_assoc], fun p hp => ?_⟩
        rcases List.mem_append.mp hp with hp | hp
        · obtain ⟨hs, hne, rfl⟩ := hnew p hp
          exact ⟨hs, [], b :: rest, rfl, .inr (by simp [hb]), by simpa using hne, by simp⟩
        · exact hnew' p hp
      · exact step w (Grows.refl w.fs)

theorem openTrunc_cases (w : Files) (path : Bytes) :
    ((w.openTrunc path).1 = none ∧ Quiet w (w.openTrunc path).2) ∨
    ∃ h p, (w.openTrunc path).1 = some h ∧ h.pos = 0 ∧ h.buf = [] ∧
      w.fs.resolve (cstr path) = some p ∧ w.fs.node p ≠ some .dir ∧
      (w.openTrunc path).2.fs.node p = some (.file h.ino) ∧
      (w.openTrunc path).2.fs.data h.ino = [] ∧ Edits (· = p) w.fs (w.openTrunc path).2.fs ∧
      SameDirs w.fs (w.openTrunc path).2.fs ∧
      (w.openTrunc path).2.touched = w.touched ++ [cstr path] := by
  rw [openTrunc]
  rcases call_cases w [cstr path] _ with hq | ⟨fs, a, hop, ha, hfs, ht⟩
  · exact .inl hq
  · rw [Option.map_eq_some_iff] at hop
    obtain ⟨⟨fs', i⟩, hopen, heq⟩ := hop
    cases heq
    obtain ⟨p, hr, hnd, hnode, -, hdata, hedits, hdirs⟩ := openTrunc_edits hopen
    rw [hfs]
    exact .inr ⟨_, p, ha, rfl, rfl, hr, hnd, hnode, hdata, hedits, hdirs, ht⟩

theorem openUpdate_cases (w : Files) (path : Bytes) (off : Nat) :
    ((w.openUpdate path off).1 = none ∧ Quiet w (w.openUpdate path off).2) ∨
    ∃ h p, (w.openUpdate path off).1 = some h ∧ h.pos = off ∧ h.buf = [] ∧
      w.fs.resolve (cstr path) = some p ∧ w.fs.node p = some (.file h.ino) ∧
      (w.openUpdate path off).2.fs = w.fs ∧
      (w.openUpdate path off).2.touched = w.touched ++ [cstr path] := by
  rw [openUpdate]
  rcases call_cases w [cstr path] _ with hq | ⟨fs, a, hop, ha, hfs, ht⟩
  · exact .inl hq
  · rw [Option.map_eq_some_iff] at hop
    obtain ⟨i, hopen, heq⟩ := hop
    cases heq
    obtain ⟨p, hr, hnode⟩ := openUpdate_file hopen
    exact .inr ⟨_, p, ha, rfl, rfl, hr, hnode, hfs, ht⟩

theorem writeText_cases (w : Files) (path text : Bytes) : Quiet w (w.writeText path text) ∨
    ∃ p i, w.fs.resolve (cstr path) = some p ∧ w.fs.node p ≠ some .dir ∧
      (w.writeText path text).fs.node p = some (.file i) ∧
      (∀ j, w.fs.node p = some (.file j) → j = i) ∧
      (w.writeText path text).fs.data i = text ∧
      Edits (· = p) w.fs (w.writeText path text).fs ∧
      SameDirs w.fs (w.writeText path text).fs ∧
      (w.writeText path text).touched = w.touched ++ [cstr path] := by
  rw [writeText]
  rcases call_cases w [cstr path] _ with ⟨-, hq⟩ | ⟨fs, a, hop, -, hfs, ht⟩
  · exact .inl hq
  · rw [Option.map_eq_some_iff] at hop
    obtain ⟨⟨fs', i⟩, hopen, heq⟩ := hop
    cases heq
    obtain ⟨p, hr, hnd, hnode, hino, -, hedits, hdirs⟩ := openTrunc_edits hopen
    rw [hfs]
    exact .inr ⟨p, i, hr, hnd, hnode, hino, by simp [FileSystem.setData],
      hedits.trans (Edits.setData hnode text), hdirs.trans (SameDirs.setData fs' i text), ht⟩

theorem remove_cases (w : Files) (path : Bytes) : Quiet w (w.remove path) ∨
    ∃ p, w.fs.resolve (cstr path) = some p ∧ (w.remove path).fs.node p = none ∧
      Edits (· = p) w.fs (w.remove path).fs ∧ (w.remove path).fs.cwd = w.fs.cwd ∧
      (w.fs.node p ≠ some .dir → SameDirs w.fs (w.remove path).fs) ∧
      (w.remove path).touched = w.touched ++ [cstr path] := by
  rw [remove]
  rcases call_cases w [cstr path] _ with ⟨-, hq⟩ | ⟨fs, a, hop, -, hfs, ht⟩
  · exact .inl hq
  · rw [Option.map_eq_some_iff] at hop
    obtain ⟨fs', hrem, heq⟩ := hop
    cases heq
    obtain ⟨p, hr, hgone, hedits, hcwd, hdirs⟩ := remove_edits hrem
    rw [hfs]
    exact .inr ⟨p, hr, hgone, hedits, hcwd, hdirs, ht⟩

theorem rename_cases (w : Files) (old new : Bytes) {src : Path} {i : Nat}
    (hs : w.fs.resolve (cstr old) = some src) (hf : w.fs.node src = some (.file i)) :
    ((w.rename old new).1 = false ∧ Quiet w (w.rename old new).2) ∨
    ∃ dst, (w.rename old new).1 = true ∧ w.fs.resolve (cstr new) = some dst ∧
      (w.rename old new).2.fs.node dst = some (.file i) ∧
      (src ≠ dst → (w.rename old new).2.fs.node src = none) ∧
      Edits (fun q => q = src ∨ q = dst) w.fs (w.rename old new).2.fs ∧
      (w.rename old new).2.fs.data = w.fs.data ∧ SameDirs w.fs (w.rename old new).2.fs ∧
      (w.rename old new).2.touched = w.touched ++ [cstr old, cstr new] := by
  rw [rename]
  rcases call_cases w [cstr old, cstr new] _ with ⟨hn, hq⟩ | ⟨fs, a, hop, ha, hfs, ht⟩
  · split
    · rename_i heq
      rw [heq] at hn
      cases hn
    · rename_i heq
      rw [heq] at hq
      exact .inl ⟨rfl, hq⟩
  · rw [Option.map_eq_some_iff] at hop
    obtain ⟨fs', hren, heq⟩ := hop
    cases heq
    obtain ⟨dst, hd, hnode, hgone, -, hedits, hdata, hdirs⟩ := rename_edits hs hf hren
    split
    · rename_i heq
      rw [heq] at hfs ht
      simp only at hfs ht
      refine .inr ⟨dst, rfl, hd, ?_⟩
      simp only
      rw [hfs]
      exact ⟨hnode, hgone, hedits, hdata, hdirs, ht⟩
    · rename_i heq
      rw [heq] at ha
      cases ha

end Files

theorem parseHeader_notMem {line : Bytes} {size : Nat} {crc : UInt32} {rel : Bytes}
    (h : parseHeader line = some (size, crc, rel)) : 0 ∉ rel := by
  simp only [parseHeader] at h
  split at h
  · cases h
  · split at h
    · cases h
    · simp only [Option.some.injEq, Prod.mk.injEq] at h
      rw [← h.2.2]
      intro hmem
      apply zero_notMem_cstr (line.drop 6)
      have h₂ := (strtoul_suffix 16 (strtoul 10 (cstr (line.drop 6))).2.tail).mem
        (List.mem_of_mem_tail hmem)
      exact (strtoul_suffix 10 (cstr (line.drop 6))).mem (List.mem_of_mem_tail h₂)

namespace GetFileEnd

/-! ## The rule for runs -/

/-- Every header handled while `b` is taken in meets the condition. -/
def HeadersMeet (C : GetFileEnd → Files → Bytes → Prop) :
    Nat → GetFileEnd → Files → Bytes → Prop
  | 0, _, _, _ => True
  | fuel + 1, e, w, b =>
      if b = [] ∨ e.done ∨ e.err ≠ [] then True
      else (∀ line rest, e.state = .header → scanHeader e.hdr b = .line line rest →
          C { e with hdr := [] } w line) ∧
        HeadersMeet C fuel (e.round w b).1.1 (e.round w b).1.2 (e.round w b).2

/-- Every header handled in the run meets the condition. -/
def RunMeets (C : GetFileEnd → Files → Bytes → Prop) :
    GetFileEnd → Files → List Event → Prop
  | _, _, [] => True
  | e, w, a :: as =>
      (match a with
        | .data b => HeadersMeet C (2 * b.length + 1) e w b
        | .closed | .flush _ => True) ∧
      RunMeets C (e.on w a).1 (e.on w a).2 as

theorem runMeets_of_forall {C : GetFileEnd → Files → Bytes → Prop} (hC : ∀ e w line, C e w line)
    (e : GetFileEnd) (w : Files) (as : List Event) : RunMeets C e w as := by
  have hall : ∀ fuel e w b, HeadersMeet C fuel e w b := by
    intro fuel
    induction fuel with
    | zero => exact fun _ _ _ => trivial
    | succ fuel ih =>
        intro e w b
        rw [HeadersMeet]
        split
        · trivial
        · exact ⟨fun _ _ _ _ => hC _ _ _, ih _ _ _⟩
  induction as generalizing e w with
  | nil => trivial
  | cons a as ih =>
      refine ⟨?_, ih _ _⟩
      cases a with
      | data b => exact hall _ e w b
      | closed => trivial
      | flush n => trivial

/-- One header and nothing after it. -/
theorem headersMeet_line {C : GetFileEnd → Files → Bytes → Prop} {e : GetFileEnd} {w : Files}
    {b line : Bytes} (hs : e.state = .header) (hscan : scanHeader e.hdr b = .line line [])
    (hC : C { e with hdr := [] } w line) (fuel : Nat) : HeadersMeet C fuel e w b := by
  have hnil : ∀ fuel e w, HeadersMeet C fuel e w [] := by
    intro fuel e w
    cases fuel with
    | zero => trivial
    | succ fuel =>
        rw [HeadersMeet, if_pos (.inl rfl)]
        trivial
  cases fuel with
  | zero => trivial
  | succ fuel =>
      rw [HeadersMeet]
      split
      · trivial
      · refine ⟨fun line' rest' _ h => ?_, ?_⟩
        · cases hscan.symm.trans h
          exact hC
        · simp only [round, hs, hscan]
          exact hnil _ _ _

section Rule
variable {C : GetFileEnd → Files → Bytes → Prop} {P : GetFileEnd → Files → Prop}

theorem rounds_invariant
    (round : ∀ {e w b}, P e w → b ≠ [] → e.done = false → e.err = [] →
      (∀ line rest, e.state = .header → scanHeader e.hdr b = .line line rest →
        C { e with hdr := [] } w line) →
      P (e.round w b).1.1 (e.round w b).1.2)
    {fuel : Nat} {e : GetFileEnd} {w : Files} {b : Bytes} (h : P e w)
    (hm : HeadersMeet C fuel e w b) : P (rounds fuel e w b).1 (rounds fuel e w b).2 := by
  induction fuel generalizing e w b with
  | zero => exact h
  | succ fuel ih =>
      rw [HeadersMeet] at hm
      rw [rounds]
      split
      · exact h
      · rename_i hgo
        rw [if_neg hgo] at hm
        simp only [not_or, Bool.not_eq_true, not_not] at hgo
        exact ih (round h hgo.1 hgo.2.1 hgo.2.2 hm.1) hm.2

/-- What survives every round, flush and close holds at the end of a run. -/
theorem run_invariant
    (round : ∀ {e w b}, P e w → b ≠ [] → e.done = false → e.err = [] →
      (∀ line rest, e.state = .header → scanHeader e.hdr b = .line line rest →
        C { e with hdr := [] } w line) →
      P (e.round w b).1.1 (e.round w b).1.2)
    (closed : ∀ {e w}, P e w → P (e.onTunnelClosed w).1 (e.onTunnelClosed w).2)
    (flush : ∀ {e w} n, P e w → P (e.flush w n).1 (e.flush w n).2)
    {e : GetFileEnd} {w : Files} {as : List Event} (h : P e w) (hm : RunMeets C e w as) :
    P (e.run w as).1 (e.run w as).2 := by
  induction as generalizing e w with
  | nil => exact h
  | cons a as ih =>
      obtain ⟨ha, hm⟩ := hm
      refine ih ?_ hm
      cases a with
      | data b => exact rounds_invariant round h ha
      | closed => exact closed h
      | flush n => exact flush n h

end Rule

/-! ## Policies

Between two entries the disk is `idle`; while one is open it is `busy` with the entry's
destination and the inode behind the handle. What has to be shown is what opening and
finishing an entry do; writing in between changes the one inode only.
-/

structure Policy (target : Bytes) (overwrite : Bool) where
  idle : FileSystem → List Bytes → Prop
  busy : Bytes → FileSystem → List Bytes → Nat → Prop
  /-- the headers that are considered -/
  allow : GetFileEnd → Files → Prop
  written : ∀ {dest fs ts i}, busy dest fs ts i → ∀ b, busy dest (fs.setData i b) ts i
  released : ∀ {dest fs ts i}, busy dest fs ts i → idle fs ts
  destined : ∀ {e : GetFileEnd} {w : Files}, e.target = target → 0 ∉ e.relpath →
    idle w.fs w.touched →
    idle (e.destination w).2.fs (e.destination w).2.touched
  opened : ∀ {e : GetFileEnd} {w : Files} {dest : Bytes} {w₁ : Files}, e.target = target →
    e.overwrite = overwrite → 0 ∉ e.relpath → idle w.fs w.touched → allow e w →
    e.destination w = (dest, w₁) →
    (overwrite = false → w₁.fs.exist (cstr dest) = false) →
    (∀ off h w₂, w₁.openUpdate (dest ++ str ".part") off = (some h, w₂) →
      busy dest w₂.fs w₂.touched h.ino) ∧
    (∀ file w₂ text, w₁.openTrunc (dest ++ str ".part") = (file, w₂) →
      let w₃ := w₂.writeText (dest ++ str ".part.meta") text
      match file with
      | some h => busy dest w₃.fs w₃.touched h.ino
      | none => idle w₃.fs w₃.touched)
  finished : ∀ {dest : Bytes} {w : Files} {i : Nat}, busy dest w.fs w.touched i →
    (let w₁ := (w.remove (dest ++ str ".part")).remove (dest ++ str ".part.meta")
     idle w₁.fs w₁.touched) ∧
    (∀ w₁, w.rename (dest ++ str ".part") dest = (false, w₁) → idle w₁.fs w₁.touched) ∧
    (∀ w₁, w.rename (dest ++ str ".part") dest = (true, w₁) →
      let w₂ := w₁.remove (dest ++ str ".part.meta")
      idle w₂.fs w₂.touched)

namespace Policy
variable {target : Bytes} {overwrite : Bool} (pol : Policy target overwrite)

/-- The headers of a run that are taken into account. -/
def Considers (e : GetFileEnd) (w : Files) (line : Bytes) : Prop :=
  ∀ size crc rel, parseHeader line = some (size, crc, rel) →
    pol.allow { e with size := size, wantCrc := crc, relpath := rel } w

structure Holds (e : GetFileEnd) (w : Files) : Prop where
  target_eq : e.target = target
  overwrite_eq : e.overwrite = overwrite
  header : e.state = .header → e.file = none
  recv : e.state = .recv → e.err = [] → ∃ h, e.file = some h
  idle : e.file = none → pol.idle w.fs w.touched
  busy : ∀ h, e.file = some h → pol.busy e.dest w.fs w.touched h.ino

variable {pol} {e : GetFileEnd} {w : Files}

/-- What holds between entries holds during one too. -/
theorem Holds.released (h : pol.Holds e w) : pol.idle w.fs w.touched := by
  cases hf : e.file with
  | none => exact h.idle hf
  | some hd => exact pol.released (h.busy hd hf)

theorem Holds.closeFile (h : pol.Holds e w) :
    (e.closeFile w).1.file = none ∧ (e.closeFile w).1.target = target ∧
      (e.closeFile w).1.overwrite = overwrite ∧
      pol.idle (e.closeFile w).2.fs (e.closeFile w).2.touched := by
  rw [GetFileEnd.closeFile]
  split
  · rename_i hf
    exact ⟨hf, h.target_eq, h.overwrite_eq, h.idle hf⟩
  · rename_i hd hf
    exact ⟨rfl, h.target_eq, h.overwrite_eq, pol.released (pol.written (h.busy hd hf) _)⟩

theorem Holds.fail (h : pol.Holds e w) {why : Bytes} (hwhy : why ≠ []) :
    pol.Holds (e.fail w why).1 (e.fail w why).2 := by
  obtain ⟨hf, ht, ho, hi⟩ := h.closeFile
  rw [GetFileEnd.fail]
  refine ⟨ht, ho, fun _ => hf, fun _ herr => absurd herr hwhy, fun _ => hi, fun hd hfile => ?_⟩
  exact absurd (hf.symm.trans hfile) (by simp)

theorem holds_fail (ht : e.target = target) (ho : e.overwrite = overwrite)
    (hf : e.file = none) (hi : pol.idle w.fs w.touched) {why : Bytes} (hwhy : why ≠ []) :
    pol.Holds (e.fail w why).1 (e.fail w why).2 := by
  simp only [GetFileEnd.fail, GetFileEnd.closeFile, hf]
  exact ⟨ht, ho, fun _ => rfl, fun _ herr => absurd herr hwhy, fun _ => hi,
    fun hd hfile => by cases hfile⟩

theorem Holds.finishEntry (h : pol.Holds e w) (hfile : ∃ hd, e.file = some hd) :
    pol.Holds (e.finishEntry w).1 (e.finishEntry w).2 := by
  obtain ⟨hd, hf⟩ := hfile
  have hbusy : pol.busy e.dest (w.fclose hd).fs (w.fclose hd).touched hd.ino :=
    pol.written (h.busy hd hf) _
  obtain ⟨hbad, hren, hok⟩ := pol.finished hbusy
  simp only [GetFileEnd.finishEntry, GetFileEnd.closeFile, hf]
  split
  · exact holds_fail (e := { e with file := none }) h.target_eq h.overwrite_eq rfl hbad
      (by simp [str])
  · split
    · rename_i w₁ heq
      exact holds_fail (e := { e with file := none }) h.target_eq h.overwrite_eq rfl
        (hren w₁ heq) (by simp [str])
    · rename_i w₁ heq
      refine ⟨h.target_eq, h.overwrite_eq, fun _ => rfl, fun hs => ?_, fun _ => hok w₁ heq,
        fun hd hfile => ?_⟩
      · cases hs
      · cases hfile

theorem holds_startRecv (ht : e.target = target) (ho : e.overwrite = overwrite) {hd : Handle}
    (hb : pol.busy e.dest w.fs w.touched hd.ino) (off : Nat) (crc : UInt32) :
    pol.Holds (e.startRecv w hd off crc).1 (e.startRecv w hd off crc).2 := by
  have hopen : pol.Holds { e with
      file := some hd, crc := crc, got := off, state := .recv,
      sent := e.sent ++ str "RESUME " ++ decimal off ++ [newline] } w := by
    refine ⟨ht, ho, fun hs => ?_, fun _ _ => ⟨hd, rfl⟩, fun hf => ?_, fun hd' hf => ?_⟩
    · cases hs
    · cases hf
    · cases hf
      exact hb
  rw [GetFileEnd.startRecv]
  dsimp only
  split
  · exact hopen.finishEntry ⟨hd, rfl⟩
  · exact hopen

theorem holds_openPart (ht : e.target = target) (ho : e.overwrite = overwrite)
    (hf : e.file = none) (hidle : pol.idle w.fs w.touched)
    (hupd : ∀ off h w₂, w.openUpdate e.part off = (some h, w₂) →
      pol.busy e.dest w₂.fs w₂.touched h.ino)
    (htrunc : ∀ file w₂ text, w.openTrunc e.part = (file, w₂) →
      let w₃ := w₂.writeText e.meta_ text
      match file with
      | some h => pol.busy e.dest w₃.fs w₃.touched h.ino
      | none => pol.idle w₃.fs w₃.touched) :
    pol.Holds (e.openPart w).1 (e.openPart w).2 := by
  have hwhy : str "cannot write '" ++ e.part ++ str "'" ≠ [] := by simp [str]
  rw [openPart]
  cases e.resumeAt w.fs with
  | mk off crc =>
      dsimp only
      by_cases hoff : off > 0
      · rw [if_pos hoff]
        cases ho' : w.openUpdate e.part off with
        | mk file w₂ =>
            cases file with
            | none =>
                have hq : Files.Quiet w w₂ := by
                  have := w.openUpdate_cases e.part off
                  rw [ho'] at this
                  simpa using this
                refine holds_fail ht ho hf ?_ hwhy
                rw [hq.fs, hq.touched]
                exact hidle
            | some h => exact holds_startRecv ht ho (hupd off h w₂ ho') off crc
      · rw [if_neg hoff]
        cases ho' : w.openTrunc e.part with
        | mk file w₂ =>
            have hnext := htrunc file w₂ (metaText e.size e.wantCrc e.relpath) ho'
            cases file with
            | none => exact holds_fail ht ho hf hnext hwhy
            | some h => exact holds_startRecv ht ho hnext off crc

theorem Holds.placeEntry (h : pol.Holds e w) (hf : e.file = none) (hrel : 0 ∉ e.relpath)
    (hc : pol.allow e w) :
    pol.Holds (e.placeEntry w).1 (e.placeEntry w).2 := by
  have hidle := h.idle hf
  have hdest := pol.destined h.target_eq hrel hidle
  rw [GetFileEnd.placeEntry]
  cases hd : e.destination w with
  | mk dest w₁ =>
      rw [hd] at hdest
      dsimp only
      split
      · exact holds_fail (e := { e with dest := dest }) h.target_eq h.overwrite_eq hf hdest
          (by simp [str])
      · rename_i hgo
        have hmissing : overwrite = false → w₁.fs.exist (cstr dest) = false := by
          intro ho
          simpa [h.overwrite_eq, ho] using hgo
        obtain ⟨hupd, htrunc⟩ := pol.opened h.target_eq h.overwrite_eq hrel hidle hc hd hmissing
        exact holds_openPart (e := { e with dest := dest }) h.target_eq h.overwrite_eq hf hdest
          hupd htrunc

theorem Holds.handleHeader (h : pol.Holds e w) (hf : e.file = none) {line : Bytes}
    (hc : pol.Considers e w line) :
    pol.Holds (e.handleHeader w line).1 (e.handleHeader w line).2 := by
  rw [GetFileEnd.handleHeader]
  split
  · exact ⟨h.target_eq, h.overwrite_eq, fun hs => (by cases hs), fun hs => (by cases hs),
      h.idle, h.busy⟩
  · split
    · exact h.fail (by simp [str])
    · split
      · exact h.fail (by simp [str])
      · rename_i size crc rel hparse
        have h' : pol.Holds { e with size := size, wantCrc := crc, relpath := rel } w :=
          ⟨h.target_eq, h.overwrite_eq, h.header, h.recv, h.idle, h.busy⟩
        exact h'.placeEntry hf (parseHeader_notMem hparse) (hc size crc rel hparse)

theorem Holds.round (h : pol.Holds e w) {b : Bytes} (herr : e.err = [])
    (hc : ∀ line rest, e.state = .header → scanHeader e.hdr b = .line line rest →
      pol.Considers { e with hdr := [] } w line) :
    pol.Holds (e.round w b).1.1 (e.round w b).1.2 := by
  have hdr : ∀ x, pol.Holds { e with hdr := x } w := fun x =>
    ⟨h.target_eq, h.overwrite_eq, h.header, h.recv, h.idle, h.busy⟩
  rw [GetFileEnd.round]
  split
  · rename_i hstate
    split
    · exact hdr _
    · rename_i line rest hscan
      exact (hdr []).handleHeader (h.header hstate) (hc line rest hstate hscan)
    · exact (hdr _).fail (by simp [str])
  · rename_i hstate
    obtain ⟨hd, hf⟩ := h.recv hstate herr
    have hw : ∀ n, pol.Holds e { w with writes := n } := fun _ =>
      ⟨h.target_eq, h.overwrite_eq, h.header, h.recv, h.idle, h.busy⟩
    dsimp only
    split
    · exact (hw _).fail (by simp [str])
    · have hnext : ∀ n crc got out, pol.Holds { e with
          file := e.file.map (·.fwrite out), crc := crc, got := got } { w with writes := n } := by
        intro n crc got out
        refine ⟨h.target_eq, h.overwrite_eq, fun hs => ?_, fun _ _ => ⟨hd.fwrite out, ?_⟩,
          fun hn => ?_, fun hd' hf' => ?_⟩
        · exact absurd (hstate.symm.trans hs) (by simp)
        · simp [hf]
        · simp [hf] at hn
        · simp only [hf, Option.map_some, Option.some.injEq] at hf'
          rw [← hf']
          exact h.busy hd hf
      have hnext' : ∀ (keep : Prop) [Decidable keep] crc got out, pol.Holds { e with
          file := e.file.map (·.fwrite out), crc := crc, got := got }
          (if keep then { w with writes := w.writes + 1 } else w) := by
        intro keep _ crc got out
        split
        · exact hnext _ crc got out
        · exact hnext w.writes crc got out
      split
      · refine (hnext' _ _ _ _).finishEntry ⟨hd.fwrite (b.take (min b.length (e.size - e.got))), ?_⟩
        simp [hf]
      · exact hnext' _ _ _ _
  · exact h

theorem Holds.onTunnelClosed (h : pol.Holds e w) :
    pol.Holds (e.onTunnelClosed w).1 (e.onTunnelClosed w).2 := by
  rw [GetFileEnd.onTunnelClosed]
  split
  · exact h
  · obtain ⟨hf, ht, ho, hi⟩ := h.closeFile
    refine ⟨ht, ho, fun _ => hf, fun _ herr => ?_, fun _ => hi, fun hd hfile => ?_⟩
    · simp [str] at herr
    · exact absurd (hf.symm.trans hfile) (by simp)

theorem Holds.flush (h : pol.Holds e w) (n : Nat) :
    pol.Holds (e.flush w n).1 (e.flush w n).2 := by
  rw [GetFileEnd.flush]
  split
  · exact h
  · rename_i hd hf
    refine ⟨h.target_eq, h.overwrite_eq, fun hs => ?_, fun _ _ => ⟨_, rfl⟩, fun hn => ?_,
      fun hd' hf' => ?_⟩
    · exact absurd ((h.header hs).symm.trans hf) (by simp)
    · cases hn
    · cases hf'
      exact pol.written (h.busy hd hf) _

/-- A new end on an idle disk: the policy holds after every run whose headers are admitted. -/
theorem holds_run (pol : Policy target overwrite) {w : Files} (hidle : pol.idle w.fs w.touched)
    {as : List Event} (hm : RunMeets pol.Considers { target, overwrite } w as) :
    let r := GetFileEnd.run { target, overwrite } w as
    pol.Holds r.1 r.2 := by
  refine run_invariant (C := pol.Considers) (P := pol.Holds) ?_ ?_ ?_ ?_ hm
  · exact fun h _ _ herr hc => h.round herr hc
  · exact fun h => h.onTunnelClosed
  · exact fun n h => h.flush n
  · exact ⟨rfl, rfl, fun _ => rfl, fun hs => (by cases hs), fun _ => hidle,
      fun hd hf => by cases hf⟩

end Policy

end GetFileEnd
end Splice.Peer
