import Splice.Peer.Receiving

/-!
What the user had when a receiving end without OVERWRITE starts. An entry is refused
when its destination exists, but its `.part` and `.part.meta` are opened without a
look at whose they are: a file of the user's under such a name is overwritten. Nothing
else is lost.
-/

namespace Splice.Peer
open Lib FileSystem

/-- One of the two files an earlier GET_FILE kept for resuming. -/
def Resumable (fs : FileSystem) (q : Path) : Prop :=
  ∃ c p i j size crc rel, (q = (c ++ str ".part") :: p ∨ q = (c ++ str ".part.meta") :: p) ∧
    fs.node ((c ++ str ".part") :: p) = some (.file i) ∧
    fs.node ((c ++ str ".part.meta") :: p) = some (.file j) ∧
    fs.data j = metaText size crc rel ∧ rel ≠ [] ∧ newline ∉ rel ∧ 0 ∉ rel

/-- A file of the user's. -/
def Had (fs : FileSystem) (q : Path) (i : Nat) : Prop :=
  fs.node q = some (.file i) ∧ ¬ Resumable fs q

/-- Everything the user had in `fs₀` is there and the same. -/
def Preserved (fs₀ fs : FileSystem) : Prop :=
  ∀ q i, Had fs₀ q i → fs.node q = some (.file i) ∧ fs.data i = fs₀.data i

/-- A header whose entry would be received spares the user's files: neither its `.part` nor
its `.part.meta` names one. -/
def Spares (fs₀ : FileSystem) (e : GetFileEnd) (w : Files) : Prop :=
  let r := e.destination w
  r.2.fs.exist (cstr r.1) = false → ∀ q i, Had fs₀ q i →
    r.2.fs.resolve (cstr (r.1 ++ str ".part")) ≠ some q ∧
    r.2.fs.resolve (cstr (r.1 ++ str ".part.meta")) ≠ some q

section Policy
variable {fs₀ fs fs' : FileSystem}

theorem Preserved.edits {P : Path → Prop} (h : Preserved fs₀ fs) (he : Edits P fs fs')
    (hP : ∀ q i, Had fs₀ q i → ¬ P q) : Preserved fs₀ fs' := by
  intro q i hq
  obtain ⟨hn, hd⟩ := h q i hq
  exact ⟨(he.node q (hP q i hq)).trans hn, (he.data q i (hP q i hq) hn).trans hd⟩

theorem Preserved.grows (h : Preserved fs₀ fs) (hg : Grows fs fs') : Preserved fs₀ fs' := by
  intro q i hq
  obtain ⟨hn, hd⟩ := h q i hq
  exact ⟨hg.node q _ hn, (hg.data q i hn).trans hd⟩

/-- An entry is open, and none of its three paths is the user's. -/
structure KeepBusy (fs₀ : FileSystem) (dest : Bytes) (fs : FileSystem) (i : Nat) : Prop where
  kept : Preserved fs₀ fs
  spared : ∀ q j, Had fs₀ q j → fs.resolve (cstr dest) ≠ some q
  side : ∀ q j, Had fs₀ q j → fs.resolve (cstr (dest ++ str ".part.meta")) ≠ some q
  part : ∃ p, fs.resolve (cstr (dest ++ str ".part")) = some p ∧ fs.node p = some (.file i) ∧
    ∀ q j, Had fs₀ q j → q ≠ p

theorem KeepBusy.written {dest : Bytes} {i : Nat} (h : KeepBusy fs₀ dest fs i) (b : Bytes) :
    KeepBusy fs₀ dest (fs.setData i b) i := by
  have hdirs := SameDirs.setData fs i b
  obtain ⟨p, hr, hf, hp⟩ := h.part
  refine ⟨h.kept.edits (Edits.setData hf b) hp, ?_, ?_, p, ?_, hf, hp⟩
  · rw [hdirs.resolve]
    exact h.spared
  · rw [hdirs.resolve]
    exact h.side
  · rw [hdirs.resolve]
    exact hr

theorem kept_remove {w : Files} {path : Bytes} (h : Preserved fs₀ w.fs)
    (hp : ∀ q j, Had fs₀ q j → w.fs.resolve (cstr path) ≠ some q) :
    Preserved fs₀ (w.remove path).fs := by
  rcases w.remove_cases path with hq | ⟨p, hr, -, hedits, -⟩
  · rw [hq.fs]
    exact h
  · refine h.edits hedits fun q j hq => ?_
    rintro rfl
    exact hp q j hq hr

theorem KeepBusy.finished {dest : Bytes} {w : Files} {i : Nat}
    (h : KeepBusy fs₀ dest w.fs i) :
    Preserved fs₀ ((w.remove (dest ++ str ".part")).remove (dest ++ str ".part.meta")).fs ∧
    (∀ w₁, w.rename (dest ++ str ".part") dest = (false, w₁) → Preserved fs₀ w₁.fs) ∧
    (∀ w₁, w.rename (dest ++ str ".part") dest = (true, w₁) →
      Preserved fs₀ (w₁.remove (dest ++ str ".part.meta")).fs) := by
  obtain ⟨p, hr, hf, hp⟩ := h.part
  have hpart : ∀ q j, Had fs₀ q j → w.fs.resolve (cstr (dest ++ str ".part")) ≠ some q := by
    intro q j hq e
    exact hp q j hq (Option.some.inj (e.symm.trans hr))
  refine ⟨kept_remove (kept_remove h.kept hpart) ?_, fun w₁ heq => ?_, fun w₁ heq => ?_⟩
  · rcases w.remove_cases (dest ++ str ".part") with hq | ⟨p', hr', -, -, -, hdirs, -⟩
    · rw [hq.fs]
      exact h.side
    · rw [hr] at hr'
      cases hr'
      rw [(hdirs (by simp [hf])).resolve]
      exact h.side
  all_goals
    have hcases := w.rename_cases (dest ++ str ".part") dest hr hf
    rw [heq] at hcases
  · rcases hcases with ⟨-, hq⟩ | ⟨dst, hfalse, -⟩
    · rw [hq.fs]
      exact h.kept
    · cases hfalse
  · rcases hcases with ⟨hfalse, -⟩ | ⟨dst, -, hdst, -, -, hedits, -, hdirs, -⟩
    · cases hfalse
    · refine kept_remove (h.kept.edits hedits fun q j hq => ?_) ?_
      · rintro (rfl | rfl)
        · exact hp q j hq rfl
        · exact h.spared q j hq hdst
      · rw [hdirs.resolve]
        exact h.side

theorem keepBusy_opened {dest : Bytes} {w : Files} (h : Preserved fs₀ w.fs)
    (hmissing : w.fs.exist (cstr dest) = false)
    (hspare : ∀ q i, Had fs₀ q i → w.fs.resolve (cstr (dest ++ str ".part")) ≠ some q ∧
      w.fs.resolve (cstr (dest ++ str ".part.meta")) ≠ some q) :
    (∀ off hd w₂, w.openUpdate (dest ++ str ".part") off = (some hd, w₂) →
      KeepBusy fs₀ dest w₂.fs hd.ino) ∧
    (∀ file w₂ text, w.openTrunc (dest ++ str ".part") = (file, w₂) →
      let w₃ := w₂.writeText (dest ++ str ".part.meta") text
      match file with
      | some hd => KeepBusy fs₀ dest w₃.fs hd.ino
      | none => Preserved fs₀ w₃.fs) := by
  have hdest : ∀ q j, Had fs₀ q j → w.fs.resolve (cstr dest) ≠ some q := by
    intro q j hq e
    simp [exist, stat, e, (h q j hq).1] at hmissing
  refine ⟨fun off hd w₂ heq => ?_, fun file w₂ text heq => ?_⟩
  · have hcases := w.openUpdate_cases (dest ++ str ".part") off
    rw [heq] at hcases
    rcases hcases with ⟨hnone, -⟩ | ⟨h', p, hh, -, -, hr, hf, hfs, -⟩
    · cases hnone
    · cases hh
      rw [hfs]
      refine ⟨h, hdest, fun q j hq => (hspare q j hq).2, p, hr, hf, ?_⟩
      rintro q j hq rfl
      exact (hspare q j hq).1 hr
  · have hsecond : ∀ {w' : Files}, Preserved fs₀ w'.fs → SameDirs w.fs w'.fs →
        let w₃ := w'.writeText (dest ++ str ".part.meta") text
        Preserved fs₀ w₃.fs ∧ SameDirs w.fs w₃.fs ∧
          ∀ p i, w'.fs.node p = some (.file i) → w₃.fs.node p = some (.file i) := by
      intro w' hk hdirs'
      rcases w'.writeText_cases (dest ++ str ".part.meta") text with
        hq | ⟨m, j, hm, -, hnode, hino, -, hedits, hdirs, -⟩
      · dsimp only
        rw [hq.fs]
        exact ⟨hk, hdirs', fun p i hf => hf⟩
      · rw [hdirs'.resolve] at hm
        refine ⟨hk.edits hedits fun q i hq => ?_, hdirs'.trans hdirs, fun p i hf => ?_⟩
        · rintro rfl
          exact (hspare q i hq).2 hm
        · by_cases hpm : p = m
          · rw [hpm] at hf ⊢
            rw [hino i hf]
            exact hnode
          · rw [hedits.node p hpm]
            exact hf
    have hcases := w.openTrunc_cases (dest ++ str ".part")
    rw [heq] at hcases
    rcases hcases with ⟨hnone, hq⟩ | ⟨h', p, hh, -, -, hr, -, hf, -, hedits, hdirs, -⟩
    · dsimp only at hnone
      subst hnone
      have hfs : w₂.fs = w.fs := hq.fs
      exact (hsecond (hfs ▸ h) (hfs ▸ SameDirs.refl w.fs)).1
    · dsimp only at hh
      subst hh
      have hp : ∀ q j, Had fs₀ q j → q ≠ p := by
        rintro q j hq rfl
        exact (hspare q j hq).1 hr
      obtain ⟨hk, hdirs₃, hnode⟩ := hsecond (h.edits hedits hp) hdirs
      refine ⟨hk, ?_, ?_, p, ?_, hnode p _ hf, hp⟩
      · rw [hdirs₃.resolve]
        exact hdest
      · rw [hdirs₃.resolve]
        exact fun q j hq => (hspare q j hq).2
      · rw [hdirs₃.resolve]
        exact hr

/-- Without OVERWRITE. -/
def keepPolicy (fs₀ : FileSystem) (target : Bytes) : GetFileEnd.Policy target false where
  idle fs _ := Preserved fs₀ fs
  busy dest fs _ i := KeepBusy fs₀ dest fs i
  allow := Spares fs₀
  written h := h.written
  released h := h.kept
  destined := by
    intro e w _ _ h
    rw [GetFileEnd.destination]
    split
    · exact h.grows (w.mkdirs_spec _ _).1
    · exact h
  opened := by
    intro e w dest w₁ _ _ _ h hspares hd hmissing
    rw [Spares, hd] at hspares
    have hgrows : Grows w.fs w₁.fs := by
      rw [GetFileEnd.destination] at hd
      split at hd
      · cases hd
        exact (w.mkdirs_spec _ _).1
      · cases hd
        exact Grows.refl w.fs
    exact keepBusy_opened (h.grows hgrows) (hmissing rfl) (hspares (hmissing rfl))
  finished h := h.finished

end Policy

/-- In every run whose headers spare the user's files, all of them are kept: whatever else is
sent, in any segments, and whichever calls fail. -/
theorem files_kept {fs : FileSystem} {target : Bytes} {refuse full : Nat → Bool}
    {as : List GetFileEnd.Event}
    (hm : GetFileEnd.RunMeets (keepPolicy fs target).Considers
      { target, overwrite := false } { fs, refuse, full } as) :
    Preserved fs (GetFileEnd.run { target, overwrite := false } { fs, refuse, full } as).2.fs := by
  have hidle : (keepPolicy fs target).idle fs [] := fun q i hq => ⟨hq.1, rfl⟩
  exact (GetFileEnd.Policy.holds_run (keepPolicy fs target) hidle hm).released

/-- A directory `/d` with one file in it. -/
def dirWith (name content : Bytes) : FileSystem :=
  match empty.mkdir (str "/d") with
  | .error _ => empty
  | .ok fs =>
      match fs.openTrunc (str "/d/" ++ name) with
      | none => fs
      | some (fs', i) => fs'.setData i content

/-- An empty file `a` arrives beside one of the user's. -/
theorem files_kept_beside :
    let fs := dirWith (str "notes") (str "mine")
    Preserved fs (GetFileEnd.run { target := str "/d", overwrite := false } { fs }
      [.data (str "SPLF2 0 00000000 a\n")]).2.fs := by
  intro fs
  have hscan : GetFileEnd.scanHeader [] (str "SPLF2 0 00000000 a\n") =
      .line (str "SPLF2 0 00000000 a") [] := rfl
  refine files_kept ⟨GetFileEnd.headersMeet_line rfl hscan ?_ _, trivial⟩
  intro size crc rel hparse
  have hfields : parseHeader (str "SPLF2 0 00000000 a") = some (0, 0, str "a") := by decide
  cases hfields.symm.trans hparse
  intro _ q i hq
  have hnames :
      let e : GetFileEnd := { target := str "/d", overwrite := false, relpath := str "a" }
      let r := e.destination { fs }
      r.2.fs.resolve (cstr (r.1 ++ str ".part")) = some [str "a.part", str "d"] ∧
      r.2.fs.resolve (cstr (r.1 ++ str ".part.meta")) = some [str "a.part.meta", str "d"] := by
    decide +kernel
  have hfree : fs.node [str "a.part", str "d"] = none ∧
      fs.node [str "a.part.meta", str "d"] = none := by
    decide +kernel
  constructor
  · intro e
    cases hnames.1.symm.trans e
    exact absurd (hfree.1.symm.trans hq.1) (by simp)
  · intro e
    cases hnames.2.symm.trans e
    exact absurd (hfree.2.symm.trans hq.1) (by simp)

/-- A file `a.part` of the user's is gone once the file `a` has been received. -/
theorem user_part_lost :
    let fs := dirWith (str "a.part") (str "mine")
    ¬ Preserved fs (GetFileEnd.run { target := str "/d", overwrite := false } { fs }
      [.data (str "SPLF2 0 00000000 a\n")]).2.fs := by
  intro fs hkept
  have hnode : fs.node [str "a.part", str "d"] = some (.file 0) := by decide +kernel
  have hhad : Had fs [str "a.part", str "d"] 0 := by
    refine ⟨hnode, ?_⟩
    rintro ⟨c, p, i, j, size, crc, rel, hq | hq, -, hmeta, -⟩
    · obtain ⟨hname, rfl⟩ := List.cons.inj hq
      have hc : c = str "a" := List.append_cancel_right (hname.symm : _ = str "a" ++ str ".part")
      have hfree : fs.node [str "a" ++ str ".part.meta", str "d"] = none := by decide +kernel
      exact absurd (hfree.symm.trans (hc ▸ hmeta)) (by simp)
    · have hlen := congrArg List.length (List.cons.inj hq).1
      rw [List.length_append] at hlen
      have hpart : (str "a.part").length = 6 := by decide
      have hside : (str ".part.meta").length = 10 := by decide
      omega
  exact absurd (hkept _ 0 hhad).1 (by decide +kernel)

end Splice.Peer
