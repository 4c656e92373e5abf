import Splice.Peer.Receiving

/-!
Where a receiving end can reach. Into a directory every path it creates, opens for
writing, renames or removes is below that directory by plain names; otherwise there
are three such paths. The directory itself can be lost on the way, when its own path
leads through an empty directory that is removed as an entry's `.part.meta`; nothing
can be opened after that.
-/

namespace Splice.Peer
open Lib FileSystem

/-- Below the directory by plain names. -/
def Under (dir path : Bytes) : Prop :=
  ∃ cs, cs ≠ [] ∧ (∀ c ∈ cs, Plain c) ∧ path = dir ++ joinPath cs

/-- A received path is plain names below whatever it is put under. -/
theorem safeRelpath_eq {rel : Bytes} (h : 0 ∉ rel) :
    ∃ cs c, (∀ x ∈ cs, Plain x ∧ 0 ∉ x) ∧ (Plain c ∧ 0 ∉ c) ∧
      slash :: safeRelpath rel = joinPath (cs ++ [c]) := by
  rw [safeRelpath]
  split
  · exact ⟨[], str "received.file", by simp, by decide, by simp [joinPath]⟩
  · rename_i hne
    have hplain : ∀ x ∈ (comps rel).filter fun c => !(c = [] || c = dot || c = dotdot),
        Plain x ∧ 0 ∉ x := by
      intro x hx
      obtain ⟨hmem, hkept⟩ := List.mem_filter.mp hx
      simp only [Bool.not_eq_true', Bool.or_eq_false_iff, decide_eq_false_iff_not] at hkept
      exact ⟨⟨hkept.1.1, hkept.1.2, hkept.2, slash_notMem_comps hmem⟩,
        fun h0 => h (mem_of_mem_comps hmem h0)⟩
    rw [← joinPath_eq hne]
    rcases List.eq_nil_or_concat' ((comps rel).filter fun c => !(c = [] || c = dot || c = dotdot))
      with hnil | ⟨cs, c, hcs⟩
    · exact absurd hnil hne
    · rw [hcs] at hplain ⊢
      exact ⟨cs, c, fun x hx => hplain x (by simp [hx]), hplain c (by simp), rfl⟩

theorem zero_notMem_joinPath {cs : List Name} (h : ∀ c ∈ cs, 0 ∉ c) : 0 ∉ joinPath cs := by
  intro hmem
  obtain ⟨c, hc, hx⟩ := List.mem_flatMap.mp hmem
  rcases List.mem_cons.mp hx with h0 | hx
  · exact absurd h0 (by decide)
  · exact h c hc hx

theorem dirnameOf_append (t : Bytes) {c : Bytes} (hc : slash ∉ c) :
    dirnameOf (t ++ slash :: c) = t := by
  have hdrop : (c.reverse ++ slash :: t.reverse).dropWhile (· ≠ slash) = slash :: t.reverse := by
    rw [List.dropWhile_append_of_pos]
    · simp
    · intro b hb
      rw [decide_eq_true_eq]
      exact fun e => hc (e ▸ List.mem_reverse.mp hb)
  simp only [dirnameOf, List.reverse_append, List.reverse_cons, List.append_assoc,
    List.singleton_append, hdrop, List.tail_cons, List.reverse_reverse]

/-- A destination below the directory. -/
def Placed (dir dest : Bytes) : Prop :=
  0 ∉ dest ∧ ∃ cs c, (∀ x ∈ cs, Plain x) ∧ Plain c ∧ dest = dir ++ joinPath (cs ++ [c])

namespace Placed
variable {dir dest : Bytes} {fs : FileSystem}

theorem cstr_eq (h : Placed dir dest) {s : Bytes} (hs : 0 ∉ s) : cstr (dest ++ s) = dest ++ s := by
  rw [cstr_append h.1, Lib.cstr_eq hs]

theorem notMem_dir (h : Placed dir dest) : 0 ∉ dir := by
  obtain ⟨h0, cs, c, -, -, rfl⟩ := h
  exact fun hmem => h0 (List.mem_append_left _ hmem)

/-- The destination itself, and with one of the endings. -/
theorem under (h : Placed dir dest) {s : Bytes} (hs : s = [] ∨ 2 < s.length ∧ slash ∉ s) :
    Under dir (dest ++ s) := by
  obtain ⟨-, cs, c, hcs, hc, rfl⟩ := h
  have hplain : Plain (c ++ s) := by
    rcases hs with rfl | ⟨hlen, hslash⟩
    · simpa using hc
    · exact hc.append hlen hslash
  refine ⟨cs ++ [c ++ s], by simp, fun x hx => ?_, by simp [joinPath]⟩
  rcases List.mem_append.mp hx with hx | hx
  · exact hcs x hx
  · rw [List.mem_singleton.mp hx]
    exact hplain

end Placed

theorem Under.resolve {dir path : Bytes} {fs : FileSystem} {q : Path} (h : Under dir path)
    (hdir : dir ≠ []) (hr : fs.resolve path = some q) : fs.resolve dir ≠ some q := by
  obtain ⟨cs, hne, hplain, rfl⟩ := h
  obtain ⟨d, hd, rfl⟩ := resolve_joinPath hdir hplain hr
  rw [hd]
  intro e
  have hlen := congrArg List.length (Option.some.inj e)
  rw [List.length_append, List.length_reverse] at hlen
  have : cs.length ≠ 0 := fun h0 => hne (List.length_eq_zero_iff.mp h0)
  omega

namespace GetFileEnd

theorem dir_ne_nil (e : GetFileEnd) : e.dir ≠ [] := by
  rw [dir]
  split
  · decide
  · assumption

/-- A cut of a path made for an entry that names no node lies below the directory. -/
theorem under_of_cut {dir : Bytes} {cs : List Name} {fs : FileSystem} (h0 : 0 ∉ dir)
    (hcs : ∀ c ∈ cs, Plain c ∧ 0 ∉ c) (hdir : fs.isDir dir = true) {a b : Bytes}
    (hcut : dir ++ joinPath cs = a ++ b) (hb : b = [] ∨ b.head? = some slash) (ha : a ≠ [])
    (hstat : fs.stat (cstr a) = none) : Under dir (cstr a) := by
  have ha0 : 0 ∉ a := by
    intro hmem
    have hall : 0 ∈ dir ++ joinPath cs := hcut ▸ List.mem_append_left b hmem
    rcases List.mem_append.mp hall with h | h
    · exact h0 h
    · exact zero_notMem_joinPath (fun c hc => (hcs c hc).2) h
  rw [cstr_eq ha0] at hstat ⊢
  have hold : ∀ c, dir = a ++ c → (c = [] ∨ c.head? = some slash) → False := fun c hc hhead =>
    absurd (hstat.symm.trans (stat_cut hdir hc ha hhead)) (by simp)
  rcases List.append_eq_append_iff.mp hcut with ⟨x, rfl, hx⟩ | ⟨x, hx, rfl⟩
  · obtain ⟨cs₁, cs₂, hsplit, rfl⟩ := joinPath_cut (fun c hc => (hcs c hc).1) hx hb
    refine ⟨cs₁, ?_, fun c hc => (hcs c (hsplit ▸ List.mem_append_left cs₂ hc)).1, rfl⟩
    rintro rfl
    exact hold [] (by simp [joinPath]) (.inl rfl)
  · refine absurd (hold x hx ?_) id
    cases x with
    | nil => exact .inl rfl
    | cons c x => simpa using hb

theorem destination_dir {e : GetFileEnd} {w : Files} (hdir : w.fs.isDir (cstr e.dir) = true)
    (h0 : 0 ∉ e.dir) (hrel : 0 ∉ e.relpath) :
    Placed e.dir (e.destination w).1 ∧ Grows w.fs (e.destination w).2.fs ∧
      ∃ new, (e.destination w).2.touched = w.touched ++ new ∧ ∀ p ∈ new, Under e.dir p := by
  obtain ⟨cs, c, hcs, hc, hsafe⟩ := safeRelpath_eq hrel
  have hdest : e.dir ++ [slash] ++ safeRelpath e.relpath = e.dir ++ joinPath (cs ++ [c]) := by
    rw [← hsafe]
    simp
  have hname : dirnameOf (e.dir ++ joinPath (cs ++ [c])) = e.dir ++ joinPath cs := by
    rw [show e.dir ++ joinPath (cs ++ [c]) = (e.dir ++ joinPath cs) ++ slash :: c by
      simp [joinPath]]
    exact dirnameOf_append _ hc.1.2.2.2
  rw [destination, if_pos hdir]
  simp only [hdest, hname]
  rw [cstr_eq h0] at hdir
  obtain ⟨hgrows, new, ht, hnew⟩ := w.mkdirs_spec [] (e.dir ++ joinPath cs)
  refine ⟨⟨?_, cs, c, fun x hx => (hcs x hx).1, hc.1, rfl⟩, hgrows, new, ht, fun p hp => ?_⟩
  · intro hmem
    rcases List.mem_append.mp hmem with h | h
    · exact h0 h
    · refine zero_notMem_joinPath (fun x hx => ?_) h
      rcases List.mem_append.mp hx with hx | hx
      · exact (hcs x hx).2
      · rw [List.mem_singleton.mp hx]
        exact hc.2
  · obtain ⟨hstat, a, b, hcut, hb, hne, rfl⟩ := hnew p hp
    rw [List.nil_append] at hne hstat ⊢
    exact under_of_cut h0 hcs hdir hcut hb hne hstat

/-- A directory whose path was meant to go on after a NUL. -/
theorem destination_nul {e : GetFileEnd} {w : Files} (hdir : w.fs.isDir (cstr e.dir) = true)
    (h0 : 0 ∈ e.dir) (hrel : 0 ∉ e.relpath) :
    (∀ s, cstr ((e.destination w).1 ++ s) = cstr e.dir) ∧ Grows w.fs (e.destination w).2.fs ∧
      (e.destination w).2.touched = w.touched := by
  rw [destination, if_pos hdir]
  dsimp only
  obtain ⟨hgrows, new, ht, hnew⟩ :=
    w.mkdirs_spec [] (dirnameOf (e.dir ++ [slash] ++ safeRelpath e.relpath))
  refine ⟨fun s => ?_, hgrows, ?_⟩
  · rw [List.append_assoc, List.append_assoc, cstr_append_of_mem h0]
  · rw [ht, List.append_right_eq_self, List.eq_nil_iff_forall_not_mem]
    intro p hp
    obtain ⟨hstat, a, b, hcut, hb, hne, rfl⟩ := hnew p hp
    rw [List.nil_append] at hne hstat
    obtain ⟨cs, c, -, hc, hsafe⟩ := safeRelpath_eq hrel
    have hwhole : cstr (a ++ b) = cstr e.dir := by
      have hname : e.dir ++ [slash] ++ safeRelpath e.relpath =
          (e.dir ++ joinPath cs) ++ slash :: c := by
        rw [List.append_assoc, List.singleton_append, hsafe]
        simp [joinPath]
      rw [← hcut, hname, dirnameOf_append _ hc.1.2.2.2, cstr_append_of_mem h0]
    by_cases ha : 0 ∈ a
    · rw [cstr_append_of_mem ha] at hwhole
      rw [isDir, decide_eq_true_eq, ← hwhole, hstat] at hdir
      cases hdir
    · rw [cstr_append ha] at hwhole
      rw [cstr_eq ha] at hstat
      refine absurd (hstat.symm.trans (stat_cut hdir hwhole.symm hne ?_)) (by simp)
      cases b with
      | nil => exact .inl rfl
      | cons x b =>
          have hx : x = slash := by simpa using hb
          exact .inr (by simp [hx, cstr, slash])

end GetFileEnd

/-! ## Into a directory -/

/-- Nothing that names a directory or nothing at all can be opened. -/
structure Blocked (w : Files) (path : Bytes) : Prop where
  node : ∀ p, w.fs.resolve (cstr path) = some p → w.fs.node p = some .dir

namespace Blocked
variable {w : Files} {path : Bytes}

theorem openTrunc (h : Blocked w path) :
    (w.openTrunc path).1 = none ∧ Files.Quiet w (w.openTrunc path).2 := by
  rcases w.openTrunc_cases path with hq | ⟨hd, p, -, -, -, hr, hnd, -⟩
  · exact hq
  · exact absurd (h.node p hr) hnd

theorem openUpdate (h : Blocked w path) (off : Nat) : (w.openUpdate path off).1 = none := by
  rcases w.openUpdate_cases path off with hq | ⟨hd, p, -, -, -, hr, hf, -⟩
  · exact hq.1
  · exact absurd ((h.node p hr).symm.trans hf) (by simp)

theorem writeText (h : Blocked w path) (text : Bytes) : Files.Quiet w (w.writeText path text) := by
  rcases w.writeText_cases path text with hq | ⟨p, i, hr, hnd, -⟩
  · exact hq
  · exact absurd (h.node p hr) hnd

end Blocked

/-- Nothing can be opened, so nothing happens. -/
theorem blocked_open {w : Files} {part other : Bytes} (hp : Blocked w part)
    (hm : Blocked w other) :
    (∀ off h w₂, w.openUpdate part off ≠ (some h, w₂)) ∧
    ∀ file w₂ text, w.openTrunc part = (file, w₂) →
      file = none ∧ Files.Quiet w (w₂.writeText other text) := by
  refine ⟨fun off h w₂ heq => ?_, fun file w₂ text heq => ?_⟩
  · have hnone := hp.openUpdate off
    rw [heq] at hnone
    cases hnone
  · obtain ⟨hnone, hq⟩ := hp.openTrunc
    rw [heq] at hnone hq
    have hm' : Blocked w₂ other := ⟨by rw [hq.fs]; exact hm.node⟩
    exact ⟨hnone, hq.trans (hm'.writeText text)⟩

/-- A path that goes on where a lost directory was. -/
theorem gone_part {e : GetFileEnd} {fs : FileSystem} (h : fs.Gone (cstr e.dir)) {s : Bytes}
    (hs : slash ∉ s) (h0 : 0 ∉ s) (hdot : ∃ t, s = dot ++ t) :
    fs.resolve (cstr (e.target ++ s)) = none := by
  by_cases ht : e.target = []
  · obtain ⟨t, rfl⟩ := hdot
    have hdir : cstr e.dir = dot := by
      rw [GetFileEnd.dir, if_pos ht]
      decide
    rw [ht, List.nil_append, cstr_eq h0, ← hdir]
    exact h t fun hmem => hs (List.mem_append_right dot hmem)
  · have hdir : e.dir = e.target := if_neg ht
    rw [hdir] at h
    by_cases hn : 0 ∈ e.target
    · rw [cstr_append_of_mem hn, ← List.append_nil (cstr e.target)]
      exact h [] (by simp)
    · rw [cstr_eq hn] at h
      rw [cstr_append hn, cstr_eq h0]
      exact h s hs

section DirPolicy
variable {dir : Bytes} {fs : FileSystem} {ts : List Bytes}

/-- Only paths below the directory so far, and the directory is there unless it was lost. -/
def DirIdle (dir : Bytes) (fs : FileSystem) (ts : List Bytes) : Prop :=
  (∀ p ∈ ts, Under dir p) ∧ (fs.isDir (cstr dir) = true ∨ fs.Gone (cstr dir))

/-- An entry below the directory is open. -/
structure DirBusy (dir dest : Bytes) (fs : FileSystem) (ts : List Bytes) (i : Nat) : Prop where
  touched : ∀ p ∈ ts, Under dir p
  placed : Placed dir dest
  isDir : fs.isDir dir = true
  part : ∃ p, fs.resolve (dest ++ str ".part") = some p ∧ fs.node p = some (.file i)

theorem DirBusy.idle {dest : Bytes} {i : Nat} (h : DirBusy dir dest fs ts i) :
    DirIdle dir fs ts :=
  ⟨h.touched, .inl (by rw [cstr_eq h.placed.notMem_dir]; exact h.isDir)⟩

theorem DirBusy.written {dest : Bytes} {i : Nat} (h : DirBusy dir dest fs ts i) (b : Bytes) :
    DirBusy dir dest (fs.setData i b) ts i := by
  have hdirs := SameDirs.setData fs i b
  refine ⟨h.touched, h.placed, (hdirs.isDir dir).trans h.isDir, ?_⟩
  rw [hdirs.resolve]
  exact h.part

theorem under_append {ts : List Bytes} {new : List Bytes} (h : ∀ p ∈ ts, Under dir p)
    (hn : ∀ p ∈ new, Under dir p) : ∀ p ∈ ts ++ new, Under dir p := by
  intro p hp
  rcases List.mem_append.mp hp with hp | hp
  · exact h p hp
  · exact hn p hp

/-- Taking a path below the directory away. -/
theorem dirIdle_remove {w : Files} {path : Bytes} (hdir : dir ≠ []) (h0 : 0 ∉ dir)
    (ht : ∀ p ∈ w.touched, Under dir p) (hd : w.fs.isDir dir = true)
    (hu : Under dir (cstr path)) :
    DirIdle dir (w.remove path).fs (w.remove path).touched := by
  rw [DirIdle, cstr_eq h0]
  rcases w.remove_cases path with hq | ⟨p, hr, hgone, hedits, hcwd, -, htouch⟩
  · rw [hq.fs, hq.touched]
    exact ⟨ht, .inl hd⟩
  · rw [htouch]
    exact ⟨under_append ht (by simpa using hu),
      isDir_or_gone hdir hd (hu.resolve hdir hr) hgone hedits hcwd⟩

theorem DirBusy.finished {dest : Bytes} {w : Files} {i : Nat} (hdir : dir ≠ [])
    (h : DirBusy dir dest w.fs w.touched i) :
    (let w₁ := (w.remove (dest ++ str ".part")).remove (dest ++ str ".part.meta")
     DirIdle dir w₁.fs w₁.touched) ∧
    (∀ w₁, w.rename (dest ++ str ".part") dest = (false, w₁) → DirIdle dir w₁.fs w₁.touched) ∧
    (∀ w₁, w.rename (dest ++ str ".part") dest = (true, w₁) →
      let w₂ := w₁.remove (dest ++ str ".part.meta")
      DirIdle dir w₂.fs w₂.touched) := by
  have h0 := h.placed.notMem_dir
  have hpart : cstr (dest ++ str ".part") = dest ++ str ".part" := h.placed.cstr_eq (by decide)
  have hmeta : cstr (dest ++ str ".part.meta") = dest ++ str ".part.meta" :=
    h.placed.cstr_eq (by decide)
  have hdest : cstr dest = dest := cstr_eq h.placed.1
  have hupart : Under dir (cstr (dest ++ str ".part")) := by
    rw [hpart]
    exact h.placed.under (.inr (by decide))
  have humeta : Under dir (cstr (dest ++ str ".part.meta")) := by
    rw [hmeta]
    exact h.placed.under (.inr (by decide))
  have hudest : Under dir (cstr dest) := by
    rw [hdest, ← List.append_nil dest]
    exact h.placed.under (.inl rfl)
  obtain ⟨p, hr, hf⟩ := h.part
  refine ⟨?_, fun w₁ heq => ?_, fun w₁ heq => ?_⟩
  · rcases w.remove_cases (dest ++ str ".part") with hq | ⟨q, hq, -, -, -, hdirs, htouch⟩
    · refine dirIdle_remove hdir h0 ?_ ?_ humeta
      · rw [hq.touched]
        exact h.touched
      · rw [hq.fs]
        exact h.isDir
    · rw [hpart, hr] at hq
      cases hq
      refine dirIdle_remove hdir h0 ?_ ?_ humeta
      · rw [htouch]
        exact under_append h.touched (by simpa using hupart)
      · rw [(hdirs (by simp [hf])).isDir]
        exact h.isDir
  all_goals
    have hcases := w.rename_cases (dest ++ str ".part") dest (hpart.symm ▸ hr) hf
    rw [heq] at hcases
  · rcases hcases with ⟨-, hq⟩ | ⟨dst, hfalse, -⟩
    · rw [hq.fs, hq.touched]
      exact h.idle
    · cases hfalse
  · rcases hcases with ⟨hfalse, -⟩ | ⟨dst, -, -, -, -, -, -, hdirs, htouch⟩
    · cases hfalse
    · refine dirIdle_remove hdir h0 ?_ ?_ humeta
      · rw [htouch]
        refine under_append h.touched ?_
        simpa using ⟨hupart, hudest⟩
      · rw [hdirs.isDir]
        exact h.isDir

theorem dirIdle_destination {e : GetFileEnd} {w : Files} (hrel : 0 ∉ e.relpath)
    (h : DirIdle e.dir w.fs w.touched) :
    DirIdle e.dir (e.destination w).2.fs (e.destination w).2.touched := by
  by_cases hdir : w.fs.isDir (cstr e.dir) = true
  · by_cases h0 : 0 ∈ e.dir
    · obtain ⟨-, hgrows, ht⟩ := GetFileEnd.destination_nul hdir h0 hrel
      rw [ht]
      exact ⟨h.1, .inl (hgrows.isDir hdir)⟩
    · obtain ⟨-, hgrows, new, ht, hnew⟩ := GetFileEnd.destination_dir hdir h0 hrel
      rw [ht]
      exact ⟨under_append h.1 hnew, .inl (hgrows.isDir hdir)⟩
  · rw [GetFileEnd.destination, if_neg hdir]
    exact h

/-- The `.part` and the `.part.meta` of an entry are two nodes. -/
theorem Placed.part_ne_meta {dest : Bytes} (h : Placed dir dest) (hdir : dir ≠ []) {p q : Path}
    (hp : fs.resolve (dest ++ str ".part") = some p)
    (hq : fs.resolve (dest ++ str ".part.meta") = some q) : p ≠ q := by
  obtain ⟨-, cs, c, hcs, hc, rfl⟩ := h
  have key : ∀ s : Bytes, 2 < s.length → slash ∉ s → ∀ r,
      fs.resolve (dir ++ joinPath (cs ++ [c]) ++ s) = some r →
      ∃ d, fs.resolve dir = some d ∧ r = (c ++ s) :: cs.reverse ++ d := by
    intro s hlen hs r hr
    have hplain : ∀ x ∈ cs ++ [c ++ s], Plain x := by
      intro x hx
      rcases List.mem_append.mp hx with hx | hx
      · exact hcs x hx
      · rw [List.mem_singleton.mp hx]
        exact hc.append hlen hs
    have hjoin : fs.resolve (dir ++ joinPath (cs ++ [c ++ s])) = some r := by
      rw [← hr]
      simp [joinPath]
    obtain ⟨d, hd, hrd⟩ := resolve_joinPath hdir hplain hjoin
    exact ⟨d, hd, by simpa using hrd⟩
  obtain ⟨d, -, rfl⟩ := key _ (by decide) (by decide) p hp
  obtain ⟨d', -, rfl⟩ := key _ (by decide) (by decide) q hq
  intro e
  simp only [List.cons_append, List.cons.injEq, List.append_cancel_left_eq] at e
  exact absurd e.1 (by decide)

theorem dirBusy_opened {dest : Bytes} {w : Files} (hdir : dir ≠ []) (hp : Placed dir dest)
    (ht : ∀ p ∈ w.touched, Under dir p) (hd : w.fs.isDir dir = true) :
    (∀ off h w₂, w.openUpdate (dest ++ str ".part") off = (some h, w₂) →
      DirBusy dir dest w₂.fs w₂.touched h.ino) ∧
    (∀ file w₂ text, w.openTrunc (dest ++ str ".part") = (file, w₂) →
      let w₃ := w₂.writeText (dest ++ str ".part.meta") text
      match file with
      | some h => DirBusy dir dest w₃.fs w₃.touched h.ino
      | none => DirIdle dir w₃.fs w₃.touched) := by
  have hpart : cstr (dest ++ str ".part") = dest ++ str ".part" := hp.cstr_eq (by decide)
  have hmeta : cstr (dest ++ str ".part.meta") = dest ++ str ".part.meta" :=
    hp.cstr_eq (by decide)
  have hupart : Under dir (dest ++ str ".part") := hp.under (.inr (by decide))
  have humeta : Under dir (dest ++ str ".part.meta") := hp.under (.inr (by decide))
  refine ⟨fun off h w₂ heq => ?_, fun file w₂ text heq => ?_⟩
  · have hcases := w.openUpdate_cases (dest ++ str ".part") off
    rw [heq, hpart] at hcases
    rcases hcases with ⟨hnone, -⟩ | ⟨h', p, hh, -, -, hr, hf, hfs, htouch⟩
    · cases hnone
    · cases hh
      rw [hfs, htouch]
      exact ⟨under_append ht (by simpa using hupart), hp, hd, p, hr, hf⟩
  · -- the second file opened leaves the first alone
    have hsecond : ∀ {w' : Files}, (∀ p ∈ w'.touched, Under dir p) → w'.fs.isDir dir = true →
        let w₃ := w'.writeText (dest ++ str ".part.meta") text
        (∀ p ∈ w₃.touched, Under dir p) ∧ w₃.fs.isDir dir = true ∧
          ∀ p i, w'.fs.resolve (dest ++ str ".part") = some p →
            w'.fs.node p = some (.file i) →
            w₃.fs.resolve (dest ++ str ".part") = some p ∧ w₃.fs.node p = some (.file i) := by
      intro w' ht' hd'
      rcases w'.writeText_cases (dest ++ str ".part.meta") text with
        hq | ⟨q, j, hq, -, -, -, -, hedits, hdirs, htouch⟩
      · dsimp only
        rw [hq.fs, hq.touched]
        exact ⟨ht', hd', fun p i hr hf => ⟨hr, hf⟩⟩
      · rw [hmeta] at hq htouch
        dsimp only
        rw [htouch, hdirs.isDir, hdirs.resolve]
        refine ⟨under_append ht' (by simpa using humeta), hd', fun p i hr hf => ⟨hr, ?_⟩⟩
        rw [hedits.node p (hp.part_ne_meta hdir hr hq)]
        exact hf
    have hcases := w.openTrunc_cases (dest ++ str ".part")
    rw [heq, hpart] at hcases
    rcases hcases with ⟨hnone, hq⟩ | ⟨h', p, hh, -, -, hr, -, hf, -, -, hdirs, htouch⟩
    · dsimp only at hnone
      subst hnone
      have ht₂ : ∀ p ∈ w₂.touched, Under dir p := by
        rw [hq.touched]
        exact ht
      have hd₂ : w₂.fs.isDir dir = true := by
        rw [hq.fs]
        exact hd
      obtain ⟨ht₃, hd₃, -⟩ := hsecond ht₂ hd₂
      exact ⟨ht₃, .inl (by rw [cstr_eq hp.notMem_dir]; exact hd₃)⟩
    · dsimp only at hh
      subst hh
      have ht₂ : ∀ p ∈ w₂.touched, Under dir p := by
        rw [htouch]
        exact under_append ht (by simpa using hupart)
      have hd₂ : w₂.fs.isDir dir = true := by
        rw [hdirs.isDir]
        exact hd
      obtain ⟨ht₃, hd₃, hnode⟩ := hsecond ht₂ hd₂
      exact ⟨ht₃, hp, hd₃, p, hnode p _ ((hdirs.resolve _).trans hr) hf⟩

end DirPolicy

/-! ## The two policies -/

/-- Files go into a directory. -/
def dirPolicy (target : Bytes) (overwrite : Bool) : GetFileEnd.Policy target overwrite where
  idle := DirIdle ({ target, overwrite } : GetFileEnd).dir
  busy := DirBusy ({ target, overwrite } : GetFileEnd).dir
  allow _ _ := True
  written h := h.written
  released h := h.idle
  destined := by
    intro e w ht hrel h
    have hdir : e.dir = ({ target, overwrite } : GetFileEnd).dir := by simp [GetFileEnd.dir, ht]
    rw [← hdir] at h ⊢
    exact dirIdle_destination hrel h
  opened := by
    intro e w dest w₁ ht _ hrel h _ hd _
    have hdir : e.dir = ({ target, overwrite } : GetFileEnd).dir := by simp [GetFileEnd.dir, ht]
    rw [← hdir] at h ⊢
    have hidle := dirIdle_destination hrel h
    rw [hd] at hidle
    have hblocked : Blocked w₁ (dest ++ str ".part") → Blocked w₁ (dest ++ str ".part.meta") →
        (∀ off h w₂, w₁.openUpdate (dest ++ str ".part") off = (some h, w₂) →
          DirBusy e.dir dest w₂.fs w₂.touched h.ino) ∧
        (∀ file w₂ text, w₁.openTrunc (dest ++ str ".part") = (file, w₂) →
          let w₃ := w₂.writeText (dest ++ str ".part.meta") text
          match file with
          | some h => DirBusy e.dir dest w₃.fs w₃.touched h.ino
          | none => DirIdle e.dir w₃.fs w₃.touched) := by
      intro hp hm
      obtain ⟨hupd, htrunc⟩ := blocked_open hp hm
      refine ⟨fun off h w₂ heq => absurd heq (hupd off h w₂), fun file w₂ text heq => ?_⟩
      obtain ⟨rfl, hq⟩ := htrunc file w₂ text heq
      dsimp only
      rw [hq.fs, hq.touched]
      exact hidle
    by_cases hisdir : w.fs.isDir (cstr e.dir) = true
    · by_cases h0 : 0 ∈ e.dir
      · obtain ⟨hcut, hgrows, -⟩ := GetFileEnd.destination_nul hisdir h0 hrel
        rw [hd] at hcut hgrows
        have hthere := hgrows.isDir hisdir
        rw [isDir, decide_eq_true_eq] at hthere
        have hnode : ∀ s p, w₁.fs.resolve (cstr (dest ++ s)) = some p →
            w₁.fs.node p = some .dir := by
          intro s p hr
          rw [hcut s] at hr
          rwa [stat, hr] at hthere
        exact hblocked ⟨hnode _⟩ ⟨hnode _⟩
      · obtain ⟨hplaced, hgrows, -⟩ := GetFileEnd.destination_dir hisdir h0 hrel
        rw [hd] at hplaced hgrows
        have hthere := hgrows.isDir hisdir
        rw [cstr_eq h0] at hthere
        exact dirBusy_opened e.dir_ne_nil hplaced hidle.1 hthere
    · have hgone := h.2.resolve_left hisdir
      rw [GetFileEnd.destination, if_neg hisdir] at hd
      cases hd
      refine hblocked ⟨fun p hr => ?_⟩ ⟨fun p hr => ?_⟩
      · rw [gone_part hgone (by decide) (by decide) ⟨str "part", by decide⟩] at hr
        cases hr
      · rw [gone_part hgone (by decide) (by decide) ⟨str "part.meta", by decide⟩] at hr
        cases hr
  finished h := h.finished (GetFileEnd.dir_ne_nil _)

/-- The three paths of a target that is no directory. -/
def single (target : Bytes) : List Bytes :=
  [cstr target, cstr (target ++ str ".part"), cstr (target ++ str ".part.meta")]

section FilePolicy
variable {dir target : Bytes}

/-- Only the three paths so far. -/
def FileIdle (dir target : Bytes) (fs : FileSystem) (ts : List Bytes) : Prop :=
  (∀ p ∈ ts, p ∈ single target) ∧ fs.isDir (cstr dir) = false

structure FileBusy (dir target dest : Bytes) (fs : FileSystem) (ts : List Bytes) (i : Nat) :
    Prop where
  idle : FileIdle dir target fs ts
  dest_eq : dest = target
  part : ∃ p, fs.resolve (cstr (target ++ str ".part")) = some p ∧ fs.node p = some (.file i)

theorem single_append {ts new : List Bytes} (h : ∀ p ∈ ts, p ∈ single target)
    (hn : ∀ p ∈ new, p ∈ single target) : ∀ p ∈ ts ++ new, p ∈ single target := by
  intro p hp
  rcases List.mem_append.mp hp with hp | hp
  · exact h p hp
  · exact hn p hp

theorem fileIdle_remove {w : Files} {path : Bytes} (h : FileIdle dir target w.fs w.touched)
    (hp : cstr path ∈ single target) :
    FileIdle dir target (w.remove path).fs (w.remove path).touched := by
  rcases w.remove_cases path with hq | ⟨p, -, hgone, hedits, hcwd, -, htouch⟩
  · rw [hq.fs, hq.touched]
    exact h
  · rw [htouch]
    refine ⟨single_append h.1 (by simpa using hp), ?_⟩
    by_contra hdir
    rw [Bool.not_eq_false] at hdir
    exact absurd (h.2.symm.trans (isDir_of_removed hgone hedits hcwd hdir)) (by decide)

theorem FileBusy.finished {dest : Bytes} {w : Files} {i : Nat}
    (h : FileBusy dir target dest w.fs w.touched i) :
    (let w₁ := (w.remove (dest ++ str ".part")).remove (dest ++ str ".part.meta")
     FileIdle dir target w₁.fs w₁.touched) ∧
    (∀ w₁, w.rename (dest ++ str ".part") dest = (false, w₁) →
      FileIdle dir target w₁.fs w₁.touched) ∧
    (∀ w₁, w.rename (dest ++ str ".part") dest = (true, w₁) →
      let w₂ := w₁.remove (dest ++ str ".part.meta")
      FileIdle dir target w₂.fs w₂.touched) := by
  obtain ⟨hidle, rfl, p, hr, hf⟩ := h
  refine ⟨?_, fun w₁ heq => ?_, fun w₁ heq => ?_⟩
  · exact fileIdle_remove (fileIdle_remove hidle (by simp [single])) (by simp [single])
  all_goals
    have hcases := w.rename_cases (dest ++ str ".part") dest hr hf
    rw [heq] at hcases
  · rcases hcases with ⟨-, hq⟩ | ⟨dst, hfalse, -⟩
    · rw [hq.fs, hq.touched]
      exact hidle
    · cases hfalse
  · rcases hcases with ⟨hfalse, -⟩ | ⟨dst, -, -, -, -, -, -, hdirs, htouch⟩
    · cases hfalse
    · refine fileIdle_remove ⟨?_, (hdirs.isDir _).trans hidle.2⟩ (by simp [single])
      rw [htouch]
      exact single_append hidle.1 (by simp [single])

theorem fileBusy_opened {w : Files} (h : FileIdle dir target w.fs w.touched) :
    (∀ off hd w₂, w.openUpdate (target ++ str ".part") off = (some hd, w₂) →
      FileBusy dir target target w₂.fs w₂.touched hd.ino) ∧
    (∀ file w₂ text, w.openTrunc (target ++ str ".part") = (file, w₂) →
      let w₃ := w₂.writeText (target ++ str ".part.meta") text
      match file with
      | some hd => FileBusy dir target target w₃.fs w₃.touched hd.ino
      | none => FileIdle dir target w₃.fs w₃.touched) := by
  refine ⟨fun off hd w₂ heq => ?_, fun file w₂ text heq => ?_⟩
  · have hcases := w.openUpdate_cases (target ++ str ".part") off
    rw [heq] at hcases
    rcases hcases with ⟨hnone, -⟩ | ⟨h', p, hh, -, -, hr, hf, hfs, htouch⟩
    · cases hnone
    · cases hh
      rw [hfs, htouch]
      exact ⟨⟨single_append h.1 (by simp [single]), h.2⟩, rfl, p, hr, hf⟩
  · have hsecond : ∀ {w' : Files}, FileIdle dir target w'.fs w'.touched →
        let w₃ := w'.writeText (target ++ str ".part.meta") text
        FileIdle dir target w₃.fs w₃.touched ∧ ∀ p i,
          w'.fs.resolve (cstr (target ++ str ".part")) = some p →
          w'.fs.node p = some (.file i) →
          w₃.fs.resolve (cstr (target ++ str ".part")) = some p ∧
            w₃.fs.node p = some (.file i) := by
      intro w' h'
      rcases w'.writeText_cases (target ++ str ".part.meta") text with
        hq | ⟨q, j, -, -, hnode, hino, -, hedits, hdirs, htouch⟩
      · dsimp only
        rw [hq.fs, hq.touched]
        exact ⟨h', fun p i hr hf => ⟨hr, hf⟩⟩
      · dsimp only
        rw [htouch, hdirs.resolve]
        refine ⟨⟨single_append h'.1 (by simp [single]), (hdirs.isDir _).trans h'.2⟩,
          fun p i hr hf => ⟨hr, ?_⟩⟩
        -- the names may be one when the target holds a NUL; the inode stays
        by_cases hpq : p = q
        · rw [hpq] at hf ⊢
          rw [hino i hf]
          exact hnode
        · rw [hedits.node p hpq]
          exact hf
    have hcases := w.openTrunc_cases (target ++ str ".part")
    rw [heq] at hcases
    rcases hcases with ⟨hnone, hq⟩ | ⟨h', p, hh, -, -, hr, -, hf, -, -, hdirs, htouch⟩
    · dsimp only at hnone
      subst hnone
      have h₂ : FileIdle dir target w₂.fs w₂.touched := by
        rw [hq.fs, hq.touched]
        exact h
      exact (hsecond h₂).1
    · dsimp only at hh
      subst hh
      have h₂ : FileIdle dir target w₂.fs w₂.touched := by
        rw [htouch]
        exact ⟨single_append h.1 (by simp [single]), (hdirs.isDir _).trans h.2⟩
      obtain ⟨hidle, hnode⟩ := hsecond h₂
      exact ⟨hidle, rfl, p, hnode p _ ((hdirs.resolve _).trans hr) hf⟩

end FilePolicy

/-- Everything goes to one file. -/
def filePolicy (target : Bytes) (overwrite : Bool) : GetFileEnd.Policy target overwrite where
  idle := FileIdle ({ target, overwrite } : GetFileEnd).dir target
  busy := FileBusy ({ target, overwrite } : GetFileEnd).dir target
  allow _ _ := True
  written := by
    rintro dest fs ts i ⟨hidle, hdest, hpart⟩ b
    have hdirs := SameDirs.setData fs i b
    refine ⟨⟨hidle.1, (hdirs.isDir _).trans hidle.2⟩, hdest, ?_⟩
    rw [hdirs.resolve]
    exact hpart
  released h := h.idle
  destined := by
    intro e w ht _ h
    have hdir : e.dir = ({ target, overwrite } : GetFileEnd).dir := by simp [GetFileEnd.dir, ht]
    rw [GetFileEnd.destination, hdir, h.2, if_neg (by decide)]
    exact h
  opened := by
    intro e w dest w₁ ht _ _ h _ hd _
    have hdir : e.dir = ({ target, overwrite } : GetFileEnd).dir := by simp [GetFileEnd.dir, ht]
    rw [GetFileEnd.destination, hdir, h.2, if_neg (by decide), ht] at hd
    cases hd
    exact fileBusy_opened h
  finished h := h.finished

/-- Whatever a receiving end is sent, in any segments, and whichever calls fail: into a
directory it reaches only what is below by plain names, otherwise three paths only. -/
theorem received_paths_confined (target : Bytes) (overwrite : Bool) (fs : FileSystem)
    (refuse full : Nat → Bool) (as : List GetFileEnd.Event) :
    let e : GetFileEnd := { target, overwrite }
    let touched := (e.run { fs, refuse, full } as).2.touched
    if fs.isDir (cstr e.dir) then ∀ p ∈ touched, Under e.dir p
    else ∀ p ∈ touched, p ∈ single target := by
  intro e touched
  split
  · rename_i hdir
    have hmeets := GetFileEnd.runMeets_of_forall
      (C := (dirPolicy target overwrite).Considers) (fun _ _ _ _ _ _ _ => trivial)
      e { fs, refuse, full } as
    have hidle : (dirPolicy target overwrite).idle fs [] := ⟨by simp, .inl hdir⟩
    exact (GetFileEnd.Policy.holds_run _ hidle hmeets).released.1
  · rename_i hdir
    have hmeets := GetFileEnd.runMeets_of_forall
      (C := (filePolicy target overwrite).Considers) (fun _ _ _ _ _ _ _ => trivial)
      e { fs, refuse, full } as
    have hidle : (filePolicy target overwrite).idle fs [] := ⟨by simp, by simpa using hdir⟩
    exact (GetFileEnd.Policy.holds_run _ hidle hmeets).released.1

end Splice.Peer
