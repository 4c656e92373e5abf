import Splice.Lib.FileEffects
import Mathlib.Data.List.Perm.Basic

/-!
What a call that succeeds may have changed: the nodes it was about, and which paths
still mean the same. A path is resolved through directories only, so a change that
makes and takes away no directory leaves every path's meaning alone.
-/

namespace Splice.Lib.FileSystem
variable {fs fs' fs'' : FileSystem}

/-! ## Files below files -/

/-- Nothing lies below a node that is no directory. -/
theorem leaf_below {p : Path} (hp : fs.node p ≠ some .dir) (r : Path) (hr : r ≠ []) :
    fs.node (r ++ p) = none := by
  induction r with
  | nil => exact absurd rfl hr
  | cons c r ih =>
      by_contra hn
      obtain ⟨n, hn⟩ := Option.ne_none_iff_exists'.mp hn
      have hparent := fs.node_parent hn
      cases r with
      | nil => exact hp hparent
      | cons d r => exact absurd ((ih (by simp)).symm.trans hparent) (by simp)

theorem not_dir_of_suffix {p q : Path} (hp : fs.node p ≠ some .dir) (h : p <:+ q) :
    fs.node q ≠ some .dir := by
  obtain ⟨r, rfl⟩ := h
  cases r with
  | nil => exact hp
  | cons c r =>
      rw [leaf_below hp (c :: r) (by simp)]
      simp

/-! ## The same directories -/

/-- Both have the same directories, and one working directory unless it is none. -/
structure SameDirs (fs fs' : FileSystem) : Prop where
  dir : ∀ q : Path, fs'.node q = some .dir ↔ fs.node q = some .dir
  cwd : fs'.cwd = fs.cwd ∨ fs.node fs.cwd ≠ some .dir ∧ fs'.node fs'.cwd ≠ some .dir

namespace SameDirs

theorem refl (fs : FileSystem) : SameDirs fs fs := ⟨fun _ => Iff.rfl, .inl rfl⟩

theorem trans (h : SameDirs fs fs') (h' : SameDirs fs' fs'') : SameDirs fs fs'' := by
  refine ⟨fun q => (h'.dir q).trans (h.dir q), ?_⟩
  rcases h'.cwd with e' | ⟨hn, hn'⟩
  · rcases h.cwd with e | ⟨hm, hm'⟩
    · exact .inl (e'.trans e)
    · exact .inr ⟨hm, fun hd => hm' (e' ▸ (h'.dir _).mp hd)⟩
  · rcases h.cwd with e | ⟨hm, -⟩
    · exact .inr ⟨fun hd => hn (e ▸ (h.dir _).mpr hd), hn'⟩
    · exact .inr ⟨hm, hn'⟩

theorem setData (fs : FileSystem) (i : Nat) (b : List UInt8) : SameDirs fs (fs.setData i b) :=
  ⟨fun _ => Iff.rfl, .inl rfl⟩

theorem walk (h : SameDirs fs fs') (cur : Path) (cs : List Name) :
    fs'.walk cur cs = fs.walk cur cs := by
  induction cs generalizing cur with
  | nil => rfl
  | cons c cs ih => simp only [FileSystem.walk, h.dir, ih]

theorem resolve (h : SameDirs fs fs') (path : List UInt8) : fs'.resolve path = fs.resolve path := by
  simp only [FileSystem.resolve, h.walk]
  split
  · rfl
  · split
    · rfl
    · rcases h.cwd with e | ⟨hn, hn'⟩
      · rw [e]
      · have hn'' := mt (h.dir _).mpr hn'
        cases hc : comps path with
        | nil => exact absurd hc (comps_ne_nil path)
        | cons c cs => simp only [FileSystem.walk, hn, hn'', if_false]

theorem isDir (h : SameDirs fs fs') (path : List UInt8) : fs'.isDir path = fs.isDir path := by
  rw [FileSystem.isDir, FileSystem.isDir, decide_eq_decide, stat, stat, h.resolve]
  cases fs.resolve path with
  | none => exact Iff.rfl
  | some d => exact h.dir d

end SameDirs

/-! ## Edited nodes -/

/-- Only the nodes in `P` may have changed, and the contents of files there. -/
structure Edits (P : Path → Prop) (fs fs' : FileSystem) : Prop where
  node : ∀ q : Path, ¬ P q → fs'.node q = fs.node q
  data : ∀ (q : Path) (i : Nat), ¬ P q → fs.node q = some (.file i) → fs'.data i = fs.data i

namespace Edits
variable {P : Path → Prop}

theorem refl (P : Path → Prop) (fs : FileSystem) : Edits P fs fs :=
  ⟨fun _ _ => rfl, fun _ _ _ _ => rfl⟩

theorem trans (h : Edits P fs fs') (h' : Edits P fs' fs'') : Edits P fs fs'' := by
  refine ⟨fun q hq => (h'.node q hq).trans (h.node q hq), fun q i hq hi => ?_⟩
  exact (h'.data q i hq ((h.node q hq).trans hi)).trans (h.data q i hq hi)

/-- Writing to the file at a node. -/
theorem setData {p : Path} {i : Nat} (hp : fs.node p = some (.file i)) (b : List UInt8) :
    Edits (· = p) fs (fs.setData i b) := by
  refine ⟨fun _ _ => rfl, fun q j hq hj => ?_⟩
  have hne : j ≠ i := by
    rintro rfl
    exact hq (fs.ino_inj hj hp)
  simp [FileSystem.setData, hne]

end Edits

/-- A path to another node reads as before. -/
theorem Edits.read {P : Path → Prop} (h : Edits P fs fs') (dirs : SameDirs fs fs')
    {path : List UInt8} (hne : ∀ q, fs.resolve path = some q → ¬ P q) :
    fs'.read path = fs.read path := by
  simp only [FileSystem.read, FileSystem.stat, dirs.resolve]
  cases hr : fs.resolve path with
  | none => rfl
  | some q =>
      simp only [Option.bind_some, h.node q (hne q hr)]
      cases hn : fs.node q with
      | none => rfl
      | some n =>
          cases n with
          | dir => rfl
          | file i => simp only [Option.map_some, nodeBytes, h.data q i (hne q hr) hn]

/-- Everything that was there is there. -/
structure Grows (fs fs' : FileSystem) : Prop where
  node : ∀ (q : Path) (n : Node), fs.node q = some n → fs'.node q = some n
  data : ∀ (q : Path) (i : Nat), fs.node q = some (.file i) → fs'.data i = fs.data i
  cwd : fs'.cwd = fs.cwd

namespace Grows

theorem refl (fs : FileSystem) : Grows fs fs := ⟨fun _ _ h => h, fun _ _ _ => rfl, rfl⟩

theorem trans (h : Grows fs fs') (h' : Grows fs' fs'') : Grows fs fs'' :=
  ⟨fun q n hn => h'.node q n (h.node q n hn),
    fun q i hi => (h'.data q i (h.node q _ hi)).trans (h.data q i hi), h'.cwd.trans h.cwd⟩

/-- A node that was missing. -/
theorem of_edits {p : Path} (hp : fs.node p = none) (h : Edits (· = p) fs fs')
    (hcwd : fs'.cwd = fs.cwd) : Grows fs fs' := by
  have hne : ∀ {q : Path} {n : Node}, fs.node q = some n → q ≠ p := by
    rintro q n hn rfl
    exact absurd (hp.symm.trans hn) (by simp)
  exact ⟨fun q n hn => (h.node q (hne hn)).trans hn, fun q i hi => h.data q i (hne hi) hi, hcwd⟩

theorem stat (h : Grows fs fs') {path : List UInt8} {n : Node} (hn : fs.stat path = some n) :
    fs'.stat path = some n := by
  obtain ⟨d, hd, hnode⟩ := Option.bind_eq_some_iff.mp hn
  rw [FileSystem.stat, resolve_mono (fun q => h.node q .dir) h.cwd hd, Option.bind_some]
  exact h.node d n hnode

theorem isDir (h : Grows fs fs') {path : List UInt8} (hd : fs.isDir path = true) :
    fs'.isDir path = true := by
  rw [FileSystem.isDir, decide_eq_true_eq] at hd ⊢
  exact h.stat hd

end Grows

/-- A file at `p` and its inode, in a directory tree that is as before. -/
theorem openTrunc_edits {path : List UInt8} {i : Nat} (h : fs.openTrunc path = some (fs', i)) :
    ∃ p, fs.resolve path = some p ∧ fs.node p ≠ some .dir ∧ fs'.node p = some (.file i) ∧
      (∀ j, fs.node p = some (.file j) → j = i) ∧ fs'.data i = [] ∧ Edits (· = p) fs fs' ∧
      SameDirs fs fs' := by
  simp only [openTrunc] at h
  split at h
  · cases h
  · cases h
  · rename_i c p hr
    split at h
    · cases h
    · rename_i j hj
      cases h
      refine ⟨c :: p, hr, by simp [hj], hj, fun k hk => ?_, by simp [FileSystem.setData],
        Edits.setData hj [], SameDirs.setData fs i []⟩
      simpa [hj] using hk.symm
    · rename_i hnone
      split at h
      · rename_i hp
        cases h
        refine ⟨c :: p, hr, by simp [hnone], by simp, by simp [hnone], by simp [addFile],
          ⟨fun q hq => ?_, fun q k _ hk => ?_⟩, ⟨fun q => ?_, .inl rfl⟩⟩
        · rw [node_addFile, if_neg (Ne.symm hq)]
        · have hne : k ≠ fs.next := by
            have := fs.ino_lt hk
            omega
          simp [addFile, hne]
        · rw [node_addFile]
          split
          · rename_i hq
            simp [← hq, hnone]
          · rfl
      · cases h

theorem openTrunc_cwd {path : List UInt8} {i : Nat} (h : fs.openTrunc path = some (fs', i)) :
    fs'.cwd = fs.cwd := by
  simp only [FileSystem.openTrunc] at h
  split at h
  · cases h
  · cases h
  · split at h
    · cases h
    · cases h
      rfl
    · split at h
      · cases h
        rfl
      · cases h

/-- What is written to a file that was opened is what the path reads. -/
theorem openTrunc_read {path : List UInt8} {i : Nat} (h : fs.openTrunc path = some (fs', i))
    (b : List UInt8) : (fs'.setData i b).read path = some b := by
  obtain ⟨p, hr, -, hi, -, -, -, hdirs⟩ := openTrunc_edits h
  have hres : (fs'.setData i b).resolve path = some p := by
    rw [(SameDirs.setData fs' i b).resolve, hdirs.resolve, hr]
  simp only [read, stat, hres, Option.bind_some, node_setData, hi, Option.map_some, nodeBytes]
  simp only [setData, Function.update_self]

theorem openUpdate_file {path : List UInt8} {i : Nat} (h : fs.openUpdate path = some i) :
    ∃ p, fs.resolve path = some p ∧ fs.node p = some (.file i) := by
  simp only [openUpdate] at h
  split at h
  · rename_i j hj
    cases h
    exact Option.bind_eq_some_iff.mp hj
  · cases h
  · cases h

theorem mkdir_edits {path : List UInt8} (h : fs.mkdir path = .ok fs') :
    ∃ p, fs.resolve path = some p ∧ fs.node p = none ∧ fs'.node p = some .dir ∧
      Edits (· = p) fs fs' ∧ fs'.cwd = fs.cwd := by
  simp only [mkdir] at h
  split at h
  · cases h
  · cases h
  · rename_i c p hr
    split at h
    · rename_i hnone
      split at h
      · cases h
        refine ⟨c :: p, hr, hnone, by simp, ⟨fun q hq => ?_, fun _ _ _ _ => rfl⟩, rfl⟩
        rw [node_addDir, if_neg (Ne.symm hq)]
      · cases h
    · cases h

theorem remove_edits {path : List UInt8} (h : fs.remove path = some fs') :
    ∃ p, fs.resolve path = some p ∧ fs'.node p = none ∧ Edits (· = p) fs fs' ∧
      fs'.cwd = fs.cwd ∧ (fs.node p ≠ some .dir → SameDirs fs fs') := by
  obtain ⟨p, hr, -, -, hpruned, hgone⟩ := remove_pruned h
  refine ⟨p, hr, hgone, ⟨fun q hq => hpruned.keep hq, fun _ _ _ _ => by rw [hpruned.data]⟩,
    hpruned.cwd, fun hfile => ⟨fun q => ?_, .inl hpruned.cwd⟩⟩
  by_cases hq : q = p
  · subst hq
    simp [hgone, hfile]
  · rw [hpruned.keep hq]

theorem rename_cwd {old new : List UInt8} {src dst : Path} (hs : fs.resolve old = some src)
    (hd : fs.resolve new = some dst) (hne : src ≠ dst) (h : fs.rename old new = some fs') :
    fs'.cwd = moved src dst fs.cwd := by
  cases dst with
  | nil => simp [rename, hs, hd] at h
  | cons c p =>
      simp only [rename, hs, hd, hne, if_false] at h
      split at h
      · cases h
      · split at h
        · split at h
          · split at h
            · cases h
              rfl
            · cases h
          · cases h
        · cases h

/-- A file moved onto a file or onto nothing. -/
theorem rename_edits {old new : List UInt8} {src : Path} {i : Nat}
    (hs : fs.resolve old = some src) (hf : fs.node src = some (.file i))
    (h : fs.rename old new = some fs') :
    ∃ dst, fs.resolve new = some dst ∧ fs'.node dst = some (.file i) ∧
      (src ≠ dst → fs'.node src = none) ∧ fs.node dst ≠ some .dir ∧
      Edits (fun q => q = src ∨ q = dst) fs fs' ∧ fs'.data = fs.data ∧ SameDirs fs fs' := by
  have hnd : fs.node src ≠ some .dir := by simp [hf]
  cases hd : fs.resolve new with
  | none =>
      simp only [rename, hs, hd] at h
      cases h
  | some dst =>
      by_cases hne : src = dst
      · subst hne
        have hsame : fs' = fs := by
          cases src with
          | nil => simp [rename, hs, hd] at h
          | cons c p =>
              simp only [rename, hs, hd, hf, if_true, Option.ite_none_right_eq_some,
                Option.some.injEq] at h
              exact h.2.symm
        subst hsame
        exact ⟨src, rfl, hf, fun e => absurd rfl e, hnd, Edits.refl _ fs', rfl, SameDirs.refl fs'⟩
      · have hrel := rename_relocated hs hd hne h
        have hfree : fs.node dst ≠ some .dir := by
          intro hdir
          cases dst with
          | nil => simp [rename, hs, hd] at h
          | cons c p => simp [rename, hs, hd, hf, mayReplace, hdir, hne] at h
        have hleaf := leaf_below hnd
        have hleaf' := leaf_below hfree
        have hsrc : ¬ dst <:+ src := by
          intro hsuf
          obtain ⟨r, rfl⟩ := hsuf
          have hr : r ≠ [] := by
            rintro rfl
            exact hne rfl
          exact absurd ((hleaf' r hr).symm.trans hf) (by simp)
        have hnode : ∀ q : Path, ¬ (q = src ∨ q = dst) → fs'.node q = fs.node q := by
          intro q hq
          rw [not_or] at hq
          rw [hrel.node]
          split
          · rename_i hsuf
            obtain ⟨r, rfl⟩ := hsuf
            have hr : r ≠ [] := by
              rintro rfl
              exact hq.2 rfl
            simp only [List.length_append, Nat.add_sub_cancel, List.take_left']
            rw [hleaf r hr, hleaf' r hr]
          · split
            · rename_i hsuf
              obtain ⟨r, rfl⟩ := hsuf
              have hr : r ≠ [] := by
                rintro rfl
                exact hq.1 rfl
              exact (hleaf r hr).symm
            · rfl
        have hdst : fs'.node dst = some (.file i) := by
          rw [hrel.node, if_pos (List.suffix_refl dst)]
          simpa using hf
        have hgone : fs'.node src = none := by
          rw [hrel.node, if_neg hsrc, if_pos (List.suffix_refl src)]
        refine ⟨dst, rfl, hdst, fun _ => hgone, hfree,
          ⟨hnode, fun _ _ _ _ => by rw [hrel.data]⟩, hrel.data, ⟨fun q => ?_, ?_⟩⟩
        · by_cases h₁ : q = src
          · subst h₁
            simp [hgone, hf]
          · by_cases h₂ : q = dst
            · subst h₂
              simp [hdst, hfree]
            · rw [hnode q (by simp [h₁, h₂])]
        · by_cases hcwd : src <:+ fs.cwd
          · refine .inr ⟨not_dir_of_suffix hnd hcwd, ?_⟩
            obtain ⟨r, hr⟩ := hcwd
            rw [rename_cwd hs hd hne h, ← hr, moved_below, hrel.node,
              if_pos (List.suffix_append r dst)]
            simp only [List.length_append, Nat.add_sub_cancel, List.take_left']
            exact not_dir_of_suffix hnd (List.suffix_append r src)
          · exact .inl ((rename_cwd hs hd hne h).trans (moved_of_not_suffix hcwd))

/-! ## Paths that lose their way -/

theorem trail_concat (cur : Path) (cs : List Name) (c c' : Name) :
    trail cur (cs ++ [c]) = trail cur (cs ++ [c']) := by
  induction cs generalizing cur with
  | nil => rfl
  | cons b cs ih => simp only [List.cons_append, trail, ih]

theorem walk_eq_none {x cur : Path} {cs : List Name} (hx : x ∈ trail cur cs)
    (hn : fs.node x ≠ some .dir) : fs.walk cur cs = none := by
  induction cs generalizing cur with
  | nil => simp [trail] at hx
  | cons c cs ih =>
      simp only [walk]
      rcases List.mem_cons.mp hx with rfl | hx
      · rw [if_neg hn]
      · split
        · split at hx
          · rename_i hdot
            rw [if_pos hdot]
            exact ih hx
          · rename_i hdot
            rw [if_neg hdot]
            split at hx
            · rename_i hup
              rw [if_pos hup]
              exact ih hx
            · rename_i hup
              rw [if_neg hup]
              exact ih hx
        · rfl

theorem slash_notMem_comps {s : List UInt8} {c : Name} (h : c ∈ comps s) : slash ∉ c := by
  induction s generalizing c with
  | nil =>
      rw [comps, List.mem_singleton] at h
      simp [h]
  | cons b s ih =>
      simp only [comps] at h
      split at h
      · rcases List.mem_cons.mp h with rfl | h
        · simp
        · exact ih h
      · rename_i hb
        split at h
        · rw [List.mem_singleton] at h
          simp [h, Ne.symm hb]
        · rename_i c' cs hs
          rcases List.mem_cons.mp h with rfl | h
          · have := ih (hs ▸ List.mem_cons_self)
            simp [this, Ne.symm hb]
          · exact ih (hs ▸ List.mem_cons_of_mem c' h)

theorem sublist_of_mem_comps {s : List UInt8} {c : Name} (h : c ∈ comps s) : c.Sublist s := by
  induction s generalizing c with
  | nil =>
      rw [comps, List.mem_singleton] at h
      exact h ▸ List.Sublist.refl []
  | cons b s ih =>
      simp only [comps] at h
      split at h
      · rcases List.mem_cons.mp h with rfl | h
        · exact List.nil_sublist _
        · exact (ih h).cons b
      · split at h
        · rw [List.mem_singleton] at h
          exact h ▸ (List.nil_sublist s).cons_cons b
        · rename_i c' cs hs
          rcases List.mem_cons.mp h with rfl | h
          · exact (ih (hs ▸ List.mem_cons_self)).cons_cons b
          · exact (ih (hs ▸ List.mem_cons_of_mem c' h)).cons b

theorem mem_of_mem_comps {s : List UInt8} {c : Name} {x : UInt8} (h : c ∈ comps s) (hx : x ∈ c) :
    x ∈ s :=
  (sublist_of_mem_comps h).mem hx

theorem comps_append_notMem (t : List UInt8) {s : List UInt8} (h : slash ∉ s) :
    ∃ cs c, comps t = cs ++ [c] ∧ comps (t ++ s) = cs ++ [c ++ s] := by
  induction t with
  | nil => exact ⟨[], [], rfl, by simp [comps_of_notMem h]⟩
  | cons b t ih =>
      obtain ⟨cs, c, hcs, happ⟩ := ih
      simp only [List.cons_append, comps, hcs, happ]
      split
      · exact ⟨[] :: cs, c, rfl, rfl⟩
      · cases cs with
        | nil => exact ⟨[], b :: c, rfl, rfl⟩
        | cons c' cs => exact ⟨(b :: c') :: cs, c, rfl, rfl⟩

/-- Two endings name two entries. -/
theorem resolve_endings {t s s' : List UInt8} (hs : slash ∉ s ∧ 2 < s.length)
    (hs' : slash ∉ s' ∧ 2 < s'.length) (hne : s ≠ s') {p q : Path}
    (hp : fs.resolve (t ++ s) = some p) (hq : fs.resolve (t ++ s') = some q) : p ≠ q := by
  have entry : ∀ {x : List UInt8} {r : Path}, slash ∉ x ∧ 2 < x.length →
      fs.resolve (t ++ x) = some r → ∃ c d, comps t = d ++ [c] ∧ r.head? = some (c ++ x) := by
    intro x r hx hr
    obtain ⟨cs, c, hcs, happ⟩ := comps_append_notMem t hx.1
    refine ⟨c, cs, hcs, ?_⟩
    have hplain : Plain (c ++ x) := by
      refine ⟨?_, ?_, ?_, ?_⟩
      · exact fun e => by simp [(List.append_eq_nil_iff.mp e).2] at hx
      · intro e
        have := congrArg List.length e
        simp only [List.length_append, dot, List.length_cons, List.length_nil] at this
        omega
      · intro e
        have := congrArg List.length e
        simp only [List.length_append, dotdot, List.length_cons, List.length_nil] at this
        omega
      · exact slash_notMem_comps (happ ▸ List.mem_append_right cs List.mem_cons_self)
    rw [resolve] at hr
    split at hr
    · cases hr
    · rw [happ, walk_append] at hr
      obtain ⟨d, -, hd⟩ := Option.bind_eq_some_iff.mp hr
      rw [fs.walk_plain hplain] at hd
      split at hd
      · cases hd
        rfl
      · cases hd
  obtain ⟨c, d, hc, hhead⟩ := entry hs hp
  obtain ⟨c', d', hc', hhead'⟩ := entry hs' hq
  rintro rfl
  obtain ⟨-, rfl⟩ := List.append_singleton_inj.mp (hc.symm.trans hc')
  exact hne (List.append_cancel_left (Option.some.inj (hhead.symm.trans hhead')))

/-- Neither the path nor a longer name in its place can be found. -/
def Gone (fs : FileSystem) (t : List UInt8) : Prop := ∀ s, slash ∉ s → fs.resolve (t ++ s) = none

theorem gone_of_via {t : List UInt8} {x : Path} (ht : t ≠ []) (hx : x ∈ fs.via t)
    (hn : fs.node x ≠ some .dir) : fs.Gone t := by
  intro s hs
  have hhead : (t ++ s).head? = t.head? := by
    cases t with
    | nil => exact absurd rfl ht
    | cons b bs => rfl
  obtain ⟨cs, c, hcs, happ⟩ := comps_append_notMem t hs
  rw [via, hcs, trail_concat _ _ c (c ++ s)] at hx
  simp only [resolve, List.append_eq_nil_iff, ht, false_and, if_false, hhead, happ]
  exact walk_eq_none hx hn

/-- When a node goes away, a directory elsewhere is still found unless the way to it led
through that node. -/
theorem isDir_or_gone {t : List UInt8} {x : Path} (ht : t ≠ []) (hdir : fs.isDir t = true)
    (hx : fs.resolve t ≠ some x) (hgone : fs'.node x = none) (h : Edits (· = x) fs fs')
    (hcwd : fs'.cwd = fs.cwd) : fs'.isDir t = true ∨ fs'.Gone t := by
  by_cases hvia : x ∈ fs'.via t
  · exact .inr (gone_of_via ht hvia (by simp [hgone]))
  · left
    have hres : fs.resolve t = fs'.resolve t := by
      apply resolve_congr hcwd.symm
      intro q hq
      exact (h.node q fun e => hvia (e ▸ hq)).symm
    rw [isDir, decide_eq_true_eq, stat] at hdir ⊢
    obtain ⟨d, hd, hnode⟩ := Option.bind_eq_some_iff.mp hdir
    rw [← hres, hd, Option.bind_some, h.node d fun e => hx (e ▸ hd)]
    exact hnode

/-- A directory that is found without a node is found with it. -/
theorem isDir_of_removed {t : List UInt8} {x : Path} (hgone : fs'.node x = none)
    (h : Edits (· = x) fs fs') (hcwd : fs'.cwd = fs.cwd) (hdir : fs'.isDir t = true) :
    fs.isDir t = true := by
  have hkeep : ∀ q : Path, fs'.node q = some .dir → fs.node q = some .dir := by
    intro q hq
    rw [← h.node q]
    · exact hq
    · rintro rfl
      exact absurd (hgone.symm.trans hq) (by simp)
  rw [isDir, decide_eq_true_eq, stat] at hdir ⊢
  obtain ⟨d, hd, hnode⟩ := Option.bind_eq_some_iff.mp hdir
  rw [resolve_mono hkeep hcwd.symm hd, Option.bind_some]
  exact hkeep d hnode

/-- What stands before a slash of a directory's path, or all of it, names a directory. -/
theorem stat_cut {t a b : List UInt8} (hdir : fs.isDir t = true) (ht : t = a ++ b) (ha : a ≠ [])
    (hb : b = [] ∨ b.head? = some slash) : fs.stat a = some .dir := by
  rw [isDir, decide_eq_true_eq] at hdir
  cases b with
  | nil => rwa [ht, List.append_nil] at hdir
  | cons c b =>
      have hc : c = slash := by simpa using hb
      rw [ht, hc] at hdir
      obtain ⟨d, hd, -⟩ := Option.bind_eq_some_iff.mp hdir
      obtain ⟨e, he, hnode⟩ := resolve_cut ha hd
      simp [stat, he, hnode]

theorem joinPath_eq {cs : List Name} (h : cs ≠ []) :
    joinPath cs = slash :: List.intercalate [slash] cs := by
  induction cs with
  | nil => exact absurd rfl h
  | cons c cs ih =>
      cases cs with
      | nil => simp [joinPath]
      | cons d cs =>
          rw [List.intercalate_cons_cons, List.append_assoc, List.singleton_append,
            ← ih (by simp)]
          rfl

/-- Where a path below a directory can be cut. -/
theorem joinPath_cut {cs : List Name} (hcs : ∀ c ∈ cs, Plain c) {x b : List UInt8}
    (h : joinPath cs = x ++ b) (hb : b = [] ∨ b.head? = some slash) :
    ∃ cs₁ cs₂, cs = cs₁ ++ cs₂ ∧ x = joinPath cs₁ := by
  induction cs generalizing x with
  | nil =>
      have hx : x = [] := (List.append_eq_nil_iff.mp (Eq.symm h)).1
      exact ⟨[], [], rfl, hx⟩
  | cons c cs ih =>
      cases x with
      | nil => exact ⟨[], c :: cs, rfl, rfl⟩
      | cons s x =>
          simp only [joinPath, List.flatMap_cons, List.cons_append, List.cons.injEq] at h
          obtain ⟨rfl, h⟩ := h
          have hslash := (hcs c List.mem_cons_self).2.2.2
          rcases List.append_eq_append_iff.mp h with ⟨y, rfl, hy⟩ | ⟨y, rfl, hy⟩
          · obtain ⟨cs₁, cs₂, rfl, rfl⟩ := ih (fun c' hc' => hcs c' (List.mem_cons_of_mem c hc')) hy
            exact ⟨c :: cs₁, cs₂, rfl, rfl⟩
          · cases y with
            | nil => exact ⟨[x ++ []], cs, rfl, by simp [joinPath]⟩
            | cons z y =>
                have hz : z = slash := by simpa [hy] using hb
                exact absurd (by simp [hz]) hslash

theorem resolve_joinPath {t : List UInt8} {cs : List Name} {q : Path} (ht : t ≠ [])
    (hcs : ∀ c ∈ cs, Plain c) (h : fs.resolve (t ++ joinPath cs) = some q) :
    ∃ d, fs.resolve t = some d ∧ q = cs.reverse ++ d := by
  induction cs generalizing t with
  | nil => exact ⟨q, by simpa [joinPath] using h, rfl⟩
  | cons c cs ih =>
      have hsplit : t ++ joinPath (c :: cs) = (t ++ slash :: c) ++ joinPath cs := by
        simp [joinPath]
      rw [hsplit] at h
      obtain ⟨d', hd', rfl⟩ := ih (by simp) (fun c' hc' => hcs c' (List.mem_cons_of_mem c hc')) h
      rw [fs.resolve_child ht (hcs c List.mem_cons_self)] at hd'
      obtain ⟨d, hd, hc⟩ := Option.bind_eq_some_iff.mp hd'
      rw [Option.ite_none_right_eq_some, Option.some.injEq] at hc
      exact ⟨d, hd, by simp [← hc.2]⟩

/-! ## Reading directories -/

/-- A directory is read in the order of its names. -/
theorem entries_sorted (fs : FileSystem) (p : Path) :
    (fs.entries p).Pairwise fun a b => compare a b = .lt := by
  rw [entries, List.pairwise_filterMap]
  refine Std.ExtTreeMap.ordered_keys.imp ?_
  intro a b hab x hx y hy
  cases a with
  | nil => cases hx
  | cons c d =>
      cases b with
      | nil => cases hy
      | cons c' d' =>
          simp only [Option.ite_none_right_eq_some, Option.some.injEq] at hx hy
          obtain ⟨rfl, rfl⟩ := hx
          obtain ⟨rfl, rfl⟩ := hy
          have names : compare (c :: d') (c' :: d') = (compare c c').then (compare d' d') :=
            List.compareLex_cons_cons
          have same : compare d' d' = .eq := Std.ReflCmp.compare_self
          rw [hab, same] at names
          cases order : compare c c' with
          | lt => rfl
          | eq => simp [order] at names
          | gt => simp [order] at names

/-- Two directories with the same names read the same. -/
theorem entries_ext {p p' : Path} (same : ∀ c : Name, fs.node (c :: p) ≠ none ↔
    fs'.node (c :: p') ≠ none) : fs.entries p = fs'.entries p' := by
  have perm : (fs.entries p).Perm (fs'.entries p') := by
    rw [List.perm_ext_iff_of_nodup (fs.entries_nodup p) (fs'.entries_nodup p')]
    intro c
    rw [mem_entries, mem_entries]
    exact same c
  refine perm.eq_of_pairwise (fun a b _ _ hab hba => ?_) (fs.entries_sorted p)
    (fs'.entries_sorted p')
  have swap : compare a b = (compare b a).swap := Std.OrientedCmp.eq_swap
  rw [hab, hba] at swap
  cases swap

/-! ## Taking many files away -/

/-- A path to a file does not end in "." or "..". -/
theorem lastPlain_of_file {path : List UInt8} {q : Path} {i : Nat}
    (hr : fs.resolve path = some q) (hf : fs.node q = some (.file i)) : lastPlain path = true := by
  simp only [resolve] at hr
  split at hr
  · cases hr
  · obtain ⟨cs, c, hcs⟩ : ∃ cs c, comps path = cs ++ [c] :=
      ⟨_, _, (List.dropLast_append_getLast (comps_ne_nil path)).symm⟩
    rw [hcs, walk_append] at hr
    obtain ⟨e, -, hwalk⟩ := Option.bind_eq_some_iff.mp hr
    simp only [walk, Option.ite_none_right_eq_some] at hwalk
    obtain ⟨hdir, hwalk⟩ := hwalk
    simp only [lastPlain, hcs, List.getLast?_concat, decide_eq_true_eq]
    refine ⟨fun hc => ?_, fun hc => ?_⟩
    · rw [if_pos (.inr hc)] at hwalk
      cases hwalk
      exact absurd (hf.symm.trans hdir) (by simp)
    · rw [if_neg (by simp [hc, dot, dotdot]), if_pos hc] at hwalk
      cases hwalk
      have hup : fs.node e.tail = some .dir := by
        cases e with
        | nil => exact fs.node_nil
        | cons c p => exact fs.node_parent hdir
      exact absurd (hf.symm.trans hup) (by simp)

/-- Two entries of one directory. -/
theorem resolve_sibling {t : List UInt8} {b : Name} {q : Path} (hb : Plain b)
    (h : fs.resolve (t ++ slash :: b) = some q) :
    ∃ p, q = b :: p ∧ fs.node p = some .dir ∧
      ∀ c, Plain c → fs.resolve (t ++ slash :: c) = some (c :: p) := by
  have hhead : ∀ c : Name, (t ++ slash :: c).head? = (t ++ [slash]).head? := by
    intro c
    cases t with
    | nil => rfl
    | cons b bs => rfl
  have hstep : ∀ c : Name, Plain c → fs.resolve (t ++ slash :: c) =
      (fs.walk (if (t ++ [slash]).head? = some slash then [] else fs.cwd) (comps t)).bind
        fun d => if fs.node d = some .dir then some (c :: d) else none := by
    intro c hc
    simp only [resolve, List.append_eq_nil_iff, reduceCtorEq, and_false, if_false, hhead,
      comps_append_slash, comps_of_notMem hc.2.2.2, walk_append]
    congr 1
    funext d
    exact fs.walk_plain hc d
  rw [hstep b hb] at h
  obtain ⟨p, hp, hdir⟩ := Option.bind_eq_some_iff.mp h
  split at hdir
  · rename_i hnode
    cases hdir
    refine ⟨p, rfl, hnode, fun c hc => ?_⟩
    rw [hstep c hc, hp, Option.bind_some, if_pos hnode]
  · cases hdir

/-- Take away what each of the paths leads to, where it can be. -/
def removeEach (fs : FileSystem) (paths : List (List UInt8)) : FileSystem :=
  paths.foldl (fun fs path => (fs.remove path).getD fs) fs

/-- As long as none of them is a directory, exactly what they lead to is gone. -/
theorem removeEach_spec {paths : List (List UInt8)}
    (files : ∀ path ∈ paths, fs.stat path ≠ some .dir) :
    SameDirs fs (fs.removeEach paths) ∧ (fs.removeEach paths).data = fs.data ∧
      ∀ q : Path, (fs.removeEach paths).node q =
        if ∃ path ∈ paths, fs.resolve path = some q then none else fs.node q := by
  induction paths generalizing fs with
  | nil => exact ⟨SameDirs.refl fs, rfl, fun q => by simp [removeEach]⟩
  | cons path paths ih =>
      obtain ⟨fs₁, hfs₁, hdirs, hdata, hnode⟩ : ∃ fs₁, (fs.remove path).getD fs = fs₁ ∧
          SameDirs fs fs₁ ∧ fs₁.data = fs.data ∧
          ∀ q : Path, fs₁.node q = if fs.resolve path = some q then none else fs.node q := by
        have hfile := files path List.mem_cons_self
        cases hr : fs.resolve path with
        | none => exact ⟨fs, by simp [remove, hr], SameDirs.refl fs, rfl, fun q => by simp⟩
        | some p =>
            rw [stat, hr, Option.bind_some] at hfile
            cases hn : fs.node p with
            | none =>
                refine ⟨fs, by simp [remove_missing hr hn], SameDirs.refl fs, rfl, fun q => ?_⟩
                split
                · rename_i e
                  rw [← Option.some.inj e, hn]
                · rfl
            | some n =>
                cases n with
                | dir => exact absurd hn hfile
                | file i =>
                    cases p with
                    | nil => simp at hn
                    | cons c p =>
                        obtain ⟨fs₁, hrm, hnode, hdata, -⟩ :=
                          remove_file hr hn (lastPlain_of_file hr hn)
                        obtain ⟨p', hr', -, -, -, hdirs⟩ := remove_edits hrm
                        cases hr.symm.trans hr'
                        exact ⟨fs₁, by simp [hrm], hdirs (by simp [hn]), hdata,
                          fun q => by simpa using hnode q⟩
      have hrest : ∀ path' ∈ paths, fs₁.stat path' ≠ some .dir := by
        intro path' hp hd
        have : fs₁.isDir path' = true := decide_eq_true hd
        rw [hdirs.isDir] at this
        exact files path' (List.mem_cons_of_mem _ hp) (of_decide_eq_true this)
      obtain ⟨hdirs', hdata', hnode'⟩ := ih hrest
      have hfold : fs.removeEach (path :: paths) = fs₁.removeEach paths := by
        rw [removeEach, List.foldl_cons, hfs₁, removeEach]
      rw [hfold]
      refine ⟨hdirs.trans hdirs', hdata'.trans hdata, fun q => ?_⟩
      rw [hnode', hnode]
      simp only [hdirs.resolve, List.mem_cons, exists_eq_or_imp]
      by_cases h : ∃ path' ∈ paths, fs.resolve path' = some q
      · simp [h]
      · simp [h]

end Splice.Lib.FileSystem
