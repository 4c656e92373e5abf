import Splice.Peer.Isolation

/-!
What the store's operations keep, whatever the names they are given: only `pipes` is a
directory in the store's own, though the registrations of ".." are files beside it.
-/

namespace Splice.Peer
open Lib FileSystem

/-- Changes inside the store that made no directory beside the records but `pipes`. -/
structure Sparse (root : Path) (fs fs' : FileSystem) : Prop where
  inside : Inside root fs fs'
  dirs : ∀ c, fs'.node (c :: root) = some .dir → fs.node (c :: root) = some .dir ∨ c = pipesName

structure Store.Tidy (st : Store) (fs : FileSystem) (root : Path) : Prop extends
    st.Rooted fs root where
  flat : ∀ c, fs.node (c :: root) = some .dir → c = pipesName

namespace Sparse
variable {root : Path} {fs fs' fs'' : FileSystem}

theorem refl (root : Path) (fs : FileSystem) : Sparse root fs fs :=
  ⟨Inside.refl root fs, fun _ h => .inl h⟩

theorem trans (h : Sparse root fs fs') (h' : Sparse root fs' fs'') : Sparse root fs fs'' := by
  refine ⟨h.inside.trans h'.inside, fun c hc => ?_⟩
  rcases h'.dirs c hc with hc | hc
  · exact h.dirs c hc
  · exact .inr hc

theorem getD {o : Option FileSystem} (h : ∀ fs', o = some fs' → Sparse root fs fs') :
    Sparse root fs (o.getD fs) := by
  cases o with
  | none => exact refl root fs
  | some fs' => exact h fs' rfl

theorem remove {path : Bytes} (h : fs.remove path = some fs')
    (under : ∀ x, fs.resolve path = some x → lastPlain path = true → root <:+ x ∧ x ≠ root) :
    Sparse root fs fs' := by
  obtain ⟨x, hr, hlast, -, hpruned, -⟩ := remove_pruned h
  refine ⟨hpruned.inside ?_, fun c hc => .inl (hpruned.was hc)⟩
  rintro _ rfl
  exact under _ hr hlast

theorem written {path : Bytes} {i : Nat} (h : fs.openTrunc path = some (fs', i)) (b : Bytes)
    (under : ∀ x, fs.resolve path = some x → fs.node x ≠ some .dir → root <:+ x ∧ x ≠ root) :
    Sparse root fs (fs'.setData i b) := by
  obtain ⟨x, hr, hnd, hnode, -, -, hedits, hdirs⟩ := openTrunc_edits h
  obtain ⟨hroot, hne⟩ := under x hr hnd
  have hcwd : fs'.cwd = fs.cwd := openTrunc_cwd h
  refine ⟨⟨fun q hq => ?_, .inl hcwd⟩, fun c hc => ?_⟩
  · exact hedits.node q fun e => hne (hq (e ▸ hroot) ▸ e.symm)
  · exact .inl ((hdirs.dir _).mp hc)

/-- A file moved, or something moved below the records. -/
theorem rename {old new : Bytes} {src dst : Path} (hs : fs.resolve old = some src)
    (hd : fs.resolve new = some dst) (hsrc : root <:+ src ∧ src ≠ root)
    (hdst : root <:+ dst ∧ dst ≠ root)
    (deep : fs.node src ≠ some .dir ∨ root.length + 1 < dst.length)
    (h : fs.rename old new = some fs') : Sparse root fs fs' := by
  by_cases hne : src = dst
  · rw [rename_same hs (hne ▸ hd) h]
    exact refl root fs
  · have hrel := rename_relocated hs hd hne h
    refine ⟨hrel.inside hsrc hdst, fun c hc => ?_⟩
    rw [hrel.node] at hc
    split at hc
    · rename_i hat
      -- a suffix of an entry of the store that is longer than the store is the entry
      have long : root.length < dst.length := by
        refine lt_of_le_of_ne hdst.1.length_le fun e => hdst.2 ?_
        exact (hdst.1.eq_of_length e).symm
      have whole : dst.length = (c :: root).length := by
        have := hat.length_le
        simp only [List.length_cons] at this ⊢
        omega
      rcases deep with file | deep
      · rw [whole, Nat.sub_self, List.take_zero, List.nil_append] at hc
        exact absurd hc file
      · rw [whole, List.length_cons] at deep
        exact absurd deep (Nat.lt_irrefl _)
    · split at hc
      · cases hc
      · exact .inl hc

end Sparse

/-! ## Locations -/

section Locations
variable {st : Store} {fs fs' : FileSystem} {root : Path} {p : Bytes}

theorem Store.Tidy.sparse (h : st.Tidy fs root) (hs : Sparse root fs fs') : st.Tidy fs' root := by
  refine ⟨h.toRooted.inside hs.inside, fun c hc => ?_⟩
  rcases hs.dirs c hc with hc | hc
  · exact h.flat c hc
  · exact hc

/-- Where the registrations of a peer are. -/
theorem Store.resolve_pipesDir_cases (h : st.At fs root) {x : Path}
    (hr : fs.resolve (st.pipesDir p) = some x) :
    sanitize p = dotdot ∧ x = root ∨ sanitize p = dot ∧ x = pipesName :: root ∨
      Plain (sanitize p) ∧ x = shelf root p := by
  by_cases hup : sanitize p = dotdot
  · rw [Store.pipesDir_eq, resolve_step (by simp) (slash_notMem_sanitize p),
      Store.resolve_pipes h, Option.bind_some, hup] at hr
    simp only [walk, Option.ite_none_right_eq_some] at hr
    rw [if_neg (by decide)] at hr
    simp only [if_true, List.tail_cons, Option.some.injEq] at hr
    exact .inl ⟨hup, hr.2.symm⟩
  · by_cases hdot : sanitize p = dot
    · rw [Store.pipesDir_eq, resolve_step (by simp) (slash_notMem_sanitize p),
        Store.resolve_pipes h, Option.bind_some, hdot] at hr
      simp only [walk, or_true, if_true, Option.ite_none_right_eq_some] at hr
      exact .inr (.inl ⟨hdot, (Option.some.inj hr.2).symm⟩)
    · have hp := plain_sanitize hdot hup
      rw [Store.resolve_pipesDir h hp] at hr
      exact .inr (.inr ⟨hp, (Option.some.inj (Option.ite_none_right_eq_some.mp hr).2).symm⟩)

/-- What can be opened for writing or taken away as a registration is inside the store. -/
theorem under_pipePath (h : st.At fs root) {n : Bytes} {x : Path}
    (hr : fs.resolve (st.pipePath p n) = some x)
    (hx : lastPlain (st.pipePath p n) = true ∨ fs.node x ≠ some .dir) :
    root <:+ x ∧ x ≠ root := by
  have hne : st.pipesDir p ≠ [] := by simp [Store.pipesDir]
  rw [Store.pipePath, resolve_step hne (slash_notMem_sanitize n)] at hr
  obtain ⟨e, he, hwalk⟩ := Option.bind_eq_some_iff.mp hr
  simp only [walk, Option.ite_none_right_eq_some] at hwalk
  obtain ⟨hdir, hwalk⟩ := hwalk
  have plain : Plain (sanitize n) := by
    have hlast : lastPlain (st.pipePath p n) = true → Plain (sanitize n) := by
      intro hl
      rw [Store.pipePath, lastPlain, comps_append_slash,
        comps_of_notMem (slash_notMem_sanitize n)] at hl
      simp only [List.getLast?_append, List.getLast?_singleton, Option.some_or,
        decide_eq_true_eq] at hl
      exact plain_sanitize hl.1 hl.2
    rcases hx with hl | hn
    · exact hlast hl
    · -- "." and ".." name directories
      refine plain_sanitize (fun hdot => hn ?_) fun hup => hn ?_
      · rw [if_pos (.inr hdot)] at hwalk
        cases hwalk
        exact hdir
      · rw [if_neg (by simp [hup, dotdot, dot]), if_pos hup] at hwalk
        cases hwalk
        cases e with
        | nil => exact hdir
        | cons c e => exact fs.node_parent hdir
  rw [if_neg (by simp [plain.1, plain.2.1]), if_neg plain.2.2.1] at hwalk
  cases hwalk
  rcases Store.resolve_pipesDir_cases h he with ⟨-, rfl⟩ | ⟨-, rfl⟩ | ⟨-, rfl⟩
  · exact child_under _ _
  · exact under_cons (child_under _ _) _
  · exact under_cons (under_cons (child_under _ _) _) _

end Locations

/-! ## Operations -/

section Operations
variable {st : Store} {fs fs' : FileSystem} {root : Path} {p : Bytes}

theorem sparse_discard (h : st.Tidy fs root) (p : Bytes) {s : String} (hs : s ∈ endings) :
    Sparse root fs (Store.discard fs (st.peerPath p s)) := by
  refine Sparse.getD fun fs' hrm => Sparse.remove hrm fun x hx _ => ?_
  cases (resolve_ending h.toRooted p hs).symm.trans hx
  exact child_under _ _

theorem sparse_unlink (h : st.Tidy fs root) (p : Bytes) {s : String} (hs : s ∈ endings) :
    Sparse root fs ((fs.unlink (st.peerPath p s)).getD fs) := by
  refine Sparse.getD fun fs' hrm => ?_
  rw [unlink] at hrm
  split at hrm
  · refine Sparse.remove hrm fun x hx _ => ?_
    cases (resolve_ending h.toRooted p hs).symm.trans hx
    exact child_under _ _
  · cases hrm
  · cases hrm

theorem sparse_write (h : st.Tidy fs root) (p : Bytes) {s : String} (hs : s ∈ endings) {i : Nat}
    (ho : fs.openTrunc (st.peerPath p s) = some (fs', i)) (b : Bytes) :
    Sparse root fs (fs'.setData i b) := by
  refine Sparse.written ho b fun x hx _ => ?_
  cases (resolve_ending h.toRooted p hs).symm.trans hx
  exact child_under _ _

/-- What lies beside the records is no directory. -/
theorem Store.Tidy.no_dir (h : st.Tidy fs root) (p : Bytes) {s : String} (hs : s ∈ endings) :
    fs.node ((sanitize p ++ str s) :: root) ≠ some .dir :=
  fun hdir => ending_ne_pipes p hs (h.flat _ hdir)

theorem sparse_move (h : st.Tidy fs root) (a b : Bytes) {s t : String} (hs : s ∈ endings)
    (ht : t ∈ endings) (hr : fs.rename (st.peerPath a s) (st.peerPath b t) = some fs') :
    Sparse root fs fs' :=
  Sparse.rename (resolve_ending h.toRooted a hs) (resolve_ending h.toRooted b ht) (child_under _ _)
    (child_under _ _) (.inl (h.no_dir a hs)) hr

theorem sparse_saveBeside (h : st.Tidy fs root) {s : String} (hs : s ∈ endings)
    (ht : s ++ ".tmp" ∈ endings) (text : Bytes) :
    Sparse root fs (Store.saveBeside fs (st.peerPath p s) text).1 := by
  rw [Store.saveBeside, peerPath_tmp]
  dsimp only
  split
  · exact Sparse.refl _ _
  · rename_i fs₁ i ho
    have hw := sparse_write h p ht ho text
    split
    · exact hw
    · rename_i fs₂ hr
      exact hw.trans (sparse_move (h.sparse hw) p p ht hs hr)

theorem sparse_save (h : st.Tidy fs root) (r : ConnRecord) :
    Sparse root fs (st.save fs r).1 := by
  have hs : ".conn" ∈ endings := by decide
  have ht : ".conn" ++ ".tmp" ∈ endings := by decide
  have hu := sparse_unlink h r.name ht
  rw [Store.save, peerPath_tmp]
  dsimp only
  split
  · exact hu
  · rename_i fs₁ i ho
    rw [openExcl] at ho
    split at ho
    · cases ho
    · have hw := hu.trans (sparse_write (h.sparse hu) r.name ht ho (recordBody r))
      split
      · exact hw.trans (sparse_unlink (h.sparse hw) r.name ht)
      · rename_i fs₂ hr
        exact hw.trans (sparse_move (h.sparse hw) r.name r.name ht hs hr)

theorem sparse_removePipe (h : st.Tidy fs root) (p n : Bytes) :
    Sparse root fs ((st.removePipe fs p n).getD fs) :=
  Sparse.getD fun _ hrm => Sparse.remove hrm fun _ hx hl =>
    under_pipePath h.toAt hx (.inl hl)

theorem sparse_remove (h : st.Tidy fs root) (p : Bytes) :
    Sparse root fs ((st.remove fs p).getD fs) := by
  refine Sparse.getD fun fs' hrm => ?_
  obtain ⟨fs₁, hconn, rfl⟩ := Option.map_eq_some_iff.mp hrm
  have h₁ : Sparse root fs fs₁ := by
    refine Sparse.remove hconn fun x hx _ => ?_
    cases (resolve_ending h.toRooted p (by decide)).symm.trans hx
    exact child_under _ _
  have h₂ := h₁.trans (sparse_discard (h.sparse h₁) p (s := ".seen") (by decide))
  have h₃ := h₂.trans (sparse_discard (h.sparse h₂) p (s := ".lanport") (by decide))
  dsimp only
  generalize Store.discard (Store.discard fs₁ (st.peerPath p ".seen"))
    (st.peerPath p ".lanport") = fs₃ at h₃ ⊢
  have h₄ : Sparse root fs ((st.listPipes fs₃ p).foldl
      (fun fs r => (st.removePipe fs p r.name).getD fs) fs₃) := by
    refine foldl_invariant (I := Sparse root fs) (fun fs₄ r h₄ _ => ?_) h₃
    exact h₄.trans (sparse_removePipe (h.sparse h₄) p r.name)
  refine h₄.trans (Sparse.getD fun fs₅ hdir => ?_)
  simp only [rmdir] at hdir
  split at hdir
  · refine Sparse.remove hdir fun x hx hl => ?_
    rw [Store.resolve_pipesDir (h.sparse h₄).toAt (plain_of_lastPlain hl)] at hx
    cases (Option.ite_none_right_eq_some.mp hx).2
    exact under_cons (child_under _ _) _
  · cases hdir
  · cases hdir

theorem sparse_moveShelf (h : st.Tidy fs root) (a b : Bytes) :
    Sparse root fs ((fs.rename (st.pipesDir a) (st.pipesDir b)).getD fs) := by
  refine Sparse.getD fun fs' hr => ?_
  obtain ⟨hla, hlb⟩ := rename_lastPlain hr
  have hres := fun c (hc : Plain (sanitize c)) => Store.resolve_pipesDir h.toAt hc
  by_cases hdir : fs.node (pipesName :: root) = some .dir
  · simp only [hdir, if_true] at hres
    have hunder : ∀ c : Bytes, root <:+ shelf root c ∧ shelf root c ≠ root := fun c =>
      under_cons (child_under _ root) _
    refine Sparse.rename (hres a (plain_of_lastPlain hla)) (hres b (plain_of_lastPlain hlb))
      (hunder a) (hunder b) (.inr ?_) hr
    simp [shelf]
  · rw [FileSystem.rename, hres a (plain_of_lastPlain hla), if_neg hdir] at hr
    cases hr

theorem sparse_rename (h : st.Tidy fs root) (source target : Bytes) :
    Sparse root fs (st.rename fs source target).1 := by
  rw [Store.rename]
  split
  · exact Sparse.refl _ _
  · rename_i r hload
    dsimp only
    split
    · exact Sparse.refl _ _
    · have hsave := sparse_save h { r with name := target }
      split
      · rename_i fs₁ err hsv
        rw [hsv] at hsave
        exact hsave
      · rename_i fs₁ hsv
        rw [hsv] at hsave
        split
        · exact hsave
        · have h₂ := hsave.trans (sparse_discard (h.sparse hsave) source (s := ".conn") (by decide))
          have h₃ := h₂.trans (Sparse.getD fun fs' hr => sparse_move (h.sparse h₂)
            source target (s := ".seen") (t := ".seen") (by decide) (by decide) hr)
          have h₄ := h₃.trans (Sparse.getD fun fs' hr => sparse_move (h.sparse h₃)
            source target (s := ".lanport") (t := ".lanport") (by decide) (by decide) hr)
          exact h₄.trans (sparse_moveShelf (h.sparse h₄) source target)

theorem sparse_mkdirTry {path : Bytes} (hmk : fs.mkdirTry path = some fs')
    (free : ∀ c x, fs.resolve path = some (c :: x) → fs.node (c :: x) = none →
      root <:+ c :: x ∧ c :: x ≠ root ∧ (x = root → c = pipesName)) : Sparse root fs fs' := by
  rw [mkdirTry] at hmk
  split at hmk
  · cases hmk
    exact Sparse.refl _ _
  · split at hmk
    · rename_i fs₁ hok
      cases hmk
      rw [mkdir] at hok
      split at hok
      · cases hok
      · cases hok
      · rename_i c x hr
        split at hok
        · rename_i hnew
          split at hok
          · cases hok
            obtain ⟨hroot, hne, hpipes⟩ := free c x hr hnew
            refine ⟨⟨fun q hq => ?_, .inl rfl⟩, fun d hd => ?_⟩
            · rw [node_addDir, if_neg]
              rintro rfl
              exact hne (hq hroot)
            · rw [node_addDir] at hd
              split at hd
              · rename_i e
                cases e
                exact .inr (hpipes rfl)
              · exact .inl hd
          · cases hok
        · cases hok
    · cases hmk
      exact Sparse.refl _ _
    · cases hmk

theorem sparse_mkdirs (h : st.Tidy fs root) (p : Bytes) :
    Sparse root fs (fs.mkdirsFrom true [] (st.pipesDir p)).1 := by
  have hsplit : st.pipesDir p = st.dir ++ slash :: (pipesName ++ slash :: sanitize p) := by
    simp [Store.pipesDir, pipesName]
  rw [hsplit, mkdirsFrom_existing true (by simpa using h.resolves), List.nil_append, mkdirsFrom,
    if_pos rfl, mkdirTry_existing h.resolves h.is_dir]
  simp only
  rw [mkdirsFrom_notMem true fs _ (by decide : slash ∉ pipesName), mkdirsFrom, if_pos rfl]
  split
  · rename_i fs₁ hmk
    have hpath : st.dir ++ [slash] ++ pipesName = st.dir ++ slash :: pipesName := by simp
    have h₁ : Sparse root fs fs₁ := by
      refine sparse_mkdirTry hmk fun c x hx _ => ?_
      rw [hpath, Store.resolve_pipes h.toAt] at hx
      cases hx
      exact ⟨(child_under _ _).1, (child_under _ _).2, fun _ => rfl⟩
    rw [show sanitize p = sanitize p ++ [] by simp,
      mkdirsFrom_notMem true fs₁ _ (slash_notMem_sanitize p), mkdirsFrom]
    split
    · rename_i fs₂ hmk₂
      refine h₁.trans (sparse_mkdirTry hmk₂ fun c x hx hnew => ?_)
      have hdir : st.dir ++ [slash] ++ pipesName ++ [slash] ++ sanitize p = st.pipesDir p := by
        simp [hsplit]
      rw [hdir] at hx
      rcases Store.resolve_pipesDir_cases (h.sparse h₁).toAt hx with
        ⟨-, e⟩ | ⟨-, e⟩ | ⟨-, e⟩
      · rw [e, (h.sparse h₁).is_dir] at hnew
        cases hnew
      · cases e
        exact ⟨(child_under _ _).1, (child_under _ _).2, fun _ => rfl⟩
      · cases e
        refine ⟨(under_cons (child_under _ _) _).1, (under_cons (child_under _ _) _).2, fun e => ?_⟩
        exact absurd e (Store.child_ne_root _ _)
    · exact h₁
  · exact Sparse.refl _ _

theorem sparse_savePipe (h : st.Tidy fs root) (r : PipeRecord) :
    Sparse root fs (st.savePipe fs r).1 := by
  have hmk : Sparse root fs _ := sparse_mkdirs h r.peer
  simp only [Store.savePipe]
  split
  · rename_i fs₁ he
    rw [he] at hmk
    exact hmk
  · rename_i fs₁ he
    rw [he] at hmk
    split
    · exact hmk
    · rename_i fs₂ i ho
      refine hmk.trans (Sparse.written ho _ fun x hx hnd => ?_)
      exact under_pipePath (h.sparse hmk).toAt hx (.inr hnd)

theorem sparse_run (h : st.Tidy fs root) (op : PeerOp) : Sparse root fs (op.run st fs) := by
  cases op with
  | save r => exact sparse_save h r
  | remove name => exact sparse_remove h name
  | rename source target => exact sparse_rename h source target
  | saveSeen name seen =>
      rw [PeerOp.run, Store.saveSeen]
      split
      · exact sparse_discard h name (by decide)
      · exact sparse_saveBeside h (by decide) (by decide) _
  | saveLearnedPort name port =>
      rw [PeerOp.run, Store.saveLearnedPort]
      split
      · exact sparse_discard h name (by decide)
      · exact sparse_saveBeside h (by decide) (by decide) _
  | savePipe r => exact sparse_savePipe h r
  | removePipe peer name => exact sparse_removePipe h peer name
  | listPipes peer => exact Sparse.refl _ _

/-- A store that was empty stays tidy. -/
theorem Store.Tidy.run (rooted : st.Rooted fs root) (bare : ∀ c : Name, fs.node (c :: root) = none)
    (ops : List PeerOp) : st.Tidy (ops.foldl (PeerOp.run st) fs) root := by
  have start : st.Tidy fs root := by
    refine ⟨rooted, fun c hc => ?_⟩
    rw [bare] at hc
    cases hc
  exact foldl_invariant (I := fun fs => st.Tidy fs root)
    (fun _ op h _ => h.sparse (sparse_run h op)) start

end Operations
end Splice.Peer
