import Splice.Lib.FileSystem

/-!
What each call does, seen through `node` and `data`: which path changes, and that
everything else stays. A path keeps its meaning as long as the directories it leads
through stay.
-/

namespace Splice.Lib.FileSystem
variable {fs fs' : FileSystem}

/-! ## Resolution -/

theorem walk_mono (keep : ∀ q : Path, fs.node q = some .dir → fs'.node q = some .dir)
    {cs : List Name} {cur d : Path} (h : fs.walk cur cs = some d) : fs'.walk cur cs = some d := by
  induction cs generalizing cur with
  | nil => exact h
  | cons c cs ih =>
      simp only [walk] at h ⊢
      split at h
      · rename_i hdir
        rw [if_pos (keep cur hdir)]
        split at h
        · rename_i hdot
          rw [if_pos hdot]
          exact ih h
        · rename_i hdot
          rw [if_neg hdot]
          split at h
          · rename_i hup
            rw [if_pos hup]
            exact ih h
          · rename_i hup
            rw [if_neg hup]
            exact ih h
      · cases h

theorem resolve_mono (keep : ∀ q : Path, fs.node q = some .dir → fs'.node q = some .dir)
    (hcwd : fs'.cwd = fs.cwd) {path : List UInt8} {d : Path} (h : fs.resolve path = some d) :
    fs'.resolve path = some d := by
  simp only [resolve, hcwd] at h ⊢
  split at h
  · cases h
  · rename_i hne
    rw [if_neg hne]
    exact walk_mono keep h

/-- What stands before a slash of a path that resolves is a directory. -/
theorem resolve_cut {s t : List UInt8} {d : Path} (hs : s ≠ [])
    (h : fs.resolve (s ++ slash :: t) = some d) :
    ∃ e, fs.resolve s = some e ∧ fs.node e = some .dir := by
  have hhead : (s ++ slash :: t).head? = s.head? := by
    cases s with
    | nil => exact absurd rfl hs
    | cons b bs => rfl
  simp only [resolve, List.append_eq_nil_iff, reduceCtorEq, and_false, if_false, hhead,
    comps_append_slash, walk_append] at h
  obtain ⟨e, he, ht⟩ := Option.bind_eq_some_iff.mp h
  refine ⟨e, by simpa only [resolve, hs, if_false] using he, ?_⟩
  cases hc : comps t with
  | nil => exact absurd hc (comps_ne_nil t)
  | cons c cs =>
      rw [hc] at ht
      simp only [walk] at ht
      split at ht
      · assumption
      · cases ht

/-- The directories a walk goes through. -/
def trail : Path → List Name → List Path
  | _, [] => []
  | cur, c :: cs =>
      cur :: trail (if c = [] ∨ c = dot then cur else if c = dotdot then cur.tail else c :: cur) cs

theorem walk_congr {cs : List Name} {cur : Path}
    (same : ∀ q ∈ trail cur cs, fs'.node q = fs.node q) : fs'.walk cur cs = fs.walk cur cs := by
  induction cs generalizing cur with
  | nil => rfl
  | cons c cs ih =>
      simp only [trail, List.forall_mem_cons] at same
      simp only [walk, same.1]
      split
      · split
        · rename_i hdot
          rw [if_pos hdot] at same
          exact ih same.2
        · rename_i hdot
          rw [if_neg hdot] at same
          split
          · rename_i hup
            rw [if_pos hup] at same
            exact ih same.2
          · rename_i hup
            rw [if_neg hup] at same
            exact ih same.2
      · rfl

/-- The directories on the way to a path. -/
def via (fs : FileSystem) (path : List UInt8) : List Path :=
  trail (if path.head? = some slash then [] else fs.cwd) (comps path)

theorem resolve_congr {path : List UInt8} (hcwd : fs'.cwd = fs.cwd)
    (same : ∀ q ∈ fs.via path, fs'.node q = fs.node q) : fs'.resolve path = fs.resolve path := by
  simp only [resolve, hcwd]
  split
  · rfl
  · exact walk_congr same

/-- One component further down a path. -/
theorem resolve_step {t c : List UInt8} (ht : t ≠ []) (hc : slash ∉ c) :
    fs.resolve (t ++ slash :: c) = (fs.resolve t).bind fun d => fs.walk d [c] := by
  have hhead : (t ++ slash :: c).head? = t.head? := by
    cases t with
    | nil => exact absurd rfl ht
    | cons b bs => rfl
  simp only [resolve, List.append_eq_nil_iff, reduceCtorEq, and_false, if_false, ht, hhead,
    comps_append_slash, comps_of_notMem hc, walk_append]

/-! ## Changes below a path -/

/-- Nothing changed but at `base` and below it. -/
structure Below (base : Path) (fs fs' : FileSystem) : Prop where
  node : ∀ q : Path, ¬ base <:+ q → fs'.node q = fs.node q
  data : ∀ (q : Path) (i : Nat), ¬ base <:+ q → fs.node q = some (.file i) →
    fs'.data i = fs.data i
  cwd : fs'.cwd = fs.cwd

namespace Below
variable {base : Path} {fs'' : FileSystem}

theorem refl (base : Path) (fs : FileSystem) : Below base fs fs :=
  ⟨fun _ _ => rfl, fun _ _ _ _ => rfl, rfl⟩

theorem trans (h : Below base fs fs') (h' : Below base fs' fs'') : Below base fs fs'' := by
  refine ⟨fun q hq => (h'.node q hq).trans (h.node q hq), fun q i hq hi => ?_,
    h'.cwd.trans h.cwd⟩
  exact (h'.data q i hq ((h.node q hq).trans hi)).trans (h.data q i hq hi)

theorem mkdirTry {path : List UInt8} (under : ∀ q, fs.resolve path = some q → base <:+ q)
    (h : fs.mkdirTry path = some fs') : Below base fs fs' := by
  simp only [FileSystem.mkdirTry] at h
  split at h
  · cases h
    exact refl base fs
  · split at h
    · rename_i fs₁ hmk
      cases h
      simp only [mkdir] at hmk
      split at hmk
      · cases hmk
      · cases hmk
      · rename_i c p hr
        split at hmk
        · split at hmk
          · rename_i hp
            cases hmk
            refine ⟨fun q hq => ?_, fun _ _ _ _ => rfl, rfl⟩
            rw [node_addDir, if_neg]
            rintro rfl
            exact hq (under _ hr)
          · cases hmk
        · cases hmk
    · cases h
      exact refl base fs
    · cases h

/-- A file opened for writing and written. -/
theorem written {path : List UInt8} {i : Nat} {b : List UInt8}
    (under : ∀ c p, fs.resolve path = some (c :: p) → fs.node (c :: p) ≠ some .dir →
      base <:+ c :: p)
    (h : fs.openTrunc path = some (fs', i)) : Below base fs (fs'.setData i b) := by
  simp only [openTrunc] at h
  split at h
  · cases h
  · cases h
  · rename_i c p hr
    split at h
    · cases h
    · rename_i j hj
      cases h
      have hbase := under c p hr (by simp [hj])
      refine ⟨fun q _ => rfl, fun q k hq hk => ?_, rfl⟩
      have hne : k ≠ i := by
        rintro rfl
        exact hq (fs.ino_inj hj hk ▸ hbase)
      simp [setData, hne]
    · rename_i hnone
      split at h
      · rename_i hp
        cases h
        have hbase := under c p hr (by simp [hnone])
        refine ⟨fun q hq => ?_, fun q k hq hk => ?_, rfl⟩
        · rw [node_setData, node_addFile, if_neg]
          rintro rfl
          exact hq hbase
        · have hne : k ≠ fs.next := by
            have := fs.ino_lt hk
            omega
          simp [setData, addFile, hne]
      · cases h

theorem remove {path : List UInt8}
    (under : ∀ q, fs.resolve path = some q → lastPlain path = true → base <:+ q)
    (h : fs.remove path = some fs') : Below base fs fs' := by
  simp only [FileSystem.remove] at h
  split at h
  · cases h
  · cases h
  · rename_i c p hr
    split at h
    · rename_i hplain
      split at h
      · cases h
        refine ⟨fun q hq => ?_, fun _ _ _ _ => rfl, rfl⟩
        rw [node_dropNode, if_neg]
        rintro rfl
        exact hq (under _ hr hplain.2)
      · cases h
    · cases h

end Below

/-- Nothing changed but what lies inside the directory at `base`. -/
structure Inside (base : Path) (fs fs' : FileSystem) : Prop where
  node : ∀ q : Path, (base <:+ q → q = base) → fs'.node q = fs.node q
  cwd : fs'.cwd = fs.cwd ∨ base <:+ fs.cwd ∧ fs.cwd ≠ base

namespace Inside
variable {base : Path} {fs'' : FileSystem}

theorem refl (base : Path) (fs : FileSystem) : Inside base fs fs := ⟨fun _ _ => rfl, .inl rfl⟩

theorem trans (h : Inside base fs fs') (h' : Inside base fs' fs'') : Inside base fs fs'' := by
  refine ⟨fun q hq => (h'.node q hq).trans (h.node q hq), ?_⟩
  rcases h.cwd with e | hin
  · rw [← e]
    exact h'.cwd
  · exact .inr hin

/-- A path whose way does not lead inside means what it meant. -/
theorem resolve (h : Inside base fs fs') {path : List UInt8}
    (outside : ∀ q ∈ fs.via path, base <:+ q → q = base) :
    fs'.resolve path = fs.resolve path ∧ fs'.via path = fs.via path := by
  have same : ∀ q ∈ fs.via path, fs'.node q = fs.node q := fun q hq => h.node q (outside q hq)
  have start : (if path.head? = some slash then [] else fs'.cwd) =
      if path.head? = some slash then [] else fs.cwd := by
    split
    · rfl
    · rename_i hrel
      rcases h.cwd with e | ⟨hin, hne⟩
      · exact e
      · -- a relative path starts in the working directory
        refine absurd (outside fs.cwd ?_ hin) hne
        cases hc : comps path with
        | nil => exact absurd hc (comps_ne_nil path)
        | cons c cs => simp [via, hrel, hc, trail]
  refine ⟨?_, by simp only [via, start]⟩
  simp only [FileSystem.resolve, start]
  split
  · rfl
  · exact walk_congr same

end Inside

/-! ## Directories -/

theorem mkdir_existing {path : List UInt8} {d : Path} {n : Node} (hr : fs.resolve path = some d)
    (hn : fs.node d = some n) : fs.mkdir path = .error .exist := by
  cases d with
  | nil => simp [mkdir, hr]
  | cons c p => simp [mkdir, hr, hn]

theorem mkdirTry_existing {path : List UInt8} {d : Path} {n : Node}
    (hr : fs.resolve path = some d) (hn : fs.node d = some n) : fs.mkdirTry path = some fs := by
  simp [mkdirTry, mkdir_existing hr hn]

/-- A missing directory is made in its parent. -/
theorem mkdirTry_missing {path : List UInt8} {c : Name} {p : Path} (hdot : path ≠ dot)
    (hr : fs.resolve path = some (c :: p)) (hp : fs.node p = some .dir)
    (hc : fs.node (c :: p) = none) : fs.mkdirTry path = some (fs.addDir c p hp) := by
  have hne : path ≠ [] := by
    rintro rfl
    simp [resolve] at hr
  simp [mkdirTry, hne, hdot, mkdir, hr, hp, hc]

theorem mkdirsFrom_notMem (strict : Bool) (fs : FileSystem) (cur : List UInt8) {s : List UInt8}
    (h : slash ∉ s) (rest : List UInt8) :
    fs.mkdirsFrom strict cur (s ++ rest) = fs.mkdirsFrom strict (cur ++ s) rest := by
  induction s generalizing cur with
  | nil => simp
  | cons b s ih =>
      simp only [List.mem_cons, not_or] at h
      rw [List.cons_append, mkdirsFrom, if_neg (Ne.symm h.1), ih _ h.2]
      simp

/-- The part of a path that is there already. -/
theorem mkdirsFrom_existing (strict : Bool) {cur s rest : List UInt8} {d : Path}
    (h : fs.resolve (cur ++ s) = some d) :
    fs.mkdirsFrom strict cur (s ++ rest) = fs.mkdirsFrom strict (cur ++ s) rest := by
  induction s generalizing cur with
  | nil => simp
  | cons b s ih =>
      have hnext : fs.resolve ((cur ++ [b]) ++ s) = some d := by simpa using h
      have hrest : fs.mkdirsFrom strict (cur ++ [b]) (s ++ rest) =
          fs.mkdirsFrom strict (cur ++ b :: s) rest := by
        rw [ih hnext]
        simp
      rw [List.cons_append, mkdirsFrom]
      split
      · rename_i hb
        have hskip : fs.mkdirTry cur = some fs := by
          by_cases hcur : cur = []
          · simp [mkdirTry, hcur]
          · obtain ⟨e, he, hdir⟩ := resolve_cut hcur (hb ▸ h)
            exact mkdirTry_existing he hdir
        rw [hskip]
        exact hrest
      · exact hrest

/-- A directory that is there or can be made is there afterwards; nothing else changes. -/
theorem mkdirTry_dir {path : List UInt8} {c : Name} {p : Path} (hdot : path ≠ dot)
    (hr : fs.resolve path = some (c :: p)) (hp : fs.node p = some .dir)
    (hc : fs.node (c :: p) = none ∨ fs.node (c :: p) = some .dir) :
    ∃ fs', fs.mkdirTry path = some fs' ∧
      (∀ q : Path, fs'.node q = if c :: p = q then some .dir else fs.node q) ∧
      fs'.data = fs.data ∧ fs'.next = fs.next ∧ fs'.cwd = fs.cwd := by
  rcases hc with hc | hc
  · exact ⟨_, mkdirTry_missing hdot hr hp hc, fun q => node_addDir fs hp q, rfl, rfl, rfl⟩
  · refine ⟨fs, mkdirTry_existing hr hc, fun q => ?_, rfl, rfl, rfl⟩
    split
    · rename_i hq
      rw [← hq, hc]
    · rfl

/-- The text of components below a directory. -/
def joinPath (cs : List Name) : List UInt8 := cs.flatMap fun c => slash :: c

/-- A directory and the ones below it on the way down `cs`. -/
def chain (e : Path) : List Name → List Path
  | [] => [e]
  | c :: cs => e :: chain (c :: e) cs

/-- Past one slash and one component. -/
theorem mkdirsFrom_joinPath (strict : Bool) {fs' : FileSystem} {cur : List UInt8} {c : Name}
    {cs : List Name} (hc : Plain c) (hmk : fs.mkdirTry cur = some fs') :
    fs.mkdirsFrom strict cur (joinPath (c :: cs)) =
      fs'.mkdirsFrom strict (cur ++ slash :: c) (joinPath cs) := by
  rw [joinPath, List.flatMap_cons, List.cons_append, mkdirsFrom, if_pos rfl, hmk]
  simp only
  rw [mkdirsFrom_notMem strict fs' _ hc.2.2.2, List.append_assoc]
  rfl

theorem child_ne_dot (t c : List UInt8) : t ++ slash :: c ≠ dot := by
  intro e
  have hmem : slash ∈ dot := e ▸ by simp
  exact absurd hmem (by decide)

/-- Every directory from `cur`, the last one perhaps missing, down the components. -/
theorem mkdirsFrom_chain (strict : Bool) (cs : List Name) (hcs : ∀ c ∈ cs, Plain c)
    {fs : FileSystem} {cur : List UInt8} {c : Name} {p : Path} (hcur : cur ≠ [])
    (hdot : cur ≠ dot) (hr : fs.resolve cur = some (c :: p)) (hp : fs.node p = some .dir)
    (free : ∀ q ∈ chain (c :: p) cs, fs.node q = none ∨ fs.node q = some .dir) :
    ∃ fs', fs.mkdirsFrom strict cur (joinPath cs) = (fs', true) ∧
      (∀ q : Path, fs'.node q = if q ∈ chain (c :: p) cs then some .dir else fs.node q) ∧
      fs'.data = fs.data ∧ fs'.next = fs.next ∧ fs'.cwd = fs.cwd := by
  induction cs generalizing fs cur c p with
  | nil =>
      obtain ⟨fs', hmk, hnode, hrest⟩ := mkdirTry_dir hdot hr hp (free _ (by simp [chain]))
      refine ⟨fs', by simp [joinPath, mkdirsFrom, hmk], fun q => ?_, hrest⟩
      rw [hnode]
      simp only [chain, List.mem_singleton, eq_comm]
  | cons c' cs ih =>
      obtain ⟨fs₁, hmk, hnode, hdata, hnext, hcwd⟩ :=
        mkdirTry_dir hdot hr hp (free _ (by simp [chain]))
      have hc' := hcs c' List.mem_cons_self
      have hkeep : ∀ q : Path, fs.node q = some .dir → fs₁.node q = some .dir := by
        intro q hq
        rw [hnode]
        split
        · rfl
        · exact hq
      have hhere : fs₁.node (c :: p) = some .dir := by simp [hnode]
      have hr₁ : fs₁.resolve (cur ++ slash :: c') = some (c' :: c :: p) := by
        rw [fs₁.resolve_child hcur hc', resolve_mono hkeep hcwd hr]
        simp [hhere]
      have free₁ : ∀ q ∈ chain (c' :: c :: p) cs, fs₁.node q = none ∨ fs₁.node q = some .dir := by
        intro q hq
        rw [hnode]
        split
        · exact .inr rfl
        · exact free q (List.mem_cons_of_mem _ hq)
      obtain ⟨fs₂, hmk₂, hnode₂, hdata₂, hnext₂, hcwd₂⟩ :=
        ih (fun c hc => hcs c (List.mem_cons_of_mem _ hc)) (by simp)
          (child_ne_dot cur c') hr₁ hhere free₁
      refine ⟨fs₂, ?_, fun q => ?_, hdata₂.trans hdata, hnext₂.trans hnext, hcwd₂.trans hcwd⟩
      · rw [mkdirsFrom_joinPath strict hc' hmk]
        exact hmk₂
      · rw [hnode₂, hnode]
        simp only [chain, List.mem_cons]
        by_cases hq : q = c :: p
        · simp [hq]
        · simp [hq, Ne.symm hq]

theorem mkdirsFrom_dir (strict : Bool) {t : List UInt8} {d : Path} (hr : fs.resolve t = some d)
    (hd : fs.node d = some .dir) : fs.mkdirsFrom strict [] t = (fs, true) := by
  have h : fs.mkdirsFrom strict [] (t ++ []) = fs.mkdirsFrom strict ([] ++ t) [] :=
    mkdirsFrom_existing strict (by simpa using hr)
  rw [List.append_nil, List.nil_append] at h
  rw [h]
  simp [mkdirsFrom, mkdirTry_existing hr hd]

/-- Directories below an existing one. -/
theorem mkdirsFrom_below (strict : Bool) {t : List UInt8} {d : Path} (ht : t ≠ [])
    (hr : fs.resolve t = some d) (hd : fs.node d = some .dir) {c : Name} {cs : List Name}
    (hc : Plain c) (hcs : ∀ c ∈ cs, Plain c)
    (free : ∀ q ∈ chain (c :: d) cs, fs.node q = none ∨ fs.node q = some .dir) :
    ∃ fs', fs.mkdirsFrom strict [] (t ++ joinPath (c :: cs)) = (fs', true) ∧
      (∀ q : Path, fs'.node q = if q ∈ chain (c :: d) cs then some .dir else fs.node q) ∧
      fs'.data = fs.data ∧ fs'.next = fs.next ∧ fs'.cwd = fs.cwd := by
  have hr' : fs.resolve (t ++ slash :: c) = some (c :: d) := by
    rw [fs.resolve_child ht hc, hr]
    simp [hd]
  obtain ⟨fs', hmk, hrest⟩ :=
    mkdirsFrom_chain strict cs hcs (by simp) (child_ne_dot t c) hr' hd free
  refine ⟨fs', ?_, hrest⟩
  rw [mkdirsFrom_existing strict (by simpa using hr), List.nil_append,
    mkdirsFrom_joinPath strict hc (mkdirTry_existing hr hd)]
  exact hmk

/-! ## Files -/

/-- Opening for writing: one file, empty now, under a new inode if it was missing. -/
theorem openTrunc_spec {path : List UInt8} {c : Name} {p : Path}
    (hr : fs.resolve path = some (c :: p)) (hp : fs.node p = some .dir)
    (hc : fs.node (c :: p) ≠ some .dir) :
    ∃ fs' i, fs.openTrunc path = some (fs', i) ∧
      (∀ q : Path, fs'.node q = if c :: p = q then some (.file i) else fs.node q) ∧
      fs'.data = Function.update fs.data i [] ∧ fs'.cwd = fs.cwd ∧
      (fs.node (c :: p) = some (.file i) ∨ fs.node (c :: p) = none ∧ i = fs.next) := by
  simp only [openTrunc, hr]
  split
  · rename_i h
    exact absurd h hc
  · rename_i i h
    refine ⟨_, i, rfl, fun q => ?_, rfl, rfl, .inl h⟩
    rw [node_setData]
    split
    · rename_i hq
      rw [← hq, h]
    · rfl
  · rename_i h
    rw [dif_pos hp]
    exact ⟨_, _, rfl, fun q => node_addFile fs hp h q, rfl, rfl, .inr ⟨h, rfl⟩⟩

/-- Taking a file away. -/
theorem remove_file {path : List UInt8} {c : Name} {p : Path} {i : Nat}
    (hr : fs.resolve path = some (c :: p)) (hf : fs.node (c :: p) = some (.file i))
    (hlast : lastPlain path = true) :
    ∃ fs', fs.remove path = some fs' ∧
      (∀ q : Path, fs'.node q = if c :: p = q then none else fs.node q) ∧
      fs'.data = fs.data ∧ fs'.cwd = fs.cwd := by
  have hempty : fs.entries (c :: p) = [] := by
    rw [List.eq_nil_iff_forall_not_mem]
    intro c' hc'
    obtain ⟨n, hn⟩ := Option.ne_none_iff_exists'.mp (fs.mem_entries.mp hc')
    have hdir := fs.node_parent hn
    rw [hf] at hdir
    cases hdir
  simp only [remove, hr, hf, hlast, ne_eq, reduceCtorEq, not_false_eq_true, true_and, if_true,
    dif_pos hempty]
  exact ⟨_, rfl, fun q => node_dropNode fs _ _ q, rfl, rfl⟩

theorem remove_missing {path : List UInt8} {q : Path} (hr : fs.resolve path = some q)
    (hf : fs.node q = none) : fs.remove path = none := by
  cases q with
  | nil => simp [remove, hr]
  | cons c p => simp [remove, hr, hf]

/-- Nothing changed but that some nodes are gone. -/
structure Pruned (gone : Path → Prop) (fs fs' : FileSystem) : Prop where
  node : ∀ q : Path, fs'.node q = fs.node q ∨ gone q ∧ fs'.node q = none
  data : fs'.data = fs.data
  cwd : fs'.cwd = fs.cwd

namespace Pruned
variable {gone gone' : Path → Prop} {fs'' : FileSystem}

theorem refl (gone : Path → Prop) (fs : FileSystem) : Pruned gone fs fs :=
  ⟨fun _ => .inl rfl, rfl, rfl⟩

theorem mono (h : Pruned gone fs fs') (hle : ∀ q, gone q → gone' q) : Pruned gone' fs fs' :=
  ⟨fun q => (h.node q).imp_right fun hg => ⟨hle q hg.1, hg.2⟩, h.data, h.cwd⟩

theorem trans (h : Pruned gone fs fs') (h' : Pruned gone fs' fs'') : Pruned gone fs fs'' := by
  refine ⟨fun q => ?_, h'.data.trans h.data, h'.cwd.trans h.cwd⟩
  rcases h'.node q with e | hg
  · rw [e]
    exact h.node q
  · exact .inr hg

/-- What is there afterwards was there before. -/
theorem was (h : Pruned gone fs fs') {q : Path} {n : Node} (hn : fs'.node q = some n) :
    fs.node q = some n := by
  rcases h.node q with e | ⟨-, e⟩
  · exact e.symm.trans hn
  · exact absurd (e.symm.trans hn) (by simp)

theorem keep (h : Pruned gone fs fs') {q : Path} (hq : ¬ gone q) : fs'.node q = fs.node q := by
  rcases h.node q with e | ⟨hg, -⟩
  · exact e
  · exact absurd hg hq

theorem inside {base : Path} (h : Pruned gone fs fs')
    (under : ∀ q, gone q → base <:+ q ∧ q ≠ base) : Inside base fs fs' :=
  ⟨fun q hq => h.keep fun hg => (under q hg).2 (hq (under q hg).1), .inl h.cwd⟩

end Pruned

/-- A file or an empty directory was taken away. -/
theorem remove_pruned {path : List UInt8} (h : fs.remove path = some fs') :
    ∃ q, fs.resolve path = some q ∧ lastPlain path = true ∧ fs.node q ≠ none ∧
      Pruned (· = q) fs fs' ∧ fs'.node q = none := by
  simp only [remove] at h
  split at h
  · cases h
  · cases h
  · rename_i c p hr
    split at h
    · rename_i hplain
      split at h
      · cases h
        refine ⟨c :: p, hr, hplain.2, hplain.1, ⟨fun q => ?_, rfl, rfl⟩, ?_⟩
        · rw [node_dropNode]
          split
          · rename_i e
            exact .inr ⟨e.symm, rfl⟩
          · exact .inl rfl
        · rw [node_dropNode, if_pos rfl]
      · cases h
    · cases h

/-- The subtree at `src` took the place of what was at `dst`. -/
structure Relocated (src dst : Path) (fs fs' : FileSystem) : Prop where
  node : ∀ q : Path, fs'.node q =
    if dst <:+ q then fs.node (q.take (q.length - dst.length) ++ src)
    else if src <:+ q then none else fs.node q
  data : fs'.data = fs.data
  cwd : fs'.cwd = fs.cwd ∨ src <:+ fs.cwd

theorem rename_relocated {old new : List UInt8} {src dst : Path} (hs : fs.resolve old = some src)
    (hd : fs.resolve new = some dst) (hne : src ≠ dst) (h : fs.rename old new = some fs') :
    Relocated src dst fs fs' := by
  simp only [rename, hs, hd] at h
  cases dst with
  | nil => cases h
  | cons c p =>
      simp only at h
      split at h
      · cases h
      · split at h
        · split at h
          · rename_i hp
            split at h
            · cases h
              refine ⟨fun q => node_moveNode fs hp.1 hp.2 q, rfl, ?_⟩
              by_cases hcwd : src <:+ fs.cwd
              · exact .inr hcwd
              · exact .inl (moved_of_not_suffix hcwd)
            · cases h
          · cases h
        · cases h

/-- What is renamed to itself stays. -/
theorem rename_same {old new : List UInt8} {src : Path} (hs : fs.resolve old = some src)
    (hd : fs.resolve new = some src) (h : fs.rename old new = some fs') : fs' = fs := by
  cases src with
  | nil => simp [rename, hs, hd] at h
  | cons c p =>
      simp only [rename, hs, hd, if_true] at h
      split at h
      · cases h
      · exact (Option.some.inj (Option.ite_none_right_eq_some.mp h).2).symm

theorem rename_missing {old : List UInt8} {src : Path} (hs : fs.resolve old = some src)
    (hf : fs.node src = none) (new : List UInt8) : fs.rename old new = none := by
  simp only [rename, hs]
  split
  · rename_i h _
    cases h
    simp [hf]
  · rfl

theorem Relocated.inside {src dst base : Path} (h : Relocated src dst fs fs')
    (hs : base <:+ src ∧ src ≠ base) (hd : base <:+ dst ∧ dst ≠ base) : Inside base fs fs' := by
  have out : ∀ {p q : Path}, base <:+ p ∧ p ≠ base → (base <:+ q → q = base) → ¬ p <:+ q := by
    intro p q hp hq hpq
    have e := hq (hp.1.trans hpq)
    rw [e] at hpq
    exact hp.2 (hpq.eq_of_length_le hp.1.length_le)
  refine ⟨fun q hq => ?_, ?_⟩
  · rw [h.node, if_neg (out hd hq), if_neg (out hs hq)]
  · refine h.cwd.imp_right fun hcwd => ⟨hs.1.trans hcwd, fun e => ?_⟩
    rw [e] at hcwd
    exact hs.2 (hcwd.eq_of_length_le hs.1.length_le)

/-- A file can be renamed within its directory, over a file or nothing. -/
theorem rename_file {old new : List UInt8} {b c : Name} {p : Path} {i : Nat}
    (hs : fs.resolve old = some (b :: p)) (hd : fs.resolve new = some (c :: p)) (hne : b ≠ c)
    (hlast : lastPlain old = true) (hlast' : lastPlain new = true)
    (hf : fs.node (b :: p) = some (.file i)) (hfree : fs.node (c :: p) ≠ some .dir) :
    ∃ fs', fs.rename old new = some fs' ∧
      (∀ q : Path, fs'.node q = if c :: p = q then some (.file i)
        else if b :: p = q then none else fs.node q) ∧
      fs'.data = fs.data ∧ (fs'.cwd = fs.cwd ∨ b :: p <:+ fs.cwd) := by
  have hpath : b :: p ≠ c :: p := fun e => hne (List.cons.inj e).1
  have same : ∀ {x y : Name}, x :: p <:+ y :: p → x = y := by
    intro x y hs
    have e := hs.eq_of_length rfl
    exact (List.cons.inj e).1
  have apart : Apart (b :: p) (c :: p) :=
    ⟨fun hs => hne (same hs), fun hs => hne (same hs).symm⟩
  have hdir : fs.node p = some .dir := fs.node_parent hf
  have hmay : fs.mayReplace (.file i) (c :: p) = true := by
    simp only [mayReplace]
    cases hn : fs.node (c :: p) with
    | none => rfl
    | some n =>
        cases n with
        | dir => exact absurd hn hfree
        | file j => rfl
  have hmove : fs.rename old new = some (fs.moveNode (b :: p) c p hdir apart) := by
    simp only [rename, hs, hd, hf, hlast, hlast', and_self, if_true, if_neg hpath, hmay]
    rw [dif_pos ⟨hdir, apart⟩]
  have leaf : ∀ {x : Name}, fs.node (x :: p) ≠ some .dir → ∀ r : Path, r ≠ [] →
      fs.node (r ++ x :: p) = none := by
    intro x hx r hr
    induction r with
    | nil => exact absurd rfl hr
    | cons y r ih =>
        by_contra hn
        obtain ⟨n, hn⟩ := Option.ne_none_iff_exists'.mp hn
        have hparent := fs.node_parent hn
        cases r with
        | nil => exact hx hparent
        | cons z r => exact absurd ((ih (by simp)).symm.trans hparent) (by simp)
  have hb : fs.node (b :: p) ≠ some .dir := by simp [hf]
  have hrel := rename_relocated hs hd hpath hmove
  refine ⟨_, hmove, fun q => ?_, hrel.data, hrel.cwd⟩
  rw [hrel.node]
  by_cases hq : c :: p <:+ q
  · obtain ⟨r, rfl⟩ := hq
    rw [if_pos (List.suffix_append r _)]
    simp only [List.length_append, Nat.add_sub_cancel, List.take_left']
    cases r with
    | nil => simp [hf]
    | cons y r =>
        have hlen : ∀ x : Name, x :: p ≠ y :: r ++ c :: p := by
          intro x e
          have := congrArg List.length e
          simp at this
          omega
        rw [if_neg (hlen c), if_neg (hlen b), leaf hb _ (by simp), leaf hfree _ (by simp)]
  · rw [if_neg hq]
    have hqc : c :: p ≠ q := by
      rintro rfl
      exact hq (List.suffix_refl _)
    rw [if_neg hqc]
    by_cases hbq : b :: p <:+ q
    · rw [if_pos hbq]
      obtain ⟨r, rfl⟩ := hbq
      cases r with
      | nil => simp
      | cons y r =>
          split
          · rfl
          · exact (leaf hb (y :: r) (by simp)).symm
    · rw [if_neg hbq, if_neg]
      rintro rfl
      exact hbq (List.suffix_refl _)

theorem lastPlain_child {t : List UInt8} {c : Name} (hc : Plain c) :
    lastPlain (t ++ slash :: c) = true := by
  have hlast : (comps t ++ [c]).getLast? = some c := by simp
  simp [lastPlain, comps_append_slash, comps_of_notMem hc.2.2.2, hlast, hc.2.1, hc.2.2.1]

end Splice.Lib.FileSystem
