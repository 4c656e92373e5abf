import Splice.Lib.FileEffects
import Splice.Peer.Store

/-!
The stored registrations of one peer as the directory `shelf`, one file for each form
of a name: what `save_pipe`, `remove_pipe` and `list_pipes` do to it and read from it.
Forms "." and ".." name directories and never a registration.
-/

namespace Splice.Peer
open Lib

/-! ## Forms -/

theorem sanitizeByte_ne_slash (c : UInt8) : sanitizeByte c ≠ slash := by
  simp only [sanitizeByte]
  split
  · rename_i h
    rintro rfl
    exact absurd h (by decide)
  · decide

@[simp] theorem sanitizeByte_idem (c : UInt8) : sanitizeByte (sanitizeByte c) = sanitizeByte c := by
  by_cases h : (isAlnum c || c = 45 || c = 95 || c = 46) = true
  · have hc : sanitizeByte c = c := by rw [sanitizeByte, if_pos h]
    rw [hc, hc]
  · have hc : sanitizeByte c = 95 := by rw [sanitizeByte, if_neg h]
    rw [hc]
    decide

theorem sanitize_ne_nil (n : Bytes) : sanitize n ≠ [] := by
  simp only [sanitize]
  split
  · decide
  · simpa

theorem slash_notMem_sanitize (n : Bytes) : slash ∉ sanitize n := by
  simp only [sanitize]
  split
  · decide
  · intro h
    obtain ⟨c, -, hc⟩ := List.mem_map.mp h
    exact sanitizeByte_ne_slash c hc

@[simp] theorem sanitize_idem (n : Bytes) : sanitize (sanitize n) = sanitize n := by
  rw [sanitize, if_neg (sanitize_ne_nil n)]
  simp only [sanitize]
  split
  · decide
  · simp

theorem plain_sanitize {n : Bytes} (h : sanitize n ≠ dot) (h' : sanitize n ≠ dotdot) :
    Plain (sanitize n) :=
  ⟨sanitize_ne_nil n, h, h', slash_notMem_sanitize n⟩

theorem plain_of_not_hidden {f : Name} (h : Store.hidden f = false) (hs : sanitize f = f) :
    Plain f := by
  rw [← hs] at h ⊢
  apply plain_sanitize
  · intro e
    rw [e] at h
    exact absurd h (by decide)
  · intro e
    rw [e] at h
    exact absurd h (by decide)

/-! ## Paths -/

def pipesName : Name := str "pipes"

theorem plain_pipesName : Plain pipesName := by decide

/-- Where the registrations of `peer` are, in the store at `root`. -/
def shelf (root : Path) (peer : Bytes) : Path := sanitize peer :: pipesName :: root

/-- The store's directory is there. -/
structure Store.At (st : Store) (fs : FileSystem) (root : Path) : Prop where
  dir_ne : st.dir ≠ []
  resolves : fs.resolve st.dir = some root
  is_dir : fs.node root = some .dir

namespace Store
variable {st : Store} {fs fs' : FileSystem} {root : Path} {peer name : Bytes}

theorem At.mono (h : st.At fs root)
    (keep : ∀ q : Path, fs.node q = some .dir → fs'.node q = some .dir)
    (hcwd : fs'.cwd = fs.cwd) : st.At fs' root :=
  ⟨h.dir_ne, FileSystem.resolve_mono keep hcwd h.resolves, keep _ h.is_dir⟩

theorem pipesDir_eq (st : Store) (peer : Bytes) :
    st.pipesDir peer = (st.dir ++ slash :: pipesName) ++ slash :: sanitize peer := by
  simp [pipesDir, pipesName]

theorem resolve_pipes (h : st.At fs root) :
    fs.resolve (st.dir ++ slash :: pipesName) = some (pipesName :: root) := by
  rw [fs.resolve_child h.dir_ne plain_pipesName, h.resolves]
  simp [h.is_dir]

theorem resolve_pipesDir (h : st.At fs root) (hp : Plain (sanitize peer)) :
    fs.resolve (st.pipesDir peer) =
      if fs.node (pipesName :: root) = some .dir then some (shelf root peer) else none := by
  rw [pipesDir_eq, fs.resolve_child (by simp) hp, resolve_pipes h]
  rfl

theorem resolve_pipePath (h : st.At fs root) (hp : Plain (sanitize peer))
    (hn : Plain (sanitize name)) (hs : fs.node (shelf root peer) = some .dir) :
    fs.resolve (st.pipePath peer name) = some (sanitize name :: shelf root peer) := by
  have hpipes : fs.node (pipesName :: root) = some .dir := fs.node_parent hs
  rw [pipePath, fs.resolve_child (by simp [pipesDir_eq]) hn, resolve_pipesDir h hp]
  simp [hpipes, hs]

/-- Without its directory no registration of the peer can be reached. -/
theorem resolve_pipePath_none (h : st.At fs root) (hp : Plain (sanitize peer))
    (hn : Plain (sanitize name)) (hs : fs.node (shelf root peer) ≠ some .dir) :
    fs.resolve (st.pipePath peer name) = none := by
  rw [pipePath, fs.resolve_child (by simp [pipesDir_eq]) hn, resolve_pipesDir h hp]
  split <;> simp [hs]

/-! ## Reading -/

theorem stat_pipePath (h : st.At fs root) (hp : Plain (sanitize peer))
    (hn : Plain (sanitize name)) :
    fs.stat (st.pipePath peer name) = fs.node (sanitize name :: shelf root peer) := by
  by_cases hs : fs.node (shelf root peer) = some .dir
  · simp [FileSystem.stat, resolve_pipePath h hp hn hs]
  · have hno : fs.node (sanitize name :: shelf root peer) = none := by
      by_contra hne
      obtain ⟨n, hn⟩ := Option.ne_none_iff_exists'.mp hne
      exact hs (fs.node_parent hn)
    simp [FileSystem.stat, resolve_pipePath_none h hp hn hs, hno]

theorem loadPipe_eq (h : st.At fs root) (hp : Plain (sanitize peer))
    (hn : Plain (sanitize name)) :
    st.loadPipe fs peer name =
      ((fs.node (sanitize name :: shelf root peer)).map fs.nodeBytes).bind (parsePipe peer name) := by
  rw [loadPipe, FileSystem.read, stat_pipePath h hp hn]

/-- The names `list_pipes` goes through. -/
theorem mem_pipeNames (h : st.At fs root) (hp : Plain (sanitize peer)) {f : Name} :
    f ∈ ((fs.readdir (st.pipesDir peer)).getD []).filter (fun n => !hidden n) ↔
      hidden f = false ∧ fs.node (f :: shelf root peer) ≠ none := by
  rw [List.mem_filter, FileSystem.readdir, resolve_pipesDir h hp]
  have hparent : fs.node (f :: shelf root peer) ≠ none →
      fs.node (shelf root peer) = some .dir ∧ fs.node (pipesName :: root) = some .dir := by
    intro hne
    obtain ⟨n, hn⟩ := Option.ne_none_iff_exists'.mp hne
    exact ⟨fs.node_parent hn, fs.node_parent (fs.node_parent hn)⟩
  by_cases hd : fs.node (pipesName :: root) = some .dir ∧ fs.node (shelf root peer) = some .dir
  · simp only [hd.1, hd.2, if_true, Option.bind_some, Option.getD_some, FileSystem.mem_entries,
      Bool.not_eq_true']
    exact and_comm
  · have hnone : (if fs.node (pipesName :: root) = some .dir then some (shelf root peer)
        else none).bind (fun p => if fs.node p = some .dir then some (fs.entries p) else none)
          = none := by
      split
      · rename_i hpipes
        have hs : fs.node (shelf root peer) ≠ some .dir := fun hs => hd ⟨hpipes, hs⟩
        simp [hs]
      · rfl
    rw [hnone]
    simp only [Option.getD_none, List.not_mem_nil, false_and, false_iff, not_and]
    exact fun _ hne => hd ⟨(hparent hne).2, (hparent hne).1⟩

theorem mem_listPipes (h : st.At fs root) (hp : Plain (sanitize peer)) {r : PipeRecord} :
    r ∈ st.listPipes fs peer ↔
      ∃ f, hidden f = false ∧ fs.node (f :: shelf root peer) ≠ none ∧
        st.loadPipe fs peer f = some r := by
  rw [listPipes, List.mem_filterMap]
  simp only [mem_pipeNames h hp]
  exact ⟨fun ⟨f, ⟨h₁, h₂⟩, h₃⟩ => ⟨f, h₁, h₂, h₃⟩, fun ⟨f, h₁, h₂, h₃⟩ => ⟨f, ⟨h₁, h₂⟩, h₃⟩⟩

theorem loadPipe_name {r : PipeRecord} (h : st.loadPipe fs peer name = some r) :
    r.peer = peer ∧ r.name = name := by
  obtain ⟨b, -, hb⟩ := Option.bind_eq_some_iff.mp h
  simp only [parsePipe] at hb
  split at hb
  · cases hb
  · split at hb
    · cases hb
    · cases hb
      exact ⟨rfl, rfl⟩

/-- No name is listed twice. -/
theorem listPipes_nodup : ((st.listPipes fs peer).map (·.name)).Nodup := by
  rw [listPipes, List.map_filterMap]
  have hnodup : (((fs.readdir (st.pipesDir peer)).getD []).filter fun n => !hidden n).Nodup := by
    apply List.Nodup.filter
    cases hd : fs.readdir (st.pipesDir peer) with
    | none => exact List.nodup_nil
    | some l =>
        simp only [FileSystem.readdir] at hd
        obtain ⟨p, -, hp⟩ := Option.bind_eq_some_iff.mp hd
        simp only [Option.ite_none_right_eq_some, Option.some.injEq] at hp
        rw [Option.getD_some, ← hp.2]
        exact fs.entries_nodup p
  rw [List.Nodup, List.pairwise_filterMap]
  refine hnodup.imp ?_
  intro a b hab x hx y hy hxy
  obtain ⟨r, hr, rfl⟩ := Option.map_eq_some_iff.mp hx
  obtain ⟨r', hr', rfl⟩ := Option.map_eq_some_iff.mp hy
  rw [(loadPipe_name hr).2, (loadPipe_name hr').2] at hxy
  exact hab hxy

/-! ## Writing -/

/-- Nothing but directories and registration files where the store keeps them. -/
structure ShelfOk (fs : FileSystem) (root : Path) (peer : Bytes) : Prop where
  pipes : ∀ n, fs.node (pipesName :: root) = some n → n = .dir
  shelf : ∀ n, fs.node (shelf root peer) = some n → n = .dir
  files : ∀ f n, fs.node (f :: Peer.shelf root peer) = some n → n ≠ .dir

/-- `save_pipe` made the directories and got no further. -/
structure Prepared (fs fs' : FileSystem) (root : Path) (peer : Bytes) : Prop where
  node : ∀ q : Path, fs'.node q =
    if q = pipesName :: root ∨ q = shelf root peer then some .dir else fs.node q
  data : fs'.data = fs.data
  cwd : fs'.cwd = fs.cwd

/-- `save_pipe` wrote the registration into the inode `i`. -/
structure Stored (fs fs' : FileSystem) (root : Path) (r : PipeRecord) (i : Nat) : Prop where
  plain : Plain (sanitize r.name)
  node : ∀ q : Path, fs'.node q =
    if sanitize r.name :: shelf root r.peer = q then some (.file i)
    else if q = pipesName :: root ∨ q = shelf root r.peer then some .dir else fs.node q
  data : fs'.data = Function.update fs.data i (pipeBody r)
  cwd : fs'.cwd = fs.cwd
  only : ∀ q : Path, fs.node q = some (.file i) → q = sanitize r.name :: shelf root r.peer

theorem Prepared.keep (h : Prepared fs fs' root peer) (q : Path) (hq : fs.node q = some .dir) :
    fs'.node q = some .dir := by
  rw [h.node]
  split
  · rfl
  · exact hq

theorem Stored.keep {r : PipeRecord} {i : Nat} (h : Stored fs fs' root r i)
    (ok : ShelfOk fs root r.peer) (q : Path) (hq : fs.node q = some .dir) :
    fs'.node q = some .dir := by
  rw [h.node]
  split
  · rename_i he
    exact absurd rfl (ok.files _ _ (he ▸ hq))
  · split
    · rfl
    · exact hq

theorem mkdirs_pipesDir (h : st.At fs root) (hp : Plain (sanitize peer))
    (ok : ShelfOk fs root peer) :
    ∃ fs', fs.mkdirsFrom true [] (st.pipesDir peer) = (fs', true) ∧
      Prepared fs fs' root peer ∧ fs'.next = fs.next := by
  have hplain : ∀ c ∈ [sanitize peer], Plain c := by
    simpa using hp
  have free : ∀ q ∈ FileSystem.chain (pipesName :: root) [sanitize peer],
      fs.node q = none ∨ fs.node q = some .dir := by
    intro q hq
    cases hn : fs.node q with
    | none => exact .inl rfl
    | some n =>
        simp only [FileSystem.chain, List.mem_cons, List.not_mem_nil, or_false] at hq
        rcases hq with rfl | rfl
        · exact .inr (congrArg some (ok.pipes n hn))
        · exact .inr (congrArg some (ok.shelf n hn))
  obtain ⟨fs', hmk, hnode, hdata, hnext, hcwd⟩ :=
    FileSystem.mkdirsFrom_below true h.dir_ne h.resolves h.is_dir plain_pipesName hplain free
  refine ⟨fs', ?_, ⟨fun q => ?_, hdata, hcwd⟩, hnext⟩
  · rw [← hmk, pipesDir_eq]
    simp [FileSystem.joinPath]
  · rw [hnode]
    exact if_congr (by simp [FileSystem.chain, shelf]) rfl rfl

/-- A form "." or ".." leads to a directory, which cannot be opened for writing. -/
private theorem openTrunc_dots (h : st.At fs root) (hp : Plain (sanitize peer))
    (hs : fs.node (shelf root peer) = some .dir) (hn : ¬ Plain (sanitize name)) :
    fs.openTrunc (st.pipePath peer name) = none := by
  have hdots : sanitize name = dot ∨ sanitize name = dotdot := by
    by_contra hno
    rw [not_or] at hno
    exact hn (plain_sanitize hno.1 hno.2)
  have hpipes : fs.node (pipesName :: root) = some .dir := fs.node_parent hs
  have hdir : fs.resolve (st.pipesDir peer) = some (shelf root peer) := by
    rw [resolve_pipesDir h hp, if_pos hpipes]
  have hne : st.pipesDir peer ≠ [] := by simp [pipesDir_eq]
  have hwalk : fs.resolve (st.pipePath peer name) =
      fs.walk (shelf root peer) [sanitize name] := by
    have hhead : (st.pipePath peer name).head? = (st.pipesDir peer).head? := by
      cases hd : st.pipesDir peer with
      | nil => exact absurd hd hne
      | cons b bs => simp [pipePath, hd]
    simp only [FileSystem.resolve, hne, if_false] at hdir
    rw [FileSystem.resolve, if_neg (by simp [pipePath]), hhead, pipePath, comps_append_slash,
      FileSystem.walk_append, hdir, comps_of_notMem (slash_notMem_sanitize name)]
    rfl
  rcases hdots with e | e
  · have hr : fs.resolve (st.pipePath peer name) = some (shelf root peer) := by
      rw [hwalk, e]
      simp [FileSystem.walk, hs]
    simp only [FileSystem.openTrunc, hr, shelf] at hs ⊢
    split <;> simp_all
  · have hr : fs.resolve (st.pipePath peer name) = some (pipesName :: root) := by
      rw [hwalk, e]
      simp only [FileSystem.walk, hs, dot, dotdot]
      rfl
    simp only [FileSystem.openTrunc, hr]
    split <;> simp_all

theorem savePipe_cases {r : PipeRecord} (h : st.At fs root) (hp : Plain (sanitize r.peer))
    (ok : ShelfOk fs root r.peer) :
    (∃ fs' e, st.savePipe fs r = (fs', some e) ∧ Prepared fs fs' root r.peer) ∨
      ∃ fs' i, st.savePipe fs r = (fs', none) ∧ Stored fs fs' root r i := by
  obtain ⟨fs₁, hmk, prep, hnext⟩ := mkdirs_pipesDir h hp ok
  have h₁ : st.At fs₁ root := h.mono prep.keep prep.cwd
  have hs : fs₁.node (shelf root r.peer) = some .dir := by simp [prep.node]
  have hpath : ∀ f : Name, (f :: shelf root r.peer) ≠ pipesName :: root ∧
      (f :: shelf root r.peer) ≠ shelf root r.peer := by
    intro f
    refine ⟨fun e => ?_, fun e => ?_⟩
    all_goals
      have hlen := congrArg List.length e
      simp only [shelf, List.length_cons] at hlen
      omega
  by_cases hn : Plain (sanitize r.name)
  · have hfile : fs₁.node (sanitize r.name :: shelf root r.peer) ≠ some .dir := by
      rw [prep.node]
      simp only [hpath, or_self, if_false]
      exact fun hd => ok.files _ _ hd rfl
    obtain ⟨fs₂, i, hopen, hnode, hdata, hcwd, hino⟩ :=
      FileSystem.openTrunc_spec (resolve_pipePath h₁ hp hn hs) hs hfile
    refine .inr ⟨fs₂.setData i (pipeBody r), i, ?_, hn, fun q => ?_, ?_, hcwd.trans prep.cwd, ?_⟩
    · simp [savePipe, hmk, hopen]
    · rw [FileSystem.node_setData, hnode, prep.node]
    · simp [FileSystem.setData, hdata, prep.data]
    · intro q hq
      rw [prep.node] at hino
      simp only [hpath, or_self, if_false] at hino
      rcases hino with hsame | ⟨-, rfl⟩
      · exact fs.ino_inj hq hsame
      · exact absurd (fs.ino_lt hq) (by omega)
  · refine .inl ⟨fs₁, str "cannot write " ++ st.pipePath r.peer r.name, ?_, prep⟩
    simp [savePipe, hmk, openTrunc_dots h₁ hp hs hn]

/-- `remove_pipe` takes away one file, if it is there. -/
theorem removePipe_spec (h : st.At fs root) (hp : Plain (sanitize peer))
    (ok : ShelfOk fs root peer) (hn : Plain (sanitize name)) :
    ∃ fs', (st.removePipe fs peer name).getD fs = fs' ∧
      (∀ q : Path, fs'.node q =
        if sanitize name :: shelf root peer = q then none else fs.node q) ∧
      fs'.data = fs.data ∧ fs'.cwd = fs.cwd := by
  cases hf : fs.node (sanitize name :: shelf root peer) with
  | none =>
      refine ⟨fs, ?_, fun q => ?_, rfl, rfl⟩
      · have hstat : fs.stat (st.pipePath peer name) = _ := stat_pipePath h hp hn
        rw [hf, FileSystem.stat] at hstat
        cases hr : fs.resolve (st.pipePath peer name) with
        | none => simp [removePipe, FileSystem.remove, hr]
        | some q =>
            rw [hr, Option.bind_some] at hstat
            simp [removePipe, FileSystem.remove_missing hr hstat]
      · split
        · rename_i hq
          rw [← hq, hf]
        · rfl
  | some n =>
      cases n with
      | dir => exact absurd rfl (ok.files _ _ hf)
      | file i =>
          have hs := fs.node_parent hf
          obtain ⟨fs', hrm, hrest⟩ := FileSystem.remove_file (resolve_pipePath h hp hn hs) hf
            (FileSystem.lastPlain_child hn)
          exact ⟨fs', by rw [removePipe, hrm]; rfl, hrest⟩

end Store
end Splice.Peer
