import Splice.Lib.Run
import Splice.Peer.Records
import Splice.Peer.RecordText

/-!
What lies in a store that only the program itself writes to: the records, each in the
file of its form, and below `pipes` one directory of files for each form. `save`,
`remove` and `rename` keep it so and change no more than the files of the peers they
are given.
-/

namespace Splice.Peer
open Lib FileSystem

def connName (name : Bytes) : Name := sanitize name ++ str ".conn"

namespace Store
variable {st : Store} {fs fs' : FileSystem} {root : Path} {name : Bytes}

theorem plain_beside (name : Bytes) {s : Bytes} (hs : 2 ≤ s.length) (hslash : slash ∉ s) :
    Plain (sanitize name ++ s) := by
  have hlen : 2 < (sanitize name ++ s).length := by
    have := List.length_pos_iff.mpr (sanitize_ne_nil name)
    rw [List.length_append]
    omega
  have hslash' : slash ∉ sanitize name ++ s := by
    rw [List.mem_append, not_or]
    exact ⟨slash_notMem_sanitize name, hslash⟩
  refine ⟨fun e => ?_, fun e => ?_, fun e => ?_, hslash'⟩
  all_goals
    rw [e] at hlen
    simp [dot, dotdot] at hlen

theorem plain_connName (name : Bytes) : Plain (connName name) :=
  plain_beside name (by decide) (by decide)

theorem connName_inj {a b : Bytes} (h : connName a = connName b) : sanitize a = sanitize b :=
  List.append_cancel_right h

theorem resolve_beside (h : st.At fs root) {c : Name} (hc : Plain c) :
    fs.resolve (st.dir ++ slash :: c) = some (c :: root) := by
  rw [fs.resolve_child h.dir_ne hc, h.resolves]
  simp [h.is_dir]

/-- The anchor holds through changes inside the store. -/
theorem Anchored.inside (h : st.Anchored fs root) (hin : Inside root fs fs')
    (names : ∀ c : Name, fs'.node (c :: root) ≠ none → slash ∉ c) : st.Anchored fs' root := by
  obtain ⟨hresolve, hvia⟩ := hin.resolve h.outside
  refine ⟨⟨h.dir_ne, hresolve.trans h.resolves, ?_⟩, fun q hq => h.outside q (hvia ▸ hq), names⟩
  exact (hin.node root fun _ => rfl).trans h.is_dir

/-- The records by file, and directories of files below `pipes`. -/
structure Laid (st : Store) (fs : FileSystem) (root : Path) : Prop where
  anchored : st.Anchored fs root
  flat : ∀ c n, fs.node (c :: root) = some n →
    c = pipesName ∧ n = .dir ∨ ∃ r, (c, r) ∈ st.records fs
  formed : ∀ f r, (f, r) ∈ st.records fs → f = connName r.name ∧ Plain (sanitize r.name)
  shelves : ∀ c n, fs.node (c :: pipesName :: root) = some n → n = .dir
  files : ∀ f c n, fs.node (f :: c :: pipesName :: root) = some n → n ≠ .dir ∧ sanitize f = f

namespace Laid

theorem shelfOk (h : st.Laid fs root) (peer : Bytes) : ShelfOk fs root peer := by
  refine ⟨fun n hn => ?_, fun n hn => h.shelves _ n hn, fun f n hn => (h.files f _ n hn).1⟩
  rcases h.flat _ n hn with ⟨-, e⟩ | ⟨r, hr⟩
  · exact e
  · exact absurd ((mem_records h.anchored).mp hr).1 (by decide)

/-- A record is alone in its file. -/
theorem same_file (h : st.Laid fs root) {f f' : Name} {r r' : ConnRecord}
    (hr : (f, r) ∈ st.records fs) (hr' : (f', r') ∈ st.records fs)
    (same : sanitize r.name = sanitize r'.name) : r = r' := by
  have hf : f = f' := by
    rw [(h.formed f r hr).1, (h.formed f' r' hr').1, connName, same]
    rfl
  subst hf
  exact records_unique hr hr'

/-- What ends neither as a record does nor as `pipes` is not there. -/
theorem beside_missing (h : st.Laid fs root) (name : Bytes) {s : Bytes} (hlen : 5 ≤ s.length)
    (hs : s.drop (s.length - 5) ≠ str ".conn") : fs.node ((sanitize name ++ s) :: root) = none := by
  have hpos : 0 < (sanitize name).length := List.length_pos_iff.mpr (sanitize_ne_nil name)
  by_contra hne
  obtain ⟨n, hn⟩ := Option.ne_none_iff_exists'.mp hne
  rcases h.flat _ n hn with ⟨e, -⟩ | ⟨r, hr⟩
  · have hlong := congrArg List.length e
    rw [List.length_append] at hlong
    have hfive : pipesName.length = 5 := rfl
    omega
  · have hconn := ((mem_records h.anchored).mp hr).1
    simp only [isConnFile, Bool.and_eq_true, decide_eq_true_eq] at hconn
    have hdrop : (sanitize name ++ s).length - 5 = (sanitize name).length + (s.length - 5) := by
      rw [List.length_append]
      omega
    rw [hdrop, List.drop_append] at hconn
    simp only [List.drop_eq_nil_of_le (show (sanitize name).length ≤
      (sanitize name).length + (s.length - 5) by omega), List.nil_append,
      Nat.add_sub_cancel_left] at hconn
    exact hs hconn.2

theorem file_of_record (h : st.Laid fs root) {f : Name} {r : ConnRecord}
    (hr : (f, r) ∈ st.records fs) : ∃ i, fs.node (f :: root) = some (.file i) ∧
      parseRecord (fs.data i) = some r := by
  obtain ⟨-, -, hparse⟩ := (mem_records h.anchored).mp hr
  cases hn : fs.node (f :: root) with
  | none => simp [hn] at hparse
  | some n =>
      cases n with
      | dir =>
          rw [hn] at hparse
          have hnone : parseRecord [] = none := by decide
          simp [nodeBytes, hnone] at hparse
      | file i =>
          rw [hn] at hparse
          exact ⟨i, rfl, by simpa [nodeBytes] using hparse⟩

/-! ## Things taken away -/

theorem pruned_anchored (h : st.Laid fs root) {gone : Path → Prop} (hp : Pruned gone fs fs')
    (under : ∀ q, gone q → root <:+ q ∧ q ≠ root) : st.Anchored fs' root := by
  refine h.anchored.inside (hp.inside under) fun c hc => ?_
  obtain ⟨n, hn⟩ := Option.ne_none_iff_exists'.mp hc
  exact h.anchored.names c (by simp [hp.was hn])

theorem pruned_records (h : st.Laid fs root) {gone : Path → Prop} (hp : Pruned gone fs fs')
    (under : ∀ q, gone q → root <:+ q ∧ q ≠ root) {f : Name} {r : ConnRecord} :
    (f, r) ∈ st.records fs' ↔ (f, r) ∈ st.records fs ∧ fs'.node (f :: root) ≠ none := by
  have anchored' := h.pruned_anchored hp under
  rw [mem_records anchored', mem_records h.anchored]
  have hbytes : fs'.nodeBytes = fs.nodeBytes := by
    funext n
    cases n with
    | dir => rfl
    | file i => simp [nodeBytes, hp.data]
  constructor
  · rintro ⟨hconn, hslash, hparse⟩
    cases hn : fs'.node (f :: root) with
    | none => simp [hn] at hparse
    | some n =>
        rw [hn, hbytes] at hparse
        exact ⟨⟨hconn, hslash, by rw [hp.was hn]; exact hparse⟩, by simp⟩
  · rintro ⟨⟨hconn, hslash, hparse⟩, hne⟩
    obtain ⟨n, hn⟩ := Option.ne_none_iff_exists'.mp hne
    rw [hp.was hn] at hparse
    exact ⟨hconn, hslash, by rw [hn, hbytes]; exact hparse⟩

theorem pruned (h : st.Laid fs root) {gone : Path → Prop} (hp : Pruned gone fs fs')
    (under : ∀ q, gone q → root <:+ q ∧ q ≠ root) : st.Laid fs' root := by
  refine {
    anchored := h.pruned_anchored hp under
    flat := fun c n hn => ?_
    formed := fun f r hr => h.formed f r ((h.pruned_records hp under).mp hr).1
    shelves := fun c n hn => h.shelves c n (hp.was hn)
    files := fun f c n hn => h.files f c n (hp.was hn) }
  rcases h.flat c n (hp.was hn) with hpipes | ⟨r, hr⟩
  · exact .inl hpipes
  · exact .inr ⟨r, (h.pruned_records hp under).mpr ⟨hr, by simp [hn]⟩⟩

end Laid

/-- The file of the form, if it goes. -/
theorem removePipe_pruned (h : st.At fs root) {peer : Bytes} (hp : Plain (sanitize peer))
    (hrm : st.removePipe fs peer name = some fs') :
    Pruned (· = sanitize name :: shelf root peer) fs fs' := by
  obtain ⟨q, hq, hlast, -, hpruned, -⟩ := remove_pruned hrm
  have hplain : Plain (sanitize name) := by
    refine ⟨sanitize_ne_nil name, fun e => ?_, fun e => ?_, slash_notMem_sanitize name⟩
    all_goals
      rw [pipePath, e, lastPlain, comps_append_slash] at hlast
      simp [comps_of_notMem (c := dot) (by decide), comps_of_notMem (c := dotdot) (by decide)]
        at hlast
  by_cases hs : fs.node (shelf root peer) = some .dir
  · rw [resolve_pipePath h hp hplain hs] at hq
    cases hq
    exact hpruned
  · rw [resolve_pipePath_none h hp hplain hs] at hq
    cases hq

/-- What `remove` takes away. -/
def Removed (root : Path) (name : Bytes) (q : Path) : Prop :=
  q = connName name :: root ∨ shelf root name <:+ q

theorem Removed.under {q : Path} (h : Removed root name q) : root <:+ q ∧ q ≠ root := by
  rcases h with rfl | h
  · exact ⟨List.suffix_cons _ _, fun e => by simpa using congrArg List.length e⟩
  · refine ⟨((List.suffix_cons _ _).trans (List.suffix_cons _ _)).trans h, ?_⟩
    rintro rfl
    have := h.length_le
    simp only [shelf, List.length_cons] at this
    omega

theorem discard_missing {path : Bytes} {q : Path} (hr : fs.resolve path = some q)
    (hn : fs.node q = none) : discard fs path = fs := by
  rw [discard, remove_missing hr hn]
  rfl

theorem remove_spec (h : st.Laid fs root) (hrm : st.remove fs name = some fs') :
    Pruned (Removed root name) fs fs' := by
  obtain ⟨fs₁, hconn, rfl⟩ := Option.map_eq_some_iff.mp hrm
  obtain ⟨q, hq, -, hthere, hgone, -⟩ := remove_pruned hconn
  have hq' : fs.resolve (st.peerPath name ".conn") = some (connName name :: root) :=
    resolve_beside h.anchored.toAt (plain_connName name)
  cases hq'.symm.trans hq
  -- a record is there, so its form is plain
  have hplain : Plain (sanitize name) := by
    obtain ⟨n, hn⟩ := Option.ne_none_iff_exists'.mp hthere
    rcases h.flat _ n hn with ⟨e, -⟩ | ⟨r, hr⟩
    · have hconn := isConnFile_form name
      rw [← connName, e] at hconn
      exact absurd hconn (by decide)
    · obtain ⟨e, hform⟩ := h.formed _ r hr
      rwa [connName_inj e]
  have h₁ : Pruned (Removed root name) fs fs₁ := hgone.mono fun q e => .inl e
  have laid : ∀ {fs₂}, Pruned (Removed root name) fs fs₂ → st.Laid fs₂ root :=
    fun hp => h.pruned hp fun q => Removed.under
  have missing : ∀ (s : String), 5 ≤ (str s).length →
      (str s).drop ((str s).length - 5) ≠ str ".conn" → slash ∉ str s →
      discard fs₁ (st.peerPath name s) = fs₁ := by
    intro s hlen hs hslash
    have hres : fs₁.resolve (st.peerPath name s) = some ((sanitize name ++ str s) :: root) :=
      resolve_beside (laid h₁).anchored.toAt (plain_beside name (by omega) hslash)
    exact discard_missing hres ((laid h₁).beside_missing name hlen hs)
  simp only [missing ".seen" (by decide) (by decide) (by decide),
    missing ".lanport" (by decide) (by decide) (by decide)]
  have hfiles : Pruned (Removed root name) fs ((st.listPipes fs₁ name).foldl
      (fun fs p => (st.removePipe fs name p.name).getD fs) fs₁) := by
    refine foldl_invariant (I := Pruned (Removed root name) fs) (fun fs₂ p h₂ _ => ?_) h₁
    cases hone : st.removePipe fs₂ name p.name with
    | none => exact h₂
    | some fs₃ =>
        refine h₂.trans ((removePipe_pruned (laid h₂).anchored.toAt hplain hone).mono ?_)
        rintro q rfl
        exact .inr (List.suffix_cons _ _)
  refine hfiles.trans ?_
  generalize (st.listPipes fs₁ name).foldl
    (fun fs p => (st.removePipe fs name p.name).getD fs) fs₁ = fs₂ at hfiles
  cases hdir : fs₂.rmdir (st.pipesDir name) with
  | none => exact Pruned.refl _ _
  | some fs₃ =>
      simp only [rmdir] at hdir
      split at hdir
      · obtain ⟨q, hq, -, -, hpruned, -⟩ := remove_pruned hdir
        refine hpruned.mono ?_
        rintro q' rfl
        rw [resolve_pipesDir (laid hfiles).anchored.toAt hplain] at hq
        cases (Option.ite_none_right_eq_some.mp hq).2
        exact .inr (List.suffix_refl _)
      · cases hdir
      · cases hdir

/-! ## A record written -/

/-- `save` wrote the record into the new inode `i`. -/
structure Saved (fs fs' : FileSystem) (root : Path) (r : ConnRecord) (i : Nat) : Prop where
  node : ∀ q : Path, fs'.node q =
    if connName r.name :: root = q then some (.file i) else fs.node q
  data : fs'.data = Function.update fs.data i (recordBody r)
  fresh : ∀ q : Path, fs.node q ≠ some (.file i)
  cwd : fs'.cwd = fs.cwd ∨ root <:+ fs.cwd ∧ fs.cwd ≠ root

theorem child_ne_root (c : Name) (root : Path) : c :: root ≠ root :=
  fun e => by simpa using congrArg List.length e

/-- The record goes to a new file beside the old one, which then takes its name. -/
theorem save_free (h : st.At fs root) (r : ConnRecord)
    (free : fs.node ((connName r.name ++ str ".tmp") :: root) = none)
    (file : fs.node (connName r.name :: root) ≠ some .dir) :
    ∃ fs' i, st.save fs r = (fs', none) ∧ Saved fs fs' root r i := by
  have plain : Plain (connName r.name ++ str ".tmp") := by
    rw [connName, List.append_assoc]
    exact plain_beside r.name (by decide) (by decide)
  have htmp : st.peerPath r.name ".conn" ++ str ".tmp" =
      st.dir ++ slash :: (connName r.name ++ str ".tmp") := by
    simp [peerPath, connName]
  have hres : fs.resolve (st.dir ++ slash :: (connName r.name ++ str ".tmp")) =
      some ((connName r.name ++ str ".tmp") :: root) := resolve_beside h plain
  have hstat : fs.stat (st.dir ++ slash :: (connName r.name ++ str ".tmp")) = none := by
    simp [FileSystem.stat, hres, free]
  obtain ⟨fs₁, i, hopen, hnode, hdata, hcwd, hino⟩ :=
    openTrunc_spec hres h.is_dir (by simp [free])
  have hi : i = fs.next := by
    rcases hino with e | ⟨-, e⟩
    · exact absurd (free.symm.trans e) (by simp)
    · exact e
  generalize hfs₂ : fs₁.setData i (recordBody r) = fs₂
  have hnode₂ : ∀ q : Path, fs₂.node q =
      if (connName r.name ++ str ".tmp") :: root = q then some (.file i) else fs.node q := by
    intro q
    rw [← hfs₂, node_setData, hnode]
  have hcwd₂ : fs₂.cwd = fs.cwd := by
    rw [← hfs₂]
    exact hcwd
  have store₂ : st.At fs₂ root := by
    refine h.mono (fun q hq => ?_) hcwd₂
    rw [hnode₂, if_neg]
    · exact hq
    · rintro rfl
      exact absurd (free.symm.trans hq) (by simp)
  have hne : connName r.name ++ str ".tmp" ≠ connName r.name := by
    intro e
    have := congrArg List.length e
    rw [List.length_append] at this
    have hfour : (str ".tmp").length = 4 := rfl
    omega
  have hfree : fs₂.node (connName r.name :: root) ≠ some .dir := by
    rw [hnode₂, if_neg fun e => hne (List.cons.inj e).1]
    exact file
  obtain ⟨fs₃, hren, hnode₃, hdata₃, hcwd₃⟩ := rename_file (resolve_beside store₂ plain)
    (resolve_beside store₂ (plain_connName r.name)) hne (lastPlain_child plain)
    (lastPlain_child (plain_connName r.name)) (by rw [hnode₂, if_pos rfl]) hfree
  refine ⟨fs₃, i, ?_, fun q => ?_, ?_, fun q hq => ?_, ?_⟩
  · have hren' : fs₂.rename (st.dir ++ slash :: (connName r.name ++ str ".tmp"))
        (st.peerPath r.name ".conn") = some fs₃ := hren
    simp [save, htmp, unlink, hstat, openExcl, FileSystem.exist, hopen, hfs₂, hren']
  · rw [hnode₃, hnode₂]
    split
    · rfl
    · split
      · rename_i e
        rw [← e]
        exact free.symm
      · rfl
  · rw [hdata₃, ← hfs₂]
    simp [setData, hdata]
  · rw [hi] at hq
    exact absurd (fs.ino_lt hq) (Nat.lt_irrefl _)
  · rw [hcwd₂] at hcwd₃
    refine hcwd₃.imp_right fun hs => ?_
    refine ⟨(List.suffix_cons _ _).trans hs, fun e => ?_⟩
    rw [e] at hs
    have := hs.length_le
    simp at this

theorem save_spec (h : st.Laid fs root) (r : ConnRecord) :
    ∃ fs' i, st.save fs r = (fs', none) ∧ Saved fs fs' root r i := by
  refine save_free h.anchored.toAt r ?_ fun hdir => ?_
  · rw [connName, List.append_assoc]
    exact h.beside_missing r.name (by decide) (by decide)
  · rcases h.flat _ _ hdir with ⟨e, -⟩ | ⟨r', hr'⟩
    · have hconn := isConnFile_form r.name
      rw [← connName, e] at hconn
      exact absurd hconn (by decide)
    · obtain ⟨j, hj, -⟩ := h.file_of_record hr'
      exact absurd (hdir.symm.trans hj) (by simp)

namespace Saved
variable {r : ConnRecord} {i : Nat}

theorem inside (h : Saved fs fs' root r i) : Inside root fs fs' := by
  refine ⟨fun q hq => ?_, h.cwd⟩
  rw [h.node, if_neg]
  rintro rfl
  exact child_ne_root _ _ (hq (List.suffix_cons _ _))

theorem anchored (h : Saved fs fs' root r i) (laid : st.Laid fs root) : st.Anchored fs' root := by
  refine laid.anchored.inside h.inside fun c hc => ?_
  rw [h.node] at hc
  split at hc
  · rename_i e
    rw [← (List.cons.inj e).1]
    exact (plain_connName r.name).2.2.2
  · exact laid.anchored.names c hc

/-- Below the records nothing changed. -/
theorem deeper (h : Saved fs fs' root r i) {q : Path} (hq : q.length ≠ root.length + 1) :
    fs'.node q = fs.node q := by
  rw [h.node, if_neg]
  rintro rfl
  exact hq rfl

/-- A file that was there says what it said. -/
theorem kept (h : Saved fs fs' root r i) {q : Path} {n : Node} (hn : fs.node q = some n) :
    fs'.nodeBytes n = fs.nodeBytes n := by
  cases n with
  | dir => rfl
  | file j =>
      have hj : j ≠ i := by
        rintro rfl
        exact h.fresh q hn
      simp [nodeBytes, h.data, hj]

theorem records (h : Saved fs fs' root r i) (laid : st.Laid fs root) {f : Name}
    {r' : ConnRecord} : (f, r') ∈ st.records fs' ↔
      f = connName r.name ∧ parseRecord (recordBody r) = some r' ∨
        f ≠ connName r.name ∧ (f, r') ∈ st.records fs := by
  by_cases hf : f = connName r.name
  · subst hf
    have hconn : isConnFile (connName r.name) = true := isConnFile_form r.name
    rw [mem_records (h.anchored laid), h.node, if_pos rfl]
    simp [nodeBytes, h.data, hconn, (plain_connName r.name).2.2.2]
  · have hne : ¬ connName r.name :: root = f :: root := fun e => hf (List.cons.inj e).1.symm
    have hbytes : (fs'.node (f :: root)).map fs'.nodeBytes =
        (fs.node (f :: root)).map fs.nodeBytes := by
      rw [h.node, if_neg hne]
      cases hn : fs.node (f :: root) with
      | none => rfl
      | some n => simp [h.kept hn]
    rw [mem_records_congr laid.anchored (h.anchored laid) hbytes]
    simp [hf]

/-- The store stays laid out when the record reads back under its own form. -/
theorem laid (h : Saved fs fs' root r i) (laid : st.Laid fs root) (form : Plain (sanitize r.name))
    {r' : ConnRecord} (reads : parseRecord (recordBody r) = some r') (named : r'.name = r.name) :
    st.Laid fs' root := by
  refine {
    anchored := h.anchored laid
    flat := fun c n hn => ?_
    formed := fun f r₁ hr => ?_
    shelves := fun c n hn => ?_
    files := fun f c n hn => ?_ }
  · rw [h.node] at hn
    split at hn
    · rename_i e
      exact .inr ⟨r', (h.records laid).mpr (.inl ⟨(List.cons.inj e).1.symm, reads⟩)⟩
    · rename_i hne
      rcases laid.flat c n hn with hpipes | ⟨r₁, hr₁⟩
      · exact .inl hpipes
      · exact .inr ⟨r₁, (h.records laid).mpr (.inr ⟨fun e => hne (by rw [e]), hr₁⟩)⟩
  · rcases (h.records laid).mp hr with ⟨rfl, hr₁⟩ | ⟨-, hr₁⟩
    · cases reads.symm.trans hr₁
      rw [named]
      exact ⟨rfl, form⟩
    · exact laid.formed f r₁ hr₁
  · rw [h.deeper (by simp)] at hn
    exact laid.shelves c n hn
  · rw [h.deeper (by simp; omega)] at hn
    exact laid.files f c n hn

end Saved

/-! ## A record renamed -/

/-- The registrations of one form took the place of those of another. -/
structure Shifted (fs fs' : FileSystem) (root : Path) (source target : Bytes) : Prop where
  relocated : Relocated (shelf root source) (shelf root target) fs fs'
  apart : sanitize source ≠ sanitize target

namespace Shifted
variable {source target : Bytes}

theorem inside (h : Shifted fs fs' root source target) : Inside root fs fs' := by
  have under : ∀ p : Bytes, root <:+ shelf root p ∧ shelf root p ≠ root := fun p =>
    Removed.under (.inr (List.suffix_refl (shelf root p)))
  exact h.relocated.inside (under source) (under target)

/-- Above the registrations nothing changed. -/
theorem above (h : Shifted fs fs' root source target) {q : Path}
    (hq : q.length < root.length + 2) : fs'.node q = fs.node q := by
  have short : ∀ p : Bytes, ¬ shelf root p <:+ q := by
    intro p hs
    have := hs.length_le
    simp only [shelf, List.length_cons] at this
    omega
  rw [h.relocated.node, if_neg (short target), if_neg (short source)]

/-- Where what is at `target` now was before; `source` is empty. -/
theorem node (h : Shifted fs fs' root source target) (l : List Name) (c : Name) :
    fs'.node (l ++ c :: pipesName :: root) =
      if c = sanitize target then fs.node (l ++ shelf root source)
      else if c = sanitize source then none else fs.node (l ++ c :: pipesName :: root) := by
  have same : ∀ p : Bytes, shelf root p <:+ l ++ c :: pipesName :: root ↔ c = sanitize p := by
    intro p
    constructor
    · intro hs
      have hlen : (shelf root p).length = (c :: pipesName :: root).length := rfl
      have e := (List.suffix_of_suffix_length_le hs (List.suffix_append l _)
        hlen.le).eq_of_length hlen
      exact (List.cons.inj e).1.symm
    · rintro rfl
      exact List.suffix_append l _
  rw [h.relocated.node]
  simp only [same]
  split
  · congr 2
    simp [shelf]
  · rfl

theorem records (h : Shifted fs fs' root source target) (laid : st.Laid fs root)
    (anchored : st.Anchored fs' root) {f : Name} {r : ConnRecord} :
    (f, r) ∈ st.records fs' ↔ (f, r) ∈ st.records fs := by
  refine mem_records_congr laid.anchored anchored ?_
  rw [h.above (by simp)]
  cases hn : fs.node (f :: root) with
  | none => rfl
  | some n => cases n <;> simp [nodeBytes, h.relocated.data]

theorem laid (h : Shifted fs fs' root source target) (laid : st.Laid fs root) :
    st.Laid fs' root := by
  have anchored : st.Anchored fs' root := by
    refine laid.anchored.inside h.inside fun c hc => ?_
    rw [h.above (by simp)] at hc
    exact laid.anchored.names c hc
  refine {
    anchored
    flat := fun c n hn => ?_
    formed := fun f r hr => laid.formed f r ((h.records laid anchored).mp hr)
    shelves := fun c n hn => ?_
    files := fun f c n hn => ?_ }
  · rw [h.above (by simp)] at hn
    rcases laid.flat c n hn with hpipes | ⟨r, hr⟩
    · exact .inl hpipes
    · exact .inr ⟨r, (h.records laid anchored).mpr hr⟩
  · have hn' := (h.node [] c).symm.trans hn
    split at hn'
    · exact laid.shelves _ n hn'
    · split at hn'
      · cases hn'
      · exact laid.shelves c n hn'
  · have hn' := (h.node [f] c).symm.trans hn
    split at hn'
    · exact laid.files f _ n hn'
    · split at hn'
      · cases hn'
      · exact laid.files f c n hn'

end Shifted

/-- `rename` wrote the record `r` under its new name, and if that has another form, took the
old file away and moved the registrations over if it could. -/
inductive Renamed (fs : FileSystem) (root : Path) (source : Bytes) (r : ConnRecord) :
    FileSystem → Prop
  | inPlace {fs' : FileSystem} {i : Nat} (form : sanitize source = sanitize r.name)
      (saved : Saved fs fs' root r i) : Renamed fs root source r fs'
  | apart {fs₁ fs₂ fs' : FileSystem} {i : Nat} (form : sanitize source ≠ sanitize r.name)
      (saved : Saved fs fs₁ root r i) (pruned : Pruned (· = connName source :: root) fs₁ fs₂)
      (gone : fs₂.node (connName source :: root) = none)
      (moved : fs' = fs₂ ∨ Shifted fs₂ fs' root source r.name) : Renamed fs root source r fs'

/-- The registrations of the renamed peer, when their directory is moved. -/
theorem move_shelf (h : st.Laid fs root) {source target : Bytes} (hs : Plain (sanitize source))
    (ht : Plain (sanitize target)) (apart : sanitize source ≠ sanitize target) :
    (fs.rename (st.pipesDir source) (st.pipesDir target)).getD fs = fs ∨
      Shifted fs ((fs.rename (st.pipesDir source) (st.pipesDir target)).getD fs) root source
        target := by
  cases hmove : fs.rename (st.pipesDir source) (st.pipesDir target) with
  | none => exact .inl rfl
  | some fs' =>
      refine .inr ⟨?_, apart⟩
      have hpipes : fs.node (pipesName :: root) = some .dir := by
        by_contra hno
        have hnone : fs.resolve (st.pipesDir source) = none := by
          rw [resolve_pipesDir h.anchored.toAt hs, if_neg hno]
        simp [FileSystem.rename, hnone] at hmove
      have hres : ∀ {p : Bytes}, Plain (sanitize p) →
          fs.resolve (st.pipesDir p) = some (shelf root p) := by
        intro p hp
        rw [resolve_pipesDir h.anchored.toAt hp, if_pos hpipes]
      exact rename_relocated (hres hs) (hres ht) (fun e => apart (List.cons.inj e).1) hmove

theorem rename_spec (h : st.Laid fs root) (source : Bytes) {target : Bytes}
    (line : newline ∉ target)
    (form : Plain (sanitize target)) :
    (st.rename fs source target).1 = fs ∧ (st.rename fs source target).2 ≠ none ∨
      (st.rename fs source target).2 = none ∧ ∃ r, (connName source, r) ∈ st.records fs ∧
        Renamed fs root source { r with name := target } (st.rename fs source target).1 := by
  simp only [Store.rename]
  cases hload : st.load fs source with
  | none => exact .inl ⟨rfl, by simp⟩
  | some r =>
      have hr : (connName source, r) ∈ st.records fs := (load_eq_some h.anchored).mp hload
      obtain ⟨hform, hplain⟩ := h.formed _ r hr
      have hs : Plain (sanitize source) := by rwa [connName_inj hform]
      obtain ⟨i₀, -, hparse⟩ := h.file_of_record hr
      have hinted := hinted_of_parseRecord hparse
      obtain ⟨r', reads, named, -⟩ := parseRecord_recordBody (r := { r with name := target })
        (oneLined_of_hinted line hinted)
      obtain ⟨fs₁, i, hsave, saved⟩ := save_spec h { r with name := target }
      have hsame : st.peerPath source ".conn" = st.peerPath target ".conn" ↔
          sanitize source = sanitize target := by
        simp [peerPath]
      simp only
      split
      · exact .inl ⟨rfl, by simp⟩
      · rw [hsave]
        simp only
        split
        · rename_i e
          exact .inr ⟨rfl, r, hr, .inPlace (hsame.mp e) saved⟩
        · rename_i hne
          refine .inr ⟨rfl, r, hr, ?_⟩
          have apart : sanitize source ≠ sanitize target := fun e => hne (hsame.mpr e)
          have laid₁ : st.Laid fs₁ root := saved.laid h form reads named
          have hconn : fs₁.node (connName source :: root) ≠ none := by
            rw [saved.node, if_neg]
            · obtain ⟨j, hj, -⟩ := h.file_of_record hr
              simp [hj]
            · exact fun e => apart (connName_inj (List.cons.inj e).1).symm
          have hfile : ∃ j, fs₁.node (connName source :: root) = some (.file j) := by
            obtain ⟨n, hn⟩ := Option.ne_none_iff_exists'.mp hconn
            rcases laid₁.flat _ n hn with ⟨e, -⟩ | ⟨r₁, hr₁⟩
            · have hc := isConnFile_form source
              rw [← connName, e] at hc
              exact absurd hc (by decide)
            · obtain ⟨j, hj, -⟩ := laid₁.file_of_record hr₁
              exact ⟨j, hj⟩
          obtain ⟨j, hj⟩ := hfile
          obtain ⟨fs₂, hrm, hnode, hdata, hcwd⟩ := remove_file
            (resolve_beside laid₁.anchored.toAt (plain_connName source)) hj
            (lastPlain_child (plain_connName source))
          have hdiscard : discard fs₁ (st.peerPath source ".conn") = fs₂ := by
            have hrm' : fs₁.remove (st.peerPath source ".conn") = some fs₂ := hrm
            rw [discard, hrm']
            rfl
          have pruned : Pruned (· = connName source :: root) fs₁ fs₂ := by
            refine ⟨fun q => ?_, hdata, hcwd⟩
            rw [hnode]
            split
            · rename_i e
              exact .inr ⟨e.symm, rfl⟩
            · exact .inl rfl
          have laid₂ : st.Laid fs₂ root := laid₁.pruned pruned fun q e =>
            Removed.under (.inl e)
          have still : ∀ (s : String) (new : Bytes), 5 ≤ (str s).length →
              (str s).drop ((str s).length - 5) ≠ str ".conn" → slash ∉ str s →
              (fs₂.rename (st.peerPath source s) new).getD fs₂ = fs₂ := by
            intro s new hlen hs' hslash
            have hres : fs₂.resolve (st.peerPath source s) =
                some ((sanitize source ++ str s) :: root) :=
              resolve_beside laid₂.anchored.toAt (plain_beside source (by omega) hslash)
            rw [rename_missing hres (laid₂.beside_missing source hlen hs')]
            rfl
          simp only [hdiscard, still ".seen" _ (by decide) (by decide) (by decide),
            still ".lanport" _ (by decide) (by decide) (by decide)]
          refine .apart apart saved pruned ?_ (move_shelf laid₂ hs form apart)
          rw [hnode, if_pos rfl]

end Store
end Splice.Peer
