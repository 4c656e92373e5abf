import Splice.Peer.Shelf

/-!
The records in a store, and that registrations never touch them: `save_pipe` and
`remove_pipe` change nothing but the `pipes` directory and what lies in it, for every
peer whose form is not "..". A record is known by the file it is in, which need not
have the form of its name.
-/

namespace Splice.Peer
open Lib FileSystem

namespace Store
variable {st : Store} {fs fs' : FileSystem} {root : Path} {peer name : Bytes}

/-- The store's directory is there, the way to it does not lead through the store itself, and
its files have file names. -/
structure Anchored (st : Store) (fs : FileSystem) (root : Path) : Prop extends
    st.At fs root where
  outside : ∀ q ∈ fs.via st.dir, root <:+ q → q = root
  names : ∀ c : Name, fs.node (c :: root) ≠ none → slash ∉ c

theorem not_pipes_suffix_root (root : Path) : ¬ pipesName :: root <:+ root := by
  intro h
  have := h.length_le
  simp at this

/-- The anchor holds through changes inside the store. -/
theorem Anchored.below (h : st.Anchored fs root) (hb : Below (pipesName :: root) fs fs') :
    st.Anchored fs' root := by
  have hroot : fs'.node root = fs.node root := hb.node root (not_pipes_suffix_root root)
  have hvia : fs'.via st.dir = fs.via st.dir := by simp only [via, hb.cwd]
  have hway : ∀ q ∈ fs.via st.dir, fs'.node q = fs.node q := by
    intro q hq
    by_cases hs : root <:+ q
    · rw [h.outside q hq hs, hroot]
    · exact hb.node q fun hp => hs ((List.suffix_cons pipesName root).trans hp)
  refine ⟨⟨h.dir_ne, (resolve_congr hb.cwd hway).trans h.resolves, hroot.trans h.is_dir⟩,
    fun q hq => h.outside q (hvia ▸ hq), fun c hc => ?_⟩
  by_cases hp : c = pipesName
  · rw [hp]
    decide
  · refine h.names c ?_
    rwa [← hb.node (c :: root)]
    intro hs
    rcases List.suffix_cons_iff.mp hs with e | hs
    · exact hp (List.cons.inj e).1.symm
    · exact not_pipes_suffix_root root hs

/-! ## Where registrations go -/

theorem resolve_pipesDir_under (h : st.At fs root) (hform : sanitize peer ≠ dotdot) {q : Path}
    (hq : fs.resolve (st.pipesDir peer) = some q) : q = pipesName :: root ∨ q = shelf root peer := by
  by_cases hdot : sanitize peer = dot
  · rw [pipesDir_eq, resolve_step (by simp) (slash_notMem_sanitize peer), resolve_pipes h,
      Option.bind_some, hdot] at hq
    simp only [walk, or_true, if_true, Option.ite_none_right_eq_some] at hq
    exact .inl (Option.some.inj hq.2).symm
  · rw [resolve_pipesDir h (plain_sanitize hdot hform)] at hq
    exact .inr (Option.some.inj (Option.ite_none_right_eq_some.mp hq).2).symm

/-- Every path a registration leads to is inside `pipes`, but for "..". -/
theorem resolve_pipePath_under (h : st.At fs root) (hform : sanitize peer ≠ dotdot) {q : Path}
    (hq : fs.resolve (st.pipePath peer name) = some q) :
    pipesName :: root <:+ q ∨ q = root ∧ sanitize name = dotdot := by
  have hne : st.pipesDir peer ≠ [] := by simp [pipesDir]
  rw [pipePath, resolve_step hne (slash_notMem_sanitize name)] at hq
  obtain ⟨p, hp, hwalk⟩ := Option.bind_eq_some_iff.mp hq
  have hunder : pipesName :: root <:+ p := by
    rcases resolve_pipesDir_under h hform hp with rfl | rfl
    · exact List.suffix_refl _
    · exact List.suffix_cons _ _
  simp only [walk, Option.ite_none_right_eq_some] at hwalk
  obtain ⟨-, hwalk⟩ := hwalk
  split at hwalk
  · cases hwalk
    exact .inl hunder
  · split at hwalk
    · rename_i hup
      cases hwalk
      rcases resolve_pipesDir_under h hform hp with rfl | rfl
      · exact .inr ⟨rfl, hup⟩
      · exact .inl (List.suffix_refl _)
    · cases hwalk
      exact .inl (hunder.trans (List.suffix_cons _ _))

theorem mkdirs_below (h : st.Anchored fs root) (hform : sanitize peer ≠ dotdot) :
    Below (pipesName :: root) fs (fs.mkdirsFrom true [] (st.pipesDir peer)).1 := by
  have hsplit : st.pipesDir peer = st.dir ++ slash :: (pipesName ++ slash :: sanitize peer) := by
    simp [pipesDir, pipesName]
  have hpipes : slash ∉ pipesName := by decide
  rw [hsplit, mkdirsFrom_existing true (by simpa using h.resolves), List.nil_append, mkdirsFrom,
    if_pos rfl, mkdirTry_existing h.resolves h.is_dir]
  simp only
  rw [mkdirsFrom_notMem true fs _ hpipes, mkdirsFrom, if_pos rfl]
  split
  · rename_i fs₁ hmk
    have hpath : st.dir ++ [slash] ++ pipesName = st.dir ++ slash :: pipesName := by simp
    have h₁ : Below (pipesName :: root) fs fs₁ := by
      refine Below.mkdirTry (fun q hq => ?_) hmk
      rw [hpath, resolve_pipes h.toAt] at hq
      rw [Option.some.inj hq]
    have anchored := h.below h₁
    have hrest : sanitize peer = sanitize peer ++ [] := by simp
    rw [hrest, mkdirsFrom_notMem true fs₁ _ (slash_notMem_sanitize peer), mkdirsFrom]
    split
    · rename_i fs₂ hmk₂
      refine h₁.trans (Below.mkdirTry (fun q hq => ?_) hmk₂)
      have hdir : st.dir ++ [slash] ++ pipesName ++ [slash] ++ sanitize peer = st.pipesDir peer := by
        simp [hsplit]
      rw [hdir] at hq
      rcases resolve_pipesDir_under anchored.toAt hform hq with rfl | rfl
      · exact List.suffix_refl _
      · exact List.suffix_cons _ _
    · exact h₁
  · exact Below.refl _ _

theorem savePipe_below (h : st.Anchored fs root) {r : PipeRecord}
    (hform : sanitize r.peer ≠ dotdot) :
    Below (pipesName :: root) fs (st.savePipe fs r).1 := by
  have hmk := mkdirs_below h hform
  simp only [savePipe]
  split
  · rename_i fs₁ he
    rw [he] at hmk
    exact hmk
  · rename_i fs₁ he
    rw [he] at hmk
    have anchored := h.below hmk
    split
    · exact hmk
    · rename_i fs₂ i hopen
      refine hmk.trans (Below.written (fun c p hr hnode => ?_) hopen)
      rcases resolve_pipePath_under anchored.toAt hform hr with hs | ⟨e, -⟩
      · exact hs
      · rw [e] at hnode
        exact absurd anchored.is_dir hnode

theorem removePipe_below (h : st.Anchored fs root) (hform : sanitize peer ≠ dotdot)
    (name : Bytes) : Below (pipesName :: root) fs ((st.removePipe fs peer name).getD fs) := by
  cases hrm : st.removePipe fs peer name with
  | none => exact Below.refl _ _
  | some fs' =>
      refine Below.remove (fun q hq hlast => ?_) hrm
      rcases resolve_pipePath_under h.toAt hform hq with hs | ⟨-, hup⟩
      · exact hs
      · -- a path that ends in ".." is not removed
        rw [pipePath, hup] at hlast
        have hcomps : comps (st.pipesDir peer ++ slash :: dotdot) =
            comps (st.pipesDir peer) ++ [dotdot] := by
          rw [comps_append_slash, comps_of_notMem (c := dotdot) (by decide)]
        simp [lastPlain, hcomps] at hlast

/-! ## Records -/

/-- The records and the files they are in. -/
def records (st : Store) (fs : FileSystem) : List (Name × ConnRecord) :=
  (((fs.readdir st.dir).getD []).filter isConnFile).filterMap fun n =>
    (parseFile fs (st.dir ++ slash :: n)).map fun r => (n, r)

/-- Records in different files have neither name nor uid in common. -/
def Distinct (st : Store) (fs : FileSystem) : Prop :=
  ∀ a ∈ st.records fs, ∀ b ∈ st.records fs, a.1 ≠ b.1 →
    a.2.name ≠ b.2.name ∧ a.2.uid ≠ b.2.uid

instance : Decidable (st.Distinct fs) := inferInstanceAs (Decidable (∀ a ∈ _, ∀ b ∈ _, _))

theorem mem_loadAll {rank : Name → Nat} {r : ConnRecord} :
    r ∈ st.loadAll fs rank ↔ ∃ f, (f, r) ∈ st.records fs := by
  simp only [loadAll, records, List.mem_filterMap, List.mem_filter, List.mem_insertionSort,
    Option.map_eq_some_iff, Prod.mk.injEq]
  constructor
  · rintro ⟨n, hn, hr⟩
    exact ⟨n, n, hn, r, hr, rfl, rfl⟩
  · rintro ⟨f, n, hn, r', hr, rfl, rfl⟩
    exact ⟨n, hn, hr⟩

/-- A record file by its node. -/
theorem mem_records (h : st.Anchored fs root) {f : Name} {r : ConnRecord} :
    (f, r) ∈ st.records fs ↔ isConnFile f = true ∧ slash ∉ f ∧
      ((fs.node (f :: root)).map fs.nodeBytes).bind parseRecord = some r := by
  have hread : ∀ {n : Name}, isConnFile n = true → slash ∉ n →
      parseFile fs (st.dir ++ slash :: n) =
        ((fs.node (n :: root)).map fs.nodeBytes).bind parseRecord := by
    intro n hconn hslash
    have hlen : 5 < n.length := by
      simp only [isConnFile, Bool.and_eq_true, decide_eq_true_eq] at hconn
      exact hconn.1
    have hplain : Plain n := by
      refine ⟨fun e => ?_, fun e => ?_, fun e => ?_, hslash⟩
      all_goals
        rw [e] at hlen
        simp [dot, dotdot] at hlen
    simp only [parseFile, FileSystem.read, FileSystem.stat, fs.resolve_child h.dir_ne hplain,
      h.resolves, h.is_dir, Option.bind_some, if_true]
  have hdir : (fs.readdir st.dir).getD [] = fs.entries root := by
    simp [readdir, h.resolves, h.is_dir]
  simp only [records, List.mem_filterMap, List.mem_filter, hdir, mem_entries,
    Option.map_eq_some_iff, Prod.mk.injEq]
  constructor
  · rintro ⟨n, ⟨hn, hconn⟩, r', hr, rfl, rfl⟩
    exact ⟨hconn, h.names n hn, hread hconn (h.names n hn) ▸ hr⟩
  · rintro ⟨hconn, hslash, hr⟩
    refine ⟨f, ⟨?_, hconn⟩, r, (hread hconn hslash).trans hr, rfl, rfl⟩
    intro hnone
    simp [hnone] at hr

/-- A record is what its file says. -/
theorem mem_records_congr (h : st.Anchored fs root) (h' : st.Anchored fs' root) {f : Name}
    (same : (fs'.node (f :: root)).map fs'.nodeBytes = (fs.node (f :: root)).map fs.nodeBytes)
    {r : ConnRecord} : (f, r) ∈ st.records fs' ↔ (f, r) ∈ st.records fs := by
  rw [mem_records h', mem_records h, same]

theorem isConnFile_form (name : Bytes) : isConnFile (sanitize name ++ str ".conn") = true := by
  have hlen : 0 < (sanitize name).length := List.length_pos_iff.mpr (sanitize_ne_nil name)
  have hext : (str ".conn").length = 5 := rfl
  have hdrop : (sanitize name ++ str ".conn").length - 5 = (sanitize name).length := by
    rw [List.length_append, hext]
    omega
  simp only [isConnFile, Bool.and_eq_true, decide_eq_true_eq, hdrop, List.drop_left, and_true]
  rw [List.length_append, hext]
  omega

/-- What `load` finds is the record in the file of the form. -/
theorem load_eq_some (h : st.Anchored fs root) {name : Bytes} {r : ConnRecord} :
    st.load fs name = some r ↔ (sanitize name ++ str ".conn", r) ∈ st.records fs := by
  have hslash : slash ∉ sanitize name ++ str ".conn" := by
    rw [List.mem_append, not_or]
    exact ⟨slash_notMem_sanitize name, by decide⟩
  have hplain : Plain (sanitize name ++ str ".conn") := by
    have hlen : 5 < (sanitize name ++ str ".conn").length := by
      have := isConnFile_form name
      simp only [isConnFile, Bool.and_eq_true, decide_eq_true_eq] at this
      exact this.1
    refine ⟨fun e => ?_, fun e => ?_, fun e => ?_, hslash⟩
    all_goals
      rw [e] at hlen
      simp [dot, dotdot] at hlen
  rw [mem_records h]
  simp only [isConnFile_form, hslash, not_false_eq_true, true_and, load, parseFile, peerPath,
    FileSystem.read, FileSystem.stat, fs.resolve_child h.dir_ne hplain, h.resolves, h.is_dir,
    Option.bind_some, if_true]

theorem records_unique {f : Name} {r r' : ConnRecord} (hr : (f, r) ∈ st.records fs)
    (hr' : (f, r') ∈ st.records fs) : r = r' := by
  simp only [records, List.mem_filterMap, Option.map_eq_some_iff, Prod.mk.injEq] at hr hr'
  obtain ⟨n, -, r₁, h₁, rfl, rfl⟩ := hr
  obtain ⟨n', -, r₂, h₂, rfl, rfl⟩ := hr'
  exact Option.some.inj (h₁.symm.trans h₂)

/-- Two records with the same name or uid are one. -/
theorem Distinct.eq (h : st.Distinct fs) {f f' : Name} {r r' : ConnRecord}
    (hr : (f, r) ∈ st.records fs) (hr' : (f', r') ∈ st.records fs)
    (same : r.name = r'.name ∨ r.uid = r'.uid) : f = f' ∧ r = r' := by
  by_cases hf : f = f'
  · subst hf
    exact ⟨rfl, records_unique hr hr'⟩
  · obtain ⟨hname, huid⟩ := h _ hr _ hr' hf
    rcases same with e | e
    · exact absurd e hname
    · exact absurd e huid

section Frame
variable (h : st.Anchored fs root) (hb : Below (pipesName :: root) fs fs')
include h hb

theorem records_below {f : Name} {r : ConnRecord} :
    (f, r) ∈ st.records fs' ↔ (f, r) ∈ st.records fs := by
  by_cases hconn : isConnFile f = true
  · have hout : ¬ pipesName :: root <:+ f :: root := by
      intro hs
      rcases List.suffix_cons_iff.mp hs with e | hs
      · rw [← (List.cons.inj e).1] at hconn
        exact absurd hconn (by decide)
      · exact not_pipes_suffix_root root hs
    refine mem_records_congr h (h.below hb) ?_
    rw [hb.node _ hout]
    cases hn : fs.node (f :: root) with
    | none => rfl
    | some n =>
        cases n with
        | dir => rfl
        | file i => simp [nodeBytes, hb.data _ i hout hn]
  · rw [mem_records (h.below hb), mem_records h]
    simp [hconn]

theorem Distinct.below (hd : st.Distinct fs) : st.Distinct fs' := by
  intro a ha c hc
  exact hd a ((records_below h hb).mp ha) c ((records_below h hb).mp hc)

end Frame

end Store
end Splice.Peer
