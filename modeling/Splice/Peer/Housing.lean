import Splice.Peer.Layout
import Splice.Peer.Registry
import Splice.Peer.Work

/-!
Whose registrations are stored where: in a store that is in order every registration
`list_pipes` finds for a peer was made by a REGISTER to the session of its uid. The
files of a peer are found by the form of its name, so this is a matter of which forms
are in use when a record is written. Work on a session keeps it.
-/

namespace Splice.Peer
open Lib FileSystem Proto

/-- `load_pipe` makes something of it. -/
def Legible (body : Bytes) : Prop := ∃ type rest, lines body = type :: rest ∧ type ≠ []

theorem legible_of_parsePipe {peer name body : Bytes} {r : PipeRecord}
    (h : parsePipe peer name body = some r) : Legible body := by
  simp only [parsePipe] at h
  split at h
  · cases h
  · rename_i type rest hl
    split at h
    · cases h
    · rename_i hne
      exact ⟨type, rest, hl, hne⟩

theorem Legible.parsePipe {body : Bytes} (h : Legible body) (peer name : Bytes) :
    ∃ r, Peer.parsePipe peer name body = some r := by
  obtain ⟨type, rest, hl, hne⟩ := h
  simp only [Peer.parsePipe, hl, hne, if_false]
  exact ⟨_, rfl⟩

/-- A file of a shelf that `list_pipes` lists. -/
def Listed (fs : FileSystem) (root : Path) (peer : Bytes) (f : Name) (i : Nat) : Prop :=
  Store.hidden f = false ∧ fs.node (f :: shelf root peer) = some (.file i) ∧ Legible (fs.data i)

section Listed
variable {st : Store} {fs : FileSystem} {root : Path} {peer : Bytes}

theorem listed_of_mem (h : st.Laid fs root) (form : Plain (sanitize peer)) {r : PipeRecord}
    (hr : r ∈ st.listPipes fs peer) : ∃ i, Listed fs root peer r.name i := by
  obtain ⟨f, hidden, hne, hload⟩ := (Store.mem_listPipes h.anchored.toAt form).mp hr
  obtain ⟨n, hn⟩ := Option.ne_none_iff_exists'.mp hne
  obtain ⟨hfile, hform⟩ := h.files f _ n hn
  have plain : Plain (sanitize f) := hform.symm ▸ plain_of_not_hidden hidden hform
  rw [(Store.loadPipe_name hload).2]
  rw [Store.loadPipe_eq h.anchored.toAt form plain, hform, hn] at hload
  cases n with
  | dir => exact absurd rfl hfile
  | file i => exact ⟨i, hidden, hn, legible_of_parsePipe hload⟩

theorem mem_of_listed (h : st.Laid fs root) (form : Plain (sanitize peer)) {f : Name} {i : Nat}
    (hf : Listed fs root peer f i) : st.listPipes fs peer ≠ [] := by
  obtain ⟨hidden, hn, legible⟩ := hf
  have hform := (h.files f _ _ hn).2
  have plain : Plain (sanitize f) := hform.symm ▸ plain_of_not_hidden hidden hform
  obtain ⟨r, hr⟩ := legible.parsePipe peer f
  have hload : st.loadPipe fs peer f = some r := by
    rw [Store.loadPipe_eq h.anchored.toAt form plain, hform, hn]
    exact hr
  exact List.ne_nil_of_mem
    ((Store.mem_listPipes h.anchored.toAt form).mpr ⟨f, hidden, by simp [hn], hload⟩)

theorem birthAt_listed {d : Disk} (h : d.store.Laid d.fs root) (form : Plain (sanitize peer))
    {f : Name} {i : Nat} (hf : Listed d.fs root peer f i) :
    d.birthAt (d.store.pipePath peer f) = d.ledger i := by
  obtain ⟨hidden, hn, -⟩ := hf
  have hform := (h.files f _ _ hn).2
  have plain : Plain (sanitize f) := hform.symm ▸ plain_of_not_hidden hidden hform
  simp [Disk.birthAt, Store.stat_pipePath h.anchored.toAt form plain, hform, hn]

end Listed

/-! ## The store -/

/-- Every uid has one record, and what is listed for a peer was registered for its uid. -/
structure Housed (root : Path) (uids : List Uid) (d : Disk) : Prop where
  laid : d.store.Laid d.fs root
  known : ∀ f r, (f, r) ∈ d.store.records d.fs → r.uid ∈ uids
  single : ∀ f r f' r', (f, r) ∈ d.store.records d.fs → (f', r') ∈ d.store.records d.fs →
    r.uid = r'.uid → r = r'
  owned : ∀ f r, (f, r) ∈ d.store.records d.fs → ∀ g i, Listed d.fs root r.name g i →
    ∃ b ∈ d.births, d.ledger i = some b ∧ b.uid = r.uid

namespace Housed
variable {root : Path} {uids : List Uid} {d : Disk} {fs : FileSystem}

theorem form (h : Housed root uids d) {f : Name} {r : ConnRecord}
    (hr : (f, r) ∈ d.store.records d.fs) : Plain (sanitize r.name) := (h.laid.formed f r hr).2

/-- Taking files away takes no rights. -/
theorem pruned (h : Housed root uids d) {gone : Path → Prop} (hp : Pruned gone d.fs fs)
    (under : ∀ q, gone q → root <:+ q ∧ q ≠ root) : Housed root uids { d with fs } := by
  have was : ∀ {f : Name} {r : ConnRecord}, (f, r) ∈ d.store.records fs →
      (f, r) ∈ d.store.records d.fs := fun hr => ((h.laid.pruned_records hp under).mp hr).1
  refine {
    laid := h.laid.pruned hp under
    known := fun f r hr => h.known f r (was hr)
    single := fun f r f' r' hr hr' => h.single f r f' r' (was hr) (was hr')
    owned := fun f r hr g i hg => ?_ }
  obtain ⟨hidden, hn, legible⟩ := hg
  exact h.owned f r (was hr) g i ⟨hidden, hp.was hn, hp.data ▸ legible⟩

/-! ## A REGISTER -/

/-- Files below `pipes` come and go; the records stay. -/
theorem laid_below (h : Housed root uids d) (hb : Below (pipesName :: root) d.fs fs)
    (pipes : ∀ n, fs.node (pipesName :: root) = some n → n = .dir)
    (shelves : ∀ c n, fs.node (c :: pipesName :: root) = some n → n = .dir)
    (files : ∀ f c n, fs.node (f :: c :: pipesName :: root) = some n →
      n ≠ .dir ∧ sanitize f = f) : d.store.Laid fs root := by
  have records : ∀ {f : Name} {r : ConnRecord}, (f, r) ∈ d.store.records fs ↔
      (f, r) ∈ d.store.records d.fs := Store.records_below h.laid.anchored hb
  refine {
    anchored := h.laid.anchored.below hb
    flat := fun c n hn => ?_
    formed := fun f r hr => h.laid.formed f r (records.mp hr)
    shelves := shelves
    files := files }
  by_cases hc : c = pipesName
  · subst hc
    exact .inl ⟨rfl, pipes n hn⟩
  · have hout : ¬ pipesName :: root <:+ c :: root := by
      intro hs
      rcases List.suffix_cons_iff.mp hs with e | hs
      · exact hc (List.cons.inj e).1.symm
      · exact Store.not_pipes_suffix_root root hs
    rw [hb.node _ hout] at hn
    rcases h.laid.flat c n hn with ⟨e, -⟩ | ⟨r, hr⟩
    · exact absurd e hc
    · exact .inr ⟨r, records.mpr hr⟩

theorem prepared (h : Housed root uids d) {peer : Bytes}
    (hp : Store.Prepared d.fs fs root peer) : Housed root uids { d with fs } ∧
      Below (pipesName :: root) d.fs fs := by
  have hb : Below (pipesName :: root) d.fs fs := by
    refine ⟨fun q hq => ?_, fun _ _ _ _ => by rw [hp.data], hp.cwd⟩
    rw [hp.node, if_neg]
    rintro (rfl | rfl)
    · exact hq (List.suffix_refl _)
    · exact hq (List.suffix_cons _ _)
  have deep : ∀ f c, fs.node (f :: c :: pipesName :: root) =
      d.fs.node (f :: c :: pipesName :: root) := by
    intro f c
    rw [hp.node, if_neg]
    rintro (e | e)
    all_goals
      have := congrArg List.length e
      simp only [shelf, List.length_cons] at this
      omega
  have laid : d.store.Laid fs root := by
    refine h.laid_below hb (fun n hn => ?_) (fun c n hn => ?_) fun f c n hn => ?_
    · rw [hp.node, if_pos (.inl rfl)] at hn
      exact (Option.some.inj hn).symm
    · rw [hp.node] at hn
      split at hn
      · exact (Option.some.inj hn).symm
      · exact h.laid.shelves c n hn
    · exact h.laid.files f c n ((deep f c).symm.trans hn)
  have was : ∀ {f : Name} {r : ConnRecord}, (f, r) ∈ d.store.records fs →
      (f, r) ∈ d.store.records d.fs := (Store.records_below h.laid.anchored hb).mp
  refine ⟨⟨laid, fun f r hr => h.known f r (was hr),
    fun f r f' r' hr hr' => h.single f r f' r' (was hr) (was hr'), fun f r hr g i hg => ?_⟩, hb⟩
  obtain ⟨hidden, hn, legible⟩ := hg
  exact h.owned f r (was hr) g i ⟨hidden, (deep g _).symm.trans hn, hp.data ▸ legible⟩

/-- A registration stored under a form no other uid has a record of. -/
theorem stored (h : Housed root uids d) {p : PipeRecord} {i : Nat} {b : Birth}
    (hs : Store.Stored d.fs fs root p i)
    (born : ∀ f r, (f, r) ∈ d.store.records d.fs → sanitize r.name = sanitize p.peer →
      b.uid = r.uid) :
    Housed root uids { d with
      fs, ledger := Function.update d.ledger i (some b), births := d.births ++ [b] } ∧
      Below (pipesName :: root) d.fs fs := by
  have hb : Below (pipesName :: root) d.fs fs := by
    refine ⟨fun q hq => ?_, fun q j hq hj => ?_, hs.cwd⟩
    · rw [hs.node, if_neg, if_neg]
      · rintro (rfl | rfl)
        · exact hq (List.suffix_refl _)
        · exact hq (List.suffix_cons _ _)
      · rintro rfl
        exact hq ((List.suffix_cons _ _).trans (List.suffix_cons _ _))
    · have hne : j ≠ i := by
        rintro rfl
        rw [hs.only q hj] at hq
        exact hq ((List.suffix_cons _ _).trans (List.suffix_cons _ _))
      simp [hs.data, hne]
  have deep : ∀ f c, fs.node (f :: c :: pipesName :: root) =
      if sanitize p.name :: shelf root p.peer = f :: c :: pipesName :: root then some (.file i)
      else d.fs.node (f :: c :: pipesName :: root) := by
    intro f c
    rw [hs.node]
    split
    · rfl
    · rw [if_neg]
      rintro (e | e)
      all_goals
        have := congrArg List.length e
        simp only [shelf, List.length_cons] at this
        omega
  have flat : ∀ c n, fs.node (c :: pipesName :: root) = some n →
      n = .dir ∨ d.fs.node (c :: pipesName :: root) = some n := by
    intro c n hn
    rw [hs.node, if_neg] at hn
    · split at hn
      · exact .inl (Option.some.inj hn).symm
      · exact .inr hn
    · intro e
      have := congrArg List.length e
      simp only [shelf, List.length_cons] at this
      omega
  have laid : d.store.Laid fs root := by
    refine h.laid_below hb (fun n hn => ?_) (fun c n hn => ?_) fun f c n hn => ?_
    · rw [hs.node, if_neg, if_pos (.inl rfl)] at hn
      · exact (Option.some.inj hn).symm
      · intro e
        have := congrArg List.length e
        simp only [shelf, List.length_cons] at this
        omega
    · rcases flat c n hn with e | hn
      · exact e
      · exact h.laid.shelves c n hn
    · rw [deep] at hn
      split at hn
      · rename_i e
        cases hn
        rw [← (List.cons.inj e).1]
        exact ⟨by simp, sanitize_idem _⟩
      · exact h.laid.files f c n hn
  have was : ∀ {f : Name} {r : ConnRecord}, (f, r) ∈ d.store.records fs →
      (f, r) ∈ d.store.records d.fs := (Store.records_below h.laid.anchored hb).mp
  refine ⟨⟨laid, fun f r hr => h.known f r (was hr),
    fun f r f' r' hr hr' => h.single f r f' r' (was hr) (was hr'), fun f r hr g j hg => ?_⟩, hb⟩
  obtain ⟨hidden, hn, legible⟩ := hg
  rw [shelf, deep] at hn
  split at hn
  · -- the new file is in the shelf of this record
    rename_i e
    cases hn
    have hform : sanitize p.peer = sanitize r.name := (List.cons.inj (List.cons.inj e).2).1
    exact ⟨b, by simp, by simp, born f r (was hr) hform.symm⟩
  · rename_i hne
    have hj : j ≠ i := by
      rintro rfl
      exact hne (hs.only _ hn).symm
    obtain ⟨b', hb', hl, hu⟩ := h.owned f r (was hr) g j
      ⟨hidden, hn, by simpa [hs.data, hj] using legible⟩
    exact ⟨b', by simp [hb'], by simp [hj, hl], hu⟩

/-! ## Peers that change -/

theorem listed_saved {r : ConnRecord} {i₀ : Nat} (hs : Store.Saved d.fs fs root r i₀) {p : Bytes}
    {g : Name} {i : Nat} (h : Listed fs root p g i) : Listed d.fs root p g i := by
  obtain ⟨hidden, hn, legible⟩ := h
  rw [hs.deeper (by simp [shelf]; omega)] at hn
  have hbytes := hs.kept hn
  simp only [nodeBytes] at hbytes
  exact ⟨hidden, hn, hbytes ▸ legible⟩

theorem listed_pruned {fs' : FileSystem} {gone : Path → Prop} (hp : Pruned gone fs fs')
    {p : Bytes} {g : Name} {i : Nat} (h : Listed fs' root p g i) : Listed fs root p g i :=
  ⟨h.1, hp.was h.2.1, hp.data ▸ h.2.2⟩

/-- The files at the target were those at the source; at any other form they stayed. -/
theorem listed_shifted {fs' : FileSystem} {source target p : Bytes}
    (hs : Store.Shifted fs fs' root source target) {g : Name} {i : Nat}
    (h : Listed fs' root p g i) :
    if sanitize p = sanitize target then Listed fs root source g i else Listed fs root p g i := by
  obtain ⟨hidden, hn, legible⟩ := h
  have hnode := (hs.node [g] (sanitize p)).symm.trans hn
  rw [hs.relocated.data] at legible
  split at hnode
  · rename_i e
    rw [if_pos e]
    exact ⟨hidden, hnode, legible⟩
  · rename_i e
    rw [if_neg e]
    split at hnode
    · cases hnode
    · exact ⟨hidden, hnode, legible⟩

/-- One record is written; the others keep what they have. -/
theorem replaced (h : Housed root uids d) {uids' : List Uid} (laid : d.store.Laid fs root)
    (f₀ : Name) (r₀ : ConnRecord)
    (records : ∀ f r, (f, r) ∈ d.store.records fs → f = f₀ ∧ r = r₀ ∨
      (f, r) ∈ d.store.records d.fs ∧ r.uid ≠ r₀.uid ∧
        ∀ g i, Listed fs root r.name g i → Listed d.fs root r.name g i)
    (owned : ∀ g i, Listed fs root r₀.name g i →
      ∃ b ∈ d.births, d.ledger i = some b ∧ b.uid = r₀.uid)
    (more : ∀ u ∈ uids, u ∈ uids') (known : r₀.uid ∈ uids') :
    Housed root uids' { d with fs } := by
  refine ⟨laid, fun f r hr => ?_, fun f r f' r' hr hr' same => ?_, fun f r hr g i hg => ?_⟩
  · rcases records f r hr with ⟨-, rfl⟩ | ⟨hr, -⟩
    · exact known
    · exact more _ (h.known f r hr)
  · rcases records f r hr with ⟨-, rfl⟩ | ⟨hr, hne, -⟩
    · rcases records f' r' hr' with ⟨-, rfl⟩ | ⟨-, hne', -⟩
      · rfl
      · exact absurd same.symm hne'
    · rcases records f' r' hr' with ⟨-, rfl⟩ | ⟨hr', -⟩
      · exact absurd same hne
      · exact h.single f r f' r' hr hr' same
  · rcases records f r hr with ⟨-, rfl⟩ | ⟨hr, -, hlisted⟩
    · exact owned g i hg
    · exact h.owned f r hr g i (hlisted g i hg)

/-- A new peer under a name nothing is stored for. -/
theorem paired (h : Housed root uids d) {r : ConnRecord} (line : newline ∉ r.name)
    (hinted : r.hinted = true) (form : Plain (sanitize r.name)) (fresh : r.uid ∉ uids)
    (bare : d.store.listPipes d.fs r.name = []) :
    ∃ fs, d.store.save d.fs r = (fs, none) ∧ Housed root (r.uid :: uids) { d with fs } := by
  obtain ⟨fs, i, hsave, saved⟩ := Store.save_spec h.laid r
  obtain ⟨r', reads, named, uid⟩ :=
    parseRecord_recordBody (oneLined_of_hinted line (List.all_eq_true.mp hinted))
  refine ⟨fs, hsave, h.replaced (saved.laid h.laid form reads named) (connName r.name)
    r' (fun f r₁ hr₁ => ?_) (fun g i hg => ?_) (fun u => List.mem_cons_of_mem _)
    (by simp [uid])⟩
  · rcases (saved.records h.laid).mp hr₁ with ⟨hf, hr₁⟩ | ⟨-, hr₁⟩
    · exact .inl ⟨hf, Option.some.inj (hr₁.symm.trans reads)⟩
    · refine .inr ⟨hr₁, ?_, fun g i => listed_saved saved⟩
      intro e
      exact fresh (uid ▸ e ▸ h.known f r₁ hr₁)
  · rw [named] at hg
    exact absurd bare (mem_of_listed h.laid form (listed_saved saved hg))

theorem removed (h : Housed root uids d) {name : Bytes}
    (hrm : d.store.remove d.fs name = some fs) : Housed root uids { d with fs } :=
  h.pruned (Store.remove_spec h.laid hrm) fun _ => Store.Removed.under

/-- A peer under another name: of the same form, or of one nothing is stored for. -/
theorem renamed (h : Housed root uids d) {source target : Bytes} {r : ConnRecord}
    (its : (connName source, r) ∈ d.store.records d.fs) (line : newline ∉ target)
    (form : Plain (sanitize target))
    (bare : sanitize source = sanitize target ∨ d.store.listPipes d.fs target = [])
    (hren : Store.Renamed d.fs root source { r with name := target } fs) :
    Housed root uids { d with fs } := by
  obtain ⟨hform, -⟩ := h.laid.formed _ r its
  have hsource : sanitize source = sanitize r.name := Store.connName_inj hform
  obtain ⟨j, -, hparse⟩ := h.laid.file_of_record its
  have hinted := hinted_of_parseRecord hparse
  obtain ⟨r', reads, named, uid⟩ := parseRecord_recordBody (r := { r with name := target })
    (oneLined_of_hinted line hinted)
  -- what is listed for the old name was registered for the peer
  have own : ∀ {g i}, Listed d.fs root source g i →
      ∃ b ∈ d.births, d.ledger i = some b ∧ b.uid = r'.uid := by
    intro g i hg
    rw [uid]
    refine h.owned _ r its g i ?_
    rw [Listed, shelf, ← hsource]
    exact hg
  have others : ∀ {f r₁}, (f, r₁) ∈ d.store.records d.fs → f ≠ connName source →
      r₁.uid ≠ r'.uid := by
    intro f r₁ hr₁ hf e
    rw [uid] at e
    have same := h.single f r₁ _ r hr₁ its e
    rw [same] at hr₁
    exact hf (by rw [hform, (h.laid.formed f r hr₁).1])
  cases hren with
  | inPlace same saved =>
      refine h.replaced (saved.laid h.laid form reads named) (connName target) _
        (fun f r₁ hr₁ => ?_) (fun g i hg => ?_) (fun _ hu => hu) (by rw [uid]; exact h.known _ r its)
      · rcases (saved.records h.laid).mp hr₁ with ⟨hf, hr₁⟩ | ⟨hf, hr₁⟩
        · exact .inl ⟨hf, Option.some.inj (hr₁.symm.trans reads)⟩
        · refine .inr ⟨hr₁, others hr₁ fun e => hf ?_, fun g i => listed_saved saved⟩
          rw [e, connName, same, connName]
      · rw [named] at hg
        have hg' := listed_saved saved hg
        rw [Listed, shelf, ← same] at hg'
        exact own hg'
  | @apart fs₁ fs₂ _ i₀ apart saved pruned gone moved =>
      have under : ∀ q, q = connName source :: root → root <:+ q ∧ q ≠ root :=
        fun q e => Store.Removed.under (.inl e)
      have laid₁ := saved.laid h.laid form reads named
      have laid₂ := laid₁.pruned pruned under
      have back : ∀ {p g i}, Listed fs₂ root p g i → Listed d.fs root p g i :=
        fun hg => listed_saved saved (listed_pruned pruned hg)
      have records₂ : ∀ {f r₁}, (f, r₁) ∈ d.store.records fs₂ →
          f = connName target ∧ r₁ = r' ∨ (f, r₁) ∈ d.store.records d.fs ∧
            f ≠ connName target ∧ f ≠ connName source := by
        intro f r₁ hr₁
        obtain ⟨hr₁, hthere⟩ := (laid₁.pruned_records pruned under).mp hr₁
        rcases (saved.records h.laid).mp hr₁ with ⟨hf, hr₁⟩ | ⟨hf, hr₁⟩
        · exact .inl ⟨hf, Option.some.inj (hr₁.symm.trans reads)⟩
        · refine .inr ⟨hr₁, hf, ?_⟩
          rintro rfl
          exact hthere gone
      have nothing : ∀ {g i}, ¬ Listed d.fs root target g i := by
        intro g i hg
        rcases bare with e | e
        · exact apart e
        · exact mem_of_listed h.laid form hg e
      rcases moved with rfl | shifted
      · refine h.replaced laid₂ (connName target) _ (fun f r₁ hr₁ => ?_)
          (fun g i hg => absurd (back (named ▸ hg)) nothing) (fun _ hu => hu)
          (by rw [uid]; exact h.known _ r its)
        rcases records₂ hr₁ with hnew | ⟨hr₁, -, hf⟩
        · exact .inl hnew
        · exact .inr ⟨hr₁, others hr₁ hf, fun g i => back⟩
      · have laid₃ := shifted.laid laid₂
        refine h.replaced laid₃ (connName target) _ (fun f r₁ hr₁ => ?_)
          (fun g i hg => ?_) (fun _ hu => hu) (by rw [uid]; exact h.known _ r its)
        · rcases records₂ ((shifted.records laid₂ laid₃.anchored).mp hr₁) with
            hnew | ⟨hr₁, htarget, hf⟩
          · exact .inl hnew
          · refine .inr ⟨hr₁, others hr₁ hf, fun g i hg => ?_⟩
            have hg' := listed_shifted shifted hg
            rw [if_neg] at hg'
            · exact back hg'
            · intro e
              rw [(h.laid.formed f r₁ hr₁).1, connName, e] at htarget
              exact htarget rfl
        · have hg' := listed_shifted shifted hg
          rw [if_pos (by rw [named])] at hg'
          exact own (back hg')

end Housed
end Splice.Peer
