import Splice.Lib.FileEdits
import Splice.Peer.Layout

/-!
What the store keeps for one peer stays as it is through every operation on another
whose name has another form. Two forms break it, because the registrations of a peer
lie in `pipes/<form>`: those of ".." are the files of the store itself, and those of
"." are where the directories of the others are.
-/

namespace Splice.Peer
open Lib FileSystem

/-- The bytes of the regular file at a path. -/
def content (fs : FileSystem) (path : Bytes) : Option Bytes :=
  match fs.stat path with
  | some (.file i) => some (fs.data i)
  | some .dir | none => none

/-! ## The files beside a record -/

namespace Store
variable (st : Store) (fs : FileSystem)

/-- A temporary file that takes the place of the one beside it. -/
def saveBeside (path text : Bytes) : FileSystem × Bool :=
  let tmp := path ++ str ".tmp"
  match fs.openTrunc tmp with
  | none => (fs, false)
  | some (fs, ino) =>
      let fs := fs.setData ino text
      match fs.rename tmp path with
      | none => (fs, false)
      | some fs => (fs, true)

/-- Addresses a peer was seen at, and when. -/
def saveSeen (name : Bytes) (seen : List (Bytes × Int)) : FileSystem × Bool :=
  let path := st.peerPath name ".seen"
  if seen = [] then (discard fs path, true)
  else saveBeside fs path (seen.flatMap fun s => s.1 ++ 32 :: signed s.2 ++ [newline])

def saveLearnedPort (name : Bytes) (port : UInt16) : FileSystem × Bool :=
  let path := st.peerPath name ".lanport"
  if port = 0 then (discard fs path, true)
  else saveBeside fs path (decimal port.toNat ++ [newline])

end Store

/-- The store's operations on one peer. -/
inductive PeerOp
  | save (r : ConnRecord)
  | remove (name : Bytes)
  | rename (source target : Bytes)
  | saveSeen (name : Bytes) (seen : List (Bytes × Int))
  | saveLearnedPort (name : Bytes) (port : UInt16)
  | savePipe (r : PipeRecord)
  | removePipe (peer name : Bytes)
  | listPipes (peer : Bytes)

namespace PeerOp

def peer : PeerOp → Bytes
  | save r => r.name
  | remove name | saveSeen name _ | saveLearnedPort name _ => name
  | rename source _ => source
  | savePipe r => r.peer
  | removePipe peer _ | listPipes peer => peer

/-- The disk it leaves. -/
def run (st : Store) (fs : FileSystem) : PeerOp → FileSystem
  | save r => (st.save fs r).1
  | remove name => (st.remove fs name).getD fs
  | rename source target => (st.rename fs source target).1
  | saveSeen name seen => (st.saveSeen fs name seen).1
  | saveLearnedPort name port => (st.saveLearnedPort fs name port).1
  | savePipe r => (st.savePipe fs r).1
  | removePipe peer name => (st.removePipe fs peer name).getD fs
  | listPipes _ => fs

/-- The registrations it returns. -/
def returned (st : Store) (fs : FileSystem) : PeerOp → List PipeRecord
  | listPipes peer => st.listPipes fs peer
  | _ => []

end PeerOp

/-- A path of the peer's data: its record, what is kept beside it, and its registrations. -/
def OwnPath (st : Store) (q path : Bytes) : Prop :=
  (∃ s ∈ [".conn", ".seen", ".lanport"], path = st.peerPath q s) ∨ ∃ n, path = st.pipePath q n

/-- The data of `q` is as before, and nothing of it is returned. -/
def Untouched (st : Store) (fs : FileSystem) (q : Bytes) (op : PeerOp) : Prop :=
  (∀ path, OwnPath st q path → content (op.run st fs) path = content fs path) ∧
  ∀ r ∈ op.returned st fs, ∀ path, OwnPath st q path →
    fs.resolve path ≠ fs.resolve (st.pipePath op.peer r.name)

/-- The store's directory is there and the way to it does not lead through the store. -/
structure Store.Rooted (st : Store) (fs : FileSystem) (root : Path) : Prop extends
    st.At fs root where
  outside : ∀ q ∈ fs.via st.dir, root <:+ q → q = root

/-- No operation on `p` touches the data of `q`, in any store. -/
def Isolated (p q : Bytes) : Prop :=
  ∀ (st : Store) (fs : FileSystem) (root : Path) (op : PeerOp), st.Rooted fs root →
    op.peer = p → (∀ target, op = .rename p target → sanitize target ≠ sanitize q) →
    Untouched st fs q op

/-! ## Frames -/

/-- The nodes of a peer's data. -/
def OwnNode (root : Path) (form : Name) (x : Path) : Prop :=
  (∃ s ∈ [".conn", ".seen", ".lanport"], x = (form ++ str s) :: root) ∨
    ∃ n, x = n :: form :: pipesName :: root

/-- Inside the store, and none of the peer's data is there or below. -/
structure Free (root : Path) (form : Name) (x : Path) : Prop where
  under : root <:+ x ∧ x ≠ root
  node : ¬ OwnNode root form x

structure Frame (root : Path) (form : Name) (fs fs' : FileSystem) : Prop where
  inside : Inside root fs fs'
  own : ∀ x, OwnNode root form x → fs'.node x = fs.node x ∧
    ∀ i, fs.node x = some (.file i) → fs'.data i = fs.data i

namespace Frame
variable {root : Path} {form : Name} {fs fs' fs'' : FileSystem}

theorem refl (root : Path) (form : Name) (fs : FileSystem) : Frame root form fs fs :=
  ⟨Inside.refl root fs, fun _ _ => ⟨rfl, fun _ _ => rfl⟩⟩

theorem trans (h : Frame root form fs fs') (h' : Frame root form fs' fs'') :
    Frame root form fs fs'' := by
  refine ⟨h.inside.trans h'.inside, fun x hx => ?_⟩
  obtain ⟨hn, hd⟩ := h.own x hx
  obtain ⟨hn', hd'⟩ := h'.own x hx
  exact ⟨hn'.trans hn, fun i hi => (hd' i (hn.trans hi)).trans (hd i hi)⟩

theorem of_edits {P : Path → Prop} (h : Edits P fs fs') (hcwd : fs'.cwd = fs.cwd)
    (free : ∀ x, P x → Free root form x) : Frame root form fs fs' := by
  refine ⟨⟨fun x hx => h.node x fun hp => ?_, .inl hcwd⟩, fun x hx => ?_⟩
  · exact (free x hp).under.2 (hx (free x hp).under.1)
  · have hp : ¬ P x := fun hp => (free x hp).node hx
    exact ⟨h.node x hp, fun i hi => h.data x i hp hi⟩

theorem remove {path : Bytes} (h : fs.remove path = some fs')
    (free : ∀ x, fs.resolve path = some x → lastPlain path = true → Free root form x) :
    Frame root form fs fs' := by
  obtain ⟨x, hr, hlast, -, hpruned, -⟩ := remove_pruned h
  refine of_edits (P := (· = x)) ⟨fun q hq => hpruned.keep hq, fun _ _ _ _ => ?_⟩ hpruned.cwd ?_
  · rw [hpruned.data]
  · rintro _ rfl
    exact free _ hr hlast

theorem openTrunc {path : Bytes} {i : Nat} (h : fs.openTrunc path = some (fs', i)) (b : Bytes)
    (free : ∀ x, fs.resolve path = some x → fs.node x ≠ some .dir → Free root form x) :
    Frame root form fs (fs'.setData i b) := by
  obtain ⟨x, hr, hnd, hnode, -, -, hedits, hdirs⟩ := openTrunc_edits h
  have hcwd : fs'.cwd = fs.cwd := openTrunc_cwd h
  refine of_edits (hedits.trans (Edits.setData hnode b)) hcwd ?_
  rintro _ rfl
  exact free _ hr hnd

theorem rename {old new : Bytes} {src dst : Path} (hs : fs.resolve old = some src)
    (hd : fs.resolve new = some dst) (hsrc : root <:+ src ∧ src ≠ root)
    (hdst : root <:+ dst ∧ dst ≠ root)
    (free : ∀ x, src <:+ x ∨ dst <:+ x → ¬ OwnNode root form x)
    (h : fs.rename old new = some fs') : Frame root form fs fs' := by
  by_cases hne : src = dst
  · subst hne
    rw [rename_same hs hd h]
    exact refl root form fs
  · have hrel := rename_relocated hs hd hne h
    refine ⟨hrel.inside hsrc hdst, fun x hx => ⟨?_, fun i _ => by rw [hrel.data]⟩⟩
    rw [hrel.node, if_neg fun hs => free x (.inr hs) hx, if_neg fun hs => free x (.inl hs) hx]

end Frame

/-! ## Locations -/

section Locations
variable {st : Store} {fs fs' : FileSystem} {root : Path} {p q : Bytes}

theorem Store.Rooted.inside (h : st.Rooted fs root) (hin : Inside root fs fs') :
    st.Rooted fs' root := by
  obtain ⟨hresolve, hvia⟩ := hin.resolve h.outside
  refine ⟨⟨h.dir_ne, hresolve.trans h.resolves, ?_⟩, fun q hq => h.outside q (hvia ▸ hq)⟩
  exact (hin.node root fun _ => rfl).trans h.is_dir

theorem Store.Rooted.frame {form : Name} (h : st.Rooted fs root) (hf : Frame root form fs fs') :
    st.Rooted fs' root := h.inside hf.inside

theorem child_under (c : Name) (root : Path) : root <:+ c :: root ∧ c :: root ≠ root :=
  ⟨List.suffix_cons c root, Store.child_ne_root c root⟩

theorem under_cons {x : Path} (h : root <:+ x ∧ x ≠ root) (c : Name) :
    root <:+ c :: x ∧ c :: x ≠ root := by
  refine ⟨h.1.trans (List.suffix_cons c x), fun e => ?_⟩
  have hlen := h.1.length_le
  rw [← e, List.length_cons] at hlen
  omega

/-- What the store puts beside a record, the temporary files included. -/
def endings : List String :=
  [".conn", ".conn.tmp", ".seen", ".seen.tmp", ".lanport", ".lanport.tmp"]

theorem ending_long : ∀ s ∈ endings, 5 ≤ (str s).length ∧ slash ∉ str s := by decide

theorem own_ending : ∀ s ∈ [".conn", ".seen", ".lanport"], s ∈ endings := by decide

theorem ending_last : ∀ s ∈ endings, ∀ t ∈ [".conn", ".seen", ".lanport"],
    (str s).reverse.take 4 = (str t).reverse.take 4 → s = t := by decide

theorem take_ending (a : Bytes) {s : String} (hs : s ∈ endings) :
    (a ++ str s).reverse.take 4 = (str s).reverse.take 4 := by
  have hlen : 4 ≤ (str s).reverse.length := by
    have := (ending_long s hs).1
    rw [List.length_reverse]
    omega
  rw [List.reverse_append, List.take_append_of_le_length hlen]

theorem ending_inj {a b : Bytes} {s t : String} (hs : s ∈ endings)
    (ht : t ∈ [".conn", ".seen", ".lanport"]) (h : a ++ str s = b ++ str t) : s = t ∧ a = b := by
  have hst : s = t := by
    apply ending_last s hs t ht
    rw [← take_ending a hs, ← take_ending b (own_ending t ht), h]
  subst hst
  exact ⟨rfl, List.append_cancel_right h⟩

theorem ending_ne_pipes (p : Bytes) {s : String} (hs : s ∈ endings) :
    sanitize p ++ str s ≠ pipesName := by
  intro e
  have hlen := congrArg List.length e
  rw [List.length_append] at hlen
  have hpos : 0 < (sanitize p).length := List.length_pos_iff.mpr (sanitize_ne_nil p)
  have hlong := (ending_long s hs).1
  have hfive : pipesName.length = 5 := rfl
  omega

theorem plain_ending (p : Bytes) {s : String} (hs : s ∈ endings) : Plain (sanitize p ++ str s) := by
  obtain ⟨hlen, hslash⟩ := ending_long s hs
  exact Store.plain_beside p (by omega) hslash

theorem not_own_beside (hpq : sanitize p ≠ sanitize q) {s : String} (hs : s ∈ endings) {x : Path}
    (hx : (sanitize p ++ str s) :: root <:+ x) : ¬ OwnNode root (sanitize q) x := by
  rintro (⟨t, ht, rfl⟩ | ⟨n, rfl⟩)
  · have e := hx.eq_of_length rfl
    exact hpq (ending_inj hs ht (List.cons.inj e).1).2
  · have e : (sanitize p ++ str s) :: root = pipesName :: root := by
      have hsuf : pipesName :: root <:+ n :: sanitize q :: pipesName :: root :=
        (List.suffix_cons _ _).trans (List.suffix_cons _ _)
      exact (List.suffix_of_suffix_length_le hx hsuf (Nat.le_refl _)).eq_of_length rfl
    have hlen := congrArg List.length (List.cons.inj e).1
    have hpos := List.length_pos_iff.mpr (sanitize_ne_nil p)
    have hfive := (ending_long s hs).1
    have hpipes : pipesName.length = 5 := rfl
    rw [List.length_append] at hlen
    omega

theorem free_beside (hpq : sanitize p ≠ sanitize q) {s : String} (hs : s ∈ endings) :
    Free root (sanitize q) ((sanitize p ++ str s) :: root) :=
  ⟨child_under _ _, not_own_beside hpq hs (List.suffix_refl _)⟩

theorem resolve_ending (h : st.Rooted fs root) (p : Bytes) {s : String} (hs : s ∈ endings) :
    fs.resolve (st.peerPath p s) = some ((sanitize p ++ str s) :: root) :=
  Store.resolve_beside h.toAt (plain_ending p hs)

/-- A node of two levels below the store is no data of any peer. -/
theorem free_level {form c d : Name} : Free root form (c :: d :: root) := by
  refine ⟨under_cons (child_under d root) c, ?_⟩
  rintro (⟨s, -, e⟩ | ⟨n, e⟩)
  all_goals
    have := congrArg List.length e
    simp only [List.length_cons] at this
    omega

theorem free_pipes {form : Name} : Free root form (pipesName :: root) := by
  refine ⟨child_under _ _, ?_⟩
  rintro (⟨s, hs, e⟩ | ⟨n, e⟩)
  · have hsuf := take_ending form (own_ending s hs)
    have hne : ∀ s ∈ [".conn", ".seen", ".lanport"],
        pipesName.reverse.take 4 ≠ (str s).reverse.take 4 := by decide
    rw [← (List.cons.inj e).1] at hsuf
    exact hne s hs hsuf
  · have := congrArg List.length e
    simp only [List.length_cons] at this
    omega

theorem free_shelf (hpq : sanitize p ≠ sanitize q) (n : Name) :
    Free root (sanitize q) (n :: shelf root p) := by
  refine ⟨under_cons (under_cons (child_under _ root) _) n, ?_⟩
  rintro (⟨s, -, e⟩ | ⟨n', e⟩)
  · have := congrArg List.length e
    simp only [shelf, List.length_cons] at this
    omega
  · simp only [shelf, List.cons.injEq] at e
    exact hpq e.2.1

/-- Where a registration of `p` can be. -/
theorem free_pipePath (h : st.Rooted fs root) (hpq : sanitize p ≠ sanitize q)
    (hp : sanitize p ≠ dotdot) {n : Bytes} {x : Path}
    (hr : fs.resolve (st.pipePath p n) = some x)
    (hx : lastPlain (st.pipePath p n) = true ∨ fs.node x ≠ some .dir) :
    Free root (sanitize q) x := by
  have hne : st.pipesDir p ≠ [] := by simp [Store.pipesDir]
  rw [Store.pipePath, resolve_step hne (slash_notMem_sanitize n)] at hr
  obtain ⟨e, he, hwalk⟩ := Option.bind_eq_some_iff.mp hr
  simp only [walk, Option.ite_none_right_eq_some] at hwalk
  obtain ⟨hdir, hwalk⟩ := hwalk
  have hlast : ∀ c : Name, c = dot ∨ c = dotdot → sanitize n = c →
      lastPlain (st.pipePath p n) = false := by
    rintro c (rfl | rfl) hc
    all_goals
      rw [Store.pipePath, hc, lastPlain, comps_append_slash]
      simp [comps_of_notMem (c := dot) (by decide), comps_of_notMem (c := dotdot) (by decide)]
  by_cases hdot : sanitize n = dot
  · rw [if_pos (.inr hdot)] at hwalk
    cases hwalk
    rcases hx with hl | hn
    · rw [hlast dot (.inl rfl) hdot] at hl
      cases hl
    · exact absurd hdir hn
  · rw [if_neg (by simp [sanitize_ne_nil n, hdot])] at hwalk
    by_cases hup : sanitize n = dotdot
    · rw [if_pos hup] at hwalk
      cases hwalk
      rcases hx with hl | hn
      · rw [hlast dotdot (.inr rfl) hup] at hl
        cases hl
      · cases e with
        | nil => exact absurd hdir hn
        | cons c e => exact absurd (fs.node_parent hdir) hn
    · rw [if_neg hup] at hwalk
      cases hwalk
      rcases Store.resolve_pipesDir_under h.toAt hp he with rfl | rfl
      · exact free_level
      · exact free_shelf hpq _

end Locations

/-! ## Operations -/

section Operations
variable {st : Store} {fs : FileSystem} {root : Path} {p q : Bytes}

theorem frame_getD {form : Name} {o : Option FileSystem}
    (h : ∀ fs', o = some fs' → Frame root form fs fs') : Frame root form fs (o.getD fs) := by
  cases o with
  | none => exact Frame.refl root form fs
  | some fs' => exact h fs' rfl

theorem frame_discard (h : st.Rooted fs root) (hpq : sanitize p ≠ sanitize q) {s : String}
    (hs : s ∈ endings) : Frame root (sanitize q) fs (Store.discard fs (st.peerPath p s)) := by
  refine frame_getD fun fs' hrm => Frame.remove hrm fun x hx _ => ?_
  cases (resolve_ending h p hs).symm.trans hx
  exact free_beside hpq hs

theorem frame_unlink (h : st.Rooted fs root) (hpq : sanitize p ≠ sanitize q) {s : String}
    (hs : s ∈ endings) : Frame root (sanitize q) fs ((fs.unlink (st.peerPath p s)).getD fs) := by
  refine frame_getD fun fs' hrm => ?_
  rw [unlink] at hrm
  split at hrm
  · refine Frame.remove hrm fun x hx _ => ?_
    cases (resolve_ending h p hs).symm.trans hx
    exact free_beside hpq hs
  · cases hrm
  · cases hrm

theorem frame_write (h : st.Rooted fs root) (hpq : sanitize p ≠ sanitize q) {s : String}
    (hs : s ∈ endings) {fs' : FileSystem} {i : Nat}
    (ho : fs.openTrunc (st.peerPath p s) = some (fs', i)) (b : Bytes) :
    Frame root (sanitize q) fs (fs'.setData i b) := by
  refine Frame.openTrunc ho b fun x hx _ => ?_
  cases (resolve_ending h p hs).symm.trans hx
  exact free_beside hpq hs

theorem frame_move (h : st.Rooted fs root) {a b : Bytes} (ha : sanitize a ≠ sanitize q)
    (hb : sanitize b ≠ sanitize q) {s t : String} (hs : s ∈ endings) (ht : t ∈ endings)
    {fs' : FileSystem} (hr : fs.rename (st.peerPath a s) (st.peerPath b t) = some fs') :
    Frame root (sanitize q) fs fs' := by
  refine Frame.rename (resolve_ending h a hs) (resolve_ending h b ht) (child_under _ _)
    (child_under _ _) (fun x hx => ?_) hr
  rcases hx with hx | hx
  · exact not_own_beside ha hs hx
  · exact not_own_beside hb ht hx

theorem peerPath_tmp (st : Store) (p : Bytes) (s : String) :
    st.peerPath p s ++ str ".tmp" = st.peerPath p (s ++ ".tmp") := by
  simp [Store.peerPath, str]

theorem frame_saveBeside (h : st.Rooted fs root) (hpq : sanitize p ≠ sanitize q) {s : String}
    (hs : s ∈ endings) (ht : s ++ ".tmp" ∈ endings) (text : Bytes) :
    Frame root (sanitize q) fs (Store.saveBeside fs (st.peerPath p s) text).1 := by
  rw [Store.saveBeside, peerPath_tmp]
  dsimp only
  split
  · exact Frame.refl _ _ _
  · rename_i fs₁ i ho
    have hw := frame_write h hpq ht ho text
    split
    · exact hw
    · rename_i fs₂ hr
      exact hw.trans (frame_move (h.frame hw) hpq hpq ht hs hr)

theorem frame_save (h : st.Rooted fs root) {r : ConnRecord} (hpq : sanitize r.name ≠ sanitize q) :
    Frame root (sanitize q) fs (st.save fs r).1 := by
  have hs : ".conn" ∈ endings := by decide
  have ht : ".conn" ++ ".tmp" ∈ endings := by decide
  have hu := frame_unlink h hpq ht
  rw [Store.save, peerPath_tmp]
  dsimp only
  split
  · exact hu
  · rename_i fs₁ i ho
    rw [openExcl] at ho
    split at ho
    · cases ho
    · have hw := hu.trans (frame_write (h.frame hu) hpq ht ho (recordBody r))
      split
      · exact hw.trans (frame_unlink (h.frame hw) hpq ht)
      · rename_i fs₂ hr
        exact hw.trans (frame_move (h.frame hw) hpq hpq ht hs hr)

theorem frame_removePipe (h : st.Rooted fs root) (hpq : sanitize p ≠ sanitize q)
    (hp : sanitize p ≠ dotdot) (n : Bytes) :
    Frame root (sanitize q) fs ((st.removePipe fs p n).getD fs) :=
  frame_getD fun _ hrm => Frame.remove hrm fun _ hx hl => free_pipePath h hpq hp hx (.inl hl)

/-- A path that may be removed or renamed has a plain form at its end. -/
theorem plain_of_lastPlain (hl : lastPlain (st.pipesDir p) = true) : Plain (sanitize p) := by
  rw [Store.pipesDir_eq, lastPlain, comps_append_slash, comps_of_notMem (slash_notMem_sanitize p)] at hl
  simp only [List.getLast?_append, List.getLast?_singleton, Option.some_or, decide_eq_true_eq] at hl
  exact plain_sanitize hl.1 hl.2

theorem frame_remove (h : st.Rooted fs root) (hpq : sanitize p ≠ sanitize q)
    (hp : sanitize p ≠ dotdot) : Frame root (sanitize q) fs ((st.remove fs p).getD fs) := by
  refine frame_getD fun fs' hrm => ?_
  obtain ⟨fs₁, hconn, rfl⟩ := Option.map_eq_some_iff.mp hrm
  have h₁ : Frame root (sanitize q) fs fs₁ := by
    refine Frame.remove hconn fun x hx _ => ?_
    cases (resolve_ending h p (by decide)).symm.trans hx
    exact free_beside hpq (by decide)
  have h₂ := h₁.trans (frame_discard (h.frame h₁) hpq (s := ".seen") (by decide))
  have h₃ := h₂.trans (frame_discard (h.frame h₂) hpq (s := ".lanport") (by decide))
  dsimp only
  generalize Store.discard (Store.discard fs₁ (st.peerPath p ".seen"))
    (st.peerPath p ".lanport") = fs₃ at h₃ ⊢
  have h₄ : Frame root (sanitize q) fs ((st.listPipes fs₃ p).foldl
      (fun fs r => (st.removePipe fs p r.name).getD fs) fs₃) := by
    refine foldl_invariant (I := Frame root (sanitize q) fs) (fun fs₄ r h₄ _ => ?_) h₃
    exact h₄.trans (frame_removePipe (h.frame h₄) hpq hp r.name)
  refine h₄.trans (frame_getD fun fs₅ hdir => ?_)
  simp only [rmdir] at hdir
  split at hdir
  · refine Frame.remove hdir fun x hx hl => ?_
    rw [Store.resolve_pipesDir (h.frame h₄).toAt (plain_of_lastPlain hl)] at hx
    cases (Option.ite_none_right_eq_some.mp hx).2
    exact free_level
  · cases hdir
  · cases hdir

theorem rename_lastPlain {old new : Bytes} {fs' : FileSystem} (h : fs.rename old new = some fs') :
    lastPlain old = true ∧ lastPlain new = true := by
  simp only [FileSystem.rename] at h
  split at h
  · split at h
    · cases h
    · exact (Option.ite_none_right_eq_some.mp h).1
  · cases h

theorem frame_moveShelf (h : st.Rooted fs root) {a b : Bytes} (ha : sanitize a ≠ sanitize q)
    (hb : sanitize b ≠ sanitize q) :
    Frame root (sanitize q) fs ((fs.rename (st.pipesDir a) (st.pipesDir b)).getD fs) := by
  refine frame_getD fun fs' hr => ?_
  obtain ⟨hla, hlb⟩ := rename_lastPlain hr
  have hres := fun c (hc : Plain (sanitize c)) => Store.resolve_pipesDir h.toAt hc
  by_cases hdir : fs.node (pipesName :: root) = some .dir
  · simp only [hdir, if_true] at hres
    have hunder : ∀ c : Bytes, root <:+ shelf root c ∧ shelf root c ≠ root := fun c =>
      under_cons (child_under _ root) _
    have hfree : ∀ c : Bytes, sanitize c ≠ sanitize q → ∀ x, shelf root c <:+ x →
        ¬ OwnNode root (sanitize q) x := by
      rintro c hc x hx (⟨s, hs, rfl⟩ | ⟨n, rfl⟩)
      · have := hx.length_le
        simp [shelf] at this
      · have hsuf : sanitize q :: pipesName :: root <:+ n :: sanitize q :: pipesName :: root :=
          List.suffix_cons _ _
        have e := (List.suffix_of_suffix_length_le hx hsuf (Nat.le_refl _)).eq_of_length rfl
        exact hc (List.cons.inj e).1
    refine Frame.rename (hres a (plain_of_lastPlain hla)) (hres b (plain_of_lastPlain hlb))
      (hunder a) (hunder b) (fun x hx => ?_) hr
    rcases hx with hx | hx
    · exact hfree a ha x hx
    · exact hfree b hb x hx
  · rw [FileSystem.rename, hres a (plain_of_lastPlain hla), if_neg hdir] at hr
    cases hr

theorem frame_rename (h : st.Rooted fs root) {source target : Bytes}
    (hs : sanitize source ≠ sanitize q) (ht : sanitize target ≠ sanitize q) :
    Frame root (sanitize q) fs (st.rename fs source target).1 := by
  rw [Store.rename]
  split
  · exact Frame.refl _ _ _
  · rename_i r hload
    dsimp only
    split
    · exact Frame.refl _ _ _
    · have hsave := frame_save h (r := { r with name := target }) ht
      split
      · rename_i fs₁ err hsv
        rw [hsv] at hsave
        exact hsave
      · rename_i fs₁ hsv
        rw [hsv] at hsave
        split
        · exact hsave
        · have h₂ := hsave.trans (frame_discard (h.frame hsave) hs (s := ".conn") (by decide))
          have h₃ := h₂.trans (frame_getD fun fs' hr => frame_move (h.frame h₂) hs ht
            (s := ".seen") (t := ".seen") (by decide) (by decide) hr)
          have h₄ := h₃.trans (frame_getD fun fs' hr => frame_move (h.frame h₃) hs ht
            (s := ".lanport") (t := ".lanport") (by decide) (by decide) hr)
          exact h₄.trans (frame_moveShelf (h.frame h₄) hs ht)

theorem frame_mkdirTry {form : Name} {path : Bytes} {fs' : FileSystem}
    (hmk : fs.mkdirTry path = some fs')
    (free : ∀ x, fs.resolve path = some x → Free root form x) : Frame root form fs fs' := by
  rw [mkdirTry] at hmk
  split at hmk
  · cases hmk
    exact Frame.refl _ _ _
  · split at hmk
    · rename_i fs₁ hok
      cases hmk
      obtain ⟨x, hr, -, -, hedits, hcwd⟩ := mkdir_edits hok
      refine Frame.of_edits hedits hcwd ?_
      rintro _ rfl
      exact free _ hr
    · cases hmk
      exact Frame.refl _ _ _
    · cases hmk

theorem frame_mkdirs {form : Name} (h : st.Rooted fs root) (hp : sanitize p ≠ dotdot) :
    Frame root form fs (fs.mkdirsFrom true [] (st.pipesDir p)).1 := by
  have hsplit : st.pipesDir p = st.dir ++ slash :: (pipesName ++ slash :: sanitize p) := by
    simp [Store.pipesDir, pipesName]
  rw [hsplit, mkdirsFrom_existing true (by simpa using h.resolves), List.nil_append, mkdirsFrom,
    if_pos rfl, mkdirTry_existing h.resolves h.is_dir]
  simp only
  rw [mkdirsFrom_notMem true fs _ (by decide : slash ∉ pipesName), mkdirsFrom, if_pos rfl]
  split
  · rename_i fs₁ hmk
    have hpath : st.dir ++ [slash] ++ pipesName = st.dir ++ slash :: pipesName := by simp
    have h₁ : Frame root form fs fs₁ := by
      refine frame_mkdirTry hmk fun x hx => ?_
      rw [hpath, Store.resolve_pipes h.toAt] at hx
      cases hx
      exact free_pipes
    rw [show sanitize p = sanitize p ++ [] by simp,
      mkdirsFrom_notMem true fs₁ _ (slash_notMem_sanitize p), mkdirsFrom]
    split
    · rename_i fs₂ hmk₂
      refine h₁.trans (frame_mkdirTry hmk₂ fun x hx => ?_)
      have hdir : st.dir ++ [slash] ++ pipesName ++ [slash] ++ sanitize p = st.pipesDir p := by
        simp [hsplit]
      rw [hdir] at hx
      rcases Store.resolve_pipesDir_under (h.frame h₁).toAt hp hx with rfl | rfl
      · exact free_pipes
      · exact free_level
    · exact h₁
  · exact Frame.refl _ _ _

theorem frame_savePipe (h : st.Rooted fs root) {r : PipeRecord}
    (hpq : sanitize r.peer ≠ sanitize q) (hp : sanitize r.peer ≠ dotdot) :
    Frame root (sanitize q) fs (st.savePipe fs r).1 := by
  have hmk : Frame root (sanitize q) fs _ := frame_mkdirs h hp
  simp only [Store.savePipe]
  split
  · rename_i fs₁ he
    rw [he] at hmk
    exact hmk
  · rename_i fs₁ he
    rw [he] at hmk
    split
    · exact hmk
    · rename_i fs₂ i ho
      refine hmk.trans (Frame.openTrunc ho _ fun x hx hnd => ?_)
      exact free_pipePath (h.frame hmk) hpq hp hx (.inr hnd)

/-- Every operation on `p` leaves the data of `q` alone. -/
theorem frame_run (h : st.Rooted fs root) (op : PeerOp) (hpq : sanitize op.peer ≠ sanitize q)
    (hp : sanitize op.peer ≠ dotdot)
    (ht : ∀ s t, op = .rename s t → sanitize t ≠ sanitize q) :
    Frame root (sanitize q) fs (op.run st fs) := by
  cases op with
  | save r => exact frame_save h hpq
  | remove name => exact frame_remove h hpq hp
  | rename source target => exact frame_rename h hpq (ht source target rfl)
  | saveSeen name seen =>
      rw [PeerOp.run, Store.saveSeen]
      split
      · exact frame_discard h hpq (by decide)
      · exact frame_saveBeside h hpq (by decide) (by decide) _
  | saveLearnedPort name port =>
      rw [PeerOp.run, Store.saveLearnedPort]
      split
      · exact frame_discard h hpq (by decide)
      · exact frame_saveBeside h hpq (by decide) (by decide) _
  | savePipe r => exact frame_savePipe h hpq hp
  | removePipe peer name => exact frame_removePipe h hpq hp name
  | listPipes peer => exact Frame.refl _ _ _

end Operations

/-! ## Data and nodes -/

section Data
variable {st : Store} {fs fs' : FileSystem} {root : Path} {p q : Bytes}

/-- The content of the regular file at a node. -/
def fileAt (fs : FileSystem) (x : Path) : Option Bytes :=
  match fs.node x with
  | some (.file i) => some (fs.data i)
  | some .dir | none => none

theorem content_of_resolve {path : Bytes} {x : Path} (h : fs.resolve path = some x) :
    content fs path = fileAt fs x := by
  rw [content, fileAt, stat, h]
  rfl

/-- A peer's data is at its own nodes, or it is nowhere. -/
theorem content_own (hq : Plain (sanitize q)) {path : Bytes} (hpath : OwnPath st q path) :
    (∃ x, OwnNode root (sanitize q) x ∧
      ∀ fs, st.Rooted fs root → content fs path = fileAt fs x ∧
        ∀ y, fs.resolve path = some y → y = x) ∨
    ∀ fs, st.Rooted fs root → content fs path = none ∧
      ∀ y, fs.resolve path = some y → fs.node y = some .dir := by
  rcases hpath with ⟨s, hs, rfl⟩ | ⟨n, rfl⟩
  · refine .inl ⟨_, .inl ⟨s, hs, rfl⟩, fun fs h => ?_⟩
    have hr := resolve_ending h q (own_ending s hs)
    exact ⟨content_of_resolve hr, fun y hy => Option.some.inj (hy.symm.trans hr)⟩
  · by_cases hn : Plain (sanitize n)
    · refine .inl ⟨sanitize n :: shelf root q, .inr ⟨_, rfl⟩, fun fs h => ?_⟩
      rw [content, Store.stat_pipePath h.toAt hq hn]
      refine ⟨rfl, fun y hy => ?_⟩
      by_cases hdir : fs.node (shelf root q) = some .dir
      · exact Option.some.inj (hy.symm.trans (Store.resolve_pipePath h.toAt hq hn hdir))
      · rw [Store.resolve_pipePath_none h.toAt hq hn hdir] at hy
        cases hy
    · -- "." and ".." name directories
      refine .inr fun fs h => ?_
      have hdirs : ∀ y, fs.resolve (st.pipePath q n) = some y → fs.node y = some .dir := by
        intro y hy
        have hne : st.pipesDir q ≠ [] := by simp [Store.pipesDir]
        rw [Store.pipePath, resolve_step hne (slash_notMem_sanitize n)] at hy
        obtain ⟨e, -, hwalk⟩ := Option.bind_eq_some_iff.mp hy
        simp only [walk, Option.ite_none_right_eq_some] at hwalk
        obtain ⟨hdir, hwalk⟩ := hwalk
        split at hwalk
        · cases hwalk
          exact hdir
        · rename_i hdot
          split at hwalk
          · cases hwalk
            cases e with
            | nil => exact hdir
            | cons c e => exact fs.node_parent hdir
          · rename_i hup
            exact absurd (plain_sanitize (fun e => hdot (.inr e)) hup) hn
      refine ⟨?_, hdirs⟩
      cases hy : fs.resolve (st.pipePath q n) with
      | none => simp [content, stat, hy]
      | some y =>
          rw [content_of_resolve hy, fileAt, hdirs y hy]

theorem fileAt_frame {form : Name} (hf : Frame root form fs fs') {x : Path}
    (hx : OwnNode root form x) : fileAt fs' x = fileAt fs x := by
  obtain ⟨hn, hd⟩ := hf.own x hx
  rw [fileAt, fileAt, hn]
  cases hnode : fs.node x with
  | none => rfl
  | some n =>
      cases n with
      | dir => rfl
      | file i => simp only [hd i hnode]

/-- What `list_pipes` returns was read from a file that is not a directory. -/
theorem listed_file {r : PipeRecord} (hr : r ∈ st.listPipes fs p) :
    ∃ x, fs.resolve (st.pipePath p r.name) = some x ∧ fs.node x ≠ some .dir := by
  obtain ⟨n, -, hload⟩ := List.mem_filterMap.mp hr
  rw [(Store.loadPipe_name hload).2]
  rw [Store.loadPipe, FileSystem.read] at hload
  obtain ⟨body, hread, hparse⟩ := Option.bind_eq_some_iff.mp hload
  obtain ⟨node, hstat, rfl⟩ := Option.map_eq_some_iff.mp hread
  obtain ⟨x, hx, hnode⟩ := Option.bind_eq_some_iff.mp hstat
  refine ⟨x, hx, fun hdir => ?_⟩
  rw [hdir] at hnode
  cases hnode
  have hnone : parsePipe p n [] = none := rfl
  rw [nodeBytes, hnone] at hparse
  cases hparse

theorem isolated_of_forms (hpq : sanitize p ≠ sanitize q) (hp : sanitize p ≠ dotdot)
    (hq : Plain (sanitize q)) : Isolated p q := by
  rintro st fs root op h rfl ht
  have ht' : ∀ s t, op = .rename s t → sanitize t ≠ sanitize q := by
    rintro s t rfl
    exact ht t rfl
  have hf := frame_run h op hpq hp ht'
  refine ⟨fun path hpath => ?_, fun r hr path hpath e => ?_⟩
  · rcases content_own hq hpath with ⟨x, hx, hat⟩ | hno
    · rw [(hat _ (h.frame hf)).1, (hat _ h).1, fileAt_frame hf hx]
    · rw [(hno _ (h.frame hf)).1, (hno _ h).1]
  · cases op with
    | listPipes peer =>
        obtain ⟨y, hy, hnd⟩ := listed_file hr
        rw [PeerOp.peer, hy] at e
        have hfree := free_pipePath h hpq hp hy (.inr hnd)
        rcases content_own hq hpath with ⟨x, hx, hat⟩ | hno
        · rw [(hat fs h).2 y e] at hfree
          exact hfree.node hx
        · exact hnd ((hno fs h).2 y e)
    | _ => cases hr

end Data

/-! ## The two forms that break it -/

section Broken
variable {st : Store} {fs fs' : FileSystem} {root : Path} {p q : Bytes}

theorem sanitize_beside (p : Bytes) {s : Bytes} (hs : s.map sanitizeByte = s) :
    sanitize (sanitize p ++ s) = sanitize p ++ s := by
  have hidem : (sanitize p).map sanitizeByte = sanitize p := by
    have h := sanitize_idem p
    rwa [sanitize, if_neg (sanitize_ne_nil p)] at h
  rw [sanitize, if_neg (by simp [sanitize_ne_nil]), List.map_append, hidem, hs]

theorem sanitize_connName (p : Bytes) : sanitize (connName p) = connName p :=
  sanitize_beside p (by decide)

theorem connName_ne_pipes (p : Bytes) : connName p ≠ pipesName :=
  ending_ne_pipes p (by decide : ".conn" ∈ endings)

theorem connName_tmp (p : Bytes) : connName p ++ str ".tmp" = sanitize p ++ str ".conn.tmp" := by
  rw [connName, List.append_assoc]
  rfl

theorem resolve_up (h : st.At fs root) (hp : sanitize p = dotdot)
    (hpipes : fs.node (pipesName :: root) = some .dir) {n : Bytes} (hn : Plain (sanitize n)) :
    fs.resolve (st.pipePath p n) = some (sanitize n :: root) := by
  have hdir : fs.resolve (st.pipesDir p) = some root := by
    rw [Store.pipesDir_eq, resolve_step (by simp) (slash_notMem_sanitize p), Store.resolve_pipes h, hp]
    simp [walk, hpipes, dotdot, dot]
  rw [Store.pipePath, fs.resolve_child (by simp [Store.pipesDir]) hn, hdir]
  simp [h.is_dir]

theorem resolve_here (h : st.At fs root) (hp : sanitize p = dot)
    (hpipes : fs.node (pipesName :: root) = some .dir) {n : Bytes} (hn : Plain (sanitize n)) :
    fs.resolve (st.pipePath p n) = some (sanitize n :: pipesName :: root) := by
  have hdir : fs.resolve (st.pipesDir p) = some (pipesName :: root) := by
    rw [Store.pipesDir_eq, resolve_step (by simp) (slash_notMem_sanitize p), Store.resolve_pipes h, hp]
    simp [walk, hpipes, dot]
  rw [Store.pipePath, fs.resolve_child (by simp [Store.pipesDir]) hn, hdir]
  simp [hpipes]

theorem content_conn (h : st.Rooted fs root) (p : Bytes) :
    content fs (st.peerPath p ".conn") = fileAt fs (connName p :: root) :=
  content_of_resolve (Store.resolve_beside h.toAt (Store.plain_connName p))

/-- A store at `/s` that holds nothing but the directory of registrations. -/
def bareStore : FileSystem :=
  (FileSystem.empty.addDir (str "s") [] FileSystem.empty.node_nil).addDir pipesName [str "s"]
    (by simp)

theorem bareStore_node (x : Path) : bareStore.node x =
    if [pipesName, str "s"] = x then some .dir
    else if [str "s"] = x then some .dir else if [] = x then some .dir else none := by
  rw [bareStore, node_addDir, node_addDir, node_empty]

theorem bareStore_free {c : Name} (hc : c ≠ pipesName) : bareStore.node [c, str "s"] = none := by
  rw [bareStore_node, if_neg, if_neg, if_neg] <;> simp [hc.symm]

theorem rooted_slash (h : fs.node [str "s"] = some .dir) :
    Store.Rooted ⟨str "/s"⟩ fs [str "s"] where
  dir_ne := by decide
  resolves := by
    have hcomps : comps (str "/s") = [[], str "s"] := by decide
    have hplain : str "s" ≠ [] ∧ str "s" ≠ dot ∧ str "s" ≠ dotdot := by decide
    have hhead : (str "/s").head? = some slash := by decide
    simp [resolve, hcomps, hhead, walk, hplain, show str "/s" ≠ [] by decide]
  is_dir := h
  outside := by
    have hvia : fs.via (str "/s") = [[], []] := rfl
    rw [hvia]
    decide

/-- The registrations of ".." are the records of the others. -/
theorem not_isolated_up (hp : sanitize p = dotdot) : ¬ Isolated p q := by
  intro h
  have hfree : bareStore.node [connName q, str "s"] = none := bareStore_free (connName_ne_pipes q)
  generalize hfs : bareStore.addFile (connName q) [str "s"] (by simp [bareStore_node]) hfree = fs
  have hnode : ∀ x, fs.node x = if [connName q, str "s"] = x then some (.file bareStore.next)
      else bareStore.node x := by
    intro x
    rw [← hfs, node_addFile]
  have hroot : Store.Rooted ⟨str "/s"⟩ fs [str "s"] := by
    refine rooted_slash ?_
    simp [hnode, bareStore_node]
  have hpipes : fs.node [pipesName, str "s"] = some .dir := by
    simp [hnode, bareStore_node, connName_ne_pipes]
  have hplain : Plain (sanitize (connName q)) := by
    rw [sanitize_connName]
    exact Store.plain_connName q
  have hres : fs.resolve (Store.pipePath ⟨str "/s"⟩ p (connName q)) =
      some [connName q, str "s"] := by
    rw [resolve_up hroot.toAt hp hpipes hplain, sanitize_connName]
  obtain ⟨fs', hrm, hnode', -, hcwd⟩ := remove_file hres (by rw [hnode, if_pos rfl])
    (lastPlain_child hplain)
  have hrun : (PeerOp.removePipe p (connName q)).run ⟨str "/s"⟩ fs = fs' := by
    rw [PeerOp.run, Store.removePipe, hrm]
    rfl
  have hroot' : Store.Rooted ⟨str "/s"⟩ fs' [str "s"] := by
    refine rooted_slash ?_
    rw [hnode', if_neg (by simp)]
    exact hroot.is_dir
  have hkept := (h ⟨str "/s"⟩ fs [str "s"] (.removePipe p (connName q)) hroot rfl
    (fun _ e => by cases e)).1 _ (.inl ⟨".conn", by simp, rfl⟩)
  rw [hrun, content_conn hroot q, content_conn hroot' q, fileAt, fileAt, hnode', if_pos rfl, hnode,
    if_pos rfl] at hkept
  cases hkept

/-- What is saved of a peer is a registration of "..". -/
theorem not_isolated_of_up (hq : sanitize q = dotdot) : ¬ Isolated p q := by
  intro h
  have hroot : Store.Rooted ⟨str "/s"⟩ bareStore [str "s"] :=
    rooted_slash (by simp [bareStore_node])
  have hlong : connName p ++ str ".tmp" ≠ pipesName := by
    rw [connName_tmp]
    exact ending_ne_pipes p (by decide)
  obtain ⟨fs', i, hsave, saved⟩ := Store.save_free hroot.toAt { name := p } (bareStore_free hlong)
    (by rw [bareStore_free (connName_ne_pipes p)]; simp)
  have hroot' : Store.Rooted ⟨str "/s"⟩ fs' [str "s"] := by
    refine rooted_slash ?_
    rw [saved.node, if_neg (by simp)]
    exact hroot.is_dir
  have hplain : Plain (sanitize (connName p)) := by
    rw [sanitize_connName]
    exact Store.plain_connName p
  have hpipes : bareStore.node [pipesName, str "s"] = some .dir := by simp [bareStore_node]
  have hpipes' : fs'.node [pipesName, str "s"] = some .dir := by
    rw [saved.node, if_neg (by simp [connName_ne_pipes])]
    exact hpipes
  have hrun : (PeerOp.save { name := p }).run ⟨str "/s"⟩ bareStore = fs' := by
    rw [PeerOp.run, hsave]
  have hkept := (h ⟨str "/s"⟩ bareStore [str "s"] (.save { name := p }) hroot rfl
    (fun _ e => by cases e)).1 _ (.inr ⟨connName p, rfl⟩)
  rw [hrun, content_of_resolve (resolve_up hroot.toAt hq hpipes hplain),
    content_of_resolve (resolve_up hroot'.toAt hq hpipes' hplain), fileAt, fileAt,
    sanitize_connName, saved.node, if_pos rfl, bareStore_free (connName_ne_pipes p)] at hkept
  cases hkept

theorem load_of_file (h : st.Rooted fs root) {i : Nat}
    (hconn : fs.node (connName p :: root) = some (.file i)) :
    st.load fs p = parseRecord (fs.data i) := by
  have hres : fs.resolve (st.peerPath p ".conn") = some (connName p :: root) :=
    Store.resolve_beside h.toAt (Store.plain_connName p)
  simp [Store.load, Store.parseFile, FileSystem.read, FileSystem.stat, hres, hconn, nodeBytes]

/-- Beside a lone record, a file where the peer's directory of registrations would be moves
with the peer. -/
theorem rename_moves (h : st.Rooted fs root) {t : Bytes} {r : ConnRecord} {i j : Nat}
    (hp : Plain (sanitize p)) (ht : Plain (sanitize t)) (hpt : sanitize p ≠ sanitize t)
    (hconn : fs.node (connName p :: root) = some (.file j))
    (hread : parseRecord (fs.data j) = some r)
    (alone : ∀ c, c ≠ connName p → c ≠ pipesName → fs.node (c :: root) = none)
    (hfile : fs.node (shelf root p) = some (.file i)) (hfree : fs.node (shelf root t) = none) :
    (st.rename fs p t).1.node (shelf root p) = none ∧
      (st.rename fs p t).1.node (pipesName :: root) = some .dir := by
  have beside : ∀ (a : Bytes) (s : String), s ∈ endings → s ≠ ".conn" →
      fs.node ((sanitize a ++ str s) :: root) = none := fun a s hs hne =>
    alone _ (fun e => hne (ending_inj hs (by simp) e).1) (ending_ne_pipes a hs)
  have hcon : connName t ≠ connName p := fun e => hpt (Store.connName_inj e).symm
  have hnone : fs.node (connName t :: root) = none := alone _ hcon (connName_ne_pipes t)
  have hexist : st.exist fs t = false := by
    have hres : fs.resolve (st.peerPath t ".conn") = some (connName t :: root) :=
      Store.resolve_beside h.toAt (Store.plain_connName t)
    simp [Store.exist, FileSystem.read, FileSystem.stat, hres, hnone]
  have hpaths : st.peerPath p ".conn" ≠ st.peerPath t ".conn" := by
    intro e
    simp only [Store.peerPath, List.append_cancel_left_eq, List.cons.injEq, true_and,
      List.append_cancel_right_eq] at e
    exact hpt e
  -- the record under its new name, and the old one gone
  obtain ⟨fs₁, k, hsave, saved⟩ := Store.save_free h.toAt { r with name := t }
    (by rw [connName_tmp]; exact beside t _ (by decide) (by decide)) (by rw [hnone]; simp)
  have h₁ := h.inside saved.inside
  obtain ⟨fs₂, hrm, hnode₂, -, hcwd₂⟩ := remove_file
    (Store.resolve_beside h₁.toAt (Store.plain_connName p))
    (by rw [saved.node, if_neg fun e => hcon (List.cons.inj e).1]; exact hconn)
    (lastPlain_child (Store.plain_connName p))
  have h₂ : st.At fs₂ root := by
    refine h₁.toAt.mono (fun x hx => ?_) hcwd₂
    rw [hnode₂, if_neg]
    · exact hx
    · rintro rfl
      rw [saved.node, if_neg fun e => hcon (List.cons.inj e).1, hconn] at hx
      cases hx
  have hkeep : ∀ x, x ≠ connName t :: root → x ≠ connName p :: root → fs₂.node x = fs.node x := by
    intro x hx hx'
    rw [hnode₂, if_neg hx'.symm, saved.node, if_neg hx.symm]
  have hmiss : ∀ s ∈ endings, s ∈ [".seen", ".lanport"] → ∀ new,
      fs₂.rename (st.peerPath p s) new = none := by
    intro s hs hs' new
    have hne : s ≠ ".conn" := by
      rintro rfl
      exact absurd hs' (by decide)
    refine rename_missing (Store.resolve_beside h₂ (plain_ending p hs)) ?_ new
    rw [hkeep, beside p s hs hne]
    · exact fun e => hne (ending_inj hs (by simp) (List.cons.inj e).1).1
    · exact fun e => hne (ending_inj hs (by simp) (List.cons.inj e).1).1
  have hshelf : ∀ a, fs₂.node (shelf root a) = fs.node (shelf root a) := fun a =>
    hkeep _ (by simp [shelf]) (by simp [shelf])
  have hpipes : fs₂.node (pipesName :: root) = some .dir := by
    rw [hkeep]
    · exact fs.node_parent hfile
    · exact fun e => connName_ne_pipes t (List.cons.inj e).1.symm
    · exact fun e => connName_ne_pipes p (List.cons.inj e).1.symm
  -- the move itself
  obtain ⟨fs₃, hmove, hnode₃, -⟩ := rename_file
    (by rw [Store.resolve_pipesDir h₂ hp, if_pos hpipes]; rfl)
    (by rw [Store.resolve_pipesDir h₂ ht, if_pos hpipes]; rfl) hpt
    (by rw [Store.pipesDir_eq]; exact lastPlain_child hp)
    (by rw [Store.pipesDir_eq]; exact lastPlain_child ht) ((hshelf p).trans hfile)
    (by rw [← shelf, hshelf, hfree]; simp)
  have hdiscard : Store.discard fs₁ (st.peerPath p ".conn") = fs₂ := by
    have hrm' : fs₁.remove (st.peerPath p ".conn") = some fs₂ := hrm
    rw [Store.discard, hrm']
    rfl
  have hrun : (st.rename fs p t).1 = fs₃ := by
    simp [Store.rename, load_of_file h hconn, hread, hexist, hsave, hpaths, hdiscard,
      hmiss ".seen" (by decide) (by decide), hmiss ".lanport" (by decide) (by decide), hmove]
  have hne : shelf root t ≠ shelf root p := fun e => hpt (List.cons.inj e).1.symm
  rw [hrun]
  constructor
  · rw [hnode₃]
    exact (if_neg hne).trans (if_pos rfl)
  · rw [hnode₃, if_neg (by simp), if_neg (by simp)]
    exact hpipes

/-- The directory of a peer's registrations is where "." has its own: it moves with the peer. -/
theorem not_isolated_of_here (hp : Plain (sanitize p)) (hq : sanitize q = dot) :
    ¬ Isolated p q := by
  intro h
  obtain ⟨t, ht, hpt⟩ : ∃ t : Bytes, Plain (sanitize t) ∧ sanitize p ≠ sanitize t := by
    by_cases ha : sanitize p = sanitize (str "a")
    · exact ⟨str "b", by decide, by rw [ha]; decide⟩
    · exact ⟨str "a", by decide, ha⟩
  have hfree : bareStore.node [connName p, str "s"] = none := bareStore_free (connName_ne_pipes p)
  -- the record of `p`, and a registration of "." with the form of `p`
  generalize hfs₀ : (bareStore.addFile (connName p) [str "s"] (by simp [bareStore_node])
    hfree).setData bareStore.next (recordBody {}) = fs₀
  have hnode₀ : ∀ x, fs₀.node x = if [connName p, str "s"] = x then some (.file bareStore.next)
      else bareStore.node x := by
    intro x
    rw [← hfs₀, node_setData, node_addFile]
  have hdata₀ : fs₀.data bareStore.next = recordBody {} := by
    rw [← hfs₀]
    simp [setData]
  have hnext : fs₀.next = bareStore.next + 1 := by
    rw [← hfs₀]
    rfl
  have hpipes : fs₀.node [pipesName, str "s"] = some .dir := by
    simp [hnode₀, bareStore_node, connName_ne_pipes]
  have hshelf : ∀ c, fs₀.node [c, pipesName, str "s"] = none := by
    intro c
    simp [hnode₀, bareStore_node]
  generalize hfs : fs₀.addFile (sanitize p) [pipesName, str "s"] hpipes (hshelf _) = fs
  have hnode : ∀ x, fs.node x = if shelf [str "s"] p = x then some (.file fs₀.next)
      else fs₀.node x := by
    intro x
    rw [← hfs, node_addFile]
    rfl
  have hup : ∀ x : Path, x.length ≤ 2 → fs.node x = fs₀.node x := by
    intro x hx
    rw [hnode, if_neg]
    rintro rfl
    simp [shelf] at hx
  have hdata : fs.data bareStore.next = recordBody {} := by
    rw [← hfs, ← hdata₀]
    simp [addFile, hnext]
  have hroot : Store.Rooted ⟨str "/s"⟩ fs [str "s"] := by
    refine rooted_slash ?_
    rw [hup _ (by simp), hnode₀]
    simp [bareStore_node]
  obtain ⟨r, hread, -⟩ := parseRecord_recordBody (r := {}) ⟨by decide, by simp⟩
  have hne : shelf [str "s"] p ≠ shelf [str "s"] t := fun e => hpt (List.cons.inj e).1
  obtain ⟨hgone, hpipes'⟩ := rename_moves hroot (r := r) hp ht hpt
    (by rw [hup _ (by simp), hnode₀, if_pos rfl]) (by rw [hdata, hread])
    (fun c hc hc' => by rw [hup _ (by simp), hnode₀, if_neg (by simp [hc.symm]), bareStore_free hc'])
    (by rw [hnode, if_pos rfl])
    (by rw [hnode, if_neg hne]; exact hshelf _)
  have hpq : sanitize p ≠ sanitize q := by rw [hq]; exact hp.2.1
  have htq : sanitize t ≠ sanitize q := by rw [hq]; exact ht.2.1
  have hkept := (h ⟨str "/s"⟩ fs [str "s"] (.rename p t) hroot rfl
    (fun _ e => by cases e; exact htq)).1 _ (.inr ⟨p, rfl⟩)
  have hroot' := hroot.frame (frame_rename hroot hpq htq)
  rw [PeerOp.run, content_of_resolve (resolve_here hroot'.toAt hq hpipes' hp),
    content_of_resolve (resolve_here hroot.toAt hq ((hup _ (by simp)).trans hpipes) hp), fileAt,
    fileAt, ← shelf, hgone, hnode, if_pos rfl] at hkept
  cases hkept

end Broken

/-- An operation on one peer leaves the data of every other alone, but that ".." reaches what
all the others have and "." and ".." are reached by them. -/
theorem isolated_iff_forms {p q : Bytes} (hpq : sanitize p ≠ sanitize q) :
    Isolated p q ↔ sanitize p ≠ dotdot ∧ sanitize q ≠ dot ∧ sanitize q ≠ dotdot := by
  constructor
  · intro h
    have hp : sanitize p ≠ dotdot := fun e => not_isolated_up e h
    have hq : sanitize q ≠ dotdot := fun e => not_isolated_of_up e h
    refine ⟨hp, fun e => ?_, hq⟩
    have hdot : sanitize p ≠ dot := fun e' => hpq (e'.trans e.symm)
    exact not_isolated_of_here (plain_sanitize hdot hp) e h
  · rintro ⟨hp, hdot, hup⟩
    exact isolated_of_forms hpq hp (plain_sanitize hdot hup)

/-- The registration "ann.conn" of a peer named "..", taken away, is the record of "ann". -/
theorem record_removed_as_pipe :
    let st : Store := ⟨str "/s"⟩
    let fs := (st.save bareStore { name := str "ann" }).1
    let op : PeerOp := .removePipe (str "..") (str "ann.conn")
    sanitize op.peer ≠ sanitize (str "ann") ∧ (st.load fs (str "ann")).isSome = true ∧
      st.load (op.run st fs) (str "ann") = none ∧ ¬ Isolated op.peer (str "ann") :=
  ⟨by decide, by decide +kernel, by decide +kernel, not_isolated_up (by decide)⟩

theorem isolated_bob_ann : sanitize (str "bob") ≠ sanitize (str "ann") ∧
    Isolated (str "bob") (str "ann") :=
  ⟨by decide, (isolated_iff_forms (by decide)).mpr (by decide)⟩

end Splice.Peer
