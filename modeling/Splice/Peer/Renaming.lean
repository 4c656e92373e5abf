import Splice.Peer.Tidy

/-!
What `rename` makes of everything the store keeps for a peer: its record, the addresses
it was seen at, the learned port and its registrations. The files are moved one by one
and the calls' results are not looked at, so what an earlier peer of the new name left
behind decides whether all of it arrives.
-/

namespace Splice.Peer
open Lib FileSystem

/-! ## The files beside a record -/

/-- `>>` into a string: a word and the text after it. -/
def word (s : Bytes) : Option (Bytes × Bytes) :=
  let s := s.dropWhile isSpace
  if s = [] then none else some (s.takeWhile (!isSpace ·), s.dropWhile (!isSpace ·))

/-- `>>` into a 64-bit integer: one that does not fit is an error. -/
def integer (s : Bytes) : Option (Int × Bytes) :=
  let (neg, digits) := numeralStart 10 s
  if startsWithDigit 10 digits then
    let (v, rest) := digitRun 10 0 digits
    let n : Int := if neg then -v else v
    if -2 ^ 63 ≤ n ∧ n < 2 ^ 63 then some (n, rest) else none
  else none

/-- The loop of `load_seen`, for at most so many rounds; each takes a byte at least. -/
def seenEntries : Nat → Bytes → List (Bytes × Int)
  | 0, _ => []
  | n + 1, s =>
      match word s with
      | none => []
      | some (addr, s) =>
          match integer s with
          | none => []
          | some (time, s) =>
              if (parseAddressHint addr).isSome then (addr, time) :: seenEntries n s
              else seenEntries n s

def learnedPort (body : Bytes) : UInt16 :=
  match integer body with
  | none => 0
  | some (n, _) => if n < 1 ∨ 65535 < n then 0 else n.toNat.toUInt16

namespace Store
variable (st : Store) (fs : FileSystem)

/-- A file beside the record; one that does not open reads as an empty one. -/
def beside (name : Bytes) (suffix : String) : Bytes := (fs.read (st.peerPath name suffix)).getD []

def loadSeen (name : Bytes) : List (Bytes × Int) :=
  seenEntries (st.beside fs name ".seen").length (st.beside fs name ".seen")

def loadLearnedPort (name : Bytes) : UInt16 := learnedPort (st.beside fs name ".lanport")

/-! ## Everything or nothing -/

/-- What is kept under a name. -/
def ownPaths (name : Bytes) : List Bytes :=
  [st.peerPath name ".conn", st.peerPath name ".seen", st.peerPath name ".lanport",
    st.pipesDir name]

/-- All that was `source`'s is `target`'s. -/
structure Moved (fs' : FileSystem) (source target : Bytes) : Prop where
  record : st.load fs' target = (st.load fs source).map fun r => { r with name := target }
  seen : st.loadSeen fs' target = st.loadSeen fs source
  port : st.loadLearnedPort fs' target = st.loadLearnedPort fs source
  pipes : st.listPipes fs' target =
    (st.listPipes fs source).map fun r => { r with peer := target }
  gone : sanitize source ≠ sanitize target →
    ∀ path ∈ st.ownPaths source, fs'.exist path = false

/-- A rename that succeeds moves everything, one that fails changes nothing. -/
def Atomic (source target : Bytes) : Prop :=
  ((st.rename fs source target).2 = none →
    st.Moved fs (st.rename fs source target).1 source target) ∧
  ((st.rename fs source target).2 ≠ none → (st.rename fs source target).1 = fs)

/-- There is a record to rename, and none of the new name in another file. -/
def Renames (source target : Bytes) : Prop :=
  (st.load fs source).isSome = true ∧
    (sanitize source = sanitize target ∨ st.exist fs target = false)

end Store

/-- May what is at the one path take the place of what is at the other? -/
def Replaceable (fs : FileSystem) (old new : Bytes) : Prop :=
  match fs.stat old, fs.stat new with
  | _, none => True
  | some .dir, some .dir => fs.readdir new = some []
  | some (.file _), some (.file _) => True
  | _, _ => False

/-- Nothing is in the way, and nothing is left from an earlier peer that would be taken for
the renamed one's. -/
structure Store.Transferable (st : Store) (fs : FileSystem) (source target : Bytes) : Prop where
  line : newline ∉ target
  seen : sanitize source ≠ sanitize target →
    fs.exist (st.peerPath source ".seen") = true ∨ st.loadSeen fs target = []
  port : sanitize source ≠ sanitize target →
    fs.exist (st.peerPath source ".lanport") = true ∨ st.loadLearnedPort fs target = 0
  shelf : sanitize source ≠ sanitize target → fs.exist (st.pipesDir source) = true →
    Plain (sanitize source) ∧ Plain (sanitize target) ∧
      Replaceable fs (st.pipesDir source) (st.pipesDir target)
  /-- a peer without registrations; those of ".." are the store's own files -/
  bare : sanitize source ≠ sanitize target → fs.exist (st.pipesDir source) = false →
    ∀ r ∈ st.listPipes fs target, sanitize target = dotdot ∧
      ∃ s ∈ [".conn", ".seen", ".lanport"], sanitize r.name = sanitize source ++ str s

/-! ## Reading by nodes -/

/-- What is read at a node. -/
def bytesAt (fs : FileSystem) (x : Path) : Option Bytes := (fs.node x).map fs.nodeBytes

theorem bytesAt_eq_none {fs : FileSystem} {x : Path} : bytesAt fs x = none ↔ fs.node x = none :=
  Option.map_eq_none_iff

/-- Where the registrations of a peer are looked for. -/
def spot (root : Path) (p : Bytes) : Path :=
  if sanitize p = dotdot then root
  else if sanitize p = dot then pipesName :: root else shelf root p

section Reading
variable {st : Store} {fs fs' : FileSystem} {root : Path} {p p' : Bytes}

theorem bytesAt_congr {x : Path} (node : fs'.node x = fs.node x)
    (data : ∀ i, fs.node x = some (.file i) → fs'.data i = fs.data i) :
    bytesAt fs' x = bytesAt fs x := by
  rw [bytesAt, bytesAt, node]
  cases hn : fs.node x with
  | none => rfl
  | some n =>
      cases n with
      | dir => rfl
      | file i => simp [nodeBytes, data i hn]

theorem read_ending (h : st.Rooted fs root) (p : Bytes) {s : String} (hs : s ∈ endings) :
    fs.read (st.peerPath p s) = bytesAt fs ((sanitize p ++ str s) :: root) := by
  rw [FileSystem.read, FileSystem.stat, resolve_ending h p hs, Option.bind_some, bytesAt]

theorem exist_ending (h : st.Rooted fs root) (p : Bytes) {s : String} (hs : s ∈ endings) :
    fs.exist (st.peerPath p s) = (bytesAt fs ((sanitize p ++ str s) :: root)).isSome := by
  rw [FileSystem.exist, FileSystem.stat, resolve_ending h p hs, Option.bind_some, bytesAt,
    Option.isSome_map]

theorem resolve_spot (h : st.At fs root) (p : Bytes) : fs.resolve (st.pipesDir p) =
    if fs.node (pipesName :: root) = some .dir then some (spot root p) else none := by
  rw [Store.pipesDir_eq, resolve_step (by simp) (slash_notMem_sanitize p), Store.resolve_pipes h,
    Option.bind_some, walk, spot]
  split
  · by_cases hup : sanitize p = dotdot
    · simp [hup, dotdot, dot, walk]
    · by_cases hdot : sanitize p = dot
      · simp [hdot, dot, dotdot, walk]
      · simp [hup, hdot, sanitize_ne_nil, walk, shelf]
  · rfl

theorem stat_pipesDir (h : st.At fs root) (p : Bytes) : fs.stat (st.pipesDir p) =
    if fs.node (pipesName :: root) = some .dir then fs.node (spot root p) else none := by
  rw [FileSystem.stat, resolve_spot h]
  split <;> rfl

theorem hidden_sanitize {n : Name} (h : Store.hidden n = false) :
    Store.hidden (sanitize n) = false := by
  cases n with
  | nil => cases h
  | cons c n =>
      have hc : c ≠ 46 := by
        rintro rfl
        cases h
      have hne : sanitizeByte c ≠ 46 := by
        rw [sanitizeByte]
        split
        · exact hc
        · decide
      simp [Store.hidden, sanitize, hne]

theorem plain_of_shown {n : Name} (h : Store.hidden n = false) : Plain (sanitize n) :=
  plain_of_not_hidden (hidden_sanitize h) (sanitize_idem n)

/-- The registrations are read from the spot. -/
theorem listPipes_eq (h : st.At fs root) (p : Bytes) : st.listPipes fs p =
    if fs.node (pipesName :: root) = some .dir ∧ fs.node (spot root p) = some .dir then
      ((fs.entries (spot root p)).filter fun n => !Store.hidden n).filterMap fun n =>
        (bytesAt fs (sanitize n :: spot root p)).bind (parsePipe p n)
    else [] := by
  rw [Store.listPipes, FileSystem.readdir, resolve_spot h]
  by_cases hpipes : fs.node (pipesName :: root) = some .dir
  · rw [if_pos hpipes, Option.bind_some]
    by_cases hspot : fs.node (spot root p) = some .dir
    · rw [if_pos hspot, if_pos ⟨hpipes, hspot⟩, Option.getD_some]
      refine List.filterMap_congr fun n hn => ?_
      have plain := plain_of_shown (by simpa using (List.mem_filter.mp hn).2)
      rw [Store.loadPipe, FileSystem.read, FileSystem.stat, Store.pipePath,
        fs.resolve_child (by simp [Store.pipesDir]) plain, resolve_spot h, if_pos hpipes,
        Option.bind_some, if_pos hspot, Option.bind_some, bytesAt]
    · rw [if_neg hspot, if_neg fun e => hspot e.2]
      rfl
  · rw [if_neg hpipes, if_neg fun e => hpipes e.1]
    rfl

theorem parsePipe_peer (p p' n b : Bytes) :
    parsePipe p' n b = (parsePipe p n b).map fun r => { r with peer := p' } := by
  rw [parsePipe, parsePipe]
  split
  · rfl
  · split <;> rfl

/-- Directories that show the same files are listed alike. -/
theorem shown_eq {d d' : Path} (same : ∀ n : Name, Store.hidden n = false →
    (fs'.node (n :: d') ≠ none ↔ fs.node (n :: d) ≠ none)) :
    (fs'.entries d').filter (fun n => !Store.hidden n) =
      (fs.entries d).filter fun n => !Store.hidden n := by
  have perm : ((fs'.entries d').filter fun n => !Store.hidden n).Perm
      ((fs.entries d).filter fun n => !Store.hidden n) := by
    rw [List.perm_ext_iff_of_nodup ((fs'.entries_nodup d').filter _)
      ((fs.entries_nodup d).filter _)]
    intro n
    simp only [List.mem_filter, mem_entries, Bool.not_eq_true']
    exact and_congr_left fun hn => same n hn
  refine perm.eq_of_pairwise (fun a b _ _ hab hba => ?_) ((fs'.entries_sorted d').filter _)
    ((fs.entries_sorted d).filter _)
  have swap : compare a b = (compare b a).swap := Std.OrientedCmp.eq_swap
  rw [hab, hba] at swap
  cases swap

theorem listPipes_congr (h : st.At fs root) (h' : st.At fs' root)
    (there : fs'.node (pipesName :: root) = some .dir ∧ fs'.node (spot root p') = some .dir ↔
      fs.node (pipesName :: root) = some .dir ∧ fs.node (spot root p) = some .dir)
    (same : ∀ n : Name, Store.hidden n = false →
      bytesAt fs' (n :: spot root p') = bytesAt fs (n :: spot root p)) :
    st.listPipes fs' p' = (st.listPipes fs p).map fun r => { r with peer := p' } := by
  rw [listPipes_eq h, listPipes_eq h', if_congr there rfl rfl]
  split
  · rw [shown_eq fun n hn => ?_, List.map_filterMap]
    · refine List.filterMap_congr fun n hn => ?_
      have shown := hidden_sanitize (by simpa using (List.mem_filter.mp hn).2)
      rw [same _ shown]
      cases bytesAt fs (sanitize n :: spot root p) with
      | none => rfl
      | some b => exact parsePipe_peer p p' n b
    · refine not_congr (bytesAt_eq_none.symm.trans ?_)
      rw [same n hn]
      exact bytesAt_eq_none
  · rfl

end Reading

/-! ## The files moved -/

/-- Only the files with these forms and endings are other than before. -/
def Around (root : Path) (files : List (Name × String)) (fs fs' : FileSystem) : Prop :=
  ∀ q : Path, (∀ e ∈ files, q ≠ (e.1 ++ str e.2) :: root) →
    fs'.node q = fs.node q ∧ bytesAt fs' q = bytesAt fs q

section Stages
variable {st : Store} {fs fs' fs'' : FileSystem} {root : Path}

theorem Around.trans {files files' : List (Name × String)} (h : Around root files fs fs')
    (h' : Around root files' fs' fs'') : Around root (files ++ files') fs fs'' := by
  intro q hq
  obtain ⟨node, bytes⟩ := h q fun e he => hq e (List.mem_append_left files' he)
  obtain ⟨node', bytes'⟩ := h' q fun e he => hq e (List.mem_append_right files he)
  exact ⟨node'.trans node, bytes'.trans bytes⟩

/-- A file that is not among them. -/
theorem Around.file {files : List (Name × String)} (h : Around root files fs fs')
    (endings_ : ∀ e ∈ files, e.2 ∈ endings) (p : Bytes) {t : String}
    (ht : t ∈ [".conn", ".seen", ".lanport"]) (out : ∀ e ∈ files, e.2 = t → e.1 ≠ sanitize p) :
    bytesAt fs' ((sanitize p ++ str t) :: root) = bytesAt fs ((sanitize p ++ str t) :: root) := by
  refine (h _ fun e he same => ?_).2
  obtain ⟨ending, form⟩ := ending_inj (endings_ e he) ht (List.cons.inj same).1.symm
  exact out e he ending form

theorem Around.of_data {files : List (Name × String)}
    (node : ∀ q : Path, (∀ e ∈ files, q ≠ (e.1 ++ str e.2) :: root) → fs'.node q = fs.node q)
    (data : fs'.data = fs.data) : Around root files fs fs' :=
  fun q hq => ⟨node q hq, bytesAt_congr (node q hq) fun i _ => by rw [data]⟩

theorem discard_tidy (h : st.Tidy fs root) (p : Bytes) {s : String} (hs : s ∈ endings) :
    st.Tidy (Store.discard fs (st.peerPath p s)) root ∧
      bytesAt (Store.discard fs (st.peerPath p s)) ((sanitize p ++ str s) :: root) = none ∧
      Around root [(sanitize p, s)] fs (Store.discard fs (st.peerPath p s)) := by
  refine ⟨h.sparse (sparse_discard h p hs), ?_⟩
  have hr := resolve_ending h.toRooted p hs
  cases hn : fs.node ((sanitize p ++ str s) :: root) with
  | none =>
      rw [Store.discard_missing hr hn]
      exact ⟨bytesAt_eq_none.mpr hn, fun q _ => ⟨rfl, rfl⟩⟩
  | some n =>
      cases n with
      | dir => exact absurd hn (h.no_dir p hs)
      | file i =>
          obtain ⟨fs', hrm, hnode, hdata, -⟩ :=
            remove_file hr hn (lastPlain_child (plain_ending p hs))
          rw [Store.discard, hrm, Option.getD_some]
          refine ⟨bytesAt_eq_none.mpr (by rw [hnode, if_pos rfl]), .of_data (fun q hq => ?_) hdata⟩
          rw [hnode, if_neg (hq _ (List.mem_singleton_self _)).symm]

theorem move_tidy (h : st.Tidy fs root) {a b : Bytes} {s : String} (hs : s ∈ endings)
    (apart : sanitize a ≠ sanitize b) (fs' : FileSystem)
    (moved : fs' = (fs.rename (st.peerPath a s) (st.peerPath b s)).getD fs) :
    st.Tidy fs' root ∧ bytesAt fs' ((sanitize a ++ str s) :: root) = none ∧
      bytesAt fs' ((sanitize b ++ str s) :: root) =
        (bytesAt fs ((sanitize a ++ str s) :: root)).or
          (bytesAt fs ((sanitize b ++ str s) :: root)) ∧
      Around root [(sanitize a, s), (sanitize b, s)] fs fs' := by
  subst moved
  refine ⟨h.sparse (Sparse.getD fun _ hr => sparse_move h a b hs hs hr), ?_⟩
  have hra := resolve_ending h.toRooted a hs
  have hrb := resolve_ending h.toRooted b hs
  have names : sanitize a ++ str s ≠ sanitize b ++ str s := fun e =>
    apart (List.append_cancel_right e)
  cases hn : fs.node ((sanitize a ++ str s) :: root) with
  | none =>
      rw [rename_missing hra hn, Option.getD_none, bytesAt_eq_none.mpr hn]
      exact ⟨rfl, rfl, fun q _ => ⟨rfl, rfl⟩⟩
  | some n =>
      cases n with
      | dir => exact absurd hn (h.no_dir a hs)
      | file i =>
          obtain ⟨fs', hren, hnode, hdata, -⟩ := rename_file hra hrb names
            (lastPlain_child (plain_ending a hs)) (lastPlain_child (plain_ending b hs)) hn
            (h.no_dir b hs)
          rw [hren, Option.getD_some]
          refine ⟨?_, ?_, .of_data (fun q hq => ?_) hdata⟩
          · rw [bytesAt_eq_none, hnode, if_neg fun e => names (List.cons.inj e).1.symm, if_pos rfl]
          · simp [bytesAt, hnode, hn, nodeBytes, hdata]
          · rw [hnode, if_neg (hq (sanitize b, s) (by simp)).symm,
              if_neg (hq (sanitize a, s) (by simp)).symm]

/-- In a tidy store a record is always written. -/
theorem save_tidy (h : st.Tidy fs root) (r : ConnRecord) :
    ∃ fs', st.save fs r = (fs', none) ∧ st.Tidy fs' root ∧
      bytesAt fs' ((sanitize r.name ++ str ".conn") :: root) = some (recordBody r) ∧
      Around root [(sanitize r.name, ".conn"), (sanitize r.name, ".conn.tmp")] fs fs' := by
  have ht : ".conn.tmp" ∈ endings := by decide
  -- a temporary file that was left goes first
  obtain ⟨fs₀, hfs₀, free, around⟩ : ∃ fs₀, (fs.unlink (st.peerPath r.name ".conn.tmp")).getD fs =
      fs₀ ∧ fs₀.node ((sanitize r.name ++ str ".conn.tmp") :: root) = none ∧
        Around root [(sanitize r.name, ".conn.tmp")] fs fs₀ := by
    have hr := resolve_ending h.toRooted r.name ht
    cases hn : fs.node ((sanitize r.name ++ str ".conn.tmp") :: root) with
    | none =>
        refine ⟨fs, ?_, hn, fun q _ => ⟨rfl, rfl⟩⟩
        have hstat : fs.stat (st.peerPath r.name ".conn.tmp") = none := by
          rw [FileSystem.stat, hr]
          exact hn
        rw [unlink, hstat]
        rfl
    | some n =>
        cases n with
        | dir => exact absurd hn (h.no_dir r.name ht)
        | file i =>
            obtain ⟨fs₀, hrm, hnode, hdata, -⟩ := remove_file hr hn
              (lastPlain_child (plain_ending r.name ht))
            have hstat : fs.stat (st.peerPath r.name ".conn.tmp") = some (.file i) := by
              rw [FileSystem.stat, hr]
              exact hn
            refine ⟨fs₀, ?_, by rw [hnode, if_pos rfl], .of_data (fun q hq => ?_) hdata⟩
            · rw [unlink, hstat]
              simp only
              rw [show fs.remove (st.peerPath r.name ".conn.tmp") = some fs₀ from hrm]
              rfl
            · rw [hnode, if_neg (hq _ (List.mem_singleton_self _)).symm]
  have tidy₀ : st.Tidy fs₀ root := hfs₀ ▸ h.sparse (sparse_unlink h r.name ht)
  have same : st.save fs r = st.save fs₀ r := by
    have hstat : fs₀.stat (st.peerPath r.name ".conn.tmp") = none := by
      rw [FileSystem.stat, resolve_ending tidy₀.toRooted r.name ht]
      exact free
    have hun : (fs₀.unlink (st.peerPath r.name ".conn.tmp")).getD fs₀ = fs₀ := by
      rw [unlink, hstat]
      rfl
    simp only [Store.save, peerPath_tmp]
    rw [show ".conn" ++ ".tmp" = ".conn.tmp" from rfl, hfs₀, hun]
  obtain ⟨fs', i, hsave, saved⟩ := Store.save_free tidy₀.toAt r
    (by rw [connName, List.append_assoc]; exact free) (tidy₀.no_dir r.name (by decide))
  have tidy : st.Tidy fs' root := by
    have hsparse := sparse_save tidy₀ r
    rw [hsave] at hsparse
    exact tidy₀.sparse hsparse
  refine ⟨fs', same.trans hsave, tidy, ?_, ?_⟩
  · have hnode := saved.node ((sanitize r.name ++ str ".conn") :: root)
    rw [connName, if_pos rfl] at hnode
    rw [bytesAt, hnode]
    simp [nodeBytes, saved.data]
  · intro q hq
    obtain ⟨node, bytes⟩ := around q fun c hc => hq c (by simp_all)
    have hnode : fs'.node q = fs₀.node q := by
      rw [saved.node, connName, if_neg (hq (sanitize r.name, ".conn") (by simp)).symm]
    refine ⟨hnode.trans node, (bytesAt_congr hnode fun j hj => ?_).trans bytes⟩
    have hne : j ≠ i := by
      rintro rfl
      exact saved.fresh q hj
    rw [saved.data, Function.update_of_ne hne]

/-- The files a rename goes through. -/
def renameFiles (source target : Bytes) : List (Name × String) :=
  [(sanitize target, ".conn"), (sanitize target, ".conn.tmp"), (sanitize source, ".conn"),
    (sanitize source, ".seen"), (sanitize target, ".seen"), (sanitize source, ".lanport"),
    (sanitize target, ".lanport")]

/-- The record is in its new file and the files beside it are moved. -/
structure Filed (root : Path) (source target body : Bytes) (fs fs' : FileSystem) : Prop where
  conn : bytesAt fs' ((sanitize target ++ str ".conn") :: root) = some body
  gone : ∀ s ∈ [".conn", ".seen", ".lanport"],
    bytesAt fs' ((sanitize source ++ str s) :: root) = none
  beside : ∀ s ∈ [".seen", ".lanport"], bytesAt fs' ((sanitize target ++ str s) :: root) =
    (bytesAt fs ((sanitize source ++ str s) :: root)).or
      (bytesAt fs ((sanitize target ++ str s) :: root))
  around : Around root (renameFiles source target) fs fs'

theorem rename_files (h : st.Tidy fs root) {source target : Bytes} {r : ConnRecord}
    (load : st.load fs source = some r) (apart : sanitize source ≠ sanitize target)
    (free : st.exist fs target = false) :
    ∃ fs', st.rename fs source target =
        ((fs'.rename (st.pipesDir source) (st.pipesDir target)).getD fs', none) ∧
      st.Tidy fs' root ∧
      Filed root source target (recordBody { r with name := target }) fs fs' := by
  have paths : st.peerPath source ".conn" ≠ st.peerPath target ".conn" := by
    simpa [Store.peerPath] using apart
  obtain ⟨fs₁, hsave, tidy₁, conn₁, around₁⟩ := save_tidy h { r with name := target }
  obtain ⟨tidy₂, gone₂, around₂⟩ := discard_tidy tidy₁ source (s := ".conn") (by decide)
  generalize hfs₂ : Store.discard fs₁ (st.peerPath source ".conn") = fs₂ at tidy₂ gone₂ around₂
  obtain ⟨tidy₃, gone₃, beside₃, around₃⟩ :=
    move_tidy tidy₂ (s := ".seen") (by decide) apart _ rfl
  generalize hfs₃ : (fs₂.rename (st.peerPath source ".seen") (st.peerPath target ".seen")).getD fs₂
    = fs₃ at tidy₃ gone₃ beside₃ around₃
  obtain ⟨tidy₄, gone₄, beside₄, around₄⟩ :=
    move_tidy tidy₃ (s := ".lanport") (by decide) apart _ rfl
  generalize hfs₄ : (fs₃.rename (st.peerPath source ".lanport")
    (st.peerPath target ".lanport")).getD fs₃ = fs₄ at tidy₄ gone₄ beside₄ around₄
  refine ⟨fs₄, ?_, tidy₄, ?_, ?_, ?_, ((around₁.trans around₂).trans around₃).trans around₄⟩
  · simp only [Store.rename, load]
    rw [if_neg (by simp [free]), hsave]
    simp only
    rw [if_neg paths, hfs₂, hfs₃, hfs₄]
  · rw [around₄.file (by simp [endings]) target (by decide) (by simp),
      around₃.file (by simp [endings]) target (by decide) (by simp),
      around₂.file (by simp [endings]) target (by decide) (by simp [apart])]
    exact conn₁
  · intro s hs
    simp only [List.mem_cons, List.not_mem_nil, or_false] at hs
    rcases hs with rfl | rfl | rfl
    · rw [around₄.file (by simp [endings]) source (by decide) (by simp),
        around₃.file (by simp [endings]) source (by decide) (by simp)]
      exact gone₂
    · rw [around₄.file (by simp [endings]) source (by decide) (by simp)]
      exact gone₃
    · exact gone₄
  · have before : ∀ s ∈ [".seen", ".lanport"], ∀ p : Bytes,
        bytesAt fs₂ ((sanitize p ++ str s) :: root) =
          bytesAt fs ((sanitize p ++ str s) :: root) := by
      intro s hs p
      refine (around₁.trans around₂).file (by simp [endings]) p ?_ ?_
      · simp_all
      · simp only [List.mem_cons, List.not_mem_nil, or_false] at hs
        rcases hs with rfl | rfl <;> simp
    intro s hs
    simp only [List.mem_cons, List.not_mem_nil, or_false] at hs
    rcases hs with rfl | rfl
    · rw [around₄.file (by simp [endings]) target (by decide) (by simp), beside₃,
        before _ (by decide), before _ (by decide)]
    · rw [beside₄, around₃.file (by simp [endings]) source (by decide) (by simp),
        around₃.file (by simp [endings]) target (by decide) (by simp), before _ (by decide),
        before _ (by decide)]

end Stages

/-! ## The record read back -/

theorem splitField_suffix {l : Bytes} {kv : Bytes × Bytes} (h : splitField l = some kv) :
    kv.2 <:+ l := by
  fun_induction splitField l generalizing kv with
  | case1 a b rest hab =>
      cases h
      exact (List.suffix_cons b rest).trans (List.suffix_cons a (b :: rest))
  | case2 a b rest hab ih =>
      obtain ⟨kv', hkv, rfl⟩ := Option.map_eq_some_iff.mp h
      exact (ih hkv).trans (List.suffix_cons a (b :: rest))
  | case3 a => cases h
  | case4 => cases h

/-- A name that was read is one line. -/
theorem line_of_parseRecord {body : Bytes} {r : ConnRecord} (h : parseRecord body = some r) :
    newline ∉ r.name := by
  simp only [parseRecord] at h
  obtain ⟨name, hname, h⟩ := Option.bind_eq_some_iff.mp h
  obtain ⟨uid, -, h⟩ := Option.bind_eq_some_iff.mp h
  obtain ⟨ula, -, h⟩ := Option.bind_eq_some_iff.mp h
  obtain ⟨priv, -, h⟩ := Option.bind_eq_some_iff.mp h
  obtain ⟨pub, -, h⟩ := Option.bind_eq_some_iff.mp h
  obtain ⟨peer, -, h⟩ := Option.bind_eq_some_iff.mp h
  cases h
  obtain ⟨l₁, l₂, hl, -⟩ := List.lookup_eq_some_iff.mp hname
  have hmem : (str "name", name) ∈ (lines body).filterMap splitField := by
    rw [← List.mem_reverse, hl]
    simp
  obtain ⟨l, hline, hkv⟩ := List.mem_filterMap.mp hmem
  exact fun hn => newline_notMem_of_mem_lines hline ((splitField_suffix hkv).subset hn)

theorem strtol_range (base : Nat) (s : Bytes) :
    -2 ^ 63 ≤ strtol base s ∧ strtol base s < 2 ^ 63 := by
  rw [strtol]
  dsimp only
  split <;> omega

/-- A record that was read and gets another name is written so that it reads back if the name
is one line. -/
theorem renamed_record_iff {body target : Bytes} {r : ConnRecord} (h : parseRecord body = some r) :
    parseRecord (recordBody { r with name := target }) = some { r with name := target } ↔
      newline ∉ target := by
  constructor
  · exact fun reads => line_of_parseRecord reads
  · intro line
    have hinted : ∀ a ∈ r.addresses, (parseAddressHint a).isSome = true := hinted_of_parseRecord h
    refine parseRecord_writable ⟨line, hinted, ?_⟩
    simp only [parseRecord] at h
    obtain ⟨name, -, h⟩ := Option.bind_eq_some_iff.mp h
    obtain ⟨uid, -, h⟩ := Option.bind_eq_some_iff.mp h
    obtain ⟨ula, -, h⟩ := Option.bind_eq_some_iff.mp h
    obtain ⟨priv, -, h⟩ := Option.bind_eq_some_iff.mp h
    obtain ⟨pub, -, h⟩ := Option.bind_eq_some_iff.mp h
    obtain ⟨peer, -, h⟩ := Option.bind_eq_some_iff.mp h
    cases h
    exact strtol_range 10 _

/-! ## The registrations moved -/

section Shelves
variable {st : Store} {fs fs' : FileSystem} {root : Path} {source target : Bytes}

/-- Files as the store names them. -/
def Proper (files : List (Name × String)) : Prop :=
  ∀ e ∈ files, e.2 ∈ endings ∧ ∃ p : Bytes, e.1 = sanitize p

theorem proper_renameFiles (source target : Bytes) : Proper (renameFiles source target) := by
  intro e he
  simp only [renameFiles, List.mem_cons, List.not_mem_nil, or_false] at he
  rcases he with rfl | rfl | rfl | rfl | rfl | rfl | rfl <;> simp [endings]

/-- Above and below the records nothing is other than before. -/
theorem Around.other {files : List (Name × String)} (h : Around root files fs fs') {q : Path}
    (hq : q.length ≠ root.length + 1) : fs'.node q = fs.node q ∧ bytesAt fs' q = bytesAt fs q := by
  refine h q fun e _ => ?_
  rintro rfl
  exact hq rfl

theorem Around.pipes {files : List (Name × String)} (proper : Proper files)
    (h : Around root files fs fs') :
    fs'.node (pipesName :: root) = fs.node (pipesName :: root) := by
  refine (h _ fun e he same => ?_).1
  obtain ⟨ending, p, form⟩ := proper e he
  have name := (List.cons.inj same).1.symm
  rw [form] at name
  exact ending_ne_pipes p ending name

theorem Around.spot {files : List (Name × String)} (proper : Proper files)
    (h : Around root files fs fs') (p : Bytes) :
    fs'.node (spot root p) = fs.node (spot root p) := by
  rw [Peer.spot]
  split
  · exact (h.other (by omega)).1
  · split
    · exact h.pipes proper
    · refine (h.other ?_).1
      simp [shelf]

theorem Around.stat {files : List (Name × String)} (proper : Proper files)
    (h : Around root files fs fs') (at_ : st.At fs root) (at' : st.At fs' root) (p : Bytes) :
    fs'.stat (st.pipesDir p) = fs.stat (st.pipesDir p) := by
  rw [stat_pipesDir at_, stat_pipesDir at', h.pipes proper, h.spot proper]

/-- The directory of the registrations can be renamed. -/
structure Movable (st : Store) (fs : FileSystem) (source target : Bytes) : Prop where
  there : fs.exist (st.pipesDir source) = true
  old : Plain (sanitize source)
  new : Plain (sanitize target)
  free : Replaceable fs (st.pipesDir source) (st.pipesDir target)

theorem spot_plain {p : Bytes} (h : Plain (sanitize p)) : spot root p = shelf root p := by
  rw [spot, if_neg h.2.2.1, if_neg h.2.1]

/-- The call that moves them, as the nodes have it. -/
theorem movable_iff (h : st.At fs root) : Movable st fs source target ↔
    fs.node (pipesName :: root) = some .dir ∧ Plain (sanitize source) ∧ Plain (sanitize target) ∧
      ∃ n, fs.node (shelf root source) = some n ∧ fs.mayReplace n (shelf root target) = true := by
  by_cases plain : Plain (sanitize source) ∧ Plain (sanitize target)
  · obtain ⟨hs, ht⟩ := plain
    by_cases hpipes : fs.node (pipesName :: root) = some .dir
    · have stat : ∀ p, Plain (sanitize p) → fs.stat (st.pipesDir p) = fs.node (shelf root p) := by
        intro p hp
        rw [stat_pipesDir h, if_pos hpipes, spot_plain hp]
      have read : fs.node (shelf root target) = some .dir →
          fs.readdir (st.pipesDir target) = some (fs.entries (shelf root target)) := by
        intro hdir
        rw [FileSystem.readdir, resolve_spot h, if_pos hpipes, Option.bind_some, spot_plain ht,
          if_pos hdir]
      have same : ∀ n, fs.node (shelf root source) = some n →
          (Replaceable fs (st.pipesDir source) (st.pipesDir target) ↔
            fs.mayReplace n (shelf root target) = true) := by
        intro n hn
        rw [Replaceable, stat source hs, stat target ht, hn]
        cases hm : fs.node (shelf root target) with
        | none => cases n <;> simp [mayReplace, hm]
        | some m =>
            cases m with
            | dir => cases n <;> simp [mayReplace, hm, read hm]
            | file j => cases n <;> simp [mayReplace, hm]
      constructor
      · rintro ⟨there, -, -, free⟩
        rw [FileSystem.exist, stat source hs] at there
        obtain ⟨n, hn⟩ := Option.isSome_iff_exists.mp there
        exact ⟨hpipes, hs, ht, n, hn, (same n hn).mp free⟩
      · rintro ⟨-, -, -, n, hn, free⟩
        refine ⟨?_, hs, ht, (same n hn).mpr free⟩
        rw [FileSystem.exist, stat source hs, hn, Option.isSome_some]
    · constructor
      · rintro ⟨there, -, -, -⟩
        rw [FileSystem.exist, stat_pipesDir h, if_neg hpipes] at there
        cases there
      · exact fun e => absurd e.1 hpipes
  · exact ⟨fun e => absurd ⟨e.old, e.new⟩ plain, fun e => absurd ⟨e.2.1, e.2.2.1⟩ plain⟩

theorem moveShelf_isSome (h : st.At fs root) (apart : sanitize source ≠ sanitize target) :
    (fs.rename (st.pipesDir source) (st.pipesDir target)).isSome = true ↔
      Movable st fs source target := by
  rw [movable_iff h]
  have hs : Plain (sanitize source) → fs.node (pipesName :: root) = some .dir →
      fs.resolve (st.pipesDir source) = some (shelf root source) := by
    intro hp hpipes
    rw [resolve_spot h, if_pos hpipes, spot_plain hp]
  have ht : Plain (sanitize target) → fs.node (pipesName :: root) = some .dir →
      fs.resolve (st.pipesDir target) = some (sanitize target :: pipesName :: root) := by
    intro hp hpipes
    rw [resolve_spot h, if_pos hpipes, spot_plain hp]
    rfl
  have last : ∀ {p : Bytes}, Plain (sanitize p) → lastPlain (st.pipesDir p) = true := by
    intro p hp
    rw [Store.pipesDir_eq]
    exact lastPlain_child hp
  have same : ∀ {c d : Name}, c :: pipesName :: root <:+ d :: pipesName :: root → c = d :=
    fun hs => (List.cons.inj (hs.eq_of_length rfl)).1
  have other : shelf root source ≠ sanitize target :: pipesName :: root := fun e =>
    apart (List.cons.inj e).1
  have hapart : Apart (shelf root source) (sanitize target :: pipesName :: root) :=
    ⟨fun e => apart (same e), fun e => apart (same e).symm⟩
  constructor
  · intro done
    obtain ⟨fs', hren⟩ := Option.isSome_iff_exists.mp done
    obtain ⟨hla, hlb⟩ := rename_lastPlain hren
    have hpa := plain_of_lastPlain hla
    have hpb := plain_of_lastPlain hlb
    have hpipes : fs.node (pipesName :: root) = some .dir := by
      by_contra no
      rw [FileSystem.rename, resolve_spot h, if_neg no] at hren
      cases hren
    refine ⟨hpipes, hpa, hpb, ?_⟩
    rw [FileSystem.rename, hs hpa hpipes, ht hpb hpipes] at hren
    simp only at hren
    split at hren
    · cases hren
    · rename_i n hn
      rw [if_pos ⟨hla, hlb⟩, if_neg other,
        dif_pos ⟨hpipes, hapart⟩] at hren
      exact ⟨n, hn, (Option.ite_none_right_eq_some.mp hren).1⟩
  · rintro ⟨hpipes, hpa, hpb, n, hn, free⟩
    have free : fs.mayReplace n (sanitize target :: pipesName :: root) = true := free
    rw [FileSystem.rename, hs hpa hpipes, ht hpb hpipes]
    simp only [hn]
    rw [if_pos ⟨last hpa, last hpb⟩, if_neg other,
      dif_pos ⟨hpipes, hapart⟩, if_pos free, Option.isSome_some]

/-- What the call leaves. -/
theorem moveShelf_cases (h : st.At fs root) (apart : sanitize source ≠ sanitize target)
    (moved : fs' = (fs.rename (st.pipesDir source) (st.pipesDir target)).getD fs) :
    Movable st fs source target ∧ Store.Shifted fs fs' root source target ∨
      ¬ Movable st fs source target ∧ fs' = fs := by
  cases hren : fs.rename (st.pipesDir source) (st.pipesDir target) with
  | none =>
      refine .inr ⟨fun m => ?_, by rw [moved, hren, Option.getD_none]⟩
      have := (moveShelf_isSome h apart).mpr m
      rw [hren] at this
      cases this
  | some fs₁ =>
      have m := (moveShelf_isSome h apart).mp (by rw [hren, Option.isSome_some])
      refine .inl ⟨m, ?_, apart⟩
      obtain ⟨hpipes, hs, ht, -⟩ := (movable_iff h).mp m
      rw [moved, hren, Option.getD_some]
      have hres : ∀ {p : Bytes}, Plain (sanitize p) →
          fs.resolve (st.pipesDir p) = some (shelf root p) := by
        intro p hp
        rw [resolve_spot h, if_pos hpipes, spot_plain hp]
      exact rename_relocated (hres hs) (hres ht) (fun e => apart (List.cons.inj e).1) hren

/-- The files around do not matter to it. -/
theorem Around.movable_iff (h : Around root (renameFiles source target) fs fs')
    (at_ : st.At fs root) (at' : st.At fs' root) :
    Movable st fs' source target ↔ Movable st fs source target := by
  rw [Peer.movable_iff at', Peer.movable_iff at_, h.pipes (proper_renameFiles source target)]
  have far : ∀ (p : Bytes), (shelf root p).length ≠ root.length + 1 := by simp [shelf]
  have entries : fs'.entries (shelf root target) = fs.entries (shelf root target) := by
    refine entries_ext fun c => ?_
    rw [(h.other (by simp only [shelf, List.length_cons]; omega)).1]
  simp only [mayReplace, (h.other (far source)).1, (h.other (far target)).1, entries]

/-! ## Everything or nothing, exactly -/

theorem mem_listPipes (h : st.At fs root) {p : Bytes} {r : PipeRecord} :
    r ∈ st.listPipes fs p ↔
      (fs.node (pipesName :: root) = some .dir ∧ fs.node (spot root p) = some .dir) ∧
        ∃ n : Name, Store.hidden n = false ∧ fs.node (n :: spot root p) ≠ none ∧
          (bytesAt fs (sanitize n :: spot root p)).bind (parsePipe p n) = some r := by
  rw [listPipes_eq h]
  split
  · rename_i there
    simp only [List.mem_filterMap, List.mem_filter, mem_entries, Bool.not_eq_true', there,
      and_self, true_and]
    constructor
    · rintro ⟨n, ⟨hn, shown⟩, hr⟩
      exact ⟨n, shown, hn, hr⟩
    · rintro ⟨n, shown, hn, hr⟩
      exact ⟨n, ⟨hn, shown⟩, hr⟩
  · rename_i absent
    simp [absent]

theorem name_of_parsePipe {p n b : Bytes} {r : PipeRecord} (h : parsePipe p n b = some r) :
    r.name = n := by
  rw [parsePipe] at h
  split at h
  · cases h
  · split at h
    · cases h
    · cases h
      rfl

/-- What is listed for a peer that got no registrations. -/
theorem bare_iff (h : st.Tidy fs root) (h' : st.Tidy fs' root) {body : Bytes}
    (filed : Filed root source target body fs fs') :
    st.listPipes fs' target = [] ↔ ∀ r ∈ st.listPipes fs target, sanitize target = dotdot ∧
      ∃ s ∈ [".conn", ".seen", ".lanport"], sanitize r.name = sanitize source ++ str s := by
  have there : fs'.node (pipesName :: root) = some .dir ∧ fs'.node (spot root target) = some .dir ↔
      fs.node (pipesName :: root) = some .dir ∧ fs.node (spot root target) = some .dir := by
    have proper := proper_renameFiles source target
    rw [filed.around.pipes proper, filed.around.spot proper]
  by_cases up : sanitize target = dotdot
  · -- the entries of the store itself, of which the source's are gone
    have at_ : spot root target = root := if_pos up
    have kept : ∀ n : Name, Store.hidden n = false →
        (∀ s ∈ [".conn", ".seen", ".lanport"], n ≠ sanitize source ++ str s) →
          fs'.node (n :: root) = fs.node (n :: root) ∧
            bytesAt fs' (n :: root) = bytesAt fs (n :: root) := by
      intro n shown other
      refine filed.around _ fun e he same => ?_
      have name := (List.cons.inj same).1
      have own : ∀ s : String, n ≠ sanitize target ++ str s := by
        rintro s rfl
        rw [up] at shown
        cases shown
      simp only [renameFiles, List.mem_cons, List.not_mem_nil, or_false] at he
      rcases he with rfl | rfl | rfl | rfl | rfl | rfl | rfl
      · exact own _ name
      · exact own _ name
      · exact other ".conn" (by decide) name
      · exact other ".seen" (by decide) name
      · exact own _ name
      · exact other ".lanport" (by decide) name
      · exact own _ name
    have form : ∀ s : String, s ∈ [".conn", ".seen", ".lanport"] →
        sanitize (sanitize source ++ str s) = sanitize source ++ str s := by
      intro s hs
      refine sanitize_beside source ?_
      simp only [List.mem_cons, List.not_mem_nil, or_false] at hs
      rcases hs with rfl | rfl | rfl <;> decide
    have kept' : ∀ n : Name, Store.hidden n = false →
        (∀ s ∈ [".conn", ".seen", ".lanport"], sanitize n ≠ sanitize source ++ str s) →
          fs'.node (n :: root) = fs.node (n :: root) ∧
            bytesAt fs' (sanitize n :: root) = bytesAt fs (sanitize n :: root) := by
      intro n shown other
      refine ⟨(kept n shown ?_).1, (kept _ (hidden_sanitize shown) other).2⟩
      rintro s hs rfl
      exact other s hs (form s hs)
    rw [List.eq_nil_iff_forall_not_mem]
    constructor
    · intro none r hr
      refine ⟨up, ?_⟩
      by_contra other
      obtain ⟨dirs, n, shown, hn, hb⟩ := (mem_listPipes h.toAt).mp hr
      rw [at_] at hn hb
      obtain ⟨b, hb', hp⟩ := Option.bind_eq_some_iff.mp hb
      have hname := name_of_parsePipe hp
      have out : ∀ s ∈ [".conn", ".seen", ".lanport"], sanitize n ≠ sanitize source ++ str s :=
        fun s hs e => other ⟨s, hs, hname ▸ e⟩
      obtain ⟨node, bytes⟩ := kept' n shown out
      refine none r ((mem_listPipes h'.toAt).mpr ⟨there.mpr dirs, n, shown, ?_, ?_⟩)
      · rw [at_, node]
        exact hn
      · rw [at_, bytes]
        exact hb
    · intro all r hr
      obtain ⟨dirs, n, shown, hn, hb⟩ := (mem_listPipes h'.toAt).mp hr
      rw [at_] at hn hb
      obtain ⟨b, hb', hp⟩ := Option.bind_eq_some_iff.mp hb
      have hname := name_of_parsePipe hp
      have out : ∀ s ∈ [".conn", ".seen", ".lanport"], sanitize n ≠ sanitize source ++ str s := by
        intro s hs e
        rw [e, filed.gone s hs] at hb'
        cases hb'
      obtain ⟨node, bytes⟩ := kept' n shown out
      obtain ⟨-, s, hs, e⟩ := all r ((mem_listPipes h.toAt).mpr ⟨there.mp dirs, n, shown,
        by rw [at_, ← node]; exact hn, by rw [at_, ← bytes]; exact hb⟩)
      rw [hname] at e
      exact out s hs e
  · have far : ∀ n : Name, (n :: spot root target).length ≠ root.length + 1 := by
      intro n
      rw [spot, if_neg up]
      split
      · simp
      · simp only [shelf, List.length_cons]
        omega
    rw [listPipes_congr h.toAt h'.toAt there fun n _ => (filed.around.other (far n)).2,
      List.map_eq_nil_iff, List.eq_nil_iff_forall_not_mem]
    exact forall_congr' fun r => ⟨fun no hr => absurd hr no, fun all hr => up (all hr).1⟩

/-- A file read by a function that makes of nothing what it makes of a missing file. -/
theorem moved_file_iff {β : Type} (f : Bytes → β) (a b : Option Bytes) :
    f ((a.or b).getD []) = f (a.getD []) ↔ a.isSome = true ∨ f (b.getD []) = f [] := by
  cases a <;> simp

/-- The registrations all arrive, and nothing of them stays. -/
theorem shelf_moved_iff {fs₁ : FileSystem} (h : st.Tidy fs root) (h₁ : st.Tidy fs₁ root)
    (h' : st.Tidy fs' root) (apart : sanitize source ≠ sanitize target) {body : Bytes}
    (filed : Filed root source target body fs fs₁)
    (moved : fs' = (fs₁.rename (st.pipesDir source) (st.pipesDir target)).getD fs₁) :
    st.listPipes fs' target =
        (st.listPipes fs source).map (fun r => { r with peer := target }) ∧
      fs'.exist (st.pipesDir source) = false ↔
    (fs.exist (st.pipesDir source) = true → Plain (sanitize source) ∧
        Plain (sanitize target) ∧ Replaceable fs (st.pipesDir source) (st.pipesDir target)) ∧
      (fs.exist (st.pipesDir source) = false → ∀ r ∈ st.listPipes fs target,
        sanitize target = dotdot ∧
          ∃ s ∈ [".conn", ".seen", ".lanport"], sanitize r.name = sanitize source ++ str s) := by
  have around := filed.around
  have proper := proper_renameFiles source target
  have exist₁ : fs₁.exist (st.pipesDir source) = fs.exist (st.pipesDir source) := by
    rw [FileSystem.exist, FileSystem.exist, around.stat proper h.toAt h₁.toAt]
  have shelves := moveShelf_cases h₁.toAt apart moved
  rw [around.movable_iff h.toAt h₁.toAt] at shelves
  by_cases there : fs.exist (st.pipesDir source) = true
  · rcases shelves with ⟨m, shifted⟩ | ⟨stays, rfl⟩
    · refine ⟨fun _ => ⟨fun _ => ⟨m.old, m.new, m.free⟩, fun absent => ?_⟩, fun _ => ⟨?_, ?_⟩⟩
      · rw [there] at absent
        cases absent
      · have pipes : fs'.node (pipesName :: root) = fs.node (pipesName :: root) :=
          (shifted.above (by simp)).trans (around.pipes proper)
        have node : fs'.node (shelf root target) = fs₁.node (shelf root source) := by
          have := shifted.node [] (sanitize target)
          rwa [if_pos rfl] at this
        refine listPipes_congr h.toAt h'.toAt ?_ fun n _ => ?_
        · rw [pipes, spot_plain m.new, node, spot_plain m.old,
            (around.other (q := shelf root source) (by simp [shelf])).1]
        · have entry : fs'.node (n :: shelf root target) = fs₁.node (n :: shelf root source) := by
            have := shifted.node [n] (sanitize target)
            rwa [if_pos rfl] at this
          rw [spot_plain m.new, spot_plain m.old, bytesAt, entry,
            ← (around.other (q := n :: shelf root source)
              (by simp only [shelf, List.length_cons]; omega)).2, bytesAt]
          cases fs₁.node (n :: shelf root source) with
          | none => rfl
          | some m => cases m <;> simp [nodeBytes, shifted.relocated.data]
      · have node : fs'.node (shelf root source) = none := by
          have := shifted.node [] (sanitize source)
          rwa [if_neg apart, if_pos rfl] at this
        rw [FileSystem.exist, stat_pipesDir h'.toAt, spot_plain m.old, node]
        split <;> rfl
    · constructor
      · rintro ⟨-, absent⟩
        rw [exist₁, there] at absent
        cases absent
      · rintro ⟨shelf, -⟩
        obtain ⟨old, new, free⟩ := shelf there
        exact absurd ⟨there, old, new, free⟩ stays
  · have absent : fs.exist (st.pipesDir source) = false := Bool.not_eq_true _ ▸ there
    obtain rfl : fs' = fs₁ := by
      rcases shelves with ⟨m, -⟩ | ⟨-, same⟩
      · exact absurd m.there there
      · exact same
    have none : st.listPipes fs source = [] := by
      rw [listPipes_eq h.toAt, if_neg]
      rintro ⟨pipes, dir⟩
      rw [FileSystem.exist, stat_pipesDir h.toAt, if_pos pipes, dir] at there
      exact there rfl
    rw [none, List.map_nil, bare_iff h h₁ filed, exist₁]
    simp only [absent, Bool.false_eq_true, false_imp_iff, true_imp_iff, true_and, and_true]

/-- A name in the place of another form. -/
theorem moved_iff_apart (h : st.Tidy fs root) (apart : sanitize source ≠ sanitize target)
    (renames : st.Renames fs source target) :
    (st.rename fs source target).2 = none ∧
      (st.Moved fs (st.rename fs source target).1 source target ↔
        st.Transferable fs source target) := by
  obtain ⟨loads, free⟩ := renames
  have free := free.resolve_left apart
  obtain ⟨r, load⟩ := Option.isSome_iff_exists.mp loads
  obtain ⟨fs₁, hren, tidy₁, filed⟩ := rename_files h load apart free
  rw [hren]
  refine ⟨rfl, ?_⟩
  generalize hfs' : (fs₁.rename (st.pipesDir source) (st.pipesDir target)).getD fs₁ = fs'
  have tidy : st.Tidy fs' root := hfs' ▸ tidy₁.sparse (sparse_moveShelf tidy₁ source target)
  have shelves := moveShelf_cases tidy₁.toAt apart hfs'.symm
  rw [filed.around.movable_iff h.toAt tidy₁.toAt] at shelves
  -- the files beside the records are not touched again
  have near : ∀ c : Name, bytesAt fs' (c :: root) = bytesAt fs₁ (c :: root) := by
    intro c
    rcases shelves with ⟨-, shifted⟩ | ⟨-, rfl⟩
    · exact bytesAt_congr (shifted.above (by simp)) fun i _ => by rw [shifted.relocated.data]
    · rfl
  have record : st.load fs' target = (st.load fs source).map (fun r => { r with name := target }) ↔
      newline ∉ target := by
    obtain ⟨body, -, hparse⟩ := Option.bind_eq_some_iff.mp load
    rw [← renamed_record_iff hparse, load, Store.load, Store.parseFile,
      read_ending tidy.toRooted target (by decide), near, filed.conn]
    rfl
  have side : ∀ s ∈ [".seen", ".lanport"], ∀ {β : Type} (f : Bytes → β),
      f (st.beside fs' target s) = f (st.beside fs source s) ↔
        fs.exist (st.peerPath source s) = true ∨ f (st.beside fs target s) = f [] := by
    intro s hs β f
    have hend : s ∈ endings := own_ending s (by simp_all)
    simp only [Store.beside]
    rw [read_ending tidy.toRooted target hend, near, filed.beside s hs,
      read_ending h.toRooted source hend, read_ending h.toRooted target hend,
      exist_ending h.toRooted source hend]
    exact moved_file_iff f _ _
  have seen := side ".seen" (by decide) fun body => seenEntries body.length body
  have port := side ".lanport" (by decide) learnedPort
  have gone : ∀ s ∈ [".conn", ".seen", ".lanport"],
      fs'.exist (st.peerPath source s) = false := by
    intro s hs
    rw [exist_ending tidy.toRooted source (own_ending s hs), near, filed.gone s hs]
    rfl
  have pipes := shelf_moved_iff h tidy₁ tidy apart filed hfs'.symm
  constructor
  · intro moved
    have gonePipes := moved.gone apart (st.pipesDir source) (by simp [Store.ownPaths])
    obtain ⟨shelf, bare⟩ := pipes.mp ⟨moved.pipes, gonePipes⟩
    exact ⟨record.mp moved.record, fun _ => seen.mp moved.seen, fun _ => port.mp moved.port,
      fun _ => shelf, fun _ => bare⟩
  · intro ok
    obtain ⟨listed, gonePipes⟩ := pipes.mpr ⟨ok.shelf apart, ok.bare apart⟩
    refine ⟨record.mpr ok.line, seen.mpr (ok.seen apart), port.mpr (ok.port apart), listed,
      fun _ path hpath => ?_⟩
    simp only [Store.ownPaths, List.mem_cons, List.not_mem_nil, or_false] at hpath
    rcases hpath with rfl | rfl | rfl | rfl
    · exact gone _ (by decide)
    · exact gone _ (by decide)
    · exact gone _ (by decide)
    · exact gonePipes

/-- A name of the same form: the record is written again in its file. -/
theorem moved_iff_same (h : st.Tidy fs root) (form : sanitize source = sanitize target)
    (loads : (st.load fs source).isSome = true) :
    (st.rename fs source target).2 = none ∧
      (st.Moved fs (st.rename fs source target).1 source target ↔
        st.Transferable fs source target) := by
  obtain ⟨r, load⟩ := Option.isSome_iff_exists.mp loads
  obtain ⟨fs', hsave, tidy, conn, around⟩ := save_tidy h { r with name := target }
  have paths : ∀ s, st.peerPath source s = st.peerPath target s := by
    intro s
    rw [Store.peerPath, Store.peerPath, form]
  have hren : st.rename fs source target = (fs', none) := by
    simp only [Store.rename, load]
    rw [if_neg fun e => e.1 (paths ".conn"), hsave]
    simp only
    rw [if_pos (paths ".conn")]
  rw [hren]
  refine ⟨rfl, ?_⟩
  have record : st.load fs' target = (st.load fs source).map (fun r => { r with name := target }) ↔
      newline ∉ target := by
    obtain ⟨body, -, hparse⟩ := Option.bind_eq_some_iff.mp load
    rw [← renamed_record_iff hparse, load, Store.load, Store.parseFile,
      read_ending tidy.toRooted target (by decide), conn]
    rfl
  have side : ∀ s ∈ [".seen", ".lanport"], st.beside fs' target s = st.beside fs source s := by
    intro s hs
    have own : s ∈ [".conn", ".seen", ".lanport"] := List.mem_cons_of_mem _ hs
    rw [Store.beside, Store.beside, paths, read_ending tidy.toRooted target (own_ending s own),
      read_ending h.toRooted target (own_ending s own),
      around.file (by simp [endings]) target own]
    rintro e he rfl
    simp only [List.mem_cons, List.not_mem_nil, or_false] at he
    rcases he with rfl | rfl
    · exact absurd hs (by simp)
    · exact absurd hs (by simp)
  -- nothing that is listed is the record or its temporary file
  have listed : st.listPipes fs' target =
      (st.listPipes fs source).map fun r => { r with peer := target } := by
    have hspot : spot root source = spot root target := by
      rw [spot, spot, shelf, shelf, form]
    have proper : Proper [(sanitize target, ".conn"), (sanitize target, ".conn.tmp")] := by
      intro e he
      simp only [List.mem_cons, List.not_mem_nil, or_false] at he
      rcases he with rfl | rfl <;> simp [endings]
    refine listPipes_congr h.toAt tidy.toAt ?_ fun n shown => ?_
    · rw [around.pipes proper, around.spot proper, hspot]
    · rw [hspot]
      refine (around _ fun e he same => ?_).2
      obtain ⟨name, up⟩ := List.cons.inj same
      have up : sanitize target = dotdot := by
        by_contra other
        have hlen := congrArg List.length up
        rw [spot, if_neg other] at hlen
        split at hlen
        · simp at hlen
        · simp only [shelf, List.length_cons] at hlen
          omega
      simp only [List.mem_cons, List.not_mem_nil, or_false] at he
      rcases he with rfl | rfl
      · rw [name, up] at shown
        cases shown
      · rw [name, up] at shown
        cases shown
  constructor
  · intro moved
    refine ⟨record.mp moved.record, fun other => absurd form other, fun other => absurd form other,
      fun other => absurd form other, fun other => absurd form other⟩
  · intro ok
    refine ⟨record.mpr ok.line, ?_, ?_, listed, fun other => absurd form other⟩
    · rw [Store.loadSeen, Store.loadSeen, side _ (by decide)]
    · rw [Store.loadLearnedPort, Store.loadLearnedPort, side _ (by decide)]

/-- In any other case nothing happens. -/
theorem rename_refused (no : ¬ st.Renames fs source target) :
    (st.rename fs source target).1 = fs ∧ (st.rename fs source target).2 ≠ none := by
  rw [Store.rename]
  split
  · exact ⟨rfl, by simp⟩
  · rename_i r load
    have taken : sanitize source ≠ sanitize target ∧ st.exist fs target = true := by
      refine ⟨fun form => no ⟨by rw [load]; rfl, .inl form⟩, ?_⟩
      by_contra free
      exact no ⟨by rw [load]; rfl, .inr (Bool.eq_false_iff.mpr free)⟩
    have paths : st.peerPath source ".conn" ≠ st.peerPath target ".conn" := by
      simpa [Store.peerPath] using taken.1
    simp only
    rw [if_pos ⟨paths, taken.2⟩]
    exact ⟨rfl, by simp⟩

theorem Store.Tidy.atomic_iff (h : st.Tidy fs root) (source target : Bytes) :
    st.Atomic fs source target ↔
      (st.Renames fs source target → st.Transferable fs source target) := by
  by_cases renames : st.Renames fs source target
  · obtain ⟨done, moved⟩ : (st.rename fs source target).2 = none ∧
        (st.Moved fs (st.rename fs source target).1 source target ↔
          st.Transferable fs source target) := by
      by_cases form : sanitize source = sanitize target
      · exact moved_iff_same h form renames.1
      · exact moved_iff_apart h form renames
    constructor
    · exact fun atomic _ => moved.mp (atomic.1 done)
    · exact fun ok => ⟨fun _ => moved.mpr (ok renames), fun failed => absurd done failed⟩
  · obtain ⟨same, failed⟩ := rename_refused renames
    constructor
    · exact fun _ yes => absurd yes renames
    · exact fun _ => ⟨fun done => absurd done failed, fun _ => same⟩

/-- Whatever was done to a store that was empty, a rename moves everything or nothing if and
only if, when it happens, nothing is in its way. -/
theorem rename_atomic_iff (rooted : st.Rooted fs root)
    (bare : ∀ c : Name, fs.node (c :: root) = none) (ops : List PeerOp) (source target : Bytes) :
    st.Atomic (ops.foldl (PeerOp.run st) fs) source target ↔
      (st.Renames (ops.foldl (PeerOp.run st) fs) source target →
        st.Transferable (ops.foldl (PeerOp.run st) fs) source target) :=
  (Store.Tidy.run rooted bare ops).atomic_iff source target

end Shelves

namespace Sample

/-- A directory "s" and nothing in it. -/
def freshStore : FileSystem := empty.addDir (str "s") [] empty.node_nil

def echoPipe (peer name : Bytes) : PipeRecord := { peer, name, type := str "ECHO" }

theorem freshStore_bare (c : Name) : freshStore.node [c, str "s"] = none := by
  simp [freshStore, node_empty]

end Sample

open Sample

theorem rename_atomic_fresh :
    let st : Store := ⟨str "/s"⟩
    let ops : List PeerOp := [.save { name := str "a" }, .saveLearnedPort (str "a") 7,
      .savePipe (echoPipe (str "a") (str "p"))]
    st.Atomic (ops.foldl (PeerOp.run st) freshStore) (str "a") (str "b") := by
  intro st ops
  have there : (ops.foldl (PeerOp.run st) freshStore).exist (st.pipesDir (str "a")) = true := by
    decide +kernel
  have free : (ops.foldl (PeerOp.run st) freshStore).stat (st.pipesDir (str "b")) = none := by
    decide +kernel
  refine (rename_atomic_iff (rooted_slash (by decide)) freshStore_bare ops _ _).mpr fun _ => ?_
  refine ⟨by decide, fun _ => .inr (by decide +kernel), fun _ => .inl (by decide +kernel),
    fun _ _ => ⟨by decide, by decide, ?_⟩, fun _ absent => ?_⟩
  · rw [Replaceable, free]
    trivial
  · rw [there] at absent
    cases absent

/-- A registration of an earlier "b" that is never listed keeps its directory, and those of "a"
stay where they are. -/
theorem hidden_pipe_breaks_rename :
    ¬ ∀ (st : Store) (ops : List PeerOp) (source target : Bytes),
      st.Rooted freshStore [str "s"] →
        st.Atomic (ops.foldl (PeerOp.run st) freshStore) source target := by
  intro all
  have atomic := all ⟨str "/s"⟩ [.save { name := str "b" },
    .savePipe (echoPipe (str "b") (str ".x")), .remove (str "b"), .save { name := str "a" },
    .savePipe (echoPipe (str "a") (str "p"))] (str "a") (str "b") (rooted_slash (by decide))
  have lost := (atomic.1 (by decide +kernel)).pipes
  revert lost
  decide +kernel

end Splice.Peer
