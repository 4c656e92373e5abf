import Std.Data.ExtTreeMap
import Mathlib.Data.List.Basic
import Mathlib.Data.List.Infix
import Mathlib.Logic.Function.Basic

/-!
A file system of directories and regular files, without links. Files are inodes: a
name points at one, an open file keeps it alive after the name is gone. A path is a
byte string; `resolve` follows its components from the root or the working directory
and every one but the last must be a directory. Inside, a node is known by its names
from the leaf up, so a parent is a tail and a subtree a suffix.
-/

namespace Splice.Lib

abbrev Name := List UInt8
abbrev Path := List Name

inductive Node
  | dir
  | file (ino : Nat)
  deriving DecidableEq

/-- Every node but the root lies in a directory, and no two names share an inode. -/
structure FileSystem where
  tree : Std.ExtTreeMap Path Node
  /-- inode contents -/
  data : Nat → List UInt8
  /-- the next unused inode -/
  next : Nat
  /-- the working directory -/
  cwd : Path
  root_dir : tree[([] : Path)]? = some .dir
  parent_dir : ∀ {c : Name} {p : Path} {n : Node},
    tree[c :: p]? = some n → tree[p]? = some .dir
  ino_lt : ∀ {p : Path} {i : Nat}, tree[p]? = some (.file i) → i < next
  ino_inj : ∀ {p q : Path} {i : Nat},
    tree[p]? = some (.file i) → tree[q]? = some (.file i) → p = q

/-! ## Paths -/

def slash : UInt8 := 47

/-- The components of a path, empty ones included. -/
def comps : List UInt8 → List Name
  | [] => [[]]
  | b :: bs =>
      if b = slash then [] :: comps bs
      else match comps bs with
        | [] => [[b]]
        | c :: cs => (b :: c) :: cs

def dot : Name := [46]
def dotdot : Name := [46, 46]

/-- A component that names an entry of a directory. -/
def Plain (c : Name) : Prop := c ≠ [] ∧ c ≠ dot ∧ c ≠ dotdot ∧ slash ∉ c

instance (c : Name) : Decidable (Plain c) := inferInstanceAs (Decidable (_ ∧ _))

theorem comps_ne_nil (s : List UInt8) : comps s ≠ [] := by
  cases s with
  | nil => simp [comps]
  | cons b bs =>
      simp only [comps]
      split
      · simp
      · split <;> simp

theorem comps_append_slash (s t : List UInt8) :
    comps (s ++ slash :: t) = comps s ++ comps t := by
  induction s with
  | nil => simp [comps]
  | cons b bs ih =>
      simp only [List.cons_append, comps, ih]
      split
      · simp
      · cases h : comps bs with
        | nil => exact absurd h (comps_ne_nil bs)
        | cons c cs => simp

theorem comps_of_notMem {c : Name} (h : slash ∉ c) : comps c = [c] := by
  induction c with
  | nil => rfl
  | cons b bs ih =>
      simp only [List.mem_cons, not_or] at h
      simp [comps, Ne.symm h.1, ih h.2]

theorem Plain.append {c s : Name} (hc : Plain c) (hs : 2 < s.length) (h : slash ∉ s) :
    Plain (c ++ s) := by
  obtain ⟨_, _, _, hslash⟩ := hc
  have hlen : 2 < (c ++ s).length := by simp only [List.length_append]; omega
  refine ⟨fun e => ?_, fun e => ?_, fun e => ?_, by simp [hslash, h]⟩
  all_goals
    rw [e] at hlen
    simp [dot, dotdot] at hlen

namespace FileSystem
variable (fs : FileSystem)

def node (p : Path) : Option Node := fs.tree[p]?

@[simp] theorem node_nil : fs.node [] = some .dir := fs.root_dir

theorem node_parent {c : Name} {p : Path} {n : Node} (h : fs.node (c :: p) = some n) :
    fs.node p = some .dir := fs.parent_dir h

/-- Follow components from `cur`. -/
def walk : Path → List Name → Option Path
  | cur, [] => some cur
  | cur, c :: cs =>
      if fs.node cur = some .dir then
        if c = [] ∨ c = dot then walk cur cs
        else if c = dotdot then walk cur.tail cs
        else walk (c :: cur) cs
      else none

/-- The node a path names, whether or not it exists; `none` when a directory on the
way is missing. -/
def resolve (path : List UInt8) : Option Path :=
  if path = [] then none
  else fs.walk (if path.head? = some slash then [] else fs.cwd) (comps path)

theorem walk_append (cur : Path) (cs cs' : List Name) :
    fs.walk cur (cs ++ cs') = (fs.walk cur cs).bind fun d => fs.walk d cs' := by
  induction cs generalizing cur with
  | nil => simp [walk]
  | cons c cs ih =>
      simp only [List.cons_append, walk]
      split
      · split
        · exact ih _
        · split <;> exact ih _
      · rfl

theorem walk_plain {c : Name} (hc : Plain c) (cur : Path) :
    fs.walk cur [c] = if fs.node cur = some .dir then some (c :: cur) else none := by
  obtain ⟨h₁, h₂, h₃, _⟩ := hc
  simp [walk, h₁, h₂, h₃]

/-- An entry of the directory named by `t`. -/
theorem resolve_child {t : List UInt8} {c : Name} (ht : t ≠ []) (hc : Plain c) :
    fs.resolve (t ++ slash :: c) =
      (fs.resolve t).bind fun d => if fs.node d = some .dir then some (c :: d) else none := by
  have hhead : (t ++ slash :: c).head? = t.head? := by
    cases t with
    | nil => exact absurd rfl ht
    | cons b bs => rfl
  simp only [resolve, List.append_eq_nil_iff, reduceCtorEq, and_false, if_false, ht, hhead,
    comps_append_slash, comps_of_notMem hc.2.2.2, walk_append]
  congr 1
  funext d
  exact fs.walk_plain hc d

/-! ## Queries -/

def stat (path : List UInt8) : Option Node := (fs.resolve path).bind fs.node

def isDir (path : List UInt8) : Bool := fs.stat path = some .dir

def exist (path : List UInt8) : Bool := (fs.stat path).isSome

/-- The size of a directory's own entry. -/
def dirSize : Nat := 4096

def nodeSize : Node → Nat
  | .dir => dirSize
  | .file i => (fs.data i).length

/-- What reading a node from its start returns: a directory opens, and reads nothing. -/
def nodeBytes : Node → List UInt8
  | .dir => []
  | .file i => fs.data i

/-- The bytes behind a path opened for reading; `none` when it cannot be opened. -/
def read (path : List UInt8) : Option (List UInt8) := (fs.stat path).map fs.nodeBytes

/-- The names in the directory at `p`, in order. -/
def entries (p : Path) : List Name :=
  fs.tree.keys.filterMap fun
    | [] => none
    | c :: d => if d = p then some c else none

/-- `opendir` and `readdir`, without "." and ".."; `none` when it is no directory. -/
def readdir (path : List UInt8) : Option (List Name) :=
  (fs.resolve path).bind fun p => if fs.node p = some .dir then some (fs.entries p) else none

theorem mem_entries {p : Path} {c : Name} : c ∈ fs.entries p ↔ fs.node (c :: p) ≠ none := by
  have hmem : ∀ q : Path, q ∈ fs.tree.keys ↔ fs.node q ≠ none := by
    intro q
    rw [Std.ExtTreeMap.mem_keys, Std.ExtTreeMap.mem_iff_isSome_getElem?, node,
      Option.isSome_iff_ne_none]
  rw [entries, List.mem_filterMap, ← hmem]
  constructor
  · rintro ⟨q, hq, heq⟩
    cases q with
    | nil => cases heq
    | cons c' d =>
        simp only [Option.ite_none_right_eq_some, Option.some.injEq] at heq
        obtain ⟨rfl, rfl⟩ := heq
        exact hq
  · intro h
    exact ⟨c :: p, h, by simp⟩

theorem entries_nodup (p : Path) : (fs.entries p).Nodup := by
  rw [entries, List.Nodup, List.pairwise_filterMap]
  refine Std.ExtTreeMap.ordered_keys.imp ?_
  intro a b hab x hx y hy hxy
  cases a with
  | nil => cases hx
  | cons c d =>
      cases b with
      | nil => cases hy
      | cons c' d' =>
          simp only [Option.ite_none_right_eq_some, Option.some.injEq] at hx hy
          obtain ⟨rfl, rfl⟩ := hx
          obtain ⟨rfl, rfl⟩ := hy
          rw [hxy] at hab
          exact absurd (hab.symm.trans Std.ReflCmp.compare_self) (by decide)

/-! ## Changes of single nodes -/

section Insert
variable {t : Std.ExtTreeMap Path Node}

theorem getElem?_insertNode {p q : Path} {n : Node} :
    (t.insert p n)[q]? = if p = q then some n else t[q]? := by
  rw [Std.ExtTreeMap.getElem?_insert]
  simp only [Std.LawfulEqCmp.compare_eq_iff_eq]

theorem getElem?_eraseNode {p q : Path} :
    (t.erase p)[q]? = if p = q then none else t[q]? := by
  rw [Std.ExtTreeMap.getElem?_erase]
  simp only [Std.LawfulEqCmp.compare_eq_iff_eq]

end Insert

/-- Nothing but the root. -/
def empty : FileSystem where
  tree := (∅ : Std.ExtTreeMap Path Node).insert [] .dir
  data _ := []
  next := 0
  cwd := []
  root_dir := by simp
  parent_dir := by simp [getElem?_insertNode]
  ino_lt := by
    intro p i h
    rw [getElem?_insertNode] at h
    split at h <;> simp at h
  ino_inj := by
    intro p q i h
    rw [getElem?_insertNode] at h
    split at h <;> simp at h

/-- A new directory. -/
def addDir (c : Name) (p : Path) (hp : fs.node p = some .dir) : FileSystem where
  tree := fs.tree.insert (c :: p) .dir
  data := fs.data
  next := fs.next
  cwd := fs.cwd
  root_dir := by simpa [getElem?_insertNode] using fs.root_dir
  parent_dir := by
    intro c' p' n h
    rw [getElem?_insertNode] at h ⊢
    split at h
    · rename_i heq
      cases heq
      simpa [node] using hp
    · have hdir := fs.parent_dir h
      split
      · rfl
      · exact hdir
  ino_lt := by
    intro q i h
    rw [getElem?_insertNode] at h
    split at h
    · cases h
    · exact fs.ino_lt h
  ino_inj := by
    intro q q' i h h'
    rw [getElem?_insertNode] at h h'
    split at h
    · cases h
    · split at h'
      · cases h'
      · exact fs.ino_inj h h'

/-- A new empty file. -/
def addFile (c : Name) (p : Path) (hp : fs.node p = some .dir) (hc : fs.node (c :: p) = none) :
    FileSystem where
  tree := fs.tree.insert (c :: p) (.file fs.next)
  data := Function.update fs.data fs.next []
  next := fs.next + 1
  cwd := fs.cwd
  root_dir := by simpa [getElem?_insertNode] using fs.root_dir
  parent_dir := by
    intro c' p' n h
    rw [getElem?_insertNode] at h ⊢
    split at h
    · rename_i heq
      cases heq
      simpa [node] using hp
    · have hdir := fs.parent_dir h
      split
      · rename_i heq
        rw [← heq] at hdir
        exact absurd (hc.symm.trans hdir) (by simp)
      · exact hdir
  ino_lt := by
    intro q i h
    rw [getElem?_insertNode] at h
    split at h
    · cases h
      omega
    · have := fs.ino_lt h
      omega
  ino_inj := by
    intro q q' i h h'
    rw [getElem?_insertNode] at h h'
    split at h
    · cases h
      split at h'
      · simp_all
      · exact absurd (fs.ino_lt h') (Nat.lt_irrefl _)
    · split at h'
      · cases h'
        exact absurd (fs.ino_lt h) (Nat.lt_irrefl _)
      · exact fs.ino_inj h h'

/-- A file or an empty directory goes away. -/
def dropNode (p : Path) (hp : p ≠ []) (empty : ∀ c : Name, fs.node (c :: p) = none) :
    FileSystem where
  tree := fs.tree.erase p
  data := fs.data
  next := fs.next
  cwd := fs.cwd
  root_dir := by simpa [getElem?_eraseNode, hp] using fs.root_dir
  parent_dir := by
    intro c q n h
    rw [getElem?_eraseNode] at h ⊢
    split at h
    · cases h
    · split
      · rename_i heq
        have hnone := empty c
        rw [heq] at hnone
        exact absurd (hnone.symm.trans h) (by simp)
      · exact fs.parent_dir h
  ino_lt := by
    intro q i h
    rw [getElem?_eraseNode] at h
    split at h
    · cases h
    · exact fs.ino_lt h
  ino_inj := by
    intro q q' i h h'
    rw [getElem?_eraseNode] at h h'
    split at h
    · cases h
    · split at h'
      · cases h'
      · exact fs.ino_inj h h'

def setData (i : Nat) (b : List UInt8) : FileSystem :=
  { fs with data := Function.update fs.data i b }

theorem node_empty (q : Path) : empty.node q = if [] = q then some .dir else none := by
  rw [node, empty, getElem?_insertNode]
  simp

@[simp] theorem node_addDir {c : Name} {p : Path} (hp) (q : Path) :
    (fs.addDir c p hp).node q = if c :: p = q then some .dir else fs.node q :=
  getElem?_insertNode

@[simp] theorem node_addFile {c : Name} {p : Path} (hp hc) (q : Path) :
    (fs.addFile c p hp hc).node q = if c :: p = q then some (.file fs.next) else fs.node q :=
  getElem?_insertNode

@[simp] theorem node_dropNode {p : Path} (hp empty) (q : Path) :
    (fs.dropNode p hp empty).node q = if p = q then none else fs.node q :=
  getElem?_eraseNode

@[simp] theorem node_setData (i : Nat) (b : List UInt8) (q : Path) :
    (fs.setData i b).node q = fs.node q := rfl

/-! ## Renaming a subtree -/

/-- Where `rename src dst` puts the node that was at `p`. -/
def moved (src dst p : Path) : Path :=
  if src <:+ p then p.take (p.length - src.length) ++ dst else p

theorem moved_below (src dst r : Path) : moved src dst (r ++ src) = r ++ dst := by
  simp [moved]

theorem moved_of_not_suffix {src dst p : Path} (h : ¬ src <:+ p) : moved src dst p = p := by
  simp [moved, h]

/-- Neither path lies below the other. -/
def Apart (p q : Path) : Prop := ¬ p <:+ q ∧ ¬ q <:+ p

instance (p q : Path) : Decidable (Apart p q) := inferInstanceAs (Decidable (_ ∧ _))

theorem Apart.not_suffix_append {p q r : Path} (h : Apart p q) : ¬ p <:+ r ++ q := by
  intro hp
  rcases List.suffix_or_suffix_of_suffix hp (List.suffix_append r q) with hpq | hqp
  · exact h.1 hpq
  · exact h.2 hqp

def graft (t : Std.ExtTreeMap Path Node) (src dst : Path) : Std.ExtTreeMap Path Node :=
  .ofList (t.toList.filterMap fun e =>
    if dst <:+ e.1 then none else some (moved src dst e.1, e.2)) compare

section Graft
variable {t : Std.ExtTreeMap Path Node} {src dst : Path}

private theorem moved_inj {p q : Path} (hp : ¬ dst <:+ p) (hq : ¬ dst <:+ q)
    (e : moved src dst p = moved src dst q) : p = q := by
  by_cases hsp : src <:+ p
  · obtain ⟨r, rfl⟩ := hsp
    rw [moved_below] at e
    by_cases hsq : src <:+ q
    · obtain ⟨r', rfl⟩ := hsq
      rw [moved_below] at e
      rw [List.append_cancel_right e]
    · rw [moved_of_not_suffix hsq] at e
      exact absurd (e ▸ List.suffix_append r dst) hq
  · rw [moved_of_not_suffix hsp] at e
    by_cases hsq : src <:+ q
    · obtain ⟨r', rfl⟩ := hsq
      rw [moved_below] at e
      exact absurd (e ▸ List.suffix_append r' dst) hp
    · rwa [moved_of_not_suffix hsq] at e

private theorem graft_distinct :
    List.Pairwise (fun a b => ¬ compare a.1 b.1 = Ordering.eq)
      (t.toList.filterMap fun e =>
        if dst <:+ e.1 then none else some (moved src dst e.1, e.2)) := by
  rw [List.pairwise_filterMap]
  refine Std.ExtTreeMap.distinct_keys_toList.imp ?_
  intro a b hab x hx y hy
  simp only [Option.ite_none_left_eq_some, Option.some.injEq] at hx hy
  obtain ⟨hda, rfl⟩ := hx
  obtain ⟨hdb, rfl⟩ := hy
  simp only [Std.LawfulEqCmp.compare_eq_iff_eq] at hab ⊢
  exact fun e => hab (moved_inj hda hdb e)

private theorem graft_some {q : Path} {n : Node} :
    (graft t src dst)[q]? = some n ↔
      ∃ p : Path, t[p]? = some n ∧ ¬ dst <:+ p ∧ moved src dst p = q := by
  constructor
  · intro hq
    by_contra hno
    have habsent : (graft t src dst)[q]? = none := by
      apply Std.ExtTreeMap.getElem?_ofList_of_contains_eq_false
      rw [Bool.eq_false_iff]
      intro hc
      rw [List.contains_iff_mem, List.mem_map] at hc
      obtain ⟨e, he, rfl⟩ := hc
      have hthere : (graft t src dst)[e.1]? = some e.2 :=
        Std.ExtTreeMap.getElem?_ofList_of_mem Std.ReflCmp.compare_self graft_distinct he
      have hsame : e.2 = n := Option.some.inj (hthere.symm.trans hq)
      rw [List.mem_filterMap] at he
      obtain ⟨a, ha, hae⟩ := he
      simp only [Option.ite_none_left_eq_some, Option.some.injEq] at hae
      obtain ⟨hda, rfl⟩ := hae
      exact hno ⟨a.1, Std.ExtTreeMap.mem_toList_iff_getElem?_eq_some.mp (hsame ▸ ha), hda, rfl⟩
    exact absurd (habsent.symm.trans hq) (by simp)
  · rintro ⟨p, hp, hd, rfl⟩
    apply Std.ExtTreeMap.getElem?_ofList_of_mem (k := moved src dst p)
      Std.ReflCmp.compare_self graft_distinct
    rw [List.mem_filterMap]
    exact ⟨(p, n), Std.ExtTreeMap.mem_toList_iff_getElem?_eq_some.mpr hp, by simp [hd]⟩

/-- What lay below `src` now lies below `dst`, and what lay below `dst` is gone. -/
theorem getElem?_graft (h : Apart src dst) (q : Path) :
    (graft t src dst)[q]? =
      if dst <:+ q then t[q.take (q.length - dst.length) ++ src]?
      else if src <:+ q then none else t[q]? := by
  refine Option.ext fun n => ?_
  rw [graft_some]
  split
  · rename_i hdq
    obtain ⟨r, rfl⟩ := hdq
    simp only [List.length_append, Nat.add_sub_cancel, List.take_left']
    constructor
    · rintro ⟨p, hp, hd, e⟩
      by_cases hsp : src <:+ p
      · obtain ⟨r', rfl⟩ := hsp
        rw [moved_below] at e
        rwa [← List.append_cancel_right e]
      · rw [moved_of_not_suffix hsp] at e
        exact absurd (e ▸ List.suffix_append r dst) hd
    · intro hn
      exact ⟨r ++ src, hn, Apart.not_suffix_append ⟨h.2, h.1⟩, moved_below src dst r⟩
  · rename_i hdq
    constructor
    · rintro ⟨p, hp, hd, rfl⟩
      by_cases hsp : src <:+ p
      · obtain ⟨r', rfl⟩ := hsp
        rw [moved_below] at hdq
        exact absurd (List.suffix_append r' dst) hdq
      · rw [moved_of_not_suffix hsp]
        simpa [hsp] using hp
    · split
      · intro hn
        cases hn
      · rename_i hsq
        exact fun hn => ⟨q, hn, hdq, moved_of_not_suffix hsq⟩

end Graft

/-- The subtree at `src` takes the place of whatever was at `c :: p`. -/
def moveNode (src : Path) (c : Name) (p : Path) (hp : fs.node p = some .dir)
    (apart : Apart src (c :: p)) : FileSystem where
  tree := graft fs.tree src (c :: p)
  data := fs.data
  next := fs.next
  cwd := moved src (c :: p) fs.cwd
  root_dir := by
    have hsrc : src ≠ [] := by
      rintro rfl
      exact apart.1 (List.nil_suffix)
    simpa [getElem?_graft apart, hsrc] using fs.root_dir
  parent_dir := by
    intro c' q n h
    have hbelow : src <:+ q → src <:+ c' :: q := fun hs => hs.trans (List.suffix_cons c' q)
    rw [getElem?_graft apart] at h ⊢
    split at h
    · rename_i hd
      rcases List.suffix_cons_iff.mp hd with heq | hd'
      · cases heq
        have hnot : ¬ c :: p <:+ p := fun hs => Nat.not_succ_le_self _ hs.length_le
        have hsrc : ¬ src <:+ p := fun hs => apart.1 (hbelow hs)
        simpa [hnot, hsrc, node] using hp
      · obtain ⟨r, rfl⟩ := hd'
        rw [if_pos (List.suffix_append r _)]
        have hlen : (c' :: (r ++ c :: p)).length - (c :: p).length = r.length + 1 := by
          simp only [List.length_cons, List.length_append]
          omega
        rw [hlen, List.take_succ_cons, List.take_left' rfl, List.cons_append] at h
        simpa using fs.parent_dir h
    · rename_i hd
      split at h
      · cases h
      · rename_i hs
        rw [if_neg fun hd' => hd (hd'.trans (List.suffix_cons c' q)),
          if_neg fun hs' => hs (hbelow hs')]
        exact fs.parent_dir h
  ino_lt := by
    intro q i h
    obtain ⟨p', hp', -⟩ := graft_some.mp h
    exact fs.ino_lt hp'
  ino_inj := by
    intro q q' i h h'
    obtain ⟨p₁, h₁, -, rfl⟩ := graft_some.mp h
    obtain ⟨p₂, h₂, -, rfl⟩ := graft_some.mp h'
    rw [fs.ino_inj h₁ h₂]

theorem node_moveNode {src : Path} {c : Name} {p : Path} (hp) (apart : Apart src (c :: p))
    (q : Path) : (fs.moveNode src c p hp apart).node q =
      if c :: p <:+ q then fs.node (q.take (q.length - (c :: p).length) ++ src)
      else if src <:+ q then none else fs.node q :=
  getElem?_graft apart q

/-! ## The calls -/

inductive Errno
  | noent
  | exist
  deriving DecidableEq

def mkdir (path : List UInt8) : Except Errno FileSystem :=
  match fs.resolve path with
  | none => .error .noent
  | some [] => .error .exist
  | some (c :: p) =>
      if fs.node (c :: p) = none then
        if hp : fs.node p = some .dir then .ok (fs.addDir c p hp) else .error .noent
      else .error .exist

/-- Open for writing, creating or truncating the file; the inode is returned. -/
def openTrunc (path : List UInt8) : Option (FileSystem × Nat) :=
  match fs.resolve path with
  | none | some [] => none
  | some (c :: p) =>
      match hc : fs.node (c :: p) with
      | some .dir => none
      | some (.file i) => some (fs.setData i [], i)
      | none =>
          if hp : fs.node p = some .dir then some (fs.addFile c p hp hc, fs.next) else none

/-- Open a file that must not exist yet. -/
def openExcl (path : List UInt8) : Option (FileSystem × Nat) :=
  if fs.exist path then none else fs.openTrunc path

/-- Open an existing file for update. -/
def openUpdate (path : List UInt8) : Option Nat :=
  match fs.stat path with
  | some (.file i) => some i
  | some .dir | none => none

/-- Make one directory on the way to a path: a missing one is created, an existing node
passes; `none` when neither works. -/
def mkdirTry (cur : List UInt8) : Option FileSystem :=
  if cur = [] ∨ cur = dot then some fs
  else match fs.mkdir cur with
    | .ok fs' => some fs'
    | .error .exist => some fs
    | .error .noent => none

/-- Make every directory on the way to a path, one for each cut before a slash and one for
the whole. `strict` stops at the first failure. -/
def mkdirsFrom (strict : Bool) (fs : FileSystem) (cur : List UInt8) :
    List UInt8 → FileSystem × Bool
  | [] =>
      match fs.mkdirTry cur with
      | some fs' => (fs', true)
      | none => (fs, false)
  | b :: rest =>
      if b = slash then
        match fs.mkdirTry cur with
        | some fs' => mkdirsFrom strict fs' (cur ++ [b]) rest
        | none => if strict then (fs, false) else mkdirsFrom strict fs (cur ++ [b]) rest
      else mkdirsFrom strict fs (cur ++ [b]) rest

/-- The calls that take a directory entry away or move it refuse "." and "..". -/
def lastPlain (path : List UInt8) : Bool :=
  match (comps path).getLast? with
  | none => false
  | some c => c ≠ dot ∧ c ≠ dotdot

/-- `remove(3)`: a file, or an empty directory. -/
def remove (path : List UInt8) : Option FileSystem :=
  match fs.resolve path with
  | none | some [] => none
  | some (c :: p) =>
      if fs.node (c :: p) ≠ none ∧ lastPlain path then
        if h : fs.entries (c :: p) = [] then
          some (fs.dropNode (c :: p) (List.cons_ne_nil c p) fun c' => by
            by_contra hne
            exact absurd ((fs.mem_entries).mpr hne) (by simp [h]))
        else none
      else none

/-- `unlink(2)`: files only. -/
def unlink (path : List UInt8) : Option FileSystem :=
  match fs.stat path with
  | some (.file _) => fs.remove path
  | some .dir | none => none

/-- `rmdir(2)`: empty directories only. -/
def rmdir (path : List UInt8) : Option FileSystem :=
  match fs.stat path with
  | some .dir => fs.remove path
  | some (.file _) | none => none

/-- May a node of this kind take the place of what is at `dst`? -/
def mayReplace (n : Node) (dst : Path) : Bool :=
  match n, fs.node dst with
  | _, none => true
  | .file _, some (.file _) => true
  | .dir, some .dir => fs.entries dst = []
  | .file _, some .dir | .dir, some (.file _) => false

def rename (old new : List UInt8) : Option FileSystem :=
  match fs.resolve old, fs.resolve new with
  | some src, some (c :: p) =>
      match fs.node src with
      | none => none
      | some n =>
          if lastPlain old ∧ lastPlain new then
            if src = c :: p then some fs
            else if h : fs.node p = some .dir ∧ Apart src (c :: p) then
              if fs.mayReplace n (c :: p) then some (fs.moveNode src c p h.1 h.2) else none
            else none
          else none
  | _, _ => none

end FileSystem
end Splice.Lib
