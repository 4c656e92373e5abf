import Splice.Peer.Transfer
import Splice.Peer.Confinement
import Splice.Lib.FileTree

/-!
An entry of a GET_FILE where nothing is in its way: afterwards the directory is as before, with the
file under its name. What lies beside it while it is received is gone then; what lies there from an
earlier attempt is gone on with, as long as it is the beginning of the file.
-/

namespace Splice.Peer
open Lib FileSystem

namespace Files
variable {w : Files}

/-- No call is refused, and no write. -/
structure Grants (w : Files) : Prop where
  calls : ∀ n, w.refuse n = false
  writes : ∀ n, w.full n = false

theorem call_grants (granted : w.Grants) {α : Type} (paths : List Bytes)
    (op : FileSystem → Option (FileSystem × α)) : (w.call paths op).2.Grants := by
  simp only [call]
  split
  · exact ⟨granted.calls, granted.writes⟩
  · exact ⟨granted.calls, granted.writes⟩

/-- A call that is not refused. -/
theorem call_granted (granted : w.Grants) {α : Type} (paths : List Bytes)
    (op : FileSystem → Option (FileSystem × α)) :
    (w.call paths op).1 = (op w.fs).map Prod.snd ∧
      (w.call paths op).2.fs = ((op w.fs).map Prod.fst).getD w.fs := by
  simp only [call, granted.calls, Bool.false_eq_true, if_false]
  cases op w.fs with
  | none => exact ⟨rfl, rfl⟩
  | some r => exact ⟨rfl, rfl⟩

theorem mkdir_granted (granted : w.Grants) {cur : Bytes} (text : 0 ∉ cur) :
    (if cur = [] ∨ cur = dot then w else w.mkdir cur).fs = (w.fs.mkdirTry cur).getD w.fs := by
  rw [mkdirTry]
  split
  · rfl
  · rw [mkdir, (call_granted granted _ _).2, cstr_eq text]
    cases w.fs.mkdir cur with
    | ok fs => rfl
    | error err => cases err <;> rfl

theorem mkdir_grants (granted : w.Grants) (cur : Bytes) :
    (if cur = [] ∨ cur = dot then w else w.mkdir cur).Grants := by
  split
  · exact granted
  · exact call_grants granted _ _

theorem mkdirs_grants (granted : w.Grants) (cur rest : Bytes) : (w.mkdirs cur rest).Grants := by
  induction rest generalizing w cur with
  | nil => exact mkdir_grants granted cur
  | cons b rest ih =>
      rw [mkdirs]
      split
      · exact ih (mkdir_grants granted cur) _
      · exact ih granted _

theorem mkdirs_granted (granted : w.Grants) {cur rest : Bytes}
    (text : 0 ∉ cur ++ rest) :
    (w.mkdirs cur rest).fs = (w.fs.mkdirsFrom false cur rest).1 := by
  induction rest generalizing w cur with
  | nil =>
      rw [List.append_nil] at text
      rw [mkdirs, mkdir_granted granted text, mkdirsFrom]
      cases w.fs.mkdirTry cur with
      | none => rfl
      | some fs => rfl
  | cons b rest ih =>
      have text' : 0 ∉ cur ++ [b] ++ rest := by
        rwa [List.append_assoc, List.singleton_append]
      rw [mkdirs, mkdirsFrom]
      split
      · have cut := mkdir_granted granted (fun hm => text (List.mem_append_left _ hm))
        rw [ih (mkdir_grants granted cur) text', cut]
        cases w.fs.mkdirTry cur with
        | none => rfl
        | some fs => rfl
      · exact ih granted text'

variable {path old new : Bytes} {fs' : FileSystem} {i : Nat}

theorem openTrunc_granted (granted : w.Grants) (text : 0 ∉ path)
    (h : w.fs.openTrunc path = some (fs', i)) :
    (w.openTrunc path).1 = some ⟨i, 0, []⟩ ∧ (w.openTrunc path).2.fs = fs' ∧
      (w.openTrunc path).2.Grants := by
  refine ⟨?_, ?_, call_grants granted _ _⟩
  · rw [openTrunc, (call_granted granted _ _).1, cstr_eq text, h]
    rfl
  · rw [openTrunc, (call_granted granted _ _).2, cstr_eq text, h]
    rfl

theorem openUpdate_granted (granted : w.Grants) (text : 0 ∉ path) (off : Nat)
    (h : w.fs.openUpdate path = some i) :
    (w.openUpdate path off).1 = some ⟨i, off, []⟩ ∧ (w.openUpdate path off).2.fs = w.fs ∧
      (w.openUpdate path off).2.Grants := by
  refine ⟨?_, ?_, call_grants granted _ _⟩
  · rw [openUpdate, (call_granted granted _ _).1, cstr_eq text, h]
    rfl
  · rw [openUpdate, (call_granted granted _ _).2, cstr_eq text, h]
    rfl

theorem writeText_granted (granted : w.Grants) (text : 0 ∉ path) {b : Bytes}
    (h : w.fs.openTrunc path = some (fs', i)) :
    (w.writeText path b).fs = fs'.setData i b ∧ (w.writeText path b).Grants := by
  refine ⟨?_, call_grants granted _ _⟩
  rw [writeText, (call_granted granted _ _).2, cstr_eq text, h]
  rfl

theorem remove_granted (granted : w.Grants) (text : 0 ∉ path)
    (h : w.fs.remove path = some fs') :
    (w.remove path).fs = fs' ∧ (w.remove path).Grants := by
  refine ⟨?_, call_grants granted _ _⟩
  rw [remove, (call_granted granted _ _).2, cstr_eq text, h]
  rfl

theorem rename_granted (granted : w.Grants) (text : 0 ∉ old) (text' : 0 ∉ new)
    (h : w.fs.rename old new = some fs') :
    ∃ w', w.rename old new = (true, w') ∧ w'.fs = fs' ∧ w'.Grants := by
  have call := call_granted granted [cstr old, cstr new] fun fs =>
    (fs.rename (cstr old) (cstr new)).map (·, ())
  have grants := call_grants granted [cstr old, cstr new] fun fs =>
    (fs.rename (cstr old) (cstr new)).map (·, ())
  simp only [rename]
  revert grants call
  cases w.call [cstr old, cstr new] fun fs => (fs.rename (cstr old) (cstr new)).map (·, ()) with
  | mk r w' =>
      rw [cstr_eq text, cstr_eq text', h]
      rintro ⟨rfl, moved⟩ grants
      exact ⟨w', rfl, moved, grants⟩

end Files

/-! ## Where a received file goes -/

/-- The components of a received path that count. -/
def namesOf (rel : Bytes) : List Name :=
  (comps rel).filter fun c => !(c = [] || c = dot || c = dotdot)

theorem safeRelpath_names {rel : Bytes} (some : namesOf rel ≠ []) :
    slash :: safeRelpath rel = joinPath (namesOf rel) := by
  rw [safeRelpath, joinPath_eq some]
  exact congrArg _ (if_neg some)

def partOf (c : Name) : Name := c ++ str ".part"

def metaOf (c : Name) : Name := c ++ str ".part.meta"

/-- The three names differ. -/
theorem names_differ (c : Name) : partOf c ≠ c ∧ metaOf c ≠ c ∧ metaOf c ≠ partOf c := by
  refine ⟨?_, ?_, ?_⟩ <;> simp [partOf, metaOf, str]

/-- Nothing is in the way of a file `x` of these names: no directory has its name or one of those
beside it, no file is on the way to it, what is kept of it is its beginning, and a file of its name
may be replaced. -/
structure Placeable (overwrite : Bool) (T : List Name → Option Bytes) (D : List Name → Prop)
    (k : List Name) (c : Name) (x : Bytes) : Prop where
  names : ∀ y ∈ k ++ [c], Plain y ∧ 0 ∉ y
  way : ∀ k', k' <+: k → T k' = none
  free : T (k ++ [c]) = none ∨ overwrite = true
  kept : ∀ y, T (k ++ [partOf c]) = some y → y <+: x
  dir : ¬ D (k ++ [c])
  dirPart : ¬ D (k ++ [partOf c])
  dirMeta : ¬ D (k ++ [metaOf c])

/-- How much of a kept `.part` is used. -/
def keptAt (T : List Name → Option Bytes) (k : List Name) (c : Name) (size : Nat) (sum : UInt32)
    (rel : Bytes) : Nat :=
  if (T (k ++ [partOf c])).isSome ∧ (T (k ++ [metaOf c])).isSome ∧
      scanMeta ((T (k ++ [metaOf c])).getD []) = some (size, sum, rel) ∧
      ((T (k ++ [partOf c])).getD []).length ≤ size then
    ((T (k ++ [partOf c])).getD []).length
  else 0

/-- The directory with the file in its place. -/
def placed (T : List Name → Option Bytes) (k : List Name) (c : Name) (x : Bytes) :
    List Name → Option Bytes :=
  Function.update
    (Function.update (Function.update T (k ++ [partOf c]) none) (k ++ [metaOf c]) none)
    (k ++ [c]) (some x)

theorem keptAt_pos {T : List Name → Option Bytes} {k : List Name} {c : Name} {size : Nat}
    {sum : UInt32} {rel : Bytes} (h : 0 < keptAt T k c size sum rel) :
    (∃ y, T (k ++ [partOf c]) = some y) ∧ (∃ txt, T (k ++ [metaOf c]) = some txt) ∧
      keptAt T k c size sum rel = ((T (k ++ [partOf c])).getD []).length := by
  rw [keptAt] at h ⊢
  split at h
  · rename_i used
    exact ⟨Option.isSome_iff_exists.mp used.1, Option.isSome_iff_exists.mp used.2.1, if_pos used⟩
  · cases h

namespace Placeable
variable {overwrite : Bool} {T : List Name → Option Bytes} {D : List Name → Prop} {k : List Name}
  {c : Name} {x : Bytes}

theorem plains (p : Placeable overwrite T D k c x) : ∀ y ∈ k, Plain y :=
  fun y hy => (p.names y (List.mem_append_left _ hy)).1

theorem plainName (p : Placeable overwrite T D k c x) : Plain c ∧ 0 ∉ c :=
  p.names c (List.mem_append_right _ List.mem_cons_self)

theorem plainPart (p : Placeable overwrite T D k c x) : Plain (partOf c) :=
  p.plainName.1.append (by decide) (by decide)

theorem plainMeta (p : Placeable overwrite T D k c x) : Plain (metaOf c) :=
  p.plainName.1.append (by decide) (by decide)

theorem text (p : Placeable overwrite T D k c x) {dir : Bytes} (hdir : 0 ∉ dir) {s : Name}
    (hs : 0 ∉ s) : 0 ∉ dir ++ joinPath (k ++ [c ++ s]) := by
  intro hm
  rcases List.mem_append.mp hm with hm | hm
  · exact hdir hm
  · refine zero_notMem_joinPath (fun y hy => ?_) hm
    rcases List.mem_append.mp hy with hy | hy
    · exact (p.names y (List.mem_append_left _ hy)).2
    · rw [List.mem_singleton.mp hy]
      intro hm
      exact (List.mem_append.mp hm).elim p.plainName.2 hs

theorem textName (p : Placeable overwrite T D k c x) {dir : Bytes} (hdir : 0 ∉ dir) :
    0 ∉ dir ++ joinPath (k ++ [c]) := by
  have := p.text (s := []) hdir (by simp)
  rwa [List.append_nil] at this

/-- Also once the directories on the way are there. -/
theorem within (p : Placeable overwrite T D k c x) :
    Placeable overwrite T (fun k' => D k' ∨ k' <+: k) k c x := by
  have off : ∀ {y : Name}, ¬ D (k ++ [y]) → ¬ (D (k ++ [y]) ∨ k ++ [y] <+: k) := by
    intro y hy h
    refine h.elim hy fun inside => ?_
    have := inside.length_le
    simp at this
  exact ⟨p.names, p.way, p.free, p.kept, off p.dir, off p.dirPart, off p.dirMeta⟩

/-- What is kept is the beginning of the file. -/
theorem kept_eq (p : Placeable overwrite T D k c x) (size : Nat) (sum : UInt32) (rel : Bytes) :
    x.take (keptAt T k c size sum rel) = if 0 < keptAt T k c size sum rel then
      (T (k ++ [partOf c])).getD [] else [] := by
  rw [keptAt]
  split
  · rename_i used
    obtain ⟨y, hy⟩ := Option.isSome_iff_exists.mp used.1
    rw [hy, Option.getD_some, ← List.prefix_iff_eq_take.mp (p.kept y hy)]
    split
    · rfl
    · rename_i none_
      exact List.length_eq_zero_iff.mp (Nat.eq_zero_of_not_pos none_)
  · rfl

end Placeable

/-! ## One entry -/

namespace GetFileEnd
variable {e : GetFileEnd} {w : Files} {dir : Bytes} {overwrite : Bool} {d : Path}
  {T : List Name → Option Bytes} {D : List Name → Prop} {k : List Name} {c : Name} {size : Nat}
  {sum : UInt32} {x y : Bytes}

/-- Nothing is wrong, and nothing has come of the next header. -/
structure Between (dir : Bytes) (overwrite : Bool) (e : GetFileEnd) (w : Files) : Prop where
  at_ : e.dir = dir
  may : e.overwrite = overwrite
  err : e.err = []
  going : e.done = false
  hdr : e.hdr = []
  header : e.state = .header
  closed : e.file = none
  granted : w.Grants

/-- The entry's bytes have come as far as `y`. -/
structure Taking (dir : Bytes) (overwrite : Bool) (d : Path) (T : List Name → Option Bytes)
    (D : List Name → Prop) (k : List Name) (c : Name) (size : Nat) (sum : UInt32) (y : Bytes)
    (e : GetFileEnd) (w : Files) : Prop where
  at_ : e.dir = dir
  may : e.overwrite = overwrite
  err : e.err = []
  going : e.done = false
  hdr : e.hdr = []
  recv : e.state = .recv
  dest : e.dest = dir ++ joinPath (k ++ [c])
  size : e.size = size
  wantCrc : e.wantCrc = sum
  got : e.got = y.length
  crc : e.crc = crc32Update 0 y
  granted : w.Grants
  /-- what was written is still buffered -/
  opened : ∃ i old new text, y = old ++ new ∧ e.file = some ⟨i, old.length, new⟩ ∧
    w.fs.data i = old ∧ w.fs.node ((k ++ [partOf c]).reverse ++ d) = some (.file i) ∧
    Shows dir d (Function.update (Function.update T (k ++ [partOf c]) (some old))
      (k ++ [metaOf c]) (some text)) D w.fs

theorem part_eq (hd : e.dest = dir ++ joinPath (k ++ [c])) :
    e.part = dir ++ joinPath (k ++ [partOf c]) ∧ e.meta_ = dir ++ joinPath (k ++ [metaOf c]) := by
  constructor
  · simp [part, hd, joinPath, partOf]
  · simp [meta_, hd, joinPath, metaOf]

/-- With its file closed the bytes are in it. -/
theorem Taking.closeFile (t : Taking dir overwrite d T D k c size sum y e w) :
    (e.closeFile w).2.Grants ∧ ∃ i text,
      (e.closeFile w).2.fs.node ((k ++ [partOf c]).reverse ++ d) = some (.file i) ∧
      (e.closeFile w).2.fs.data i = y ∧
      Shows dir d (Function.update (Function.update T (k ++ [partOf c]) (some y))
        (k ++ [metaOf c]) (some text)) D (e.closeFile w).2.fs := by
  obtain ⟨i, old, new, text, rfl, file, data, node, shows⟩ := t.opened
  obtain ⟨-, -, differ⟩ := names_differ c
  have closed : (e.closeFile w).2.fs = w.fs.setData i (old ++ new) := by
    simp only [GetFileEnd.closeFile, file, Files.fclose, Handle.fclose, Handle.flush,
      List.take_length, data]
    exact congrArg _ (writeAt_end old new)
  refine ⟨?_, i, text, ?_, ?_, ?_⟩
  · simp only [GetFileEnd.closeFile, file]
    exact ⟨t.granted.calls, t.granted.writes⟩
  · rw [closed]
    exact node
  · rw [closed, data_setData]
  · rw [closed]
    have whole := shows.setData node (old ++ new)
    rwa [Function.update_comm (by simpa using differ), Function.update_idem] at whole

/-- The bytes are complete and right. -/
theorem Taking.finishEntry (t : Taking dir overwrite d T D k c size (crc32Update 0 x) x e w)
    (ht : dir ≠ []) (text : 0 ∉ dir) (p : Placeable overwrite T D k c x) :
    Between dir overwrite (e.finishEntry w).1 (e.finishEntry w).2 ∧
      Shows dir d (placed T k c x) D (e.finishEntry w).2.fs ∧
      (e.finishEntry w).1.files = e.files + 1 := by
  obtain ⟨differ, differ', differ''⟩ := names_differ c
  obtain ⟨part, meta_⟩ := part_eq t.dest
  have textPart : 0 ∉ e.part := part ▸ p.text text (by decide)
  have textMeta : 0 ∉ e.meta_ := meta_ ▸ p.text text (by decide)
  obtain ⟨granted, i, txt, node, data, shows⟩ := t.closeFile
  -- it gets its name
  obtain ⟨fs₁, moved, shows₁⟩ :=
    shows.rename ht p.plains p.plainPart p.plainName.1 differ node p.dir
  rw [← part, ← t.dest] at moved
  obtain ⟨w₁, renamed, at₁, granted₁⟩ := Files.rename_granted granted textPart
    (t.dest ▸ p.textName text) moved
  -- and what lay beside it goes
  obtain ⟨fs₂, removed, shows₂⟩ := shows₁.remove (b := txt) ht p.plains p.plainMeta
    (by simp [differ', differ''])
  rw [← at₁, ← meta_] at removed
  obtain ⟨at₂, granted₂⟩ := Files.remove_granted granted₁ textMeta removed
  have end_ : e.finishEntry w = ({ e with file := none, files := e.files + 1, state := .header },
      w₁.remove e.meta_) := by
    have right : (e.closeFile w).1 = { e with file := none } := closeFile_fst e w
    have same : e.crc = e.wantCrc := t.crc.trans t.wantCrc.symm
    have moves : (e.closeFile w).2.rename ({ e with file := none } : GetFileEnd).part e.dest =
        (true, w₁) := renamed
    simp only [GetFileEnd.finishEntry, right]
    rw [if_neg (not_not.mpr same), moves]
    rfl
  rw [end_]
  refine ⟨⟨t.at_, t.may, t.err, t.going, t.hdr, rfl, rfl, granted₂⟩, ?_, rfl⟩
  rw [at₂]
  rw [data] at shows₂
  convert shows₂ using 1
  funext k'
  simp only [placed, Function.update_apply]
  by_cases here : k' = k ++ [c]
  · subst here
    simp [differ'.symm]
  · simp only [if_neg here]
    split_ifs <;> rfl

theorem dirnameOf_join (hc : slash ∉ c) (k : List Name) :
    dirnameOf (dir ++ joinPath (k ++ [c])) = dir ++ joinPath k := by
  have split : dir ++ joinPath (k ++ [c]) = (dir ++ joinPath k) ++ slash :: c := by simp [joinPath]
  rw [split, dirnameOf_append _ hc]

/-- The directories on the way are made. -/
theorem Between.destination (b : Between dir overwrite e w) (shows : Shows dir d T D w.fs)
    (ht : dir ≠ []) (text : 0 ∉ dir) (p : Placeable overwrite T D k c x)
    (named : namesOf e.relpath = k ++ [c]) :
    ∃ w', e.destination w = (dir ++ joinPath (k ++ [c]), w') ∧ w'.Grants ∧
      Shows dir d T (fun k' => D k' ∨ k' <+: k) w'.fs ∧
      w'.fs.node (k.reverse ++ d) = some .dir := by
  have path : dir ++ [slash] ++ safeRelpath e.relpath = dir ++ joinPath (k ++ [c]) := by
    rw [List.append_assoc, List.singleton_append, safeRelpath_names (by simp [named]), named]
  have textK : 0 ∉ ([] : Bytes) ++ (dir ++ joinPath k) := by
    intro hm
    apply p.textName text
    rw [joinPath, List.flatMap_append, ← List.append_assoc]
    exact List.mem_append_left _ hm
  have isDir : w.fs.isDir (cstr e.dir) = true := by
    rw [b.at_, cstr_eq text, FileSystem.isDir, stat, shows.at_, Option.bind_some, shows.base]
    rfl
  obtain ⟨fs', made, shows', parent⟩ := shows.mkdirs false ht p.plains p.way
  have at_ := Files.mkdirs_granted b.granted textK
  rw [made] at at_
  refine ⟨w.mkdirs [] (dir ++ joinPath k), ?_,
    Files.mkdirs_grants b.granted _ _, ?_, ?_⟩
  · rw [GetFileEnd.destination, if_pos isDir, b.at_]
    simp only [path, dirnameOf_join p.plainName.1.2.2.2]
  · rwa [at_]
  · rwa [at_]

/-- How much of what is kept is used, and its checksum. -/
theorem resumeAt_shows (hd : e.dest = dir ++ joinPath (k ++ [c])) (shows : Shows dir d T D w.fs)
    (ht : dir ≠ []) (text : 0 ∉ dir) (p : Placeable overwrite T D k c x)
    (parent : w.fs.node (k.reverse ++ d) = some .dir) :
    e.resumeAt w.fs = (keptAt T k c e.size e.wantCrc e.relpath,
      crc32Update 0 (x.take (keptAt T k c e.size e.wantCrc e.relpath))) := by
  obtain ⟨part, meta_⟩ := part_eq hd
  have textPart : 0 ∉ e.part := part ▸ p.text text (by decide)
  have textMeta : 0 ∉ e.meta_ := meta_ ▸ p.text text (by decide)
  obtain ⟨exist, read, size⟩ := shows.queries ht p.plains p.plainPart parent p.dirPart
  obtain ⟨exist', read', -⟩ := shows.queries ht p.plains p.plainMeta parent p.dirMeta
  have sizes : ((w.fs.stat e.part).map w.fs.nodeSize).getD 0 =
      ((T (k ++ [partOf c])).getD []).length := by
    rw [part, size]
    cases T (k ++ [partOf c]) <;> rfl
  rw [p.kept_eq]
  simp only [resumeAt, crc32File, cstr_eq textPart, cstr_eq textMeta, sizes]
  rw [part, meta_, exist, exist', read, read', keptAt]
  by_cases known : (T (k ++ [partOf c])).isSome ∧ (T (k ++ [metaOf c])).isSome ∧
      scanMeta ((T (k ++ [metaOf c])).getD []) = some (e.size, e.wantCrc, e.relpath)
  · by_cases fits : ((T (k ++ [partOf c])).getD []).length ≤ e.size
    · rw [if_pos known, if_pos fits, if_pos ⟨known.1, known.2.1, known.2.2, fits⟩,
        List.take_length]
      split
      · rfl
      · rename_i none_
        rw [List.length_eq_zero_iff.mp (Nat.eq_zero_of_not_pos none_)]
    · rw [if_pos known, if_neg fits, if_neg fun all => fits all.2.2.2, if_neg (Nat.lt_irrefl 0)]
      rfl
  · rw [if_neg known, if_neg fun all => known ⟨all.1, all.2.1, all.2.2.1⟩,
      if_neg (Nat.lt_irrefl 0)]
    rfl

/-- The entry is gone on with, or two files are made. -/
theorem openPart_placeable (hd : e.dest = dir ++ joinPath (k ++ [c])) (at_ : e.dir = dir)
    (may : e.overwrite = overwrite) (err : e.err = []) (going : e.done = false) (hdr : e.hdr = [])
    (granted : w.Grants) (shows : Shows dir d T D w.fs) (ht : dir ≠ [])
    (text : 0 ∉ dir) (p : Placeable overwrite T D k c x)
    (parent : w.fs.node (k.reverse ++ d) = some .dir) :
    ∃ e' w', e.openPart w = e'.complete w' ∧ e'.files = e.files ∧
      Taking dir overwrite d T D k c e.size e.wantCrc
        (x.take (keptAt T k c e.size e.wantCrc e.relpath)) e' w' := by
  obtain ⟨differ, differ', differ''⟩ := names_differ c
  obtain ⟨part, meta_⟩ := part_eq hd
  have textPart : 0 ∉ e.part := part ▸ p.text text (by decide)
  have textMeta : 0 ∉ e.meta_ := meta_ ▸ p.text text (by decide)
  have resume := resumeAt_shows hd shows ht text p parent
  by_cases more : 0 < keptAt T k c e.size e.wantCrc e.relpath
  · -- what is kept is opened where it ends
    have kept := p.kept_eq e.size e.wantCrc e.relpath
    rw [if_pos more] at kept
    obtain ⟨⟨y, hy⟩, ⟨txt, htxt⟩, length⟩ := keptAt_pos more
    rw [hy, Option.getD_some] at kept length
    obtain ⟨i, there, data, node⟩ := shows.stat_file ht p.plains p.plainPart hy
    have found : w.fs.openUpdate e.part = some i := by
      rw [part, FileSystem.openUpdate, there]
    obtain ⟨handle, at₁, granted₁⟩ := Files.openUpdate_granted granted textPart
      (keptAt T k c e.size e.wantCrc e.relpath) found
    have begun : e.openPart w = ({ e with
        file := some ⟨i, keptAt T k c e.size e.wantCrc e.relpath, []⟩, crc := crc32Update 0 y,
        got := keptAt T k c e.size e.wantCrc e.relpath, state := .recv,
        sent := e.sent ++ str "RESUME " ++ decimal (keptAt T k c e.size e.wantCrc e.relpath) ++
          [newline] } : GetFileEnd).complete
          (w.openUpdate e.part (keptAt T k c e.size e.wantCrc e.relpath)).2 := by
      simp only [openPart, resume, kept]
      rw [if_pos more]
      simp only [handle]
      rfl
    have same : Function.update (Function.update T (k ++ [partOf c]) (some y))
        (k ++ [metaOf c]) (some txt) = T := by
      rw [← hy, Function.update_eq_self, ← htxt, Function.update_eq_self]
    rw [kept]
    refine ⟨_, _, begun, rfl, ⟨at_, may, err, going, hdr, rfl, hd, rfl, rfl, length, rfl, granted₁,
      ⟨i, y, [], txt, (List.append_nil y).symm, ?_, ?_, ?_, ?_⟩⟩⟩
    · rw [length]
    · rw [at₁]
      exact data
    · rw [at₁]
      exact node
    · rw [same, at₁]
      exact shows
  · have none_ := Nat.eq_zero_of_not_pos more
    rw [none_, List.take_zero] at resume ⊢
    obtain ⟨fs₁, i, opened, shows₁, node, parent₁, -⟩ :=
      shows.openTrunc ht p.plains p.plainPart parent p.dirPart
    rw [← part] at opened
    obtain ⟨handle, at₁, granted₁⟩ := Files.openTrunc_granted granted textPart opened
    obtain ⟨fs₂, j, opened', shows₂, node', -, kept⟩ := shows₁.openTrunc ht p.plains p.plainMeta
      parent₁ p.dirMeta
    rw [← meta_, ← at₁] at opened'
    obtain ⟨at₂, granted₂⟩ := Files.writeText_granted granted₁ textMeta
      (b := metaText e.size e.wantCrc e.relpath) opened'
    have written := shows₂.setData node' (metaText e.size e.wantCrc e.relpath)
    rw [Function.update_idem, ← at₂] at written
    have begun : e.openPart w = ({ e with
        file := some ⟨i, 0, []⟩, crc := 0, got := 0, state := .recv,
        sent := e.sent ++ str "RESUME " ++ decimal 0 ++ [newline] } : GetFileEnd).complete
          ((w.openTrunc e.part).2.writeText e.meta_ (metaText e.size e.wantCrc e.relpath)) := by
      simp only [openPart, resume, Nat.lt_irrefl, if_false, handle]
      rfl
    have still : ((w.openTrunc e.part).2.writeText e.meta_
        (metaText e.size e.wantCrc e.relpath)).fs.node ((k ++ [partOf c]).reverse ++ d) =
          some (.file i) := by
      rw [at₂]
      exact kept _ _ node
    have nothing := written.file still
    rw [Function.update_of_ne (by simp [differ''.symm]), Function.update_self] at nothing
    exact ⟨_, _, begun, rfl, ⟨at_, may, err, going, hdr, rfl, hd, rfl, rfl, rfl, rfl, granted₂,
      ⟨i, [], [], _, rfl, rfl, (Option.some.inj nothing).symm, still, written⟩⟩⟩

/-- Where nothing is in the way an entry is begun. -/
theorem Between.placeEntry (b : Between dir overwrite e w) (shows : Shows dir d T D w.fs)
    (ht : dir ≠ []) (text : 0 ∉ dir) (p : Placeable overwrite T D k c x)
    (named : namesOf e.relpath = k ++ [c]) :
    ∃ e' w', e.placeEntry w = e'.complete w' ∧ e'.files = e.files ∧
      Taking dir overwrite d T (fun k' => D k' ∨ k' <+: k) k c e.size e.wantCrc
        (x.take (keptAt T k c e.size e.wantCrc e.relpath)) e' w' := by
  obtain ⟨w', dest, granted, shows', parent⟩ := b.destination shows ht text p named
  have p' := p.within
  have free : (!e.overwrite && w'.fs.exist (cstr (dir ++ joinPath (k ++ [c])))) = false := by
    obtain ⟨exist, -⟩ := shows'.queries ht p.plains p.plainName.1 parent p'.dir
    rw [cstr_eq (p.textName text), exist, b.may]
    rcases p.free with none_ | may
    · rw [none_]
      exact Bool.and_false _
    · rw [may]
      rfl
  simp only [GetFileEnd.placeEntry, dest]
  rw [if_neg (by simp [free])]
  exact openPart_placeable (e := { e with dest := dir ++ joinPath (k ++ [c]) }) rfl b.at_ b.may
    b.err b.going b.hdr granted shows' ht text p' parent

theorem Between.ready (b : Between dir overwrite e w) : e.Ready :=
  ⟨fun _ => b.closed, fun h => RecvState.noConfusion (b.header.symm.trans h),
    fun h => RecvState.noConfusion (b.header.symm.trans h)⟩

/-- The header of an entry. -/
theorem Between.header_line (b : Between dir overwrite e w) (shows : Shows dir d T D w.fs)
    (ht : dir ≠ []) (text : 0 ∉ dir) (p : Placeable overwrite T D k c x) {rel : Bytes}
    (named : namesOf rel = k ++ [c]) (plain : newline ∉ headerLine size sum rel)
    (short : (headerLine size sum rel).length ≤ maxHeader)
    (parsed : parseHeader (headerLine size sum rel) = some (size, sum, rel)) :
    ∃ e' w', Taking dir overwrite d T (fun k' => D k' ∨ k' <+: k) k c size sum
        (x.take (keptAt T k c size sum rel)) e' w' ∧ e'.files = e.files ∧
      (e'.complete w').1.Ready ∧ ∀ rest,
        e.onTunnelData w (headerLine size sum rel ++ newline :: rest) =
          (e'.complete w').1.onTunnelData (e'.complete w').2 rest := by
  have begun : Between dir overwrite
      { e with hdr := [], size := size, wantCrc := sum, relpath := rel } w :=
    ⟨b.at_, b.may, b.err, b.going, rfl, b.header, b.closed, b.granted⟩
  obtain ⟨e', w', placed, files, taking⟩ := begun.placeEntry shows ht text p named
  have round : ∀ rest, e.round w (headerLine size sum rel ++ newline :: rest) =
      (e'.complete w', rest) := by
    intro rest
    have magic : str "SPLF2 " <+: headerLine size sum rel := by
      simp only [headerLine, List.append_assoc]
      exact List.prefix_append _ _
    rw [round_header b.header, b.hdr, scanHeader_whole plain short rest, List.nil_append]
    have other : headerLine size sum rel ≠ str "SPLF2-END" := headerLine_ne_endLine size sum rel
    simp only [handleHeader]
    rw [if_neg other, if_neg (by simp [magic]), parsed]
    simp only [placed]
  refine ⟨e', w', taking, files, ?_, fun rest => ?_⟩
  · have := b.ready.round b.err w (headerLine size sum rel ++ newline :: [])
    rwa [round] at this
  · rw [b.ready.onTunnelData w (by simp) b.going b.err, round]

/-- More of its bytes. -/
theorem Taking.write (t : Taking dir overwrite d T D k c size sum y e w) (z : Bytes) (n : Nat) :
    Taking dir overwrite d T D k c size sum (y ++ z) (e.write z) { w with writes := n } := by
  obtain ⟨i, old, new, text, rfl, file, data, node, shows⟩ := t.opened
  refine ⟨t.at_, t.may, t.err, t.going, t.hdr, t.recv, t.dest, t.size, t.wantCrc, ?_, ?_,
    ⟨t.granted.calls, t.granted.writes⟩,
    ⟨i, old, new ++ z, text, List.append_assoc .., ?_, data, node, shows⟩⟩
  · simp only [GetFileEnd.write, t.got, List.length_append]
  · simp only [GetFileEnd.write, t.crc, ← crc32Update_append]
  · simp only [GetFileEnd.write, file, Option.map_some, Handle.fwrite]

/-- A round with all that is missing, or with less. -/
theorem Taking.round (t : Taking dir overwrite d T D k c size sum y e w) (z rest : Bytes)
    (fits : (y ++ z).length ≤ size) (all : (y ++ z).length = size ∨ rest = []) :
    ∃ n, e.round w (z ++ rest) = ((e.write z).complete { w with writes := n }, rest) := by
  have keep : e.keep (z ++ rest) = z.length := by
    rw [keep, t.got, t.size]
    rw [List.length_append] at fits all ⊢
    rcases all with all | rfl
    · omega
    · rw [List.length_nil]
      omega
  obtain ⟨refused, -⟩ | ⟨n, round⟩ := round_recv t.recv w (z ++ rest)
  · rw [t.granted.writes] at refused
    cases refused
  · exact ⟨n, by rw [round, keep, List.take_left, List.drop_left]⟩

/-- The bytes that are missing, when there are any. -/
theorem Taking.body {z : Bytes}
    (t : Taking dir overwrite d T D k c (y ++ z).length (crc32Update 0 (y ++ z)) y e w)
    (ready : e.Ready) (more : z ≠ []) (ht : dir ≠ []) (text : 0 ∉ dir)
    (p : Placeable overwrite T D k c (y ++ z)) (rest : Bytes) :
    ∃ e' w', Between dir overwrite e' w' ∧ Shows dir d (placed T k c (y ++ z)) D w'.fs ∧
      e'.files = e.files + 1 ∧ e.onTunnelData w (z ++ rest) = e'.onTunnelData w' rest := by
  obtain ⟨n, round⟩ := t.round z rest le_rfl (.inl rfl)
  have written := t.write z n
  obtain ⟨between, shows, files⟩ := written.finishEntry ht text p
  refine ⟨_, _, between, shows, files, ?_⟩
  have full : (e.write z).got = (e.write z).size := written.got.trans written.size.symm
  rw [ready.onTunnelData w (by simp [more]) t.going t.err, round, complete, if_pos full]

section Entry
variable {rel : Bytes} (b : Between dir overwrite e w) (shows : Shows dir d T D w.fs)
  (ht : dir ≠ []) (text : 0 ∉ dir) (p : Placeable overwrite T D k c x)
  (named : namesOf rel = k ++ [c])
  (plain : newline ∉ headerLine x.length (crc32Update 0 x) rel)
  (short : (headerLine x.length (crc32Update 0 x) rel).length ≤ maxHeader)
  (parsed : parseHeader (headerLine x.length (crc32Update 0 x) rel) =
    some (x.length, crc32Update 0 x, rel))
include b shows ht text p named plain short parsed

/-- An entry: its header, and its bytes from where they are missing. -/
theorem Between.entry (rest : Bytes) : ∃ e' w', Between dir overwrite e' w' ∧
    Shows dir d (placed T k c x) (fun k' => D k' ∨ k' <+: k) w'.fs ∧ e'.files = e.files + 1 ∧
    e.onTunnelData w (headerLine x.length (crc32Update 0 x) rel ++ newline ::
      (x.drop (keptAt T k c x.length (crc32Update 0 x) rel) ++ rest)) =
        e'.onTunnelData w' rest := by
  obtain ⟨e₁, w₁, taking, files, ready, line⟩ :=
    b.header_line shows ht text p named plain short parsed
  have whole := List.take_append_drop (keptAt T k c x.length (crc32Update 0 x) rel) x
  by_cases none : x.drop (keptAt T k c x.length (crc32Update 0 x) rel) = []
  · rw [none, List.append_nil] at whole
    rw [whole] at taking
    obtain ⟨between, shows', more⟩ := taking.finishEntry ht text p.within
    refine ⟨_, _, between, shows', files ▸ more, ?_⟩
    have full : e₁.got = e₁.size := taking.got.trans taking.size.symm
    rw [line, complete, if_pos full, none, List.nil_append]
  · have missing : e₁.got ≠ e₁.size := by
      rw [taking.got, taking.size]
      rw [List.length_take]
      intro all
      exact none (List.drop_eq_nil_of_le (by omega))
    rw [complete, if_neg missing] at line ready
    have taking' : Taking dir overwrite d T (fun k' => D k' ∨ k' <+: k) k c
        (x.take (keptAt T k c x.length (crc32Update 0 x) rel) ++
          x.drop (keptAt T k c x.length (crc32Update 0 x) rel)).length
        (crc32Update 0 (x.take (keptAt T k c x.length (crc32Update 0 x) rel) ++
          x.drop (keptAt T k c x.length (crc32Update 0 x) rel)))
        (x.take (keptAt T k c x.length (crc32Update 0 x) rel)) e₁ w₁ := by
      rwa [whole]
    obtain ⟨e', w', between, shows', more, body⟩ := taking'.body ready none ht text
      (by rw [whole]; exact p.within) rest
    rw [whole] at shows'
    exact ⟨e', w', between, shows', files ▸ more, (line _).trans body⟩

/-- An entry whose bytes have come only in part. -/
theorem Between.partway {z : Bytes}
    (front : z <+: x.drop (keptAt T k c x.length (crc32Update 0 x) rel))
    (less : z ≠ x.drop (keptAt T k c x.length (crc32Update 0 x) rel)) :
    ∃ e' w', e.onTunnelData w (headerLine x.length (crc32Update 0 x) rel ++ newline :: z) =
        (e', w') ∧ e'.files = e.files ∧
      Taking dir overwrite d T (fun k' => D k' ∨ k' <+: k) k c x.length (crc32Update 0 x)
        (x.take (keptAt T k c x.length (crc32Update 0 x) rel) ++ z) e' w' := by
  obtain ⟨e₁, w₁, taking, files, ready, line⟩ :=
    b.header_line shows ht text p named plain short parsed
  have short : (x.take (keptAt T k c x.length (crc32Update 0 x) rel) ++ z).length < x.length := by
    have fewer : z.length < (x.drop (keptAt T k c x.length (crc32Update 0 x) rel)).length :=
      Nat.lt_of_le_of_ne front.length_le fun same => less (front.eq_of_length same)
    rw [List.length_drop] at fewer
    rw [List.length_append, List.length_take]
    omega
  have missing : e₁.got ≠ e₁.size := by
    rw [taking.got, taking.size]
    rw [List.length_append] at short
    omega
  rw [complete, if_neg missing] at line ready
  rw [line]
  by_cases none : z = []
  · subst none
    rw [onTunnelData_nil, List.append_nil]
    exact ⟨e₁, w₁, rfl, files, taking⟩
  · obtain ⟨n, round⟩ := taking.round z [] (Nat.le_of_lt short) (.inr rfl)
    rw [List.append_nil] at round
    have written := taking.write z n
    have missing' : (e₁.write z).got ≠ (e₁.write z).size := by
      rw [written.got, written.size]
      omega
    refine ⟨e₁.write z, _, ?_, files, written⟩
    rw [ready.onTunnelData w₁ none taking.going taking.err, round, complete, if_neg missing',
      onTunnelData_nil]

end Entry

end GetFileEnd
end Splice.Peer
