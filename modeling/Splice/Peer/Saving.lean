import Splice.Lib.FileEdits
import Splice.Peer.Layout
import Splice.Peer.RecordText

/-!
What the store reads back. A registration has one argument a line and no way to write a
newline, so it comes back exactly when no argument holds one. A record comes back whole,
and a save that fails leaves the one before: it only ever touches the temporary file.
-/

namespace Splice.Peer
open Lib FileSystem

/-! ## Registrations -/

theorem lines_args {args : List Bytes} :
    lines (args.flatMap fun a => a ++ [newline]) = args ↔ ∀ a ∈ args, newline ∉ a := by
  constructor
  · intro h a ha
    rw [← h] at ha
    exact newline_notMem_of_mem_lines ha
  · intro h
    induction args with
    | nil => rfl
    | cons a args ih =>
        rw [List.forall_mem_cons] at h
        rw [List.flatMap_cons, List.append_assoc, List.singleton_append, lines_append h.1, ih h.2]

namespace Store
variable {st : Store} {fs fs' : FileSystem}

/-- What is saved is the file that is read. -/
theorem loadPipe_savePipe {r : PipeRecord} (h : st.savePipe fs r = (fs', none)) :
    st.loadPipe fs' r.peer r.name = parsePipe r.peer r.name (pipeBody r) := by
  simp only [savePipe] at h
  split at h
  · cases h
  · split at h
    · cases h
    · rename_i hopen
      cases h
      rw [loadPipe, openTrunc_read hopen]
      rfl

/-- A registration the daemon can store comes back exactly when no argument holds a newline. -/
theorem loadPipe_eq_iff {src : SourceFs} {r : PipeRecord} {e : LocalEnd}
    (made : makeLocalEnd src r.type r.args = .ok e) (limit : r.limit < 2 ^ 32)
    (saved : st.savePipe fs r = (fs', none)) :
    st.loadPipe fs' r.peer r.name = some r ↔ ∀ a ∈ r.args, newline ∉ a := by
  rw [loadPipe_savePipe saved, parsePipe_pipeBody (PeerWorld.storable_of_makeLocalEnd made limit),
    ← lines_args, Option.some.injEq]
  constructor
  · exact congrArg PipeRecord.args
  · intro h
    rw [h]

end Store

namespace Sample

/-- A command of a program with a blank in one argument and another empty. -/
def printPipe : PipeRecord where
  peer := str "b"
  name := str "print"
  type := str "EXEC"
  limit := 3
  args := [str "printf", str "%s %s", []]

/-- A script of two lines for a shell. -/
def scriptPipe : PipeRecord :=
  { printPipe with args := [str "sh", str "-c", str "date" ++ newline :: str "uptime"] }

end Sample

namespace Store
open Sample

theorem loadPipe_eq_iff_print :
    ∃ fs', disk.store.savePipe disk.fs printPipe = (fs', none) ∧
      disk.store.loadPipe fs' printPipe.peer printPipe.name = some printPipe := by
  have saved : (disk.store.savePipe disk.fs printPipe).2 = none := by decide +kernel
  have made : makeLocalEnd noFiles printPipe.type printPipe.args =
      .ok (.exec printPipe.args false) := by
    decide
  refine ⟨_, Prod.ext rfl saved, ?_⟩
  exact (loadPipe_eq_iff made (by decide) (Prod.ext rfl saved)).mpr (by decide)

/-- The script comes back as two arguments. -/
theorem script_split : ¬ ∀ (st : Store) (fs fs' : FileSystem) (src : SourceFs) (r : PipeRecord)
    (e : LocalEnd), makeLocalEnd src r.type r.args = .ok e → r.limit < 2 ^ 32 →
    st.savePipe fs r = (fs', none) → st.loadPipe fs' r.peer r.name = some r := by
  intro h
  have saved : (disk.store.savePipe disk.fs scriptPipe).2 = none := by decide +kernel
  obtain ⟨fs', hsave⟩ : ∃ fs', disk.store.savePipe disk.fs scriptPipe = (fs', none) :=
    ⟨_, Prod.ext rfl saved⟩
  have hload := h disk.store disk.fs fs' noFiles scriptPipe (.exec scriptPipe.args false)
    (by decide) (by decide) hsave
  rw [loadPipe_savePipe hsave] at hload
  exact absurd hload (by decide)

end Store

/-! ## Saving a record -/

/-- What the system answers the calls of one save: whether the old temporary file is taken away,
the new one made, moved into place or cleared away, and what each write takes, everything that
is left once the list ends. -/
structure SaveAnswers where
  clears : Bool := true
  creates : Bool := true
  writes : List Int := []
  renames : Bool := true
  cleans : Bool := true

/-- The loop of writes: what they put into the file, and whether it is all of it. -/
def writeAll : List Int → Bytes → Bytes × Bool
  | [], left => (left, true)
  | n :: ns, left =>
      if left = [] then ([], true)
      else if n ≤ 0 then ([], false)
      else
        let rest := writeAll ns (left.drop n.toNat)
        (left.take n.toNat ++ rest.1, rest.2)

theorem writeAll_done {ns : List Int} {left : Bytes} (h : (writeAll ns left).2 = true) :
    (writeAll ns left).1 = left := by
  induction ns generalizing left with
  | nil => rfl
  | cons n ns ih =>
      simp only [writeAll] at h ⊢
      split
      · rename_i hleft
        exact hleft.symm
      · rename_i hleft
        rw [if_neg hleft] at h
        split at h
        · cases h
        · rename_i hn
          rw [if_neg hn]
          simp only [ih h, List.take_append_drop]

namespace Store
variable (st : Store) (fs : FileSystem)

def tmpPath (name : Bytes) : Bytes := st.peerPath name ".conn" ++ str ".tmp"

/-- `unlink`, its result ignored. -/
def dropTmp (granted : Bool) (tmp : Bytes) : FileSystem :=
  if granted then (fs.unlink tmp).getD fs else fs

/-- `save` under the answers of the system; with none refused it is `save`. -/
def saveAnswered (a : SaveAnswers) (r : ConnRecord) : FileSystem × Option Bytes :=
  let path := st.peerPath r.name ".conn"
  let tmp := st.tmpPath r.name
  let fs := dropTmp fs a.clears tmp
  match if a.creates then fs.openExcl tmp else none with
  | none => (fs, some (str "cannot create " ++ tmp))
  | some (fs, ino) =>
      let written := writeAll a.writes (recordBody r)
      let fs := fs.setData ino written.1
      if written.2 then
        match if a.renames then fs.rename tmp path else none with
        | none => (dropTmp fs a.cleans tmp, some (str "rename failed for " ++ path))
        | some fs => (fs, none)
      else (dropTmp fs a.cleans tmp, some (str "write failed for " ++ tmp))

variable {st : Store} {fs fs' : FileSystem} {name : Bytes} {r : ConnRecord} {a : SaveAnswers}

/-! ## The files of a record -/

def tmpName (name : Bytes) : Name := sanitize name ++ str ".conn.tmp"

theorem plain_tmpName (name : Bytes) : Plain (tmpName name) :=
  plain_beside name (by decide) (by decide)

theorem tmpPath_eq (st : Store) (name : Bytes) :
    st.tmpPath name = st.dir ++ slash :: tmpName name := by
  rw [tmpPath, peerPath, tmpName, List.append_assoc, List.cons_append, List.append_assoc]
  rfl

/-- No record lies in a temporary file. -/
theorem resolve_conn_ne_tmp {q : Path} (h : fs.resolve (st.tmpPath name) = some q)
    (name' : Bytes) : fs.resolve (st.peerPath name' ".conn") ≠ some q := by
  rw [tmpPath_eq] at h
  intro hq
  obtain ⟨p, rfl, -⟩ := resolve_sibling (plain_tmpName name) h
  obtain ⟨p', heq, -⟩ := resolve_sibling (plain_connName name') hq
  have hlast : (tmpName name).getLast? = (connName name').getLast? :=
    congrArg List.getLast? (List.cons.inj heq).1
  rw [tmpName, connName, List.getLast?_append_of_ne_nil _ (by decide),
    List.getLast?_append_of_ne_nil _ (by decide)] at hlast
  exact absurd hlast (by decide)

/-- What a save has done while its file has the temporary name. -/
structure Trying (q : Path) (fs fs' : FileSystem) : Prop where
  edits : Edits (· = q) fs fs'
  dirs : SameDirs fs fs'

theorem Trying.refl (q : Path) (fs : FileSystem) : Trying q fs fs := ⟨.refl _ fs, .refl fs⟩

theorem Trying.trans {q : Path} {fs'' : FileSystem} (h : Trying q fs fs') (h' : Trying q fs' fs'') :
    Trying q fs fs'' :=
  ⟨h.edits.trans h'.edits, h.dirs.trans h'.dirs⟩

/-- The records stay. -/
theorem Trying.load {q : Path} (h : Trying q fs fs') (hq : fs.resolve (st.tmpPath r.name) = some q)
    (name : Bytes) : st.load fs' name = st.load fs name := by
  rw [Store.load, Store.load, parseFile, parseFile, h.edits.read h.dirs]
  rintro p hp rfl
  exact resolve_conn_ne_tmp hq name hp

theorem dropTmp_trying {tmp : Bytes} {q : Path} (hr : fs.resolve tmp = some q) (granted : Bool) :
    Trying q fs (dropTmp fs granted tmp) := by
  rw [dropTmp]
  split
  · cases hu : fs.unlink tmp with
    | none => exact .refl q fs
    | some fs' =>
        simp only [unlink] at hu
        split at hu
        · rename_i i hi
          obtain ⟨p, hp, -, hedits, -, hdirs⟩ := remove_edits hu
          rw [hr, Option.some.injEq] at hp
          subst hp
          rw [stat, hr, Option.bind_some] at hi
          exact ⟨hedits, hdirs (by simp [hi])⟩
        all_goals cases hu
  · exact .refl q fs

theorem openExcl_trying {tmp : Bytes} {q : Path} {i : Nat} (hr : fs.resolve tmp = some q)
    (h : fs.openExcl tmp = some (fs', i)) : Trying q fs fs' ∧ fs'.node q = some (.file i) := by
  rw [openExcl] at h
  split at h
  · cases h
  · obtain ⟨p, hp, -, hi, -, -, hedits, hdirs⟩ := openTrunc_edits h
    rw [hr, Option.some.injEq] at hp
    subst hp
    exact ⟨⟨hedits, hdirs⟩, hi⟩

/-- A temporary file that has no directory is not made. -/
theorem saveAnswered_unresolved (hr : fs.resolve (st.tmpPath r.name) = none) (a : SaveAnswers) :
    st.saveAnswered fs a r = (fs, some (str "cannot create " ++ st.tmpPath r.name)) := by
  have hdrop : dropTmp fs a.clears (st.tmpPath r.name) = fs := by
    simp [dropTmp, unlink, stat, hr]
  have hopen : fs.openExcl (st.tmpPath r.name) = none := by
    simp [openExcl, openTrunc, hr]
  simp only [saveAnswered, hdrop, hopen, ite_self]

/-- What a save makes of the files, by the node of its temporary file. -/
theorem saveAnswered_cases {q : Path} {res : Option Bytes}
    (hr : fs.resolve (st.tmpPath r.name) = some q) (h : st.saveAnswered fs a r = (fs', res)) :
    (res ≠ none ∧ Trying q fs fs') ∨
    (res = none ∧ ∃ fs₁ i, Trying q fs fs₁ ∧ fs₁.node q = some (.file i) ∧
      fs₁.data i = recordBody r ∧
      fs₁.rename (st.tmpPath r.name) (st.peerPath r.name ".conn") = some fs') := by
  have hfirst := dropTmp_trying hr a.clears
  simp only [saveAnswered] at h
  split at h
  · cases h
    exact .inl ⟨by simp, hfirst⟩
  · rename_i fs₂ i hopen
    have hexcl : (dropTmp fs a.clears (st.tmpPath r.name)).openExcl (st.tmpPath r.name) =
        some (fs₂, i) := by
      split at hopen
      · exact hopen
      · cases hopen
    obtain ⟨hsecond, hi⟩ := openExcl_trying ((hfirst.dirs.resolve _).trans hr) hexcl
    have hdata (b : Bytes) : Trying q fs₂ (fs₂.setData i b) := ⟨.setData hi b, .setData fs₂ i b⟩
    have hthird := fun b => (hfirst.trans hsecond).trans (hdata b)
    have hlast := fun b => (hthird b).trans (dropTmp_trying (((hthird b).dirs.resolve _).trans hr)
      a.cleans)
    split at h
    · rename_i hdone
      split at h
      · cases h
        exact .inl ⟨by simp, hlast _⟩
      · rename_i hrename
        cases h
        refine .inr ⟨rfl, _, i, hthird (writeAll a.writes (recordBody r)).1, ?_, ?_, ?_⟩
        · rw [node_setData, hi]
        · rw [writeAll_done hdone]
          simp only [setData, Function.update_self]
        · split at hrename
          · exact hrename
          · cases hrename
    · cases h
      exact .inl ⟨by simp, hlast _⟩

/-- A file moved into place is what the record's path reads. -/
theorem parseFile_renamed {q : Path} {i : Nat} (hr : fs.resolve (st.tmpPath r.name) = some q)
    (hi : fs.node q = some (.file i))
    (h : fs.rename (st.tmpPath r.name) (st.peerPath r.name ".conn") = some fs') :
    st.load fs' r.name = parseRecord (fs.data i) := by
  obtain ⟨dst, hd, hnode, -, -, -, hdata, hdirs⟩ := rename_edits hr hi h
  simp only [Store.load, parseFile, FileSystem.read, stat, hdirs.resolve, hd, Option.bind_some, hnode,
    Option.map_some, nodeBytes, hdata]

/-- A record comes back whole after a save that went well; one that did not leaves every stored
record as it was. -/
theorem save_exact (st : Store) (fs : FileSystem) (a : SaveAnswers) (r : ConnRecord)
    (fs' : FileSystem) :
    (Writable r → st.saveAnswered fs a r = (fs', none) → st.load fs' r.name = some r) ∧
    ∀ err, st.saveAnswered fs a r = (fs', some err) →
      ∀ name, st.load fs' name = st.load fs name := by
  constructor
  · intro hw h
    cases hr : fs.resolve (st.tmpPath r.name) with
    | none =>
        rw [saveAnswered_unresolved hr] at h
        cases h
    | some q =>
        rcases saveAnswered_cases hr h with ⟨hne, -⟩ | ⟨-, fs₁, i, htry, hi, hdata, hrename⟩
        · exact absurd rfl hne
        · rw [parseFile_renamed ((htry.dirs.resolve _).trans hr) hi hrename, hdata,
            parseRecord_writable hw]
  · intro err h name
    cases hr : fs.resolve (st.tmpPath r.name) with
    | none =>
        rw [saveAnswered_unresolved hr] at h
        cases h
        rfl
    | some q =>
        rcases saveAnswered_cases hr h with ⟨-, htry⟩ | ⟨hno, -⟩
        · exact htry.load hr name
        · cases hno

end Store

namespace Sample

/-- A record with two addresses and settings of its own. -/
def hintedRecord : ConnRecord where
  name := str "b: c"
  createdUnix := -5
  addresses := [str "host:80", str "[fe80::1]"]
  lanDiscovery := false
  lanPort := 7000

end Sample

namespace Store
open Sample

/-- Written in two pieces; then a second save of that name runs out of space. -/
theorem save_exact_hinted :
    ∃ fs₁ fs₂ err, disk.store.saveAnswered disk.fs { writes := [7] } hintedRecord = (fs₁, none) ∧
      disk.store.saveAnswered fs₁ { writes := [7, 0] } { hintedRecord with lanPort := 1 } =
        (fs₂, some err) ∧
      disk.store.load fs₂ hintedRecord.name = some hintedRecord := by
  have hw : Writable hintedRecord := ⟨by decide, by decide, by decide⟩
  have hfirst : (disk.store.saveAnswered disk.fs { writes := [7] } hintedRecord).2 = none := by
    decide +kernel
  obtain ⟨fs₁, h₁⟩ : ∃ fs₁, disk.store.saveAnswered disk.fs { writes := [7] } hintedRecord =
      (fs₁, none) := ⟨_, Prod.ext rfl hfirst⟩
  have hsecond : (disk.store.saveAnswered
      (disk.store.saveAnswered disk.fs { writes := [7] } hintedRecord).1 { writes := [7, 0] }
      { hintedRecord with lanPort := 1 }).2.isSome = true := by decide +kernel
  rw [h₁] at hsecond
  obtain ⟨err, herr⟩ := Option.isSome_iff_exists.mp hsecond
  refine ⟨fs₁, _, err, h₁, Prod.ext rfl herr, ?_⟩
  rw [(save_exact disk.store fs₁ { writes := [7, 0] } _ _).2 err (Prod.ext rfl herr)]
  exact (save_exact disk.store disk.fs { writes := [7] } hintedRecord fs₁).1 hw h₁

end Store
end Splice.Peer
