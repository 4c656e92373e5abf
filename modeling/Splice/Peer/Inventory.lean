import Splice.Peer.Registry

/-!
What always holds between a peer's offers and its stored registrations, for any names:
every file was written by a REGISTER and says its type and limit, every daemon-owned
offer stems from one REGISTER, no two offers from the same, and a file that is loaded
at a restart belongs to an offer whose name has that form.
-/

namespace Splice.Peer
open Lib Table

variable {root : Path} {peer : Bytes} {nameOk : Bytes → Prop} {restartOk : Table → Prop}
  {t : Table}

theorem newline_notMem_decimal (n : Nat) : newline ∉ decimal n := by
  intro h
  obtain ⟨d, hd, e⟩ := mem_decimal h
  have hall : ∀ d < 10, newline ≠ ascii (Nat.digitChar d) := by decide
  exact hall d hd e

/-- Type and limit read back; the arguments need not. -/
theorem parsePipe_pipeBody {r : PipeRecord} (hr : Storable r) (peer name : Bytes) :
    parsePipe peer name (pipeBody r) = some {
      peer, name, type := r.type, limit := r.limit
      args := lines (r.args.flatMap fun a => a ++ [newline]) } := by
  have hlimit : (strtoul 10 (decimal r.limit)).1 = r.limit := by
    have h : strtoul 10 (decimal r.limit ++ []) = (r.limit, []) :=
      strtoul_decimal (by have := hr.limit_lt; omega) rfl
    rw [List.append_nil] at h
    rw [h]
  have hlines : lines (pipeBody r) = r.type :: decimal r.limit ::
      lines (r.args.flatMap fun a => a ++ [newline]) := by
    rw [pipeBody, List.append_assoc, List.cons_append, lines_append hr.type_line,
      lines_append (newline_notMem_decimal r.limit)]
  simp only [parsePipe, hlines, hr.type_ne, if_false, hlimit, Nat.mod_eq_of_lt hr.limit_lt,
    List.drop_succ_cons, List.drop_zero]

/-- The offer of a stored registration that nobody has taken up yet. -/
def freshOffer (r : PipeRecord) (b : Birth) : Offer :=
  { type := r.type, limit := r.limit, started := 0, persisted := true, birth := some b }

/-- The file `f` in inode `i` is the registration `r` that REGISTER number `b.no` wrote. -/
structure FileOf (t : Table) (f : Name) (i : Nat) (r : PipeRecord) (b : Birth) : Prop where
  form : sanitize f = f
  data : t.disk.fs.data i = pipeBody r
  storable : Storable r
  ledger : t.disk.ledger i = some b
  limit : b.limit = r.limit

/-- An offer stored under the form `f` by the REGISTER `b`. -/
def OfferOf (t : Table) (f : Name) (r : PipeRecord) (b : Birth) : Prop :=
  ∃ n o, t.offers n = some o ∧ o.persisted = true ∧ sanitize n = f ∧ o.birth = some b ∧
    o.type = r.type

structure Inventory (root : Path) (peer : Bytes) (t : Table) : Prop extends
    Base root peer t where
  file : ∀ f i, t.disk.fs.node (f :: Peer.shelf root peer) = some (.file i) →
    ∃ r b, FileOf t f i r b ∧ (Store.hidden f = false → OfferOf t f r b)
  offer : ∀ n o, t.offers n = some o → o.persisted = true →
    ∃ b, o.birth = some b ∧ b ∈ t.disk.births ∧ b.limit = o.limit ∧ o.limit < 2 ^ 32
  unborn : ∀ n o, t.offers n = some o → o.persisted = false → o.birth = none
  numbered : ∀ (k : Nat) (b : Birth), t.disk.births[k]? = some b → b.no = k
  noted : ∀ i b, t.disk.ledger i = some b → b ∈ t.disk.births
  inode : ∀ i j b, t.disk.ledger i = some b → t.disk.ledger j = some b → i = j
  single : ∀ n n' o o' b, t.offers n = some o → t.offers n' = some o' → o.birth = some b →
    o'.birth = some b → n = n'
  home : ∀ n o b f i, t.offers n = some o → o.birth = some b →
    t.disk.fs.node (f :: Peer.shelf root peer) = some (.file i) → t.disk.ledger i = some b →
    sanitize n = f

theorem child_ne_dirs (f : Name) : ¬ (f :: shelf root peer = pipesName :: root ∨
    f :: shelf root peer = shelf root peer) := by
  intro h
  rcases h with e | e
  all_goals
    have hlen := congrArg List.length e
    simp only [shelf, List.length_cons] at hlen
    omega

namespace Inventory

/-- A new number was not given out before. -/
theorem fresh_birth (inv : Inventory root peer t) {b b' : Birth}
    (no : b.no = t.disk.births.length) (h : b' ∈ t.disk.births) : b' ≠ b := by
  obtain ⟨k, hk, hget⟩ := List.getElem_of_mem h
  have hno := inv.numbered k b' (by rw [List.getElem?_eq_getElem hk, hget])
  intro e
  rw [e] at hno
  omega

/-- What a restart offers. -/
theorem reloaded_eq_some (inv : Inventory root peer t) {n : Bytes} {o : Offer} :
    reloaded peer t n = some o ↔
      Store.hidden n = false ∧ ∃ i r b,
        t.disk.fs.node (n :: Peer.shelf root peer) = some (.file i) ∧ FileOf t n i r b ∧
        OfferOf t n r b ∧ o = freshOffer r b := by
  -- a listed name stands for its own file
  have read : ∀ {i r b}, Store.hidden n = false →
      t.disk.fs.node (n :: Peer.shelf root peer) = some (.file i) → FileOf t n i r b →
      ∃ args, t.disk.store.loadPipe t.disk.fs peer n =
          some { peer, name := n, type := r.type, limit := r.limit, args } ∧
        t.disk.birthAt (t.disk.store.pipePath peer n) = some b := by
    intro i r b hidden hnode hf
    have plain : Plain (sanitize n) := hf.form.symm ▸ plain_of_not_hidden hidden hf.form
    refine ⟨lines (r.args.flatMap fun a => a ++ [newline]), ?_, ?_⟩
    · rw [Store.loadPipe_eq inv.store inv.form plain, hf.form, hnode]
      simp [FileSystem.nodeBytes, hf.data, parsePipe_pipeBody hf.storable peer n]
    · simp [Disk.birthAt, Store.stat_pipePath inv.store inv.form plain, hf.form, hnode, hf.ledger]
  constructor
  · intro h
    obtain ⟨r', hfind, rfl⟩ := Option.map_eq_some_iff.mp h
    have hname : r'.name = n := by simpa using List.find?_some hfind
    obtain ⟨f, hidden, hne, hload⟩ :=
      (Store.mem_listPipes inv.store inv.form).mp (List.mem_of_find?_eq_some hfind)
    have hf : f = n := (Store.loadPipe_name hload).2.symm.trans hname
    subst hf
    obtain ⟨node, hnode⟩ := Option.ne_none_iff_exists'.mp hne
    cases node with
    | dir => exact absurd rfl (inv.shelf.files _ _ hnode)
    | file i =>
        obtain ⟨r, b, hfile, hoffer⟩ := inv.file f i hnode
        obtain ⟨args, hload', hbirth⟩ := read hidden hnode hfile
        refine ⟨hidden, i, r, b, hnode, hfile, hoffer hidden, ?_⟩
        cases hload.symm.trans hload'
        simp [Session.loaded, freshOffer, hbirth]
  · rintro ⟨hidden, i, r, b, hnode, hfile, -, rfl⟩
    obtain ⟨args, hload, hbirth⟩ := read hidden hnode hfile
    have hmem := (Store.mem_listPipes inv.store inv.form).mpr
      ⟨n, hidden, by simp [hnode], hload⟩
    cases hfind : (t.disk.store.listPipes t.disk.fs peer).find? (·.name = n) with
    | none =>
        rw [List.find?_eq_none] at hfind
        exact absurd (decide_eq_true rfl) (hfind _ hmem)
    | some r' =>
        have hname : r'.name = n := by simpa using List.find?_some hfind
        obtain ⟨f, -, -, hload'⟩ :=
          (Store.mem_listPipes inv.store inv.form).mp (List.mem_of_find?_eq_some hfind)
        have hf : f = n := (Store.loadPipe_name hload').2.symm.trans hname
        rw [hf, hload] at hload'
        cases hload'
        simp [reloaded, hfind, Session.loaded, freshOffer, hbirth]

/-! ## Changes -/

theorem prepared (inv : Inventory root peer t) {fs : FileSystem}
    (h : Store.Prepared t.disk.fs fs root peer) :
    Inventory root peer { t with disk := { t.disk with fs } } := by
  have child : ∀ f : Name, fs.node (f :: Peer.shelf root peer) =
      t.disk.fs.node (f :: Peer.shelf root peer) := by
    intro f
    rw [h.node, if_neg (child_ne_dirs f)]
  refine {
    store := inv.store.mono h.keep h.cwd, form := inv.form, plain := inv.plain
    shelf := ⟨fun n hn => ?_, fun n hn => ?_, fun f n hn => inv.shelf.files f n (child f ▸ hn)⟩
    file := fun f i hf => ?_
    offer := inv.offer, unborn := inv.unborn, numbered := inv.numbered, noted := inv.noted
    inode := inv.inode, single := inv.single
    home := fun n o b f i ho hb hf => inv.home n o b f i ho hb (child f ▸ hf) }
  · simpa [h.node, eq_comm] using hn
  · simpa [h.node, eq_comm] using hn
  · obtain ⟨r, b, hfile, hoffer⟩ := inv.file f i (child f ▸ hf)
    exact ⟨r, b, ⟨hfile.form, h.data ▸ hfile.data, hfile.storable, hfile.ledger, hfile.limit⟩,
      hoffer⟩

/-- Daemon-owned offers stay what they are; others may come and go. -/
theorem reoffered (inv : Inventory root peer t) {offers : Bytes → Option Offer}
    (served : Nat → Nat)
    (kept : ∀ n o, t.offers n = some o → o.persisted = true →
      ∃ o', offers n = some o' ∧ o'.persisted = true ∧ o'.birth = o.birth ∧ o'.type = o.type)
    (old : ∀ n o', offers n = some o' → o'.persisted = false ∧ o'.birth = none ∨
      ∃ o, t.offers n = some o ∧ o.persisted = o'.persisted ∧ o.birth = o'.birth ∧
        o.limit = o'.limit) :
    Inventory root peer { t with offers, served } := by
  have was : ∀ n o' b, offers n = some o' → o'.birth = some b →
      ∃ o, t.offers n = some o ∧ o.birth = some b := by
    intro n o' b ho' hb
    rcases old n o' ho' with ⟨-, hnone⟩ | ⟨o, ho, -, hbirth, -⟩
    · exact absurd (hb.symm.trans hnone) (by simp)
    · exact ⟨o, ho, hbirth.trans hb⟩
  refine {
    store := inv.store, form := inv.form, shelf := inv.shelf
    plain := fun n o' ho' hper => ?_
    file := fun f i hf => ?_
    offer := fun n o' ho' hper => ?_
    unborn := fun n o' ho' hper => ?_
    numbered := inv.numbered, noted := inv.noted, inode := inv.inode
    single := fun n n' o o' b hn hn' hb hb' => ?_
    home := fun n o b f i ho hb => ?_ }
  · rcases old n o' ho' with ⟨hno, -⟩ | ⟨o, ho, hsame, -⟩
    · exact absurd (hper.symm.trans hno) (by simp)
    · exact inv.plain n o ho (hsame.trans hper)
  · obtain ⟨r, b, hfile, hoffer⟩ := inv.file f i hf
    refine ⟨r, b, ⟨hfile.form, hfile.data, hfile.storable, hfile.ledger, hfile.limit⟩, ?_⟩
    intro hidden
    obtain ⟨n, o, ho, hper, hform, hbirth, htype⟩ := hoffer hidden
    obtain ⟨o', ho', hper', hbirth', htype'⟩ := kept n o ho hper
    exact ⟨n, o', ho', hper', hform, hbirth'.trans hbirth, htype'.trans htype⟩
  · rcases old n o' ho' with ⟨hno, -⟩ | ⟨o, ho, hsame, hbirth, hlimit⟩
    · exact absurd (hper.symm.trans hno) (by simp)
    · obtain ⟨b, hb, hmem, hlim, hlt⟩ := inv.offer n o ho (hsame.trans hper)
      exact ⟨b, hbirth ▸ hb, hmem, hlim.trans hlimit, hlimit ▸ hlt⟩
  · rcases old n o' ho' with ⟨-, hnone⟩ | ⟨o, ho, hsame, hbirth, -⟩
    · exact hnone
    · exact hbirth ▸ inv.unborn n o ho (hsame.trans hper)
  · obtain ⟨p, hp, hpb⟩ := was n o b hn hb
    obtain ⟨p', hp', hpb'⟩ := was n' o' b hn' hb'
    exact inv.single n n' p p' b hp hp' hpb hpb'
  · obtain ⟨p, hp, hpb⟩ := was n o b ho hb
    exact inv.home n p b f i hp hpb

theorem pipe (inv : Inventory root peer t) {name : Bytes} {o : Offer}
    (absent : t.offers name = none) (hper : o.persisted = false) (hbirth : o.birth = none) :
    Inventory root peer (t.put name (some o)) := by
  refine inv.reoffered t.served (fun n p hp hkeep => ?_) (fun n o' ho' => ?_)
  · have hne : n ≠ name := by
      rintro rfl
      exact absurd (absent.symm.trans hp) (by simp)
    exact ⟨p, by simp [hne, hp], hkeep, rfl, rfl⟩
  · by_cases hn : n = name
    · simp only [hn, Function.update_self, Option.some.injEq] at ho'
      exact .inl ⟨ho' ▸ hper, ho' ▸ hbirth⟩
    · exact .inr ⟨o', by simpa [hn] using ho', rfl, rfl, rfl⟩

theorem dropped (inv : Inventory root peer t) {name : Bytes}
    (hper : ∀ o, t.offers name = some o → o.persisted = false) :
    Inventory root peer (t.put name none) := by
  refine inv.reoffered t.served (fun n p hp hkeep => ?_) (fun n o' ho' => ?_)
  · have hne : n ≠ name := by
      rintro rfl
      exact absurd (hkeep.symm.trans (hper p hp)) (by simp)
    exact ⟨p, by simp [hne, hp], hkeep, rfl, rfl⟩
  · by_cases hn : n = name
    · simp [hn] at ho'
    · exact .inr ⟨o', by simpa [hn] using ho', rfl, rfl, rfl⟩

theorem spawned (inv : Inventory root peer t) {name : Bytes} {o : Offer}
    (there : t.offers name = some o) (served : Nat → Nat) :
    Inventory root peer { t.put name (some o.spawn) with served } := by
  refine inv.reoffered served (fun n p hp hkeep => ?_) (fun n o' ho' => ?_)
  · by_cases hn : n = name
    · rw [hn, there, Option.some.injEq] at hp
      subst hp
      exact ⟨o.spawn, by simp [hn], hkeep, rfl, rfl⟩
    · exact ⟨p, by simp [hn, hp], hkeep, rfl, rfl⟩
  · by_cases hn : n = name
    · simp only [put_offers, hn, if_true, Option.some.injEq] at ho'
      subst ho'
      exact .inr ⟨o, hn ▸ there, rfl, rfl, rfl⟩
    · exact .inr ⟨o', by simpa [hn] using ho', rfl, rfl, rfl⟩

/-- UNREGISTER deletes the file of the form and with it everything of that birth. -/
theorem deleted (inv : Inventory root peer t) {name : Bytes} {fs : FileSystem}
    (node : ∀ q : Path, fs.node q =
      if sanitize name :: Peer.shelf root peer = q then none else t.disk.fs.node q)
    (data : fs.data = t.disk.fs.data) (cwd : fs.cwd = t.disk.fs.cwd) :
    Inventory root peer { t.put name none with disk := { t.disk with fs } } := by
  have was : ∀ {q : Path} {n : Node}, fs.node q = some n → t.disk.fs.node q = some n := by
    intro q n hq
    rw [node] at hq
    split at hq
    · cases hq
    · exact hq
  have keep : ∀ q : Path, t.disk.fs.node q = some .dir → fs.node q = some .dir := by
    intro q hq
    rw [node]
    split
    · rename_i he
      exact absurd rfl (inv.shelf.files _ _ (he ▸ hq))
    · exact hq
  have offered : ∀ {n : Bytes} {o : Offer}, (t.put name none).offers n = some o →
      t.offers n = some o := by
    intro n o ho
    rw [put_offers] at ho
    split at ho
    · cases ho
    · exact ho
  refine {
    store := inv.store.mono keep cwd, form := inv.form
    shelf := ⟨fun n hn => inv.shelf.pipes n (was hn), fun n hn => inv.shelf.shelf n (was hn),
      fun f n hn => inv.shelf.files f n (was hn)⟩
    plain := fun n o ho => inv.plain n o (offered ho)
    file := fun f i hf => ?_
    offer := fun n o ho => inv.offer n o (offered ho)
    unborn := fun n o ho => inv.unborn n o (offered ho)
    numbered := inv.numbered, noted := inv.noted, inode := inv.inode
    single := fun n n' o o' b hn hn' => inv.single n n' o o' b (offered hn) (offered hn')
    home := fun n o b f i ho hb hf => inv.home n o b f i (offered ho) hb (was hf) }
  obtain ⟨r, b, hfile, hoffer⟩ := inv.file f i (was hf)
  refine ⟨r, b, ⟨hfile.form, data ▸ hfile.data, hfile.storable, hfile.ledger, hfile.limit⟩, ?_⟩
  intro hidden
  obtain ⟨n, o, ho, hper, hform, hrest⟩ := hoffer hidden
  have hne : n ≠ name := by
    rintro rfl
    simp only at hf
    rw [node, if_pos (by rw [hform])] at hf
    cases hf
  exact ⟨n, o, by simp [hne, ho], hper, hform, hrest⟩

theorem restarted (inv : Inventory root peer t) :
    Inventory root peer { t with offers := reloaded peer t } := by
  refine {
    store := inv.store, form := inv.form, shelf := inv.shelf
    plain := fun n o ho _ => ?_
    file := fun f i hf => ?_
    offer := fun n o ho _ => ?_
    unborn := fun n o ho hper => ?_
    numbered := inv.numbered, noted := inv.noted, inode := inv.inode
    single := fun n n' o o' b ho ho' hb hb' => ?_
    home := fun n o b f i ho hb hf hl => ?_ }
  · obtain ⟨hidden, i, r, b, -, hfile, -⟩ := inv.reloaded_eq_some.mp ho
    exact hfile.form.symm ▸ plain_of_not_hidden hidden hfile.form
  · obtain ⟨r, b, hfile, hoffer⟩ := inv.file f i hf
    refine ⟨r, b, ⟨hfile.form, hfile.data, hfile.storable, hfile.ledger, hfile.limit⟩, ?_⟩
    exact fun hidden => ⟨f, freshOffer r b,
      inv.reloaded_eq_some.mpr ⟨hidden, i, r, b, hf, hfile, hoffer hidden, rfl⟩, rfl,
      hfile.form, rfl, rfl⟩
  · obtain ⟨-, i, r, b, -, hfile, -, rfl⟩ := inv.reloaded_eq_some.mp ho
    exact ⟨b, rfl, inv.noted i b hfile.ledger, hfile.limit, hfile.storable.limit_lt⟩
  · obtain ⟨-, i, r, b, -, -, -, rfl⟩ := inv.reloaded_eq_some.mp ho
    cases hper
  · obtain ⟨-, i, r, b₁, hnode, hfile, -, rfl⟩ := inv.reloaded_eq_some.mp ho
    obtain ⟨-, i', r', b₂, hnode', hfile', -, rfl⟩ := inv.reloaded_eq_some.mp ho'
    cases hb
    cases hb'
    have hi := inv.inode i i' b hfile.ledger hfile'.ledger
    rw [hi] at hnode
    exact (List.cons.inj (t.disk.fs.ino_inj hnode hnode')).1
  · obtain ⟨-, i', r, b', hnode, hfile, -, rfl⟩ := inv.reloaded_eq_some.mp ho
    cases hb
    have hi := inv.inode i i' b hl hfile.ledger
    simp only [hi] at hf
    rw [hfile.form]
    exact (List.cons.inj (t.disk.fs.ino_inj hnode hf)).1

/-- The table and the files after REGISTER stored `r` in the inode `i`. -/
def registered (t : Table) (fs : FileSystem) (r : PipeRecord) (i : Nat) (b : Birth) : Table :=
  { t with
    disk := { t.disk with
      fs, ledger := Function.update t.disk.ledger i (some b), births := t.disk.births ++ [b] }
    offers := Function.update t.offers r.name (some (freshOffer r b)) }

/-- The file written has the new birth, every other file its old one. -/
theorem stored_ledger {fs : FileSystem} {r : PipeRecord} {i : Nat}
    (h : Store.Stored t.disk.fs fs root r i) {f : Name} {j : Nat} (hr : r.peer = peer)
    (hf : fs.node (f :: Peer.shelf root peer) = some (.file j)) :
    f = sanitize r.name ∧ j = i ∨
      f ≠ sanitize r.name ∧ j ≠ i ∧
        t.disk.fs.node (f :: Peer.shelf root peer) = some (.file j) := by
  subst hr
  rw [h.node] at hf
  split at hf
  · rename_i he
    cases hf
    exact .inl ⟨(List.cons.inj he).1.symm, rfl⟩
  · rename_i hne
    rw [if_neg (child_ne_dirs f)] at hf
    refine .inr ⟨fun e => hne (by rw [e]), ?_, hf⟩
    rintro rfl
    exact hne (h.only _ hf).symm

theorem stored (inv : Inventory root peer t) {fs : FileSystem} {r : PipeRecord} {i : Nat}
    {b : Birth} (absent : t.offers r.name = none) (its : r.peer = peer)
    (h : Store.Stored t.disk.fs fs root r i) (storable : Storable r)
    (no : b.no = t.disk.births.length) (limit : b.limit = r.limit) :
    Inventory root peer (registered t fs r i b) := by
  have shelfOk : Store.ShelfOk t.disk.fs root r.peer := its.symm ▸ inv.shelf
  have fresh : ∀ {b' : Birth}, b' ∈ t.disk.births → b' ≠ b := fun hb => inv.fresh_birth no hb
  have ledger : ∀ {j : Nat} {b' : Birth}, (registered t fs r i b).disk.ledger j = some b' →
      j = i ∧ b' = b ∨ j ≠ i ∧ t.disk.ledger j = some b' := by
    intro j b' hj
    simp only [registered, Function.update_apply] at hj
    split at hj
    · rename_i hji
      exact .inl ⟨hji, (Option.some.inj hj).symm⟩
    · rename_i hji
      exact .inr ⟨hji, hj⟩
  have offer : ∀ {n : Bytes} {o : Offer}, (registered t fs r i b).offers n = some o →
      n = r.name ∧ o = freshOffer r b ∨ n ≠ r.name ∧ t.offers n = some o := by
    intro n o ho
    simp only [registered, Function.update_apply] at ho
    split at ho
    · rename_i hn
      exact .inl ⟨hn, (Option.some.inj ho).symm⟩
    · rename_i hn
      exact .inr ⟨hn, ho⟩
  have born : ∀ {n : Bytes} {o : Offer} {b' : Birth}, t.offers n = some o → o.birth = some b' →
      b' ≠ b := by
    intro n o b' ho hb
    cases hper : o.persisted with
    | false => exact absurd (hb.symm.trans (inv.unborn n o ho hper)) (by simp)
    | true =>
        obtain ⟨b'', hb'', hmem, -⟩ := inv.offer n o ho hper
        cases hb.symm.trans hb''
        exact fresh hmem
  refine {
    store := inv.store.mono (h.keep shelfOk) h.cwd, form := inv.form
    shelf := ⟨fun n hn => ?_, fun n hn => ?_, fun f n hn => ?_⟩
    plain := fun n o ho hper => ?_
    file := fun f j hf => ?_
    offer := fun n o ho hper => ?_
    unborn := fun n o ho hper => ?_
    numbered := fun k b' hk => ?_
    noted := fun j b' hj => ?_
    inode := fun j j' b' hj hj' => ?_
    single := fun n n' o o' b' ho ho' hb hb' => ?_
    home := fun n o b' f j ho hb hf hl => ?_ }
  · have hdir : fs.node (pipesName :: root) = some .dir := by
      have hne : ¬ sanitize r.name :: Peer.shelf root r.peer = pipesName :: root :=
        fun e => child_ne_dirs _ (.inl e)
      rw [h.node, if_neg hne, if_pos (.inl rfl)]
    exact (Option.some.inj (hdir.symm.trans hn)).symm
  · have hdir : fs.node (Peer.shelf root peer) = some .dir := by
      have hne : ¬ sanitize r.name :: Peer.shelf root r.peer = Peer.shelf root peer :=
        fun e => child_ne_dirs _ (.inr (its ▸ e))
      rw [h.node, if_neg hne, if_pos (.inr (by rw [its]))]
    exact (Option.some.inj (hdir.symm.trans hn)).symm
  · have hn' : fs.node (f :: Peer.shelf root peer) = some n := hn
    rw [h.node] at hn'
    split at hn'
    · cases hn'
      simp
    · rw [its, if_neg (child_ne_dirs f)] at hn'
      exact inv.shelf.files f n hn'
  · rcases offer ho with ⟨rfl, -⟩ | ⟨-, ho⟩
    · exact h.plain
    · exact inv.plain n o ho hper
  · rcases stored_ledger h its hf with ⟨rfl, rfl⟩ | ⟨hne, hji, hold⟩
    · refine ⟨r, b, ⟨sanitize_idem _, ?_, storable, ?_, limit⟩, fun _ =>
        ⟨r.name, freshOffer r b, ?_, rfl, rfl, rfl, rfl⟩⟩
      · simp [registered, h.data]
      · simp [registered]
      · simp [registered]
    · obtain ⟨r', b', hfile, hoffer⟩ := inv.file f j hold
      refine ⟨r', b', ⟨hfile.form, ?_, hfile.storable, ?_, hfile.limit⟩, fun hidden => ?_⟩
      · simp [registered, h.data, hji, hfile.data]
      · simp [registered, hji, hfile.ledger]
      · obtain ⟨n, o, ho, hrest⟩ := hoffer hidden
        have hn : n ≠ r.name := by
          rintro rfl
          exact absurd (absent.symm.trans ho) (by simp)
        exact ⟨n, o, by simp [registered, hn, ho], hrest⟩
  · rcases offer ho with ⟨-, rfl⟩ | ⟨-, ho⟩
    · exact ⟨b, rfl, by simp [registered], limit, storable.limit_lt⟩
    · obtain ⟨b', hb', hmem, hrest⟩ := inv.offer n o ho hper
      exact ⟨b', hb', by simp [registered, hmem], hrest⟩
  · rcases offer ho with ⟨-, rfl⟩ | ⟨-, ho⟩
    · cases hper
    · exact inv.unborn n o ho hper
  · simp only [registered, List.getElem?_append] at hk
    split at hk
    · exact inv.numbered k b' hk
    · rw [List.getElem?_singleton] at hk
      split at hk
      · cases hk
        omega
      · cases hk
  · rcases ledger hj with ⟨-, rfl⟩ | ⟨-, hj⟩
    · simp [registered]
    · simp [registered, inv.noted j b' hj]
  · rcases ledger hj with ⟨rfl, rfl⟩ | ⟨-, hold⟩
    · rcases ledger hj' with ⟨rfl, -⟩ | ⟨-, hold'⟩
      · rfl
      · exact absurd rfl (fresh (inv.noted _ _ hold'))
    · rcases ledger hj' with ⟨-, e⟩ | ⟨-, hold'⟩
      · exact absurd e (fresh (inv.noted _ _ hold))
      · exact inv.inode j j' b' hold hold'
  · rcases offer ho with ⟨rfl, rfl⟩ | ⟨-, ho⟩
    · rcases offer ho' with ⟨rfl, -⟩ | ⟨-, ho'⟩
      · rfl
      · cases hb
        exact absurd rfl (born ho' hb')
    · rcases offer ho' with ⟨-, rfl⟩ | ⟨-, ho'⟩
      · cases hb'
        exact absurd rfl (born ho hb)
      · exact inv.single n n' o o' b' ho ho' hb hb'
  · rcases stored_ledger h its hf with ⟨rfl, rfl⟩ | ⟨hne, hji, hold⟩
    · rcases ledger hl with ⟨-, rfl⟩ | ⟨hne, -⟩
      · rcases offer ho with ⟨rfl, -⟩ | ⟨-, ho⟩
        · rfl
        · exact absurd rfl (born ho hb)
      · exact absurd rfl hne
    · rcases ledger hl with ⟨hji', -⟩ | ⟨-, hl⟩
      · exact absurd hji' hji
      · rcases offer ho with ⟨-, rfl⟩ | ⟨-, ho⟩
        · cases hb
          exact absurd rfl (fresh (inv.noted _ _ hl))
        · exact inv.home n o b' f j ho hb hold hl

theorem kept : Kept root peer nameOk restartOk (Inventory root peer) where
  base _ inv := inv.toBase
  keep t t' inv h := by
    cases h with
    | prepared h => exact inv.prepared h
    | pipe absent kept birth => exact inv.pipe absent kept birth
    | stored absent _ its h storable no limit =>
        exact inv.stored absent its h storable no limit
    | dropped kept => exact inv.dropped kept
    | deleted _ _ node data cwd => exact inv.deleted node data cwd
    | spawned there _ => exact inv.spawned there _
    | restarted _ => exact inv.restarted

end Inventory

/-! ## Where a run starts -/

/-- A store in which nothing was registered for the peer yet. -/
structure Fresh (root : Path) (peer : Bytes) (d : Disk) : Prop where
  store : d.store.At d.fs root
  form : Plain (sanitize peer)
  shelf : Store.ShelfOk d.fs root peer
  bare : ∀ f : Name, d.fs.node (f :: Peer.shelf root peer) = none
  births : d.births = []
  ledger : ∀ i, d.ledger i = none

/-- A daemon that starts on the store, with a session for the peer. -/
def PeerWorld.opened (d : Disk) (files : SourceFs) (record : ConnRecord) : PeerWorld :=
  { disk := d, session := Session.start d {} record 0, files }

theorem Fresh.offers {d : Disk} {record : ConnRecord} (h : Fresh root record.name d)
    (files : SourceFs) (n : Bytes) :
    (PeerWorld.opened d files record).table.offers n = none := by
  have hnone : d.store.listPipes d.fs record.name = [] := by
    rw [List.eq_nil_iff_forall_not_mem]
    intro r hr
    obtain ⟨f, -, hne, -⟩ := (Store.mem_listPipes h.store h.form).mp hr
    exact hne (h.bare f)
  simp only [PeerWorld.table, PeerWorld.opened, Session.face_start, hnone, List.find?_nil]
  simp [Session.face]

theorem Fresh.inventory {d : Disk} {record : ConnRecord} (h : Fresh root record.name d)
    (files : SourceFs) :
    Inventory root record.name (PeerWorld.opened d files record).table := by
  have nothing : ∀ {n : Bytes} {o : Offer} {p : Prop},
      (PeerWorld.opened d files record).table.offers n = some o → p := by
    intro n o p ho
    exact absurd ((h.offers files n).symm.trans ho) (by simp)
  exact {
    store := h.store, form := h.form, shelf := h.shelf
    plain := fun n o ho => nothing ho
    file := fun f i hf => absurd ((h.bare f).symm.trans hf) (by simp)
    offer := fun n o ho => nothing ho
    unborn := fun n o ho => nothing ho
    numbered := fun k b hk => by simp [PeerWorld.table, PeerWorld.opened, h.births] at hk
    noted := fun i b hi => absurd ((h.ledger i).symm.trans hi) (by simp)
    inode := fun i j b hi => absurd ((h.ledger i).symm.trans hi) (by simp)
    single := fun n n' o o' b ho => nothing ho
    home := fun n o b f i ho => nothing ho }

/-- An invariant of the registrations holds in every state of every run. -/
theorem Fresh.holds {d : Disk} {files : SourceFs} {record : ConnRecord} {P : Table → Prop}
    (start : P (PeerWorld.opened d files record).table)
    (kept : Kept root record.name nameOk restartOk P) {w : PeerWorld}
    (h : Reach PeerWorld.step (PeerWorld.StepOk nameOk restartOk)
      (PeerWorld.opened d files record) w) : w.Holds record.name P := by
  refine h.invariant ⟨?_, ?_, start⟩ (PeerWorld.step_holds kept)
  · exact congrArg Face.name (Session.face_start d {} record 0)
  · exact congrArg (fun f : Face => f.record.name) (Session.face_start d {} record 0)

/-! A store to try things on: a directory with nothing in it, and a user without files. -/

namespace Sample

def disk : Disk :=
  { store := ⟨str "/c"⟩, fs := FileSystem.empty.addDir (str "c") [] FileSystem.empty.node_nil }

def noFiles : SourceFs where
  stat _ := none
  readdir _ := none
  content _ := none
  stat_short := by simp
  size_content := by simp
  size_lt := by simp
  names_plain := by simp
  names_nodup := by simp
  reg_plain := by simp

def record : ConnRecord := { name := str "bob" }

theorem node_disk (q : Path) : disk.fs.node q =
    if [str "c"] = q then some .dir else if [] = q then some .dir else none := by
  rw [disk, FileSystem.node_addDir, FileSystem.node_empty]

theorem fresh : Fresh [str "c"] record.name disk where
  store := ⟨by decide, by decide, by decide⟩
  form := by decide
  shelf := by
    refine ⟨fun n hn => ?_, fun n hn => ?_, fun f n hn => ?_⟩
    all_goals
      rw [node_disk] at hn
      simp [pipesName, Peer.shelf] at hn
  bare f := by
    rw [node_disk]
    simp [Peer.shelf]
  births := rfl
  ledger _ := rfl

end Sample
end Splice.Peer
