import Splice.Lib.Run
import Splice.Peer.Offers

/-!
One peer's registrations over whole runs: REGISTER and UNREGISTER, requests from the
peer, ticks that retire what is used up, and restarts that load the table from the
store again. `Table` is the state such a run is about, the files and the offers, and
`Change` lists everything a step can do to it; an invariant kept by every change is
kept by every run.
-/

namespace Splice.Peer
open Lib

/-- A daemon seen from one peer. `files` are the user's own files, which change as they
like; `served` counts the requests answered OK by the number of the registration. -/
structure PeerWorld where
  disk : Disk
  session : Session
  files : SourceFs
  served : Nat → Nat := fun _ => 0

inductive PeerAction
  | register (fd : Int) (name : Bytes) (toks : List Bytes)
  | unregister (name : Bytes)
  | accept
  | data (id : Nat) (b : Bytes) (now : Nat)
  | gone (id : Nat)
  | close (id : Nat)
  | requestClose (id : Nat)
  | tick (now : Nat)
  | changeFiles (files : SourceFs)
  /-- the daemon ends in any way and a new one is started -/
  | restart

namespace PeerWorld

/-- The name an OK went out for. -/
def answeredFor (id : Nat) (r : Session × Bytes) : Option Bytes :=
  if str "OK " <+: r.2 then (r.1.insts[id]?).map (·.reg) else none

def countServed (s : Session) (served : Nat → Nat) (name : Bytes) : Nat → Nat :=
  match (s.face.offers name).bind (·.birth) with
  | none => served
  | some b => Function.update served b.no (served b.no + 1)

def step (w : PeerWorld) : PeerAction → Option PeerWorld
  | .register fd name toks =>
      let (disk, session, _) := w.session.register w.files w.disk fd name toks
      some { w with disk, session }
  | .unregister name =>
      let (disk, session, _) := w.session.unregister w.disk name
      some { w with disk, session }
  | .accept => some { w with session := w.session.acceptInbound }
  | .data id b now =>
      let r := w.session.onTunnelData w.files id b now
      some { w with
        session := r.1
        served := match answeredFor id r with
          | none => w.served
          | some name => countServed w.session w.served name }
  | .gone id => some { w with session := w.session.onTunnelGone id }
  | .close id => some { w with session := w.session.closeInstance id }
  | .requestClose id => some { w with session := w.session.requestClose id }
  | .tick now =>
      let (disk, session) := w.session.tick w.disk now
      some { w with disk, session }
  | .changeFiles files => some { w with files }
  | .restart => some { w with session := Session.start w.disk {} w.session.record 0 }

end PeerWorld

/-! ## What a step can do to the registrations -/

structure Table where
  disk : Disk
  offers : Bytes → Option Offer
  served : Nat → Nat

def PeerWorld.table (w : PeerWorld) : Table :=
  { disk := w.disk, offers := w.session.face.offers, served := w.served }

namespace Table

def put (t : Table) (name : Bytes) (o : Option Offer) : Table :=
  { t with offers := Function.update t.offers name o }

@[simp] theorem put_offers (t : Table) (name : Bytes) (o : Option Offer) (n : Bytes) :
    (t.put name o).offers n = if n = name then o else t.offers n := by
  simp [put, Function.update_apply]

/-- What every operation on the store relies on. -/
structure Base (root : Path) (peer : Bytes) (t : Table) : Prop where
  store : t.disk.store.At t.disk.fs root
  form : Plain (sanitize peer)
  shelf : Store.ShelfOk t.disk.fs root peer
  plain : ∀ n o, t.offers n = some o → o.persisted = true → Plain (sanitize n)

/-- A record whose type and limit read back from its file. -/
structure Storable (r : PipeRecord) : Prop where
  type_ne : r.type ≠ []
  type_line : newline ∉ r.type
  limit_lt : r.limit < 2 ^ 32

/-- The offers of a daemon that starts on these files. -/
def reloaded (peer : Bytes) (t : Table) : Bytes → Option Offer := fun n =>
  ((t.disk.store.listPipes t.disk.fs peer).find? (·.name = n)).map (Session.loaded t.disk peer)

/-- `nameOk` limits the names registered, `restartOk` the tables a restart may meet. -/
inductive Change (root : Path) (peer : Bytes) (nameOk : Bytes → Prop) (restartOk : Table → Prop) :
    Table → Table → Prop
  | prepared {t : Table} {fs : FileSystem} (h : Store.Prepared t.disk.fs fs root peer) :
      Change root peer nameOk restartOk t { t with disk := { t.disk with fs } }
  | pipe {t : Table} {name : Bytes} {o : Offer} (absent : t.offers name = none)
      (kept : o.persisted = false) (birth : o.birth = none) :
      Change root peer nameOk restartOk t (t.put name (some o))
  | stored {t : Table} {fs : FileSystem} {r : PipeRecord} {i : Nat} {b : Birth}
      (absent : t.offers r.name = none) (ok : nameOk r.name) (its : r.peer = peer)
      (h : Store.Stored t.disk.fs fs root r i) (storable : Storable r)
      (no : b.no = t.disk.births.length) (limit : b.limit = r.limit) :
      Change root peer nameOk restartOk t
        { t with
          disk := { t.disk with
            fs, ledger := Function.update t.disk.ledger i (some b)
            births := t.disk.births ++ [b] }
          offers := Function.update t.offers r.name (some
            { type := r.type, limit := r.limit, started := 0, persisted := true
              birth := some b }) }
  | dropped {t : Table} {name : Bytes} (kept : ∀ o, t.offers name = some o → o.persisted = false) :
      Change root peer nameOk restartOk t (t.put name none)
  | deleted {t : Table} {name : Bytes} {o : Offer} {fs : FileSystem}
      (there : t.offers name = some o) (kept : o.persisted = true)
      (node : ∀ q : Path, fs.node q =
        if sanitize name :: Peer.shelf root peer = q then none else t.disk.fs.node q)
      (data : fs.data = t.disk.fs.data) (cwd : fs.cwd = t.disk.fs.cwd) :
      Change root peer nameOk restartOk t { t.put name none with disk := { t.disk with fs } }
  | spawned {t : Table} {name : Bytes} {o : Offer} (there : t.offers name = some o)
      (left : ¬ o.Spent) :
      Change root peer nameOk restartOk t
        { t.put name (some o.spawn) with
          served := match o.birth with
            | none => t.served
            | some b => Function.update t.served b.no (t.served b.no + 1) }
  | restarted {t : Table} (ok : restartOk t) :
      Change root peer nameOk restartOk t { t with offers := reloaded peer t }

/-- An invariant of the registrations. -/
structure Kept (root : Path) (peer : Bytes) (nameOk : Bytes → Prop) (restartOk : Table → Prop)
    (P : Table → Prop) : Prop where
  base : ∀ t, P t → t.Base root peer
  keep : ∀ t t', P t → Change root peer nameOk restartOk t t' → P t'

end Table

namespace PeerWorld
open Table Session

/-- The session is the peer's, and its table satisfies `P`. -/
def Holds (peer : Bytes) (P : Table → Prop) (w : PeerWorld) : Prop :=
  w.session.name = peer ∧ w.session.record.name = peer ∧ P w.table

/-- The type a REGISTER asks for, when it gets that far. -/
def asksFor (toks : List Bytes) : Option Bytes :=
  match parseLimit toks with
  | .ok (_, type :: _) => some type
  | .ok (_, []) | .error _ => none

/-- Which steps a run may take: `nameOk` of every daemon-owned registration, `restartOk` of
the table at every restart. -/
def StepOk (nameOk : Bytes → Prop) (restartOk : Table → Prop) (w : PeerWorld) :
    PeerAction → Prop
  | .register _ name toks => ∀ type, asksFor toks = some type → type ≠ str "PIPE" → nameOk name
  | .restart => restartOk w.table
  | _ => True

theorem makeLocalEnd_type {src : SourceFs} {type : Bytes} {args : List Bytes} {e : LocalEnd}
    (h : makeLocalEnd src type args = .ok e) :
    type ∈ [str "ECHO", str "SHARE_FILE", str "GET_FILE", str "SHELL", str "EXEC"] := by
  by_contra hno
  simp only [List.mem_cons, List.not_mem_nil, or_false, not_or] at hno
  obtain ⟨h₁, h₂, h₃, h₄, h₅⟩ := hno
  simp [makeLocalEnd, h₁, h₂, h₃, h₄, h₅] at h

theorem parseLimit_lt {toks rest : List Bytes} {limit : Nat}
    (h : parseLimit toks = .ok (limit, rest)) : limit < 2 ^ 32 := by
  simp only [parseLimit] at h
  split at h
  · cases h
    decide
  · split at h
    · split at h
      · cases h
      · split at h
        · cases h
        · cases h
          exact Nat.mod_lt _ (by decide)
    · cases h
      decide

theorem storable_of_makeLocalEnd {src : SourceFs} {r : PipeRecord} {e : LocalEnd}
    (h : makeLocalEnd src r.type r.args = .ok e) (hl : r.limit < 2 ^ 32) : Storable r := by
  have htype := makeLocalEnd_type h
  have hall : ∀ t ∈ [str "ECHO", str "SHARE_FILE", str "GET_FILE", str "SHELL", str "EXEC"],
      t ≠ [] ∧ newline ∉ t := by decide
  exact ⟨(hall _ htype).1, (hall _ htype).2, hl⟩

/-- The note on a registration goes to the inode it was written to. -/
theorem note_stored {d : Disk} {fs : FileSystem} {root : Path} {r : PipeRecord} {i : Nat}
    (b : Birth) (store : d.store.At d.fs root) (form : Plain (sanitize r.peer))
    (ok : Store.ShelfOk d.fs root r.peer) (h : Store.Stored d.fs fs root r i) :
    d.note fs (d.store.pipePath r.peer r.name) b =
      { d with fs, ledger := Function.update d.ledger i (some b), births := d.births ++ [b] } := by
  have store' : d.store.At fs root := store.mono (h.keep ok) h.cwd
  have hstat : fs.stat (d.store.pipePath r.peer r.name) = some (.file i) := by
    rw [Store.stat_pipePath store' form h.plain, h.node, if_pos rfl]
  simp [Disk.note, hstat]

variable {root : Path} {peer : Bytes} {nameOk : Bytes → Prop} {restartOk : Table → Prop}
  {P : Table → Prop} {w : PeerWorld}

/-- A step that changes neither the files nor the face of the session. -/
theorem Holds.same (h : Holds peer P w) {session : Session} (face : session.face = w.session.face)
    (files : SourceFs) : Holds peer P { w with session, files } := by
  obtain ⟨hname, hrec, hP⟩ := h
  refine ⟨(congrArg Face.name face).trans hname,
    (congrArg (fun f : Face => f.record.name) face).trans hrec, ?_⟩
  simpa only [table, face] using hP

theorem Holds.register (kept : Kept root peer nameOk restartOk P) (h : Holds peer P w)
    {fd : Int} {name : Bytes} {toks : List Bytes}
    (ok : ∀ type, asksFor toks = some type → type ≠ str "PIPE" → nameOk name) :
    Holds peer P { w with
      disk := (w.session.register w.files w.disk fd name toks).1
      session := (w.session.register w.files w.disk fd name toks).2.1 } := by
  have base := kept.base _ h.2.2
  have store : w.disk.store.At w.disk.fs root := base.store
  have form : Plain (sanitize w.session.name) := h.1 ▸ base.form
  have shelf : Store.ShelfOk w.disk.fs root w.session.name := h.1 ▸ base.shelf
  have hreg := register_cases w.files w.disk w.session fd name toks
  generalize (w.session.register w.files w.disk fd name toks).1 = d' at hreg ⊢
  generalize (w.session.register w.files w.disk fd name toks).2.1 = s' at hreg ⊢
  cases hreg with
  | refused => exact h
  | @pipe limit absent =>
      refine ⟨h.1, h.2.1, ?_⟩
      have step := kept.keep _ _ h.2.2
        (.pipe (o := Reg.offer { type := str "PIPE", limit, ownerFd := fd }) absent rfl rfl)
      simp only [table, face_addReg]
      exact step
  | @unsaved limit type args fs e absent save =>
      rcases Store.savePipe_cases (r := ⟨w.session.name, name, type, limit, args⟩) store form
          shelf with ⟨fs', e', hsave, prep⟩ | ⟨fs', i, hsave, -⟩
      · cases save.symm.trans hsave
        exact ⟨h.1, h.2.1, kept.keep _ _ h.2.2 (.prepared (h.1 ▸ prep))⟩
      · cases save.symm.trans hsave
  | @saved limit type args fs e absent parsed owned made save =>
      have hname : nameOk name := ok type (by simp [asksFor, parsed]) owned
      rcases Store.savePipe_cases (r := ⟨w.session.name, name, type, limit, args⟩) store form
          shelf with ⟨fs', e', hsave, -⟩ | ⟨fs', i, hsave, stored⟩
      · cases save.symm.trans hsave
      · cases save.symm.trans hsave
        refine ⟨h.1, h.2.1, ?_⟩
        have step := kept.keep _ _ h.2.2 (.stored (r := ⟨w.session.name, name, type, limit, args⟩)
          (b := ⟨w.disk.births.length, w.session.record.uid, limit⟩) absent hname h.1 stored
          (storable_of_makeLocalEnd made (parseLimit_lt parsed)) rfl rfl)
        have hnote := note_stored ⟨w.disk.births.length, w.session.record.uid, limit⟩
          store form shelf stored
        simp only [table, face_addReg]
        rw [hnote]
        exact step

theorem Holds.unregister (kept : Kept root peer nameOk restartOk P) (h : Holds peer P w)
    (name : Bytes) :
    Holds peer P { w with
      disk := (Session.unregister w.disk w.session name).1
      session := (Session.unregister w.disk w.session name).2.1 } := by
  have base := kept.base _ h.2.2
  have hface := face_unregister w.disk w.session name
  refine ⟨(congrArg Face.name hface).trans h.1,
    (congrArg (fun f : Face => f.record.name) hface).trans h.2.1, ?_⟩
  simp only [table, hface]
  rw [unregister_disk]
  cases ho : w.session.face.offers name with
  | none =>
      refine kept.keep _ _ h.2.2 (.dropped fun o hsome => ?_)
      exact absurd (ho.symm.trans hsome) (by simp)
  | some o =>
      cases hper : o.persisted with
      | false =>
          simp only [Option.any_some, hper, Bool.false_eq_true, if_false]
          refine kept.keep _ _ h.2.2 (.dropped fun o' hsome => ?_)
          cases ho.symm.trans hsome
          exact hper
      | true =>
          have store : w.disk.store.At w.disk.fs root := base.store
          have plain : Plain (sanitize name) := base.plain name o ho hper
          obtain ⟨fs, hrm, hnode, hdata, hcwd⟩ := Store.removePipe_spec store
            (h.1.symm ▸ base.form) (h.1.symm ▸ base.shelf) plain
          simp only [Option.any_some, hper, if_true, hrm]
          exact kept.keep _ _ h.2.2 (.deleted ho hper (h.1 ▸ hnode) hdata hcwd)

theorem Holds.retire (kept : Kept root peer nameOk restartOk P) (serials : List Nat)
    (h : Holds peer P w) :
    Holds peer P { w with
      disk := (serials.foldl Session.retire (w.disk, w.session)).1
      session := (serials.foldl Session.retire (w.disk, w.session)).2 } := by
  induction serials generalizing w with
  | nil => exact h
  | cons serial serials ih =>
      rw [List.foldl_cons]
      have hnext : Holds peer P { w with
          disk := (Session.retire (w.disk, w.session) serial).1
          session := (Session.retire (w.disk, w.session) serial).2 } := by
        simp only [Session.retire]
        split
        · exact h
        · exact h.unregister kept _
      exact ih hnext

theorem Holds.tick (kept : Kept root peer nameOk restartOk P) (h : Holds peer P w) (now : Nat) :
    Holds peer P { w with
      disk := (Session.tick w.disk w.session now).1
      session := (Session.tick w.disk w.session now).2 } := by
  simp only [Session.tick]
  generalize hs : (if w.session.busy then { w.session with lastActive := now } else w.session) = s
  have hface : s.face = w.session.face := by
    rw [← hs]
    split <;> rfl
  split
  · have hclosed : Holds peer P { w with session := s.drainClose } :=
      h.same (by rw [face_drainClose, hface]) w.files
    have hretired := hclosed.retire kept s.drainClose.wantRetire
    have hdialed : ((drainRetire w.disk s.drainClose).2.dialAll now).face =
        (s.drainClose.wantRetire.foldl Session.retire (w.disk, s.drainClose)).2.face :=
      face_dialAll _ now
    exact hretired.same hdialed w.files
  · exact h.same hface w.files

theorem Holds.data (kept : Kept root peer nameOk restartOk P) (h : Holds peer P w) (id : Nat)
    (b : Bytes) (now : Nat) :
    Holds peer P { w with
      session := (w.session.onTunnelData w.files id b now).1
      served := match answeredFor id (w.session.onTunnelData w.files id b now) with
        | none => w.served
        | some name => countServed w.session w.served name } := by
  rcases onTunnelData_answered w.files w.session id b now with
    ⟨name, o, ho, hleft, hface, hreg, hok⟩ | ⟨hface, hno⟩
  · have hans : answeredFor id (w.session.onTunnelData w.files id b now) = some name := by
      simp [answeredFor, hok, hreg]
    rw [hans]
    refine ⟨(congrArg Face.name hface).trans h.1,
      (congrArg (fun f : Face => f.record.name) hface).trans h.2.1, ?_⟩
    have step := kept.keep _ _ h.2.2 (.spawned ho hleft)
    simp only [table, hface, countServed, ho, Option.bind_some]
    exact step
  · have hans : answeredFor id (w.session.onTunnelData w.files id b now) = none := by
      simp only [answeredFor]
      split
      · rename_i hok
        rcases hno with hgone | hempty
        · simp [hgone]
        · rw [hempty] at hok
          exact absurd hok (by decide)
      · rfl
    rw [hans]
    exact h.same hface w.files

theorem Holds.restart (kept : Kept root peer nameOk restartOk P) (h : Holds peer P w)
    (ok : restartOk w.table) :
    Holds peer P { w with session := Session.start w.disk {} w.session.record 0 } := by
  have hface := face_start w.disk {} w.session.record 0
  refine ⟨(congrArg Face.name hface).trans h.2.1,
    (congrArg (fun f : Face => f.record.name) hface).trans h.2.1, ?_⟩
  have step := kept.keep _ _ h.2.2 (.restarted ok)
  have hoffers : (Session.start w.disk {} w.session.record 0).face.offers =
      reloaded peer w.table := by
    rw [hface]
    funext n
    simp only [reloaded, table, h.2.1]
    cases (w.disk.store.listPipes w.disk.fs peer).find? (·.name = n) <;> simp [face]
  simp only [table, hoffers]
  exact step

/-- An invariant of the registrations is kept by every step a run may take. -/
theorem step_holds (kept : Kept root peer nameOk restartOk P) (w : PeerWorld) (a : PeerAction)
    (w' : PeerWorld) (h : Holds peer P w) (ok : StepOk nameOk restartOk w a)
    (hstep : step w a = some w') : Holds peer P w' := by
  cases a with
  | register fd name toks =>
      cases hstep
      exact h.register kept ok
  | unregister name =>
      cases hstep
      exact h.unregister kept name
  | accept | requestClose id =>
      cases hstep
      exact h.same rfl w.files
  | data id b now =>
      cases hstep
      exact h.data kept id b now
  | gone id =>
      cases hstep
      exact h.same (face_onTunnelGone _ id) w.files
  | close id =>
      cases hstep
      exact h.same (face_closeInstance _ id) w.files
  | tick now =>
      cases hstep
      exact h.tick kept now
  | changeFiles files =>
      cases hstep
      exact h.same rfl files
  | restart =>
      cases hstep
      exact h.restart kept ok

end PeerWorld
end Splice.Peer
