import Splice.Peer.Inventory

/-!
Registrations across restarts. Offers are keyed by their name, files by its form, and
`list_pipes` passes over files that start with a dot: the two agree as long as every
registered name is its own form and does not start with a dot.
-/

namespace Splice.Peer
open Lib Table

/-- The type offered by the daemon itself under a name. -/
def Session.offered (s : Session) (name : Bytes) : Option Bytes :=
  (s.regs[name]?).bind fun r => if r.persisted then some r.type else none

/-- A name that is its own form and is listed. -/
def PlainName (name : Bytes) : Prop := sanitize name = name ∧ Store.hidden name = false

/-- A restart offers what is offered now, and UNREGISTER of one name leaves the file of any
other registered one as it is. -/
structure Durable (w : PeerWorld) : Prop where
  restart : ∀ name,
    (Session.start w.disk {} w.session.record 0).offered name = w.session.offered name
  unregister : ∀ name other type, other ≠ name → w.session.offered other = some type →
    ∃ body, w.disk.fs.read (w.disk.store.pipePath w.session.name other) = some body ∧
      (Session.unregister w.disk w.session name).1.fs.read
        (w.disk.store.pipePath w.session.name other) = some body

variable {root : Path} {peer : Bytes} {t : Table}

/-- Every daemon-owned offer has its own file, which a restart will list. -/
structure Mirrored (root : Path) (peer : Bytes) (t : Table) : Prop extends
    Inventory root peer t where
  own : ∀ n o, t.offers n = some o → o.persisted = true → PlainName n ∧
    ∃ i, t.disk.fs.node (n :: Peer.shelf root peer) = some (.file i) ∧ t.disk.ledger i = o.birth

namespace Mirrored

/-- The file of an offer, and what it says. -/
theorem file_of (m : Mirrored root peer t) {n : Bytes} {o : Offer} (ho : t.offers n = some o)
    (hper : o.persisted = true) :
    ∃ i r b, t.disk.fs.node (n :: Peer.shelf root peer) = some (.file i) ∧ FileOf t n i r b ∧
      OfferOf t n r b ∧ o.birth = some b ∧ o.type = r.type := by
  obtain ⟨plain, i, hnode, hledger⟩ := m.own n o ho hper
  obtain ⟨r, b, hfile, hoffer⟩ := m.file n i hnode
  have hbirth : o.birth = some b := hledger.symm.trans hfile.ledger
  obtain ⟨n', o', ho', hper', hform, hbirth', htype⟩ := hoffer plain.2
  have hn : n = n' := m.single n n' o o' b ho ho' hbirth hbirth'
  subst hn
  cases ho.symm.trans ho'
  exact ⟨i, r, b, hnode, hfile, hoffer plain.2, hbirth, htype⟩

/-- The restarted table has the same daemon-owned offers with the same types. -/
theorem reloaded_type (m : Mirrored root peer t) (n : Bytes) :
    ((reloaded peer t n).bind fun o => if o.persisted then some o.type else none) =
      (t.offers n).bind fun o => if o.persisted then some o.type else none := by
  have forward : ∀ {o : Offer}, t.offers n = some o → o.persisted = true →
      ∃ o', reloaded peer t n = some o' ∧ o'.persisted = true ∧ o'.type = o.type := by
    intro o ho hper
    obtain ⟨plain, -⟩ := m.own n o ho hper
    obtain ⟨i, r, b, hnode, hfile, hoffer, -, htype⟩ := m.file_of ho hper
    exact ⟨freshOffer r b,
      m.reloaded_eq_some.mpr ⟨plain.2, i, r, b, hnode, hfile, hoffer, rfl⟩, rfl, htype.symm⟩
  have back : ∀ {o' : Offer}, reloaded peer t n = some o' →
      ∃ o, t.offers n = some o ∧ o.persisted = true := by
    intro o' ho'
    obtain ⟨-, i, r, b, -, hfile, ⟨n', o, ho, hper, hform, -⟩, -⟩ :=
      m.reloaded_eq_some.mp ho'
    have hn : n' = n := (m.own n' o ho hper).1.1.symm.trans hform
    exact ⟨o, hn ▸ ho, hper⟩
  cases hr : reloaded peer t n with
  | none =>
      cases ho : t.offers n with
      | none => rfl
      | some o =>
          cases hper : o.persisted with
          | false => simp [hper]
          | true =>
              obtain ⟨o', ho', -⟩ := forward ho hper
              exact absurd (hr.symm.trans ho') (by simp)
  | some o' =>
      obtain ⟨o, ho, hper⟩ := back hr
      obtain ⟨o'', ho'', hper', htype⟩ := forward ho hper
      cases hr.symm.trans ho''
      simp [ho, hper, hper', htype]

theorem kept : Kept root peer PlainName (fun _ => True) (Mirrored root peer) where
  base _ m := m.toBase
  keep t t' m h := by
    have inv : Inventory root peer t' := Inventory.kept.keep t t' m.toInventory h
    refine ⟨inv, fun n o ho hper => ?_⟩
    cases h with
    | prepared h =>
        obtain ⟨plain, i, hnode, hledger⟩ := m.own n o ho hper
        refine ⟨plain, i, ?_, hledger⟩
        simp only
        rw [h.node, if_neg (child_ne_dirs n), hnode]
    | pipe absent kept _ =>
        rw [put_offers] at ho
        split at ho
        · cases ho
          exact absurd (hper.symm.trans kept) (by simp)
        · exact m.own n o ho hper
    | @stored fs r i b absent ok its h storable no limit =>
        subst its
        simp only [Function.update_apply] at ho
        split at ho
        · rename_i hn
          cases ho
          have hform : sanitize r.name = r.name := ok.1
          refine ⟨hn ▸ ok, i, ?_, by simp⟩
          simp only
          rw [h.node, if_pos (by rw [hn, hform])]
        · rename_i hn
          obtain ⟨plain, j, hnode, hledger⟩ := m.own n o ho hper
          have hne : ¬ sanitize r.name :: Peer.shelf root r.peer = n :: Peer.shelf root r.peer := by
            intro e
            exact hn ((List.cons.inj e).1.symm.trans ok.1)
          have hji : j ≠ i := by
            rintro rfl
            exact hne (h.only _ hnode).symm
          refine ⟨plain, j, ?_, ?_⟩
          · simp only
            rw [h.node, if_neg hne, if_neg (child_ne_dirs n), hnode]
          · simpa [hji] using hledger
    | dropped kept =>
        rw [put_offers] at ho
        split at ho
        · cases ho
        · exact m.own n o ho hper
    | @deleted name o' fs there kept node data cwd =>
        simp only [put_offers] at ho
        split at ho
        · cases ho
        · rename_i hn
          obtain ⟨plain, i, hnode, hledger⟩ := m.own n o ho hper
          have hne : ¬ sanitize name :: Peer.shelf root peer = n :: Peer.shelf root peer := by
            intro e
            have hform : sanitize name = name := (m.own name o' there kept).1.1
            exact hn ((List.cons.inj e).1.symm.trans hform)
          refine ⟨plain, i, ?_, hledger⟩
          simp only
          rw [node, if_neg hne, hnode]
    | @spawned name o' there left =>
        simp only [put_offers] at ho
        split at ho
        · rename_i hn
          cases ho
          exact hn ▸ m.own name o' there hper
        · exact m.own n o ho hper
    | restarted _ =>
        obtain ⟨hidden, i, r, b, hnode, hfile, -, rfl⟩ := m.reloaded_eq_some.mp ho
        exact ⟨⟨hfile.form, hidden⟩, i, hnode, hfile.ledger⟩

end Mirrored

namespace PeerWorld

theorem offered_eq (s : Session) (name : Bytes) :
    s.offered name = (s.face.offers name).bind fun o => if o.persisted then some o.type else none := by
  simp only [Session.offered, Session.face]
  cases s.regs[name]? <;> rfl

theorem durable_of_mirrored {w : PeerWorld} (h : w.Holds peer (Mirrored root peer)) :
    Durable w := by
  obtain ⟨hname, hrec, m⟩ := h
  have store : w.disk.store.At w.disk.fs root := m.store
  constructor
  · intro name
    have hreload := m.reloaded_type name
    rw [offered_eq, offered_eq, Session.face_start]
    simp only [hrec]
    rw [← show w.table.offers = w.session.face.offers from rfl, ← hreload]
    simp only [reloaded, table]
    cases (w.disk.store.listPipes w.disk.fs peer).find? (·.name = name) <;> simp [Session.face]
  · intro name other type hne hoffered
    rw [offered_eq] at hoffered
    obtain ⟨o, ho, htype⟩ := Option.bind_eq_some_iff.mp hoffered
    have hper : o.persisted = true := (Option.ite_none_right_eq_some.mp htype).1
    obtain ⟨i, r, b, hnode, hfile, -⟩ := m.file_of ho hper
    have plain : Plain (sanitize other) := m.plain other o ho hper
    have read : ∀ {fs : FileSystem}, w.disk.store.At fs root →
        fs.node (other :: Peer.shelf root peer) = some (.file i) → fs.data = w.disk.fs.data →
        fs.read (w.disk.store.pipePath w.session.name other) = some (pipeBody r) := by
      intro fs at_ hf hdata
      rw [FileSystem.read, hname, Store.stat_pipePath at_ m.form plain, hfile.form, hf]
      have content : w.disk.fs.data i = pipeBody r := hfile.data
      simp [FileSystem.nodeBytes, hdata, content]
    refine ⟨pipeBody r, read store hnode rfl, ?_⟩
    rw [Session.unregister_disk]
    split
    · rename_i hany
      cases ho' : w.session.face.offers name with
      | none => simp [ho'] at hany
      | some o' =>
          rw [ho', Option.any_some] at hany
          have hform : sanitize name = name := (m.own name o' ho' hany).1.1
          have shelfOk : Store.ShelfOk w.disk.fs root peer := m.shelf
          obtain ⟨fs, hrm, hafter, hdata, hcwd⟩ := Store.removePipe_spec store m.form shelfOk
            (m.plain name o' ho' hany)
          simp only [hname, hrm]
          rw [← hname]
          refine read (store.mono (fun q hq => ?_) hcwd) ?_ hdata
          · rw [hafter]
            split
            · rename_i he
              exact absurd rfl (shelfOk.files _ _ (he ▸ hq))
            · exact hq
          · have hother : ¬ sanitize name :: Peer.shelf root peer =
                other :: Peer.shelf root peer := by
              intro e
              exact hne ((List.cons.inj e).1.symm.trans hform)
            rw [hafter, if_neg hother]
            exact hnode
    · exact read store hnode rfl

/-- In a run that registers only plain names, a restart at any point offers exactly what was
offered before it, and UNREGISTER never deletes another registration's file. -/
theorem durable_of_plain_names {d : Disk} {files : SourceFs} {record : ConnRecord}
    {w : PeerWorld} (fresh : Fresh root record.name d)
    (h : Reach step (StepOk PlainName fun _ => True) (opened d files record) w) : Durable w := by
  have start : Mirrored root record.name (opened d files record).table := by
    refine ⟨fresh.inventory files, fun n o ho => ?_⟩
    exact absurd ((fresh.offers files n).symm.trans ho) (by simp)
  exact durable_of_mirrored (Fresh.holds start Mirrored.kept h)

/-- A check that is enough for the condition of `durable_of_plain_names`. -/
def registersPlain (_ : PeerWorld) : PeerAction → Bool
  | .register _ name _ => sanitize name = name ∧ Store.hidden name = false
  | _ => true

theorem registersPlain_sound (w : PeerWorld) (a : PeerAction) (h : registersPlain w a = true) :
    StepOk PlainName (fun _ => True) w a := by
  cases a with
  | register fd name toks =>
      intro _ _ _
      simpa [registersPlain, PlainName] using h
  | restart => trivial
  | unregister _ | accept | data _ _ _ | gone _ | close _ | requestClose _ | tick _
    | changeFiles _ => trivial

theorem durable_after_two_names : ∃ w, w.session.offered (str "b") = some (str "ECHO") ∧
    Durable w := by
  obtain ⟨w, reached, offered⟩ := Reach.observedWhen step registersPlain_sound
    (opened Sample.disk Sample.noFiles Sample.record)
    [.register 3 (str "a") [str "ECHO"], .register 3 (str "b") [str "ECHO"], .restart,
      .unregister (str "a")]
    (fun w => w.session.offered (str "b"))
    (by decide +kernel : _ = some (some (str "ECHO")))
  exact ⟨w, offered, durable_of_plain_names Sample.fresh reached⟩

/-- The name "a b" is stored as "a_b" and comes back under that name. -/
theorem blank_in_name_not_durable : ¬ ∀ w : PeerWorld,
    Reach step anyStep (opened Sample.disk Sample.noFiles Sample.record) w → Durable w := by
  intro all
  obtain ⟨w, reached, differ⟩ := Reach.observed step
    (opened Sample.disk Sample.noFiles Sample.record)
    [.register 3 (str "a b") [str "ECHO"]]
    (fun w => ((Session.start w.disk {} w.session.record 0).offered (str "a b"),
      w.session.offered (str "a b")))
    (by decide +kernel : _ = some (none, some (str "ECHO")))
  have same := (all w reached).restart (str "a b")
  rw [Prod.mk.injEq] at differ
  rw [differ.1, differ.2] at same
  cases same

end PeerWorld
end Splice.Peer
