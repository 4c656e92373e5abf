import Splice.Peer.Instances
import Splice.Peer.Records
import Splice.Peer.Work

/-!
The session table against the store. A session is found by the string of a command, by
the form of that string in the store and by the name in the record; where the three
agree the table stays in order: every entry is what it says, and a command leaves
everything of a running session alone but what it names.
-/

namespace Splice.Peer
open Lib FileSystem

/-! ## Work on a session -/

namespace Session

/-- Who a session is for and what it runs on. -/
def ident (s : Session) : Bytes × ConnRecord × Option Nat × Option Nat :=
  (s.name, s.record, s.pm, s.ns)

theorem ident_of_face {s s' : Session} (h : s'.face = s.face) : s'.ident = s.ident :=
  congrArg (fun f : Face => (f.name, f.record, f.pm, f.ns)) h

theorem ident_unregister (d : Disk) (s : Session) (name : Bytes) :
    (unregister d s name).2.1.ident = s.ident :=
  congrArg (fun f : Face => (f.name, f.record, f.pm, f.ns)) (face_unregister d s name)

theorem ident_register (src : SourceFs) (d : Disk) (s : Session) (fd : Int) (name : Bytes)
    (toks : List Bytes) : (register src d s fd name toks).2.1.ident = s.ident := by
  have hreg := register_cases src d s fd name toks
  generalize (register src d s fd name toks).1 = d' at hreg
  generalize (register src d s fd name toks).2.1 = s' at hreg ⊢
  cases hreg <;> rfl

/-! ## Files -/

/-- Nothing in the store changed but registrations. -/
structure Shelved (root : Path) (d d' : Disk) : Prop where
  store : d'.store = d.store
  below : Below (pipesName :: root) d.fs d'.fs

namespace Shelved
variable {root : Path} {d d' d'' : Disk} {s : Session}

theorem refl (root : Path) (d : Disk) : Shelved root d d := ⟨rfl, Below.refl _ _⟩

theorem trans (h : Shelved root d d') (h' : Shelved root d' d'') : Shelved root d d'' :=
  ⟨h'.store.trans h.store, h.below.trans h'.below⟩

theorem anchored (h : Shelved root d d') (ha : d.store.Anchored d.fs root) :
    d'.store.Anchored d'.fs root :=
  h.store ▸ ha.below h.below

theorem unregister (ha : d.store.Anchored d.fs root) (hform : sanitize s.name ≠ dotdot)
    (name : Bytes) : Shelved root d (Session.unregister d s name).1 := by
  rw [unregister_disk]
  split
  · exact ⟨rfl, Store.removePipe_below ha hform name⟩
  · exact refl root d

theorem register (ha : d.store.Anchored d.fs root) (hform : sanitize s.name ≠ dotdot)
    (src : SourceFs) (fd : Int) (name : Bytes) (toks : List Bytes) :
    Shelved root d (Session.register src d s fd name toks).1 := by
  have below : ∀ {limit type args fs e},
      d.store.savePipe d.fs ⟨s.name, name, type, limit, args⟩ = (fs, e) →
      Below (pipesName :: root) d.fs fs := by
    intro limit type args fs e save
    have hb := Store.savePipe_below (r := ⟨s.name, name, type, limit, args⟩) ha hform
    rwa [save] at hb
  have hreg := register_cases src d s fd name toks
  generalize (Session.register src d s fd name toks).1 = d' at hreg ⊢
  generalize (Session.register src d s fd name toks).2.1 = s' at hreg
  cases hreg with
  | refused | pipe => exact refl root d
  | unsaved _ save => exact ⟨rfl, below save⟩
  | saved _ _ _ _ save => exact ⟨rfl, below save⟩

/-- All work on a session leaves the peers alone. -/
theorem keeps (ha : d.store.Anchored d.fs root) (hform : sanitize s.name ≠ dotdot) :
    Keeps fun d' s' => Shelved root d d' ∧ s'.ident = s.ident where
  same _ _ _ h hface := ⟨h.1, (ident_of_face hface).trans h.2⟩
  spawned _ _ _ _ _ h _ hface :=
    ⟨h.1, (congrArg (fun f : Face => (f.name, f.record, f.pm, f.ns)) hface).trans h.2⟩
  register src d' s' fd name toks h := by
    have hname : s'.name = s.name := congrArg Prod.fst h.2
    exact ⟨h.1.trans (register (h.1.anchored ha) (hname ▸ hform) src fd name toks),
      (ident_register src d' s' fd name toks).trans h.2⟩
  unregister d' s' name h := by
    have hname : s'.name = s.name := congrArg Prod.fst h.2
    exact ⟨h.1.trans (unregister (h.1.anchored ha) (hname ▸ hform) name),
      (ident_unregister d' s' name).trans h.2⟩

end Shelved
end Session

/-! ## The records by uid -/

namespace Daemon
variable {d d' : Daemon} {a : Answers} {root : Path}

private theorem foldl_insert_some (l : List ConnRecord) (m : Std.ExtTreeMap Bytes ConnRecord)
    {u : Bytes} {r : ConnRecord}
    (h : (l.foldl (fun m r => m.insert r.uid.toList r) m)[u]? = some r) :
    m[u]? = some r ∨ r ∈ l ∧ r.uid.toList = u := by
  induction l generalizing m with
  | nil => exact .inl h
  | cons r' l ih =>
      rw [List.foldl_cons] at h
      rcases ih _ h with h | ⟨hmem, hu⟩
      · rw [lookup_insert] at h
        split at h
        · rename_i hu
          cases h
          exact .inr ⟨List.mem_cons_self, hu⟩
        · exact .inl h
      · exact .inr ⟨List.mem_cons_of_mem r' hmem, hu⟩

private theorem foldl_insert_isSome (l : List ConnRecord) (m : Std.ExtTreeMap Bytes ConnRecord)
    {u : Bytes} (h : m[u]? ≠ none ∨ ∃ r ∈ l, r.uid.toList = u) :
    (l.foldl (fun m r => m.insert r.uid.toList r) m)[u]? ≠ none := by
  induction l generalizing m with
  | nil =>
      rcases h with h | ⟨r, hr, -⟩
      · exact h
      · cases hr
  | cons r' l ih =>
      rw [List.foldl_cons]
      apply ih
      rw [lookup_insert]
      rcases h with h | ⟨r, hr, hu⟩
      · left
        split
        · simp
        · exact h
      · rcases List.mem_cons.mp hr with rfl | hr
        · left
          simp [hu]
        · exact .inr ⟨r, hr, hu⟩

/-- An entry of `onDisk` is a record of the store. -/
theorem onDisk_some {u : Bytes} {r : ConnRecord} (h : (d.onDisk a)[u]? = some r) :
    r ∈ d.disk.store.loadAll d.disk.fs a.rank ∧ r.uid.toList = u := by
  rcases foldl_insert_some _ _ h with h | h
  · simp at h
  · exact h

theorem onDisk_of_mem {r : ConnRecord} (h : r ∈ d.disk.store.loadAll d.disk.fs a.rank) :
    ∃ r', (d.onDisk a)[r.uid.toList]? = some r' :=
  Option.ne_none_iff_exists'.mp (foldl_insert_isSome _ _ (.inr ⟨r, h, rfl⟩))

/-! ## The table in order -/

/-- The table agrees with a store in which everything has its own name and uid. -/
structure Tabled (root : Path) (d : Daemon) : Prop where
  anchored : d.disk.store.Anchored d.disk.fs root
  distinct : d.disk.store.Distinct d.disk.fs
  named : ∀ f r, (f, r) ∈ d.disk.store.records d.disk.fs → sanitize r.name ≠ dotdot
  session : ∀ (key : Bytes) (s : Session), d.sessions[key]? = some s →
    s.name = key ∧ s.record.name = key ∧ s.pm ≠ none ∧ s.ns ≠ none ∧
      ∃ f, (f, s.record) ∈ d.disk.store.records d.disk.fs

namespace Tabled
variable {s : Session} {key : Bytes}

theorem form (h : d.Tabled root) (hs : d.sessions[key]? = some s) : sanitize s.name ≠ dotdot := by
  obtain ⟨hname, hrec, -, -, f, hf⟩ := h.session key s hs
  rw [hname, ← hrec]
  exact h.named f s.record hf

/-- Work on a session that is there. -/
theorem work (h : d.Tabled root) (hs : d.sessions[key]? = some s) {disk : Disk} {s' : Session}
    (shelved : Session.Shelved root d.disk disk) (same : s'.ident = s.ident) :
    Tabled root ({ d with disk }.putSession key s') := by
  have hrecords : ∀ {f : Name} {r : ConnRecord}, (f, r) ∈ disk.store.records disk.fs ↔
      (f, r) ∈ d.disk.store.records d.disk.fs := by
    intro f r
    rw [shelved.store]
    exact Store.records_below h.anchored shelved.below
  obtain ⟨hname, hrec, hpm, hns⟩ : s'.name = s.name ∧ s'.record = s.record ∧ s'.pm = s.pm ∧
      s'.ns = s.ns := by simpa [Session.ident] using same
  refine ⟨shelved.anchored h.anchored, ?_, fun f r hf => h.named f r (hrecords.mp hf), ?_⟩
  · have hd := Store.Distinct.below h.anchored shelved.below h.distinct
    rw [← shelved.store] at hd
    exact hd
  · intro q t ht
    simp only [Daemon.putSession, lookup_insert] at ht
    split at ht
    · rename_i hq
      cases ht
      obtain ⟨h₁, h₂, h₃, h₄, f, hf⟩ := h.session key s hs
      exact ⟨hname.trans (h₁.trans hq), hrec ▸ h₂.trans hq, hpm ▸ h₃, hns ▸ h₄, f,
        hrecords.mpr (hrec ▸ hf)⟩
    · obtain ⟨h₁, h₂, h₃, h₄, f, hf⟩ := h.session q t ht
      exact ⟨h₁, h₂, h₃, h₄, f, hrecords.mpr hf⟩

/-- A record of the store gets a session, or none if there is no socket. -/
theorem startSession (h : d.Tabled root) {f : Name} {r : ConnRecord}
    (hr : (f, r) ∈ d.disk.store.records d.disk.fs) (a : Answers) :
    (d.startSession a r).1.Tabled root := by
  simp only [Daemon.startSession]
  split
  · refine ⟨h.anchored, h.distinct, h.named, fun q t ht => ?_⟩
    simp only [lookup_insert] at ht
    split at ht
    · rename_i hq
      cases ht
      have hface := Session.face_start d.disk ((d.sessions[r.name]?).getD {}) r d.objects
      have hident := congrArg (fun f : Face => (f.name, f.record, f.pm, f.ns)) hface
      obtain ⟨hname, hrec, hpm, hns⟩ := by
        simpa only [Session.face, Prod.mk.injEq] using hident
      refine ⟨hname.trans hq, (congrArg ConnRecord.name hrec).trans hq, by simp [hpm],
        by simp [hns], f, ?_⟩
      rw [hrec]
      exact hr
    · exact h.session q t ht
  · refine ⟨h.anchored, h.distinct, h.named, fun q t ht => ?_⟩
    simp only [lookup_erase] at ht
    split at ht
    · cases ht
    · exact h.session q t ht

/-- A record read by uid is the one of the session with that uid. -/
theorem onDisk_session (h : d.Tabled root) (hs : d.sessions[key]? = some s) (a : Answers) :
    (d.onDisk a)[s.record.uid.toList]? = some s.record := by
  obtain ⟨-, -, -, -, f, hf⟩ := h.session key s hs
  obtain ⟨r, hr⟩ := onDisk_of_mem (a := a) (Store.mem_loadAll.mpr ⟨f, hf⟩)
  obtain ⟨hmem, huid⟩ := onDisk_some hr
  obtain ⟨f', hf'⟩ := Store.mem_loadAll.mp hmem
  have huid' : r.uid = s.record.uid := Subtype.ext huid
  rw [hr, (h.distinct.eq hf' hf (.inr huid')).2]

theorem goneNames (h : d.Tabled root) (a : Answers) : d.goneNames (d.onDisk a) = [] := by
  rw [Daemon.goneNames, List.map_eq_nil_iff, List.filter_eq_nil_iff]
  intro e he
  have hs := Std.ExtTreeMap.mem_toList_iff_getElem?_eq_some.mp he
  rw [h.onDisk_session hs a]
  simp

theorem movedNames (h : d.Tabled root) (a : Answers) : d.movedNames (d.onDisk a) = [] := by
  rw [Daemon.movedNames, List.map_eq_nil_iff, List.filter_eq_nil_iff]
  intro e he
  have hs := Std.ExtTreeMap.mem_toList_iff_getElem?_eq_some.mp he
  rw [h.onDisk_session hs a]
  simpa using (h.session e.1 e.2 hs).2.1

theorem adopt {da da' : Daemon × Nat} (h : da.1.Tabled root) {f : Name} {r : ConnRecord}
    (hr : (f, r) ∈ da.1.disk.store.records da.1.disk.fs) (had : Daemon.adopt a da r = some da') :
    da'.1.Tabled root ∧ da'.1.disk = da.1.disk := by
  simp only [Daemon.adopt] at had
  split at had
  · cases had
    refine ⟨h.startSession hr a, ?_⟩
    simp only [Daemon.startSession]
    split <;> rfl
  · split at had
    · cases had
      refine ⟨⟨h.anchored, h.distinct, h.named, fun q t ht => ?_⟩, rfl⟩
      rw [Std.ExtTreeMap.getElem?_map] at ht
      obtain ⟨s, hs, rfl⟩ := Option.map_eq_some_iff.mp ht
      obtain ⟨h₁, h₂, h₃, h₄, f', hf'⟩ := h.session q s hs
      split
      · rename_i huid
        -- the record it follows is the one it has
        have same : s.record = r := (h.distinct.eq hf' hr (.inr huid)).2
        exact ⟨h₁, same ▸ h₂, h₃, h₄, f, hr⟩
      · exact ⟨h₁, h₂, h₃, h₄, f', hf'⟩
    · cases had

theorem reload (h : d.Tabled root) {r : Daemon × Bytes} (hr : d.reload a = some r) :
    r.1.Tabled root := by
  simp only [Daemon.reload, h.goneNames a, h.movedNames a] at hr
  obtain ⟨d₁, hgone, hr⟩ := Option.bind_eq_some_iff.mp hr
  obtain ⟨da, hadopt, hr⟩ := Option.bind_eq_some_iff.mp hr
  cases hr
  cases hgone
  have start : (d.moveAll (d.onDisk a) []) = d := rfl
  rw [start] at hadopt
  refine (foldlM_invariant (I := fun da : Daemon × Nat => da.1.Tabled root ∧ da.1.disk = d.disk)
    (fun da r da' kept hmem had => ?_) ⟨h, rfl⟩ hadopt).1
  obtain ⟨hd, hdisk⟩ := kept
  obtain ⟨e, he, rfl⟩ := List.mem_map.mp hmem
  have hsome := Std.ExtTreeMap.mem_toList_iff_getElem?_eq_some.mp he
  obtain ⟨f, hf⟩ := Store.mem_loadAll.mp (onDisk_some hsome).1
  have hd' := hd.adopt (hdisk.symm ▸ hf) had
  exact ⟨hd'.1, hd'.2.trans hdisk⟩

theorem run (anchored : d.disk.store.Anchored d.disk.fs root)
    (distinct : d.disk.store.Distinct d.disk.fs)
    (named : ∀ f r, (f, r) ∈ d.disk.store.records d.disk.fs → sanitize r.name ≠ dotdot)
    (a : Answers) : (d.run a).Tabled root := by
  have start : Tabled root { d with sessions := ∅ } := by
    refine ⟨anchored, distinct, named, fun key s hs => ?_⟩
    simp at hs
  refine (foldl_invariant (I := fun d' : Daemon => d'.Tabled root ∧ d'.disk = d.disk)
    (fun d' r kept hr => ?_) ⟨start, rfl⟩).1
  obtain ⟨h, hdisk⟩ := kept
  obtain ⟨f, hf⟩ := Store.mem_loadAll.mp hr
  refine ⟨h.startSession (hdisk.symm ▸ hf) a, ?_⟩
  simp only [Daemon.startSession]
  split <;> exact hdisk

/-! ## Steps -/

theorem onSession (h : d.Tabled root) {f : Disk → Session → Disk × Session}
    (hd : d.onSession key f = some d')
    (keep : ∀ s, d.sessions[key]? = some s →
      Session.Shelved root d.disk (f d.disk s).1 ∧ (f d.disk s).2.ident = s.ident) :
    d'.Tabled root := by
  obtain ⟨s, hs, rfl⟩ := Option.map_eq_some_iff.mp hd
  exact h.work hs (keep s hs).1 (keep s hs).2

theorem onDialing (h : d.Tabled root) {id : Nat} {f : Session → Session}
    (hd : d.onDialing key id f = some d') (keep : ∀ s, (f s).ident = s.ident) :
    d'.Tabled root := by
  simp only [Daemon.onDialing] at hd
  split at hd
  · split at hd
    · exact h.onSession hd fun s _ => ⟨Session.Shelved.refl root _, keep s⟩
    · cases hd
  · cases hd

theorem eachSession (h : d.Tabled root) {f : Disk → Session → Option (Disk × Session)}
    (hd : d.eachSession f = some d')
    (keep : ∀ disk s r, disk.store.Anchored disk.fs root → sanitize s.name ≠ dotdot →
      f disk s = some r → Session.Shelved root disk r.1 ∧ r.2.ident = s.ident) :
    d'.Tabled root := by
  refine foldlM_invariant (fun d₁ name d₂ h₁ _ h₂ => ?_) h hd
  split at h₂
  · cases h₂
    exact h₁
  · rename_i s hs
    obtain ⟨r, hr, rfl⟩ := Option.map_eq_some_iff.mp h₂
    obtain ⟨shelved, same⟩ := keep _ s r h₁.anchored (h₁.form hs) hr
    exact h₁.work hs shelved same

end Tabled

/-- The string a command is addressed to finds a running session, no record, or a record of
just that name. -/
def ExactPeer (d : Daemon) (peer : Bytes) : Prop :=
  d.sessions[peer]? ≠ none ∨ ∀ r, d.disk.store.load d.disk.fs peer = some r → r.name = peer

/-- The same as a check of a whole command line. -/
def addressed (d : Daemon) (line : Bytes) : Bool :=
  match parseCmd (tokens line) with
  | .forPeer peer _ => (d.sessions[peer]?).isSome ||
      (d.disk.store.load d.disk.fs peer).all fun r => r.name = peer
  | .reply _ | .reload | .reset => true

theorem addressed_exact {line peer : Bytes} {cmd : SessionCmd} (h : d.addressed line = true)
    (hcmd : parseCmd (tokens line) = .forPeer peer cmd) : d.ExactPeer peer := by
  simp only [addressed, hcmd, Bool.or_eq_true] at h
  rcases h with h | h
  · exact .inl (Option.isSome_iff_ne_none.mp h)
  · refine .inr fun r hr => ?_
    rw [hr] at h
    exact of_decide_eq_true h

namespace Tabled
variable {peer : Bytes} {cmd : SessionCmd} {fd : Nat}

/-- What `session_for` does when the string is exact. -/
theorem sessionFor (h : d.Tabled root) (exact : d.ExactPeer peer) :
    (d.sessionFor a peer).1.Tabled root ∧
      (∀ s, (d.sessionFor a peer).2 = .ok s → (d.sessionFor a peer).1.sessions[peer]? = some s) ∧
      (∀ s, d.sessions[peer]? = some s → d.sessionFor a peer = (d, .ok s)) ∧
      ∀ key, key ≠ peer → (d.sessionFor a peer).1.sessions[key]? = d.sessions[key]? := by
  simp only [Daemon.sessionFor]
  cases hs : d.sessions[peer]? with
  | some s =>
      refine ⟨h, fun t ht => ?_, fun t ht => ?_, fun _ _ => rfl⟩
      · cases ht
        exact hs
      · cases ht
        rfl
  | none =>
      have exact' : ∀ r, d.disk.store.load d.disk.fs peer = some r → r.name = peer := by
        rcases exact with hne | hall
        · exact absurd hs hne
        · exact hall
      cases hload : d.disk.store.load d.disk.fs peer with
      | none => exact ⟨h, fun t ht => (by cases ht), fun t ht => (by cases ht), fun _ _ => rfl⟩
      | some r =>
          have hname : r.name = peer := exact' r hload
          have hstart := h.startSession ((Store.load_eq_some h.anchored).mp hload) a
          simp only [Daemon.startSession, hname] at hstart ⊢
          split
          · rename_i d₁ heq
            split at heq
            · cases heq
            · rename_i hsock
              rw [if_neg hsock] at hstart
              cases heq
              refine ⟨hstart, fun t ht => (by cases ht), fun t ht => (by cases ht), fun key hne => ?_⟩
              simp [lookup_erase, Ne.symm hne]
          · rename_i d₁ heq
            split at heq
            · rename_i hsock
              rw [if_pos hsock] at hstart
              cases heq
              refine ⟨?_, fun t ht => ?_, fun t ht => (by cases ht), fun key hne => ?_⟩
              · simp only [lookup_insert, if_true, Option.getD_some]
                exact hstart.work (by simp) (Session.Shelved.refl root _) rfl
              · cases ht
                simp [Daemon.putSession]
              · simp [Daemon.putSession, lookup_insert, Ne.symm hne]
            · cases heq

theorem forPeer (h : d.Tabled root) (exact : d.ExactPeer peer) {r : Daemon × Bytes}
    (hr : d.forPeer a fd peer cmd = some r) : r.1.Tabled root := by
  obtain ⟨hd, hs, -⟩ := h.sessionFor (a := a) exact
  simp only [Daemon.forPeer] at hr
  split at hr
  · rename_i d₁ e he
    rw [he] at hd
    cases hr
    exact hd
  · rename_i d₁ s he
    rw [he] at hd hs
    obtain ⟨x, hx, rfl⟩ := Option.map_eq_some_iff.mp hr
    have there := hs s rfl
    obtain ⟨shelved, same⟩ :=
      (Session.Shelved.keeps hd.anchored (hd.form there)).run ⟨.refl root _, rfl⟩ hx
    exact hd.work there shelved same

end Tabled

/-- The steps of a daemon whose peers stay as they are. -/
def SamePeers : DaemonAction → Prop
  | .pair _ | .removePeer _ | .renamePeer _ _ => False
  | .command _ _ _ | .tick _ | .accept _ | .data _ _ _ _ | .gone _ _ | .connected _ _
    | .connectFailed _ _ | .requestClose _ _ | .ownerGone _ _ _ _ | .changeFiles _ | .restart _ =>
      True

instance : DecidablePred SamePeers
  | .pair _ | .removePeer _ | .renamePeer _ _ => isFalse id
  | .command _ _ _ | .tick _ | .accept _ | .data _ _ _ _ | .gone _ _ | .connected _ _
    | .connectFailed _ _ | .requestClose _ _ | .ownerGone _ _ _ _ | .changeFiles _ | .restart _ =>
      isTrue trivial

/-- Besides, a command for one peer is addressed exactly. -/
def ExactStep (d : Daemon) (act : DaemonAction) : Prop :=
  SamePeers act ∧ ∀ a fd line peer cmd, act = .command a fd line →
    parseCmd (tokens line) = .forPeer peer cmd → d.ExactPeer peer

theorem Tabled.handleCmd (h : d.Tabled root) {fd : Nat} {line : Bytes} {r : Daemon × Bytes}
    (exact : ∀ peer cmd, parseCmd (tokens line) = .forPeer peer cmd → d.ExactPeer peer)
    (hr : d.handleCmd a fd line = some r) : r.1.Tabled root := by
  simp only [Daemon.handleCmd] at hr
  split at hr
  · cases hr
    exact h
  · obtain ⟨x, hx, rfl⟩ := Option.map_eq_some_iff.mp hr
    exact Tabled.reload (r := x) h hx
  · obtain ⟨x, hx, rfl⟩ := Option.map_eq_some_iff.mp hr
    refine h.eachSession hx fun disk s r ha hform hr => ?_
    cases hr
    exact (Session.Shelved.keeps ha hform).reset ⟨.refl root _, rfl⟩
  · rename_i peer cmd hcmd
    exact h.forPeer (exact peer cmd hcmd) hr

theorem Tabled.step (h : d.Tabled root) {act : DaemonAction} (ok : ExactStep d act)
    (hd : d.step act = some d') : d'.Tabled root := by
  have still : ∀ {s s' : Session}, s'.ident = s.ident →
      Session.Shelved root d.disk d.disk ∧ s'.ident = s.ident :=
    fun same => ⟨Session.Shelved.refl root _, same⟩
  cases act with
  | command a fd line =>
      obtain ⟨r, hr, rfl⟩ := Option.map_eq_some_iff.mp hd
      exact h.handleCmd (fun peer cmd => ok.2 a fd line peer cmd rfl) hr
  | tick now =>
      simp only [Daemon.step, Daemon.tick] at hd
      refine h.eachSession hd fun disk s r ha hform hr => ?_
      split at hr
      · cases hr
        exact (Session.Shelved.keeps ha hform).tick ⟨.refl root _, rfl⟩ now
      · cases hr
  | accept key =>
      simp only [Daemon.step] at hd
      exact h.onSession hd fun s _ => still rfl
  | data key id b now =>
      simp only [Daemon.step] at hd
      refine h.onSession hd fun s _ => still ?_
      rcases Session.onTunnelData_answered d.files s id b now with
        ⟨name, o, -, -, hface, -⟩ | ⟨hface, -⟩
      · exact congrArg (fun f : Face => (f.name, f.record, f.pm, f.ns)) hface
      · exact Session.ident_of_face hface
  | gone key id =>
      simp only [Daemon.step] at hd
      exact h.onSession hd fun s _ => still (Session.ident_of_face (Session.face_onTunnelGone s id))
  | connected key id =>
      simp only [Daemon.step] at hd
      refine h.onDialing hd fun s => ?_
      simp only [Session.connected]
      split <;> rfl
  | connectFailed key id =>
      simp only [Daemon.step] at hd
      refine h.onDialing hd fun s => ?_
      simp only [Session.connectFailed]
      split <;> rfl
  | requestClose key id =>
      simp only [Daemon.step] at hd
      exact h.onSession hd fun s _ => still rfl
  | ownerGone key name serial fd =>
      simp only [Daemon.step] at hd
      exact h.onSession hd fun s hs =>
        (Session.Shelved.keeps h.anchored (h.form hs)).ownerGone ⟨.refl root _, rfl⟩ name serial fd
  | changeFiles files =>
      cases hd
      exact ⟨h.anchored, h.distinct, h.named, h.session⟩
  | restart a =>
      cases hd
      exact Tabled.run h.anchored h.distinct h.named a
  | pair record => exact ok.1.elim
  | removePeer name => exact ok.1.elim
  | renamePeer source target => exact ok.1.elim

end Daemon
end Splice.Peer
