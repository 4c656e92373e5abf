import Splice.Peer.Housing
import Splice.Peer.SessionTable

/-!
Offers over runs in which peers are paired, removed and renamed by another process and
the daemon hears of it at some later RELOAD: what a session offers was registered with
the session of that uid. It holds as long as a name is taken up only when no
registrations are stored under its form, and nothing is stored by a session whose name
has gone to another peer meanwhile. A pairing under a name that has some hands them to
the new peer.
-/

namespace Splice.Peer
open Lib FileSystem Proto

/-- Registered with the session of this uid; a client's own socket is not stored. -/
def Offer.BornFor (births : List Birth) (uid : Uid) (o : Offer) : Prop :=
  o.type = str "PIPE" ∨ ∃ b ∈ births, o.birth = some b ∧ b.uid = uid

theorem Offer.BornFor.mono {births births' : List Birth} {uid : Uid} {o : Offer}
    (h : o.BornFor births uid) (more : ∀ b ∈ births, b ∈ births') : o.BornFor births' uid :=
  h.imp_right fun ⟨b, hb, hrest⟩ => ⟨b, more b hb, hrest⟩

namespace Session

/-- What it offers was registered with it. -/
def Owns (births : List Birth) (s : Session) : Prop :=
  ∀ n o, s.face.offers n = some o → o.BornFor births s.record.uid

/-- Under a name that has a directory of its own, with offers of its own. Its record may have
changed on disk, or be gone. -/
structure Rightful (births : List Birth) (s : Session) : Prop where
  form : Plain (sanitize s.name)
  owns : s.Owns births

variable {root : Path} {uids : List Uid} {d d' : Disk} {s s' : Session} {births : List Birth}

theorem Rightful.more (h : s.Rightful births) {births' : List Birth}
    (more : births ⊆ births') : s.Rightful births' :=
  ⟨h.form, fun n o ho => (h.owns n o ho).mono fun _ hb => more hb⟩

/-- A session whose offers are the old ones but one. -/
theorem Rightful.put (h : s.Rightful births) {name : Bytes} {o : Option Offer}
    (hface : s'.face = s.face.put name o)
    (born : ∀ o', o = some o' → o'.BornFor births s.record.uid) : s'.Rightful births := by
  have hrec : s'.record = s.record := congrArg Face.record hface
  have hname : s'.name = s.name := congrArg Face.name hface
  refine ⟨hname.symm ▸ h.form, fun n o' ho' => ?_⟩
  rw [hrec]
  rw [hface, Face.put_offers] at ho'
  split at ho'
  · exact born o' ho'
  · exact h.owns n o' ho'

theorem Rightful.same (h : s.Rightful births) (hface : s'.face = s.face) :
    s'.Rightful births := by
  have hrec : s'.record = s.record := congrArg Face.record hface
  have hname : s'.name = s.name := congrArg Face.name hface
  refine ⟨hname.symm ▸ h.form, fun n o ho => ?_⟩
  rw [hrec]
  exact h.owns n o (hface ▸ ho)

/-- What work on a session keeps. -/
structure Tenant (root : Path) (uids : List Uid) (d : Disk) (s : Session) : Prop where
  housed : Housed root uids d
  rightful : s.Rightful d.births

theorem Tenant.unregister (h : Tenant root uids d s) (name : Bytes) :
    Tenant root uids (unregister d s name).1 (unregister d s name).2.1 ∧
      d.births ⊆ (unregister d s name).1.births := by
  have form := h.rightful.form
  have face := face_unregister d s name
  rw [unregister_disk]
  split
  · cases hrm : d.store.removePipe d.fs s.name name with
    | none =>
        exact ⟨⟨h.housed, h.rightful.put face fun o' e => (by cases e)⟩, fun _ hb => hb⟩
    | some fs =>
        have hp := Store.removePipe_pruned h.housed.laid.anchored.toAt form hrm
        have under : ∀ q, q = sanitize name :: shelf root s.name → root <:+ q ∧ q ≠ root := by
          rintro q rfl
          exact Store.Removed.under (.inr (List.suffix_cons _ _))
        exact ⟨⟨h.housed.pruned hp under, h.rightful.put face fun o' e => (by cases e)⟩,
          fun _ hb => hb⟩
  · exact ⟨⟨h.housed, h.rightful.put face fun o' e => (by cases e)⟩, fun _ hb => hb⟩

/-- The tokens of a REGISTER of a daemon-owned type; a PIPE is not stored. -/
def storing (toks : List Bytes) : Bool :=
  match parseLimit toks with
  | .ok (_, type :: _) => type ≠ str "PIPE"
  | .ok (_, []) | .error _ => false

/-- No record of another uid has the form of the session's name. -/
def Unclaimed (d : Disk) (s : Session) : Prop :=
  ∀ f r, (f, r) ∈ d.store.records d.fs → sanitize r.name = sanitize s.name →
    s.record.uid = r.uid

theorem Tenant.register (h : Tenant root uids d s) (src : SourceFs) (fd : Int) (name : Bytes)
    (toks : List Bytes) (unclaimed : storing toks = true → s.Unclaimed d) :
    Tenant root uids (register src d s fd name toks).1 (register src d s fd name toks).2.1 ∧
      d.births ⊆ (register src d s fd name toks).1.births := by
  have form := h.rightful.form
  have anchored := h.housed.laid.anchored
  have shelf := h.housed.laid.shelfOk s.name
  have hreg := register_cases src d s fd name toks
  generalize (Session.register src d s fd name toks).1 = d' at hreg ⊢
  generalize (Session.register src d s fd name toks).2.1 = s' at hreg ⊢
  cases hreg with
  | refused => exact ⟨h, fun _ hb => hb⟩
  | pipe _ =>
      refine ⟨⟨h.housed, h.rightful.put (face_addReg s name _) fun o e => ?_⟩, fun _ hb => hb⟩
      cases e
      exact .inl rfl
  | @unsaved limit type args fs e _ save =>
      rcases Store.savePipe_cases (r := ⟨s.name, name, type, limit, args⟩) anchored.toAt form
          shelf with ⟨fs', e', hsave, prep⟩ | ⟨fs', i, hsave, -⟩
      · cases save.symm.trans hsave
        exact ⟨⟨(h.housed.prepared prep).1, h.rightful⟩, fun _ hb => hb⟩
      · cases save.symm.trans hsave
  | @saved limit type args fs e _ parsed owned _ save =>
      rcases Store.savePipe_cases (r := ⟨s.name, name, type, limit, args⟩) anchored.toAt form
          shelf with ⟨fs', e', hsave, -⟩ | ⟨fs', i, hsave, stored⟩
      · cases save.symm.trans hsave
      · cases save.symm.trans hsave
        have hnote := PeerWorld.note_stored (r := ⟨s.name, name, type, limit, args⟩)
          ⟨d.births.length, s.record.uid, limit⟩ anchored.toAt form shelf stored
        rw [hnote]
        obtain ⟨housed, -⟩ := h.housed.stored (b := ⟨d.births.length, s.record.uid, limit⟩)
          stored (unclaimed (by simp [storing, parsed, owned]))
        have more : d.births ⊆ d.births ++ [⟨d.births.length, s.record.uid, limit⟩] :=
          List.subset_append_left _ _
        refine ⟨⟨housed, (h.rightful.more more).put (face_addReg s name _) fun o e => ?_⟩, more⟩
        cases e
        exact .inr ⟨_, by simp, rfl, rfl⟩

/-- Work on a session other than a REGISTER keeps it, and leaves the other sessions what they
have. -/
theorem Tenant.tends (root : Path) (uids : List Uid) (d : Disk) (s : Session) :
    Tends fun d' s' => Tenant root uids d' s' ∧ d.births ⊆ d'.births ∧ s'.name = s.name where
  same d' s' s'' h hface :=
    ⟨⟨h.1.housed, h.1.rightful.same hface⟩, h.2.1, (congrArg Face.name hface).trans h.2.2⟩
  spawned d' s' s'' name o h ho hface := by
    refine ⟨⟨h.1.housed, h.1.rightful.put hface fun o' e => ?_⟩, h.2.1,
      (congrArg Face.name hface).trans h.2.2⟩
    cases e
    exact h.1.rightful.owns name o ho
  unregister d' s' name h := by
    obtain ⟨tenant, ht⟩ := h.1.unregister name
    exact ⟨tenant, List.Subset.trans h.2.1 ht,
      (congrArg Prod.fst (ident_unregister d' s' name)).trans h.2.2⟩

/-- A session that is started owns what it finds stored. -/
theorem owns_start (h : Housed root uids d) {f : Name} {r : ConnRecord}
    (hr : (f, r) ∈ d.store.records d.fs) (object : Nat)
    (before : ∀ n o, s.face.offers n = some o → o.BornFor d.births r.uid) :
    (start d s r object).Owns d.births := by
  intro n o ho
  have hrec : (start d s r object).record = r := congrArg Face.record (face_start d s r object)
  rw [hrec]
  rw [face_start] at ho
  simp only at ho
  split at ho
  · rename_i p hfind
    cases ho
    obtain ⟨i, hi⟩ := listed_of_mem h.laid (h.form hr) (List.mem_of_find?_eq_some hfind)
    obtain ⟨b, hb, hl, hu⟩ := h.owned f r hr p.name i hi
    exact .inr ⟨b, hb, (birthAt_listed h.laid (h.form hr) hi).trans hl, hu⟩
  · exact before n o ho

end Session

/-! ## The daemon -/

namespace Daemon
variable {d d' : Daemon} {a : Answers} {root : Path} {key : Bytes} {s : Session}

structure Rightful (root : Path) (d : Daemon) : Prop where
  housed : Housed root d.uids d.disk
  session : ∀ (key : Bytes) (s : Session), d.sessions[key]? = some s →
    s.name = key ∧ s.Rightful d.disk.births

/-- No record of another uid has the form under which the session of `peer` stores. -/
def Unclaimed (d : Daemon) (peer : Bytes) : Prop :=
  ∀ s r, d.sessions[peer]? = some s → d.disk.store.load d.disk.fs peer = some r →
    r.uid = s.record.uid

namespace Rightful

theorem work (h : d.Rightful root) {disk : Disk} {s' : Session}
    (tenant : Session.Tenant root d.uids disk s') (more : d.disk.births ⊆ disk.births)
    (named : s'.name = key) : Rightful root ({ d with disk }.putSession key s') := by
  refine ⟨tenant.housed, fun q t ht => ?_⟩
  simp only [Daemon.putSession, lookup_insert] at ht
  split at ht
  · rename_i hq
    cases ht
    exact ⟨named.trans hq, tenant.rightful⟩
  · obtain ⟨hname, ht⟩ := h.session q t ht
    exact ⟨hname, ht.more more⟩

theorem tenant (h : d.Rightful root) (hs : d.sessions[key]? = some s) :
    Session.Tenant root d.uids d.disk s ∧ d.disk.births ⊆ d.disk.births ∧ s.name = s.name :=
  ⟨⟨h.housed, (h.session key s hs).2⟩, fun _ hb => hb, rfl⟩

theorem reput (h : d.Rightful root) (hs : d.sessions[key]? = some s) :
    (d.putSession key s).Rightful root := by
  obtain ⟨tenant, more, -⟩ := h.tenant hs
  exact h.work tenant more (h.session key s hs).1

theorem unclaimed (h : d.Rightful root) (hs : d.sessions[key]? = some s)
    (free : d.Unclaimed key) : s.Unclaimed d.disk := by
  intro f r hr hform
  rw [(h.session key s hs).1] at hform
  refine (free s r hs ((Store.load_eq_some h.housed.laid.anchored).mpr ?_)).symm
  rw [(h.housed.laid.formed f r hr).1, connName, hform] at hr
  exact hr

/-- A stored record gets a session, or none if there is no socket. An entry of its name is of
the same uid. -/
theorem startSession (h : d.Rightful root) {f : Name} {r : ConnRecord}
    (hr : (f, r) ∈ d.disk.store.records d.disk.fs) (a : Answers)
    (its : ∀ t, d.sessions[r.name]? = some t → t.record.uid = r.uid) :
    (d.startSession a r).1.Rightful root := by
  simp only [Daemon.startSession]
  split
  · refine ⟨h.housed, fun q t ht => ?_⟩
    simp only [lookup_insert] at ht
    split at ht
    · rename_i hq
      cases ht
      generalize hs₀ : (d.sessions[r.name]?).getD {} = s₀
      have hname : (Session.start d.disk s₀ r d.objects).name = r.name :=
        congrArg Face.name (Session.face_start d.disk s₀ r d.objects)
      refine ⟨hname.trans hq, hname.symm ▸ h.housed.form hr,
        Session.owns_start h.housed hr d.objects fun n o ho => ?_⟩
      rw [← hs₀] at ho
      cases hs : d.sessions[r.name]? with
      | none =>
          rw [hs] at ho
          simp [Session.face] at ho
      | some t =>
          rw [hs] at ho
          rw [← its t hs]
          exact (h.session r.name t hs).2.owns n o ho
    · exact h.session q t ht
  · refine ⟨h.housed, fun q t ht => ?_⟩
    simp only [lookup_erase] at ht
    split at ht
    · cases ht
    · exact h.session q t ht

theorem sessionFor (h : d.Rightful root) {peer : Bytes} (exact : d.ExactPeer peer) :
    (d.sessionFor a peer).1.Rightful root ∧
      ∀ s, (d.sessionFor a peer).2 = .ok s →
        (d.sessionFor a peer).1.sessions[peer]? = some s ∧
        (d.Unclaimed peer → (d.sessionFor a peer).1.Unclaimed peer) := by
  simp only [Daemon.sessionFor]
  cases hs : d.sessions[peer]? with
  | some s =>
      refine ⟨h, fun t ht => ?_⟩
      cases ht
      exact ⟨hs, id⟩
  | none =>
      cases hload : d.disk.store.load d.disk.fs peer with
      | none => exact ⟨h, fun t ht => (by cases ht)⟩
      | some r =>
          have hname : r.name = peer := by
            rcases exact with hne | hall
            · exact absurd hs hne
            · exact hall r hload
          have hstart := h.startSession ((Store.load_eq_some h.housed.laid.anchored).mp hload) a
            fun t ht => (by rw [hname, hs] at ht; cases ht)
          simp only [Daemon.startSession, hname] at hstart ⊢
          split
          · rename_i d₁ heq
            split at heq
            · cases heq
            · rename_i hsock
              rw [if_neg hsock] at hstart
              cases heq
              exact ⟨hstart, fun t ht => (by cases ht)⟩
          · rename_i d₁ heq
            split at heq
            · rename_i hsock
              rw [if_pos hsock] at hstart
              cases heq
              simp only [lookup_insert, if_true, Option.getD_some]
              refine ⟨hstart.reput (Std.ExtTreeMap.getElem?_insert_self ..), fun t ht => ?_⟩
              cases ht
              refine ⟨by simp [Daemon.putSession], fun _ t r' ht hr' => ?_⟩
              -- the new session has the record that was read
              have hr : r' = r := Option.some.inj (hr'.symm.trans hload)
              simp only [Daemon.putSession, lookup_insert, if_true, Option.some.injEq] at ht
              rw [← ht, hr]
              exact congrArg (fun f : Face => f.record.uid)
                (Session.face_start d.disk _ r d.objects).symm
            · cases heq

theorem forPeer (h : d.Rightful root) {fd : Nat} {peer : Bytes} {cmd : SessionCmd}
    (exact : d.ExactPeer peer)
    (free : ∀ name toks, cmd = .register name toks → Session.storing toks = true →
      d.Unclaimed peer)
    {r : Daemon × Bytes} (hr : d.forPeer a fd peer cmd = some r) : r.1.Rightful root := by
  obtain ⟨hd, hs⟩ := h.sessionFor (a := a) exact
  simp only [Daemon.forPeer] at hr
  split at hr
  · rename_i d₁ e he
    rw [he] at hd
    cases hr
    exact hd
  · rename_i d₁ s he
    rw [he] at hd hs
    obtain ⟨x, hx, rfl⟩ := Option.map_eq_some_iff.mp hr
    obtain ⟨there, stays⟩ := hs s rfl
    obtain ⟨tenant, more, same⟩ :=
      (Session.Tenant.tends root d₁.uids d₁.disk s).run (hd.tenant there)
        (fun name toks hcmd => by
          obtain ⟨tenant, more⟩ := (hd.tenant there).1.register d₁.files fd name toks
            fun store => hd.unclaimed there (stays (free name toks hcmd store))
          exact ⟨tenant, more, congrArg Prod.fst (Session.ident_register ..)⟩) hx
    exact hd.work tenant more (same.trans (hd.session peer s there).1)

theorem onSession (h : d.Rightful root) {f : Disk → Session → Disk × Session}
    (hd : d.onSession key f = some d')
    (keep : ∀ s, Session.Tenant root d.uids d.disk s ∧ d.disk.births ⊆ d.disk.births ∧
        s.name = s.name →
      Session.Tenant root d.uids (f d.disk s).1 (f d.disk s).2 ∧
        d.disk.births ⊆ (f d.disk s).1.births ∧ (f d.disk s).2.name = s.name) : d'.Rightful root := by
  obtain ⟨s, hs, rfl⟩ := Option.map_eq_some_iff.mp hd
  obtain ⟨tenant, more, same⟩ := keep s (h.tenant hs)
  exact h.work tenant more (same.trans (h.session key s hs).1)

theorem eachSession (h : d.Rightful root) {f : Disk → Session → Option (Disk × Session)}
    (hd : d.eachSession f = some d')
    (keep : ∀ uids disk s r, Session.Tenant root uids disk s ∧ disk.births ⊆ disk.births ∧
      s.name = s.name → f disk s = some r → Session.Tenant root uids r.1 r.2 ∧
        disk.births ⊆ r.1.births ∧ r.2.name = s.name) : d'.Rightful root := by
  refine foldlM_invariant (fun d₁ name d₂ h₁ _ h₂ => ?_) h hd
  split at h₂
  · cases h₂
    exact h₁
  · rename_i s hs
    obtain ⟨r, hr, rfl⟩ := Option.map_eq_some_iff.mp h₂
    obtain ⟨tenant, more, same⟩ := keep d₁.uids d₁.disk s r (h₁.tenant hs) hr
    exact h₁.work tenant more (same.trans (h₁.session name s hs).1)

/-- Every daemon that starts on the store. -/
theorem run {d : Daemon} (housed : Housed root d.uids d.disk) (a : Answers) :
    (d.run a).Rightful root := by
  have start : Rightful root { d with sessions := ∅ } :=
    ⟨housed, fun key s hs => by simp at hs⟩
  -- the sessions so far are those of stored records, under their names
  refine (foldl_invariant (I := fun d' : Daemon => d'.Rightful root ∧ d'.disk = d.disk ∧
      ∀ (key : Bytes) (s : Session), d'.sessions[key]? = some s →
        ∃ f, (f, s.record) ∈ d.disk.store.records d.disk.fs ∧ s.record.name = key)
    (fun d' r ⟨h, hdisk, its⟩ hr => ?_) ⟨start, rfl, fun key s hs => by simp at hs⟩).1
  obtain ⟨f, hf⟩ := Store.mem_loadAll.mp hr
  have same : ∀ t, d'.sessions[r.name]? = some t → t.record.uid = r.uid := by
    intro t ht
    obtain ⟨f', hf', hname⟩ := its r.name t ht
    rw [housed.laid.same_file hf' hf (by rw [hname])]
  refine ⟨h.startSession (hdisk.symm ▸ hf) a same, ?_, fun key s hs => ?_⟩
  · simp only [Daemon.startSession]
    split <;> exact hdisk
  · simp only [Daemon.startSession] at hs
    split at hs
    · simp only [lookup_insert] at hs
      split at hs
      · rename_i hkey
        cases hs
        have hrec : ∀ s₀, (Session.start d'.disk s₀ r d'.objects).record = r := fun s₀ =>
          congrArg Face.record (Session.face_start d'.disk s₀ r d'.objects)
        rw [hrec]
        exact ⟨f, hf, hkey⟩
      · exact its key s hs
    · simp only [lookup_erase] at hs
      split at hs
      · cases hs
      · exact its key s hs

end Rightful

/-! ## RELOAD after the peers changed -/

theorem onDisk_iff (housed : Housed root d.uids d.disk) {u : Bytes} {r : ConnRecord} :
    (d.onDisk a)[u]? = some r ↔
      (∃ f, (f, r) ∈ d.disk.store.records d.disk.fs) ∧ r.uid.toList = u := by
  constructor
  · intro h
    obtain ⟨hmem, hu⟩ := onDisk_some h
    exact ⟨Store.mem_loadAll.mp hmem, hu⟩
  · rintro ⟨⟨f, hf⟩, rfl⟩
    obtain ⟨r', hr'⟩ := onDisk_of_mem (a := a) (Store.mem_loadAll.mpr ⟨f, hf⟩)
    obtain ⟨hmem, hu⟩ := onDisk_some hr'
    obtain ⟨f', hf'⟩ := Store.mem_loadAll.mp hmem
    rw [hr', housed.single f' r' f r hf' hf (Subtype.ext hu)]

theorem dropAll_sessions {names : List Bytes} (h : names.foldlM dropSession d = some d') :
    d'.disk = d.disk ∧ d'.uids = d.uids ∧
      ∀ key : Bytes, d'.sessions[key]? = if key ∈ names then none else d.sessions[key]? := by
  induction names generalizing d with
  | nil =>
      cases h
      simp
  | cons name names ih =>
      rw [List.foldlM_cons] at h
      obtain ⟨d₁, hdrop, h⟩ := Option.bind_eq_some_iff.mp h
      have hone : d₁.disk = d.disk ∧ d₁.uids = d.uids ∧
          ∀ key : Bytes, d₁.sessions[key]? = if name = key then none else d.sessions[key]? := by
        simp only [Daemon.dropSession] at hdrop
        split at hdrop
        · rename_i hnone
          cases hdrop
          refine ⟨rfl, rfl, fun key => ?_⟩
          split
          · rename_i e
            rw [← e, hnone]
          · rfl
        · split at hdrop
          · cases hdrop
            exact ⟨rfl, rfl, fun key => lookup_erase⟩
          · cases hdrop
      obtain ⟨hdisk, huids, hsess⟩ := ih h
      refine ⟨hdisk.trans hone.1, huids.trans hone.2.1, fun key => ?_⟩
      rw [hsess, hone.2.2]
      by_cases hk : key ∈ names
      · simp [hk]
      · simp [hk, eq_comm (a := name)]

/-- Every session is under the name its uid has on disk. -/
def Settling (disk : Std.ExtTreeMap Bytes ConnRecord) (d : Daemon) : Prop :=
  ∀ (key : Bytes) (s : Session), d.sessions[key]? = some s → s.name = key ∧
    s.Owns d.disk.births ∧ ∃ r : ConnRecord, disk[s.record.uid.toList]? = some r ∧ r.name = key

/-- Sessions whose uid is still there are put under its name. -/
theorem moveAll_settling {disk : Std.ExtTreeMap Bytes ConnRecord} {moved : List Bytes}
    (its : ∀ (key : Bytes) (s : Session), d.sessions[key]? = some s →
      s.name = key ∧ s.Owns d.disk.births ∧ ∃ r : ConnRecord, disk[s.record.uid.toList]? = some r ∧
        (r.name = key ∨ key ∈ moved)) :
    (d.moveAll disk moved).Settling disk := by
  -- what stays has the name it should have
  have left : ∀ (key : Bytes) (s : Session),
      (moved.foldl (fun m name => m.erase name) d.sessions)[key]? = some s →
      d.sessions[key]? = some s ∧ key ∉ moved := by
    clear its
    generalize d.sessions = m
    induction moved generalizing m with
    | nil =>
        intro key s hs
        exact ⟨hs, by simp⟩
    | cons name moved ih =>
        intro key s hs
        obtain ⟨hm, hk⟩ := ih _ key s hs
        rw [lookup_erase] at hm
        split at hm
        · cases hm
        · rename_i hne
          exact ⟨hm, by simp [hk, Ne.symm hne]⟩
  have start : Settling disk
      { d with sessions := moved.foldl (fun m name => m.erase name) d.sessions } := by
    intro key s hs
    obtain ⟨hs, hk⟩ := left key s hs
    obtain ⟨hname, howns, r, hr, hplace⟩ := its key s hs
    exact ⟨hname, howns, r, hr, hplace.resolve_right hk⟩
  refine foldl_invariant (I := fun m => Settling disk { d with sessions := m })
    (fun m s hm hs => ?_) start
  obtain ⟨name, -, hs⟩ := List.mem_filterMap.mp hs
  obtain ⟨-, howns, r, hr, -⟩ := its name s hs
  simp only [reinsert, hr]
  split
  · exact hm
  · intro key t ht
    simp only [lookup_insert] at ht
    split at ht
    · rename_i e
      cases ht
      exact ⟨e, howns, r, hr, e⟩
    · exact hm key t ht

theorem adopt_settling {disk : Std.ExtTreeMap Bytes ConnRecord} {da da' : Daemon × Nat}
    {record : ConnRecord} (housed : Housed root da.1.uids da.1.disk)
    (onDisk : ∀ {u : Bytes} {r : ConnRecord}, disk[u]? = some r ↔
      (∃ f, (f, r) ∈ da.1.disk.store.records da.1.disk.fs) ∧ r.uid.toList = u)
    (its : disk[record.uid.toList]? = some record) (h : da.1.Settling disk)
    (had : adopt a da record = some da') :
    da'.1.Settling disk ∧ da'.1.disk = da.1.disk ∧ da'.1.uids = da.1.uids := by
  simp only [adopt] at had
  split at had
  · rename_i hnone
    cases had
    have none : ∀ (key : Bytes) (s : Session), da.1.sessions[key]? = some s →
        s.record.uid ≠ record.uid := by
      intro key s hs e
      rw [List.filter_eq_nil_iff] at hnone
      exact hnone (key, s) (Std.ExtTreeMap.mem_toList_iff_getElem?_eq_some.mpr hs)
        (decide_eq_true e)
    obtain ⟨⟨f, hf⟩, -⟩ := onDisk.mp its
    have absent : da.1.sessions[record.name]? = Option.none := by
      by_contra hne
      obtain ⟨t, ht⟩ := Option.ne_none_iff_exists'.mp hne
      obtain ⟨-, -, r, hr, hkey⟩ := h record.name t ht
      obtain ⟨⟨f', hf'⟩, hu⟩ := onDisk.mp hr
      have same := housed.laid.same_file hf' hf (by rw [hkey])
      have huid : r.uid = t.record.uid := Subtype.ext hu
      exact none record.name t ht (huid.symm.trans (congrArg ConnRecord.uid same))
    simp only [Daemon.startSession, absent]
    split
    · refine ⟨fun key t ht => ?_, rfl, rfl⟩
      simp only [lookup_insert] at ht
      split at ht
      · rename_i e
        cases ht
        have hface := Session.face_start da.1.disk {} record da.1.objects
        have hname : (Session.start da.1.disk {} record da.1.objects).name = record.name :=
          congrArg Face.name hface
        have hrec : (Session.start da.1.disk {} record da.1.objects).record = record :=
          congrArg Face.record hface
        refine ⟨hname.trans e, ?_, record, hrec.symm ▸ its, e⟩
        exact Session.owns_start housed hf da.1.objects fun n o ho => by simp [Session.face] at ho
      · exact h key t ht
    · refine ⟨fun key t ht => ?_, rfl, rfl⟩
      simp only [lookup_erase] at ht
      split at ht
      · cases ht
      · exact h key t ht
  · split at had
    · cases had
      refine ⟨fun key t ht => ?_, rfl, rfl⟩
      rw [Std.ExtTreeMap.getElem?_map] at ht
      obtain ⟨s, hs, rfl⟩ := Option.map_eq_some_iff.mp ht
      obtain ⟨hname, howns, r, hr, hkey⟩ := h key s hs
      split
      · rename_i huid
        have same : r = record := Option.some.inj (hr.symm.trans (huid ▸ its))
        refine ⟨hname, fun n o ho => ?_, record, its, same ▸ hkey⟩
        exact huid ▸ howns n o ho
      · exact ⟨hname, howns, r, hr, hkey⟩
    · cases had

theorem adoptAll_settling {disk : Std.ExtTreeMap Bytes ConnRecord} {left : List ConnRecord}
    {da da' : Daemon × Nat} (housed : Housed root da.1.uids da.1.disk)
    (onDisk : ∀ {u : Bytes} {r : ConnRecord}, disk[u]? = some r ↔
      (∃ f, (f, r) ∈ da.1.disk.store.records da.1.disk.fs) ∧ r.uid.toList = u)
    (its : ∀ r ∈ left, disk[r.uid.toList]? = some r) (h : da.1.Settling disk)
    (had : left.foldlM (adopt a) da = some da') :
    da'.1.Settling disk ∧ da'.1.disk = da.1.disk ∧ da'.1.uids = da.1.uids := by
  refine foldlM_invariant
    (I := fun da' : Daemon × Nat =>
      da'.1.Settling disk ∧ da'.1.disk = da.1.disk ∧ da'.1.uids = da.1.uids)
    (fun da₁ record da₂ ⟨h₁, hdisk, huids⟩ hmem hone => ?_) ⟨h, rfl, rfl⟩ had
  obtain ⟨h₂, hdisk', huids'⟩ := adopt_settling (by rw [hdisk, huids]; exact housed)
    (by rw [hdisk]; exact onDisk) (its record hmem) h₁ hone
  exact ⟨h₂, hdisk'.trans hdisk, huids'.trans huids⟩

/-- Whatever the peers were, RELOAD gives every record one rightful session at most. -/
theorem Rightful.reload (housed : Housed root d.uids d.disk)
    (owning : ∀ (key : Bytes) (s : Session), d.sessions[key]? = some s →
      s.name = key ∧ s.Owns d.disk.births) {r : Daemon × Bytes} (hr : d.reload a = some r) :
    r.1.Rightful root := by
  simp only [Daemon.reload] at hr
  obtain ⟨d₁, hgone, hr⟩ := Option.bind_eq_some_iff.mp hr
  obtain ⟨da, hadopt, hr⟩ := Option.bind_eq_some_iff.mp hr
  cases hr
  obtain ⟨hdisk, huids, hsess⟩ := dropAll_sessions hgone
  have onDisk : ∀ {u : Bytes} {r : ConnRecord}, (d.onDisk a)[u]? = some r ↔
      (∃ f, (f, r) ∈ d.disk.store.records d.disk.fs) ∧ r.uid.toList = u := onDisk_iff housed
  have placed : ∀ (key : Bytes) (s : Session), d₁.sessions[key]? = some s →
      s.name = key ∧ s.Owns d₁.disk.births ∧ ∃ r : ConnRecord,
        (d.onDisk a)[s.record.uid.toList]? = some r ∧
          (r.name = key ∨ key ∈ d.movedNames (d.onDisk a)) := by
    intro key s hs
    rw [hsess] at hs
    split at hs
    · cases hs
    · rename_i hkept
      obtain ⟨hname, howns⟩ := owning key s hs
      have hmem := Std.ExtTreeMap.mem_toList_iff_getElem?_eq_some.mpr hs
      cases hu : (d.onDisk a)[s.record.uid.toList]? with
      | none =>
          refine absurd (List.mem_map.mpr ⟨(key, s), ?_, rfl⟩) hkept
          exact List.mem_filter.mpr ⟨hmem, by simp [hu]⟩
      | some r =>
          refine ⟨hname, hdisk.symm ▸ howns, r, rfl, ?_⟩
          by_cases hk : r.name = key
          · exact .inl hk
          · refine .inr (List.mem_map.mpr ⟨(key, s), ?_, rfl⟩)
            exact List.mem_filter.mpr ⟨hmem, by simpa [hu] using hk⟩
  have hmoved : (d₁.moveAll (d.onDisk a) (d.movedNames (d.onDisk a))).disk = d.disk := hdisk
  have hmoved' : (d₁.moveAll (d.onDisk a) (d.movedNames (d.onDisk a))).uids = d.uids := huids
  obtain ⟨settled, hdisk', huids'⟩ := adoptAll_settling
    (by rw [hmoved, hmoved']; exact housed) (by rw [hmoved]; exact onDisk)
    (fun r hr => by
      obtain ⟨e, he, rfl⟩ := List.mem_map.mp hr
      have hsome := Std.ExtTreeMap.mem_toList_iff_getElem?_eq_some.mp he
      rw [(onDisk.mp hsome).2]
      exact hsome)
    (moveAll_settling placed) hadopt
  rw [hmoved] at hdisk'
  rw [hmoved'] at huids'
  refine ⟨by rw [hdisk', huids']; exact housed, fun key s hs => ?_⟩
  obtain ⟨hname, howns, r, hr, hkey⟩ := settled key s hs
  obtain ⟨⟨f, hf⟩, -⟩ := onDisk.mp hr
  rw [hdisk'] at howns ⊢
  refine ⟨hname, ?_, howns⟩
  rw [hname, ← hkey]
  exact housed.form hf

/-- Another process changed the store and kept it in order. -/
theorem Rightful.withFiles (h : d.Rightful root) {fs : FileSystem} {uids : List Uid}
    (housed : Housed root uids { d.disk with fs }) :
    Rightful root { d.withFiles fs with uids } := ⟨housed, h.session⟩

/-! ## Whole runs -/

/-- A name of one line whose form is a directory of its own. -/
def Nameable (name : Bytes) : Prop :=
  newline ∉ name ∧ sanitize name ≠ dot ∧ sanitize name ≠ dotdot

instance (name : Bytes) : Decidable (Nameable name) := inferInstanceAs (Decidable (_ ∧ _))

/-- Commands are addressed exactly, nothing is stored by a session whose name another peer has
now, and a name that comes into use for a peer, paired or renamed, has no registrations
stored under its form unless they are the peer's own. -/
def CleanStep (d : Daemon) : DaemonAction → Prop
  | .command _ _ line => ∀ peer cmd, parseCmd (tokens line) = .forPeer peer cmd →
      d.ExactPeer peer ∧ ∀ name toks, cmd = .register name toks →
        Session.storing toks = true → d.Unclaimed peer
  | .pair record => Nameable record.name ∧ d.disk.store.listPipes d.disk.fs record.name = []
  | .renamePeer source target => Nameable target ∧
      (sanitize source = sanitize target ∨ d.disk.store.listPipes d.disk.fs target = [])
  | .tick _ | .accept _ | .data _ _ _ _ | .gone _ _ | .connected _ _ | .connectFailed _ _
    | .requestClose _ _ | .ownerGone _ _ _ _ | .changeFiles _ | .restart _ | .removePeer _ => True

theorem Rightful.handleCmd (h : d.Rightful root) {fd : Nat} {line : Bytes} {r : Daemon × Bytes}
    (ok : d.CleanStep (.command a fd line)) (hr : d.handleCmd a fd line = some r) :
    r.1.Rightful root := by
  simp only [Daemon.handleCmd] at hr
  split at hr
  · cases hr
    exact h
  · obtain ⟨x, hx, rfl⟩ := Option.map_eq_some_iff.mp hr
    exact Rightful.reload (r := x) h.housed
      (fun key s hs => ⟨(h.session key s hs).1, (h.session key s hs).2.owns⟩) hx
  · obtain ⟨x, hx, rfl⟩ := Option.map_eq_some_iff.mp hr
    refine h.eachSession hx fun uids disk s r tenant hr => ?_
    cases hr
    exact (Session.Tenant.tends root uids disk s).reset tenant
  · rename_i peer cmd hcmd
    obtain ⟨exact, free⟩ := ok peer cmd hcmd
    exact h.forPeer exact free hr

theorem Rightful.onDialing (h : d.Rightful root) {id : Nat} {f : Session → Session}
    (hd : d.onDialing key id f = some d') (keep : ∀ s, (f s).face = s.face) :
    d'.Rightful root := by
  simp only [Daemon.onDialing] at hd
  split at hd
  · split at hd
    · exact h.onSession hd fun s tenant =>
        (Session.Tenant.tends root d.uids d.disk s).same _ _ _ tenant (keep s)
    · cases hd
  · cases hd

theorem Rightful.step (h : d.Rightful root) {act : DaemonAction} (ok : d.CleanStep act)
    (hd : d.step act = some d') : d'.Rightful root := by
  have tends := Session.Tenant.tends root d.uids d.disk
  cases act with
  | command a fd line =>
      obtain ⟨r, hr, rfl⟩ := Option.map_eq_some_iff.mp hd
      exact h.handleCmd ok hr
  | tick now =>
      simp only [Daemon.step, Daemon.tick] at hd
      refine h.eachSession hd fun uids disk s r tenant hr => ?_
      split at hr
      · cases hr
        exact (Session.Tenant.tends root uids disk s).tick tenant now
      · cases hr
  | accept key =>
      simp only [Daemon.step] at hd
      exact h.onSession hd fun s tenant => (tends s).same _ _ _ tenant rfl
  | data key id b now =>
      simp only [Daemon.step] at hd
      exact h.onSession hd fun s tenant => (tends s).data tenant d.files id b now
  | gone key id =>
      simp only [Daemon.step] at hd
      exact h.onSession hd fun s tenant =>
        (tends s).same _ _ _ tenant (Session.face_onTunnelGone s id)
  | connected key id =>
      simp only [Daemon.step] at hd
      exact h.onDialing hd fun s => Session.face_connected s id
  | connectFailed key id =>
      simp only [Daemon.step] at hd
      exact h.onDialing hd fun s => Session.face_connectFailed s id
  | requestClose key id =>
      simp only [Daemon.step] at hd
      exact h.onSession hd fun s tenant => (tends s).same _ _ _ tenant rfl
  | ownerGone key name serial fd =>
      simp only [Daemon.step] at hd
      exact h.onSession hd fun s tenant => (tends s).ownerGone tenant name serial fd
  | changeFiles files =>
      cases hd
      exact ⟨h.housed, h.session⟩
  | restart a =>
      cases hd
      exact Rightful.run h.housed a
  | pair record =>
      obtain ⟨⟨line, hdot, hdotdot⟩, bare⟩ := ok
      simp only [Daemon.step] at hd
      split at hd
      · cases hd
      · rename_i hnew
        rw [not_or, Bool.not_eq_false] at hnew
        obtain ⟨fs, hsave, housed⟩ := h.housed.paired line hnew.2 (plain_sanitize hdot hdotdot)
          hnew.1 bare
        rw [hsave] at hd
        cases hd
        exact h.withFiles housed
  | removePeer name =>
      cases hd
      cases hrm : d.disk.store.remove d.disk.fs name with
      | none => exact h.withFiles h.housed
      | some fs => exact h.withFiles (h.housed.removed hrm)
  | renamePeer source target =>
      obtain ⟨⟨line, hdot, hdotdot⟩, bare⟩ := ok
      have form := plain_sanitize hdot hdotdot
      have hspec := Store.rename_spec h.housed.laid source line form
      cases hd
      generalize d.disk.store.rename d.disk.fs source target = x at hspec
      obtain ⟨fs, e⟩ := x
      rcases hspec with ⟨rfl, -⟩ | ⟨-, r, hr, hren⟩
      · exact h.withFiles h.housed
      · exact h.withFiles (h.housed.renamed hr line form bare hren)

/-- Whatever a session offers, other than a client's own socket, was made by a REGISTER to the
session of its uid. -/
def OffersOwned (d : Daemon) : Prop :=
  ∀ (key : Bytes) (s : Session) (name : Bytes) (reg : Reg), d.sessions[key]? = some s →
    s.regs[name]? = some reg → reg.type ≠ str "PIPE" →
      ∃ b ∈ d.disk.births, reg.birth = some b ∧ b.uid = s.record.uid

theorem Rightful.offersOwned (h : d.Rightful root) : d.OffersOwned := by
  intro key s name reg hs hreg howned
  have ho : s.face.offers name = some reg.offer := by simp [Session.face, hreg]
  rcases (h.session key s hs).2.owns name reg.offer ho with hpipe | born
  · exact absurd hpipe howned
  · exact born

/-- A store directory with nothing in it. -/
structure EmptyStore (root : Path) (d : Disk) : Prop where
  anchored : d.store.Anchored d.fs root
  bare : ∀ c : Name, d.fs.node (c :: root) = none

theorem EmptyStore.housed {disk : Disk} (h : EmptyStore root disk) (uids : List Uid) :
    Housed root uids disk := by
  have nothing : ∀ {f : Name} {r : ConnRecord}, (f, r) ∉ disk.store.records disk.fs := by
    intro f r hr
    have hparse := ((Store.mem_records h.anchored).mp hr).2.2
    simp [h.bare f] at hparse
  have deeper : ∀ (l : List Name) (c : Name), disk.fs.node (l ++ c :: root) = none := by
    intro l c
    induction l with
    | nil => exact h.bare c
    | cons x l ih =>
        by_contra hne
        obtain ⟨n, hn⟩ := Option.ne_none_iff_exists'.mp hne
        exact absurd (ih.symm.trans (disk.fs.node_parent hn)) (by simp)
  refine ⟨{
    anchored := h.anchored
    flat := fun c n hn => absurd ((h.bare c).symm.trans hn) (by simp)
    formed := fun f r hr => absurd hr nothing
    shelves := fun c n hn => absurd ((deeper [c] pipesName).symm.trans hn) (by simp)
    files := fun f c n hn => absurd ((deeper [f, c] pipesName).symm.trans hn) (by simp) },
    fun f r hr => absurd hr nothing, fun f r f' r' hr => absurd hr nothing,
    fun f r hr => absurd hr nothing⟩

/-- In every run from an empty store in which commands are addressed exactly, no session stores
under a form that is another peer's by now, and no name comes into use while another peer's
registrations are stored under its form, every offer belongs to the peer it was registered
for. -/
theorem offersOwned_of_clean {d₀ : Daemon} (empty : EmptyStore root d₀.disk)
    (h : Reach Daemon.step CleanStep (d₀.run a) d) : d.OffersOwned := by
  have start : (d₀.run a).Rightful root := Rightful.run (empty.housed d₀.uids) a
  have rightful : d.Rightful root := h.invariant start fun _ _ _ hd ok hs => hd.step ok hs
  exact rightful.offersOwned

/-- A check that is enough for the condition of `offersOwned_of_clean`. -/
def cleanStep (d : Daemon) : DaemonAction → Bool
  | .command _ _ line => d.addressed line &&
      match parseCmd (tokens line) with
      | .forPeer peer (.register _ toks) => !Session.storing toks ||
          match d.sessions[peer]?, d.disk.store.load d.disk.fs peer with
          | some s, some r => r.uid = s.record.uid
          | _, _ => true
      | _ => true
  | .pair record =>
      decide (Nameable record.name) && (d.disk.store.listPipes d.disk.fs record.name).isEmpty
  | .renamePeer source target => decide (Nameable target) &&
      (sanitize source = sanitize target || (d.disk.store.listPipes d.disk.fs target).isEmpty)
  | .tick _ | .accept _ | .data _ _ _ _ | .gone _ _ | .connected _ _ | .connectFailed _ _
    | .requestClose _ _ | .ownerGone _ _ _ _ | .changeFiles _ | .restart _ | .removePeer _ => true

theorem cleanStep_sound (d : Daemon) (act : DaemonAction) (h : cleanStep d act = true) :
    d.CleanStep act := by
  cases act with
  | command a fd line =>
      simp only [cleanStep, Bool.and_eq_true] at h
      refine fun peer cmd hcmd => ⟨addressed_exact h.1 hcmd, fun name toks hreg store => ?_⟩
      have free := h.2
      rw [hcmd, hreg] at free
      simp only [store, Bool.not_true, Bool.false_or] at free
      intro s r hs hr
      rw [hs, hr] at free
      exact of_decide_eq_true free
  | pair record =>
      simp only [cleanStep, Bool.and_eq_true, decide_eq_true_eq, List.isEmpty_iff] at h
      exact h
  | renamePeer source target =>
      simp only [cleanStep, Bool.and_eq_true, Bool.or_eq_true, decide_eq_true_eq,
        List.isEmpty_iff] at h
      exact h
  | tick _ | accept _ | data _ _ _ _ | gone _ _ | connected _ _ | connectFailed _ _
    | requestClose _ _ | ownerGone _ _ _ _ | changeFiles _ | restart _ | removePeer _ => trivial

end Daemon

namespace Sample

/-- A daemon on a store with nothing in it. -/
def unpaired : Daemon := { disk, files := noFiles }

theorem unpaired_empty : Daemon.EmptyStore [str "c"] unpaired.disk where
  anchored := {
    dir_ne := by decide
    resolves := by decide
    is_dir := by decide
    outside := by decide
    names := fun c hc => absurd (by simp [unpaired, node_disk]) hc }
  bare c := by simp [unpaired, node_disk]

def uid (n : UInt8) : Uid := ⟨List.replicate 32 n, rfl⟩

def peer (name : String) (n : UInt8) : ConnRecord := { name := str name, uid := uid n }

end Sample

namespace Daemon

/-- The uid of a session and what it offers, with the uid each offer was registered for. -/
def origins (d : Daemon) (key : Bytes) : Option (Uid × List (Bytes × Option Uid)) :=
  (d.sessions[key]?).map fun s =>
    (s.record.uid, s.regs.toList.map fun e => (e.1, e.2.birth.map fun b => b.uid))

/-- RELOAD comes late: carol's REGISTER starts a second session of her uid, and the name bob goes
to a new peer while the old session still runs under it. -/
theorem offersOwned_after_pairings : ∃ d : Daemon,
    d.origins (str "carol") = some (Sample.uid 1,
      [(str "x", some (Sample.uid 1)), (str "z", some (Sample.uid 1))]) ∧ d.OffersOwned := by
  obtain ⟨d, reached, horigins⟩ := Reach.observedWhen Daemon.step cleanStep_sound
    (Sample.unpaired.run {})
    [.pair (Sample.peer "bob" 1), .command {} 3 (str "RELOAD"),
      .command {} 3 (str "REGISTER bob x ECHO"), .renamePeer (str "bob") (str "carol"),
      .command {} 3 (str "REGISTER carol z ECHO"), .pair (Sample.peer "bob" 2),
      .command {} 3 (str "UNREGISTER bob x"), .command {} 3 (str "RELOAD"),
      .command {} 3 (str "REGISTER bob y ECHO"), .removePeer (str "bob"),
      .pair (Sample.peer "bob" 3), .restart {}]
    (fun d => d.origins (str "carol"))
    (o := some (Sample.uid 1, [(str "x", some (Sample.uid 1)), (str "z", some (Sample.uid 1))]))
    (by decide +kernel)
  exact ⟨d, horigins, offersOwned_of_clean Sample.unpaired_empty reached⟩

/-- A second pairing under the name of a peer gets the offers made to the first. -/
theorem second_pairing_inherits_offers :
    ¬ ∀ (root : Path) (d₀ d : Daemon) (a : Answers), EmptyStore root d₀.disk →
      Reach Daemon.step anyStep (d₀.run a) d → d.OffersOwned := by
  intro all
  obtain ⟨d, reached, hobs⟩ := Reach.observed Daemon.step (Sample.unpaired.run {})
    [.pair (Sample.peer "bob" 1), .command {} 3 (str "RELOAD"),
      .command {} 3 (str "REGISTER bob x ECHO"), .pair (Sample.peer "bob" 2),
      .command {} 3 (str "RELOAD")]
    (fun d => (d.sessions[str "bob"]?).map fun s =>
      (s.record.uid, (s.regs[str "x"]?).map fun r => (r.type, r.birth.map fun b => b.uid)))
    (o := some (Sample.uid 2, some (str "ECHO", some (Sample.uid 1)))) (by decide +kernel)
  obtain ⟨s, hs, hobs⟩ := Option.map_eq_some_iff.mp hobs
  rw [Prod.mk.injEq] at hobs
  obtain ⟨huid, hobs⟩ := hobs
  obtain ⟨reg, hreg, hobs⟩ := Option.map_eq_some_iff.mp hobs
  rw [Prod.mk.injEq] at hobs
  obtain ⟨htype, hbirth⟩ := hobs
  have howned : reg.type ≠ str "PIPE" := by
    rw [htype]
    decide
  obtain ⟨b, -, hb, same⟩ :=
    all _ _ d {} Sample.unpaired_empty reached (str "bob") s (str "x") reg hs hreg howned
  rw [hb, Option.map_some, same, huid] at hbirth
  exact absurd hbirth (by decide)

/-- Two renames and no RELOAD yet: what is registered with the session of uid 1, still named
"a", is stored for uid 2. The REGISTER is the step that `CleanStep` excludes. -/
example :
    let renamed : List DaemonAction := [.pair (Sample.peer "a" 1), .pair (Sample.peer "b" 2),
      .command {} 3 (str "RELOAD"), .renamePeer (str "a") (str "c"),
      .renamePeer (str "b") (str "a")]
    let after := [.command {} 3 (str "REGISTER a x ECHO"), .restart {}]
    (execWhen Daemon.step (fun _ _ => true) (Sample.unpaired.run {}) (renamed ++ after)).bind
        (fun d => d.origins (str "a")) = some (Sample.uid 2, [(str "x", some (Sample.uid 1))]) ∧
      (execWhen Daemon.step cleanStep (Sample.unpaired.run {}) renamed).isSome ∧
      (execWhen Daemon.step cleanStep (Sample.unpaired.run {}) (renamed ++ after)).isNone := by
  decide +kernel

end Daemon
end Splice.Peer
