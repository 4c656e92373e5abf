import Splice.Peer.Inventory
import Splice.Peer.SessionTable

/-!
What a daemon that is addressed exactly keeps: the table is consistent in every state,
and a command for a peer leaves every running session as it is, but for the
registration or the instance it names.
-/

namespace Splice.Peer
open Lib

/-- The same registration, its counters apart. -/
def Reg.Same (r r' : Reg) : Prop := r' = { r with active := r'.active, finished := r'.finished }

theorem Reg.Same.refl (r : Reg) : r.Same r := rfl

/-- CLOSE names an instance by its number. -/
def SessionCmd.closes : SessionCmd → Nat → Prop
  | .close text, id => id = (strtoul 10 (Session.instanceId text)).1
  | .forceRelay, _ | .register _ _, _ | .unregister _, _ | .openPipe _ _ _ _, _ | .query _, _ =>
      False

namespace Session
variable {s s' : Session}

/-- After the command the session runs on what it ran on, with every registration it does not
unregister and every instance it does not close. -/
structure Survives (cmd : SessionCmd) (s s' : Session) : Prop where
  ident : s'.ident = s.ident
  regs : ∀ (n : Bytes) (r : Reg), s.regs[n]? = some r → cmd ≠ .unregister n →
    ∃ r' : Reg, s'.regs[n]? = some r' ∧ r.Same r'
  insts : ∀ (id : Nat) (i : Instance), s.insts[id]? = some i → ¬ cmd.closes id →
    s'.insts[id]? = some i

/-- What keeps every registration and instance. -/
theorem Survives.of_same {cmd : SessionCmd} (ident : s'.ident = s.ident)
    (regs : ∀ (n : Bytes) (r : Reg), s.regs[n]? = some r → s'.regs[n]? = some r)
    (insts : ∀ (id : Nat) (i : Instance), s.insts[id]? = some i → s'.insts[id]? = some i) :
    Survives cmd s s' :=
  ⟨ident, fun n r hr _ => ⟨r, regs n r hr, Reg.Same.refl r⟩, fun id i hi _ => insts id i hi⟩

theorem regs_addReg {name n : Bytes} {reg r : Reg} (absent : s.regs.contains name = false)
    (h : s.regs[n]? = some r) : (s.addReg name reg).regs[n]? = some r := by
  have hne : name ≠ n := by
    rintro rfl
    rw [Std.ExtTreeMap.contains_eq_isSome_getElem?, h] at absent
    cases absent
  simp [addReg, lookup_insert, hne, h]

theorem regs_register (src : SourceFs) (d : Disk) (s : Session) (fd : Int) (name : Bytes)
    (toks : List Bytes) {n : Bytes} {r : Reg} (h : s.regs[n]? = some r) :
    (register src d s fd name toks).2.1.regs[n]? = some r := by
  simp only [register]
  split
  · exact h
  · rename_i habsent
    have absent : s.regs.contains name = false := Bool.eq_false_iff.mpr habsent
    split
    · exact h
    · exact h
    · split
      · split
        · exact regs_addReg absent h
        · exact h
      · simp only [registerOwned]
        split
        · exact h
        · split
          · exact h
          · exact regs_addReg absent h

theorem regs_countFinished (regs : Std.ExtTreeMap Bytes Reg) (i : Instance) {n : Bytes} {r : Reg}
    (h : regs[n]? = some r) : ∃ r', (countFinished regs i)[n]? = some r' ∧ r.Same r' := by
  simp only [countFinished]
  split
  · exact ⟨r, h, Reg.Same.refl r⟩
  · split
    · exact ⟨r, h, Reg.Same.refl r⟩
    · rename_i q hq
      split
      · rw [lookup_insert]
        split
        · rename_i hn
          rw [hn, h] at hq
          cases hq
          exact ⟨_, rfl, rfl⟩
        · exact ⟨r, h, Reg.Same.refl r⟩
      · exact ⟨r, h, Reg.Same.refl r⟩

theorem Survives.launch {cmd : SessionCmd} {i : Instance} {now : Nat}
    (numbered : s.Instances fun _ => True) (h : s.launch i now = some s') :
    Survives cmd s s' := by
  refine .of_same (ident_of_face (face_launch h)) (fun n r hr => ?_) (fun id j hj => ?_)
  all_goals
    simp only [Session.launch] at h
    split at h
    · cases h
      first
        | exact hr
        | have hid := (numbered id j hj).1
          simp [Std.ExtTreeMap.getElem?_insert, putInst, show s.nextId ≠ id by omega, hj]
    · cases h

theorem Survives.close {text : Bytes} {d : Disk} :
    Survives (.close text) s (closeCmd text d s).2.1 := by
  simp only [closeCmd]
  split
  · refine ⟨ident_of_face (face_closeInstance s _), fun n r hr _ => ?_, fun id i hi hother => ?_⟩
    · simp only [closeInstance]
      split
      · exact ⟨r, hr, Reg.Same.refl r⟩
      · exact regs_countFinished s.regs _ hr
    · simp only [closeInstance]
      split
      · exact hi
      · have hne : (strtoul 10 (instanceId text)).1 ≠ id := fun e => hother e.symm
        simp [Std.ExtTreeMap.getElem?_erase, hne, hi]
  · exact .of_same rfl (fun _ _ hr => hr) (fun _ _ hi => hi)

theorem Survives.unregister {name : Bytes} {d : Disk} :
    Survives (.unregister name) s (unregisterCmd name d s).2.1 := by
  simp only [unregisterCmd]
  split
  · refine ⟨ident_unregister d s name, fun n r hr hne => ?_, fun id i hi _ => ?_⟩
    · have hn : name ≠ n := by
        rintro rfl
        exact hne rfl
      refine ⟨r, ?_, Reg.Same.refl r⟩
      simp only [Session.unregister]
      split
      · exact hr
      · simp [lookup_erase, hn, hr]
    · rw [(insts_unregister d s name).1]
      exact hi
  · exact .of_same rfl (fun _ _ hr => hr) (fun _ _ hi => hi)

theorem run_survives {src : SourceFs} {fd now : Nat} {disk : Disk} {cmd : SessionCmd}
    {r : Disk × Session × Bytes} (numbered : s.Instances fun _ => True)
    (h : SessionCmd.run src fd now disk s cmd = some r) : Survives cmd s r.2.1 := by
  have same : ∀ {cmd : SessionCmd} {s' : Session}, s'.ident = s.ident → s'.regs = s.regs →
      s'.insts = s.insts → Survives cmd s s' := by
    intro cmd s' hident hregs hinsts
    exact .of_same hident (fun n r hr => by rw [hregs, hr]) (fun id i hi => by rw [hinsts, hi])
  cases cmd with
  | forceRelay =>
      simp only [SessionCmd.run, forceRelay] at h
      split at h
      · cases h
        exact same rfl rfl rfl
      · cases h
  | register name toks =>
      cases h
      refine .of_same (ident_register src disk s fd name toks)
        (fun n r hr => regs_register src disk s fd name toks hr) (fun id i hi => ?_)
      rw [(insts_register src disk s fd name toks).1]
      exact hi
  | unregister name =>
      cases h
      exact Survives.unregister
  | openPipe want o type args =>
      simp only [SessionCmd.run, openCmd] at h
      split at h
      · split at h
        · obtain ⟨s', hs', rfl⟩ := Option.map_eq_some_iff.mp h
          exact Survives.launch numbered hs'
        · cases h
          exact same rfl rfl rfl
      · split at h
        · cases h
          exact same rfl rfl rfl
        · obtain ⟨s', hs', rfl⟩ := Option.map_eq_some_iff.mp h
          exact Survives.launch numbered hs'
  | query want =>
      obtain ⟨s', hs', rfl⟩ := Option.map_eq_some_iff.mp h
      exact Survives.launch numbered hs'
  | close text =>
      cases h
      exact Survives.close

end Session

namespace Daemon
variable {d d' : Daemon} {root : Path}

/-- Every entry is what its key says and has its path manager and netstack, and no uid has two
entries. -/
structure Consistent (d : Daemon) : Prop where
  keyed : ∀ (key : Bytes) (s : Session), d.sessions[key]? = some s →
    s.name = key ∧ s.record.name = key
  live : ∀ (key : Bytes) (s : Session), d.sessions[key]? = some s → s.pm ≠ none ∧ s.ns ≠ none
  uids : ∀ (key key' : Bytes) (s s' : Session), d.sessions[key]? = some s →
    d.sessions[key']? = some s' → s.record.uid = s'.record.uid → key = key'

/-- A command for `peer` that became `d'` left the running sessions alone. -/
def LeavesAlone (d d' : Daemon) (peer : Bytes) (cmd : SessionCmd) : Prop :=
  ∀ (key : Bytes) (s : Session), d.sessions[key]? = some s →
    ∃ s', d'.sessions[key]? = some s' ∧
      (key = peer → s.Survives cmd s') ∧ (key ≠ peer → s' = s)

theorem Tabled.consistent (h : d.Tabled root) : d.Consistent where
  keyed key s hs := ⟨(h.session key s hs).1, (h.session key s hs).2.1⟩
  live key s hs := ⟨(h.session key s hs).2.2.1, (h.session key s hs).2.2.2.1⟩
  uids key key' s s' hs hs' huid := by
    obtain ⟨-, hname, -, -, f, hf⟩ := h.session key s hs
    obtain ⟨-, hname', -, -, f', hf'⟩ := h.session key' s' hs'
    have same : s.record = s'.record := (h.distinct.eq hf hf' (.inr huid)).2
    rw [← hname, ← hname', same]

theorem Tabled.leavesAlone (h : d.Tabled root)
    (numbered : d.Every (Session.Instances fun _ => True)) {a : Answers} {fd : Nat} {peer : Bytes}
    {cmd : SessionCmd} (exact : d.ExactPeer peer) {r : Daemon × Bytes}
    (hr : d.forPeer a fd peer cmd = some r) : d.LeavesAlone r.1 peer cmd := by
  obtain ⟨-, -, running, others⟩ := h.sessionFor (a := a) exact
  intro key s hs
  simp only [Daemon.forPeer] at hr
  by_cases hkey : key = peer
  · subst hkey
    rw [running s hs] at hr
    obtain ⟨x, hx, rfl⟩ := Option.map_eq_some_iff.mp hr
    refine ⟨x.2.1, by simp [putSession], fun _ => ?_, fun hne => absurd rfl hne⟩
    exact Session.run_survives (numbered key s hs) hx
  · have hsame := (others key hkey).trans hs
    refine ⟨s, ?_, fun e => absurd e hkey, fun _ => rfl⟩
    split at hr
    · rename_i d₁ e he
      rw [he] at hsame
      cases hr
      exact hsame
    · rename_i d₁ t he
      rw [he] at hsame
      obtain ⟨x, hx, rfl⟩ := Option.map_eq_some_iff.mp hr
      simp only [putSession, lookup_insert, if_neg (Ne.symm hkey)]
      exact hsame

theorem anyInstance_kept : Instance.Kept (fun _ _ => True) fun _ => True :=
  ⟨fun _ _ _ _ => trivial, trivial, fun _ _ => trivial, fun _ _ => trivial,
    fun _ _ _ _ _ => trivial, fun _ _ _ _ => trivial⟩

theorem heardOk_any (d : Daemon) (act : DaemonAction) :
    HeardOk (fun src s id b now => s.Heard (fun _ _ => True) src id b now) d act := by
  cases act with
  | data key id b now => exact fun _ _ _ _ => trivial
  | command _ _ _ | tick _ | accept _ | gone _ _ | connected _ _ | connectFailed _ _
    | requestClose _ _ | ownerGone _ _ _ _ | changeFiles _ | restart _ | pair _
    | removePeer _ | renamePeer _ _ => trivial

/-- Only ".." itself has that form. -/
theorem sanitize_ne_dotdot {name : Bytes} (h : name ≠ str "..") : sanitize name ≠ dotdot := by
  have hdot : ∀ c : UInt8, sanitizeByte c = 46 → c = 46 := by
    intro c hc
    simp only [sanitizeByte] at hc
    split at hc
    · exact hc
    · exact absurd hc (by decide)
  intro e
  simp only [sanitize] at e
  split at e
  · exact absurd e (by decide)
  · rcases name with _ | ⟨b, _ | ⟨c, _ | ⟨c', rest⟩⟩⟩
    · simp [dotdot] at e
    · simp [dotdot] at e
    · simp only [List.map_cons, List.map_nil, dotdot, List.cons.injEq, and_true] at e
      rw [hdot b e.1, hdot c e.2] at h
      exact h rfl
    · simp [dotdot] at e

/-- A daemon whose commands are all addressed exactly, on a store in which no two records share
a name or a uid and none is named "..", keeps its table consistent, and no command for a
peer replaces anything of a running session. -/
theorem consistent_of_exact {d₀ : Daemon} {a : Answers}
    (anchored : d₀.disk.store.Anchored d₀.disk.fs root)
    (distinct : d₀.disk.store.Distinct d₀.disk.fs)
    (named : ∀ e ∈ d₀.disk.store.records d₀.disk.fs, e.2.name ≠ str "..")
    (h : Reach step ExactStep (d₀.run a) d) :
    d.Consistent ∧ ∀ a fd line peer cmd d', parseCmd (tokens line) = .forPeer peer cmd →
      ExactStep d (.command a fd line) → d.step (.command a fd line) = some d' →
      d.LeavesAlone d' peer cmd := by
  have kept := Session.instances_kept anyInstance_kept
  have start : (d₀.run a).Tabled root :=
    Tabled.run anchored distinct (fun f r hf => sanitize_ne_dotdot (named (f, r) hf)) a
  have tabled : d.Tabled root := h.invariant start fun _ _ _ hd ok hs => hd.step ok hs
  have numbered : d.Every (Session.Instances fun _ => True) :=
    h.invariant (Every.run kept d₀ a) fun d act _ hd _ hs => hd.step kept (heardOk_any d act) hs
  refine ⟨tabled.consistent, fun a fd line peer cmd d' hcmd ok hstep => ?_⟩
  obtain ⟨r, hr, rfl⟩ := Option.map_eq_some_iff.mp hstep
  simp only [handleCmd, hcmd] at hr
  exact tabled.leavesAlone numbered (ok.2 a fd line peer cmd rfl hcmd) hr

/-- A check that is enough for the condition of `consistent_of_exact`. -/
def exactStep (d : Daemon) : DaemonAction → Bool
  | .command _ _ line => d.addressed line
  | .pair _ | .removePeer _ | .renamePeer _ _ => false
  | _ => true

theorem exactStep_sound (d : Daemon) (act : DaemonAction) (h : exactStep d act = true) :
    ExactStep d act := by
  cases act with
  | command a fd line =>
      refine ⟨trivial, fun a' fd' line' peer cmd hact hcmd => ?_⟩
      cases hact
      exact addressed_exact h hcmd
  | pair _ | removePeer _ | renamePeer _ _ => cases h
  | tick _ | accept _ | data _ _ _ _ | gone _ _ | connected _ _ | connectFailed _ _
    | requestClose _ _ | ownerGone _ _ _ _ | changeFiles _ | restart _ =>
      exact ⟨trivial, fun _ _ _ _ _ hact => by cases hact⟩

end Daemon

namespace Sample

/-- A store with one peer, whose name is not its form. -/
def spaced : Daemon :=
  { disk := { disk with fs := (disk.store.save disk.fs { name := str "a b" }).1 }, files := noFiles }

theorem spaced_anchored : spaced.disk.store.Anchored spaced.disk.fs [str "c"] where
  dir_ne := by decide
  resolves := by decide +kernel
  is_dir := by decide +kernel
  outside := by decide +kernel
  names := by
    have hall : ∀ c ∈ spaced.disk.fs.entries [str "c"], slash ∉ c := by decide +kernel
    exact fun c hc => hall c (spaced.disk.fs.mem_entries.mpr hc)

end Sample

namespace Daemon

theorem consistent_after_commands : ∃ d : Daemon, d.sessions.keys = [str "a b"] ∧
    d.Consistent := by
  obtain ⟨d, reached, hkeys⟩ := Reach.observedWhen step exactStep_sound (Sample.spaced.run {})
    [.command {} 3 (str "REGISTER a%20b x ECHO"), .command {} 4 (str "OPEN a%20b y ECHO"),
      .command {} 5 (str "LIST nobody"), .tick 6, .command {} 7 (str "RELOAD"),
      .command {} 8 (str "CLOSE a%20b #0")]
    (fun d => d.sessions.keys)
    (by decide +kernel : _ = some [str "a b"])
  exact ⟨d, hkeys, (consistent_of_exact Sample.spaced_anchored (by decide +kernel)
    (by decide +kernel) reached).1⟩

/-- A command for "a_b" finds the record of "a b", replaces what its session runs on and leaves
an entry without any. -/
theorem alias_breaks_table :
    Sample.spaced.disk.store.Distinct Sample.spaced.disk.fs ∧
      ¬ ∀ d : Daemon, Reach step (fun _ act => SamePeers act) (Sample.spaced.run {}) d →
        d.Consistent := by
  refine ⟨by decide +kernel, fun all => ?_⟩
  obtain ⟨d, reached, hpm⟩ := Reach.observedWhen step
    (fun _ act (h : decide (SamePeers act) = true) => of_decide_eq_true h) (Sample.spaced.run {})
    [.command {} 3 (str "UNREGISTER a_b x")]
    (fun d => (d.sessions.keys, (d.sessions[str "a_b"]?).map fun s => s.pm,
      (d.sessions[str "a b"]?).map fun s => s.pm))
    (by decide +kernel : _ = some ([str "a b", str "a_b"], some none, some (some 1)))
  simp only [Prod.mk.injEq] at hpm
  obtain ⟨s, hs, hnone⟩ := Option.map_eq_some_iff.mp hpm.2.1
  exact ((all d reached).live (str "a_b") s hs).1 hnone

end Daemon
end Splice.Peer
