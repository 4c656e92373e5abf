import Splice.Peer.Daemon

/-!
Properties that single sessions have whatever the daemon does: one that every operation
on a session keeps holds of every session of every daemon. What the peer sends is the
one operation a property may need a condition for.
-/

namespace Splice.Peer
open Lib

section Lookup
variable {κ : Type} [Ord κ] [Std.TransOrd κ] [Std.LawfulEqOrd κ] [DecidableEq κ]
variable {α : Type*} {m : Std.ExtTreeMap κ α} {key q : κ} {v : α}

theorem lookup_insert : (m.insert key v)[q]? = if key = q then some v else m[q]? := by
  rw [Std.ExtTreeMap.getElem?_insert]
  simp only [Std.LawfulEqCmp.compare_eq_iff_eq]

theorem lookup_erase : (m.erase key)[q]? = if key = q then none else m[q]? := by
  rw [Std.ExtTreeMap.getElem?_erase]
  simp only [Std.LawfulEqCmp.compare_eq_iff_eq]

theorem lookup_insert_ne (h : q ≠ key) : (m.insert key v)[q]? = m[q]? := by
  rw [lookup_insert, if_neg (Ne.symm h)]

theorem lookup_erase_ne (h : q ≠ key) : (m.erase key)[q]? = m[q]? := by
  rw [lookup_erase, if_neg (Ne.symm h)]

end Lookup

namespace Session

theorem unregister_regs (d : Disk) (s : Session) (name : Bytes) :
    (unregister d s name).2.1 = { s with regs := s.regs.erase name } := by
  simp only [unregister]
  split
  · rename_i hnone
    have same : s.regs.erase name = s.regs := by
      refine Std.ExtTreeMap.ext_getElem? fun q => ?_
      rw [lookup_erase]
      split
      · rename_i e
        rw [← e, hnone]
      · rfl
    rw [same]
  · rfl

/-- A property of sessions that all work on them keeps; `heard` is the condition on what the
peer sends. -/
structure Works (heard : SourceFs → Session → Nat → Bytes → Nat → Prop) (P : Session → Prop) :
    Prop where
  run : ∀ src fd now disk s cmd r, P s → SessionCmd.run src fd now disk s cmd = some r → P r.2.1
  reset : ∀ disk s, P s → P (Session.reset disk s).2
  tick : ∀ disk s now, P s → P (Session.tick disk s now).2
  ownerGone : ∀ disk s name serial fd, P s → P (Session.ownerGone disk s name serial fd).2
  accept : ∀ s, P s → P s.acceptInbound
  gone : ∀ s id, P s → P (s.onTunnelGone id)
  connected : ∀ s id, P s → P (s.connected id)
  connectFailed : ∀ s id, P s → P (s.connectFailed id)
  requestClose : ∀ s id, P s → P (s.requestClose id)
  data : ∀ src s id b now, heard src s id b now → P s → P (s.onTunnelData src id b now).1

/-- One that starting and renaming keep too, once the path manager numbers below `since` are
taken. -/
structure Kept (since : Nat) (heard : SourceFs → Session → Nat → Bytes → Nat → Prop)
    (P : Session → Prop) : Prop extends Works heard P where
  blank : P {}
  start : ∀ disk s record object, since ≤ object → P s → P (Session.start disk s record object)
  named : ∀ s name, P s → P { s with name }
  recorded : ∀ s record, P s → P { s with record }

end Session

namespace Daemon
variable {P : Session → Prop} {heard : SourceFs → Session → Nat → Bytes → Nat → Prop}
  {d d' : Daemon} {a : Answers} {since : Nat}

def Every (P : Session → Prop) (d : Daemon) : Prop :=
  ∀ (key : Bytes) (s : Session), d.sessions[key]? = some s → P s

theorem Every.putSession (h : d.Every P) {s : Session} (hs : P s) (key : Bytes) :
    (d.putSession key s).Every P := by
  intro q t ht
  simp only [Daemon.putSession, lookup_insert] at ht
  split at ht
  · cases ht
    exact hs
  · exact h q t ht

theorem Every.erase (h : d.Every P) (key : Bytes) :
    Every P { d with sessions := d.sessions.erase key } := by
  intro q t ht
  simp only [lookup_erase] at ht
  split at ht
  · cases ht
  · exact h q t ht

theorem Every.getD (h : d.Every P) (blank : P {}) (key : Bytes) :
    P ((d.sessions[key]?).getD {}) := by
  cases hs : d.sessions[key]? with
  | none => exact blank
  | some s => exact h key s hs

/-- Every session has the property, and the numbers below `since` are taken. -/
structure Always (since : Nat) (P : Session → Prop) (d : Daemon) : Prop where
  taken : since ≤ d.objects
  every : d.Every P

theorem Always.startSession (h : d.Always since P) (kept : Session.Kept since heard P)
    (record : ConnRecord) : (d.startSession a record).1.Always since P := by
  simp only [Daemon.startSession]
  split
  · refine ⟨h.taken.trans (Nat.le_succ _), ?_⟩
    exact h.every.putSession
      (kept.start _ _ _ _ h.taken (h.every.getD kept.blank record.name)) record.name
  · exact ⟨h.taken.trans (Nat.le_succ _), h.every.erase record.name⟩

theorem Always.sessionFor (h : d.Always since P) (kept : Session.Kept since heard P)
    (peer : Bytes) : (d.sessionFor a peer).1.Always since P ∧
      ∀ s, (d.sessionFor a peer).2 = .ok s → P s := by
  simp only [Daemon.sessionFor]
  split
  · rename_i s hs
    refine ⟨h, fun t ht => ?_⟩
    cases ht
    exact h.every peer s hs
  · split
    · exact ⟨h, fun t ht => by cases ht⟩
    · rename_i record _
      have hstart : (d.startSession a record).1.Always since P := h.startSession kept record
      split
      · rename_i d₁ hd
        rw [hd] at hstart
        exact ⟨hstart, fun t ht => by cases ht⟩
      · rename_i d₁ hd
        rw [hd] at hstart
        have hs := hstart.every.getD kept.blank peer
        refine ⟨⟨hstart.taken, hstart.every.putSession hs peer⟩, fun t ht => ?_⟩
        cases ht
        exact hs

theorem Always.forPeer (h : d.Always since P) (kept : Session.Kept since heard P) {fd : Nat}
    {peer : Bytes} {cmd : SessionCmd} {r : Daemon × Bytes}
    (hr : d.forPeer a fd peer cmd = some r) : r.1.Always since P := by
  obtain ⟨hd, hs⟩ := h.sessionFor (a := a) kept peer
  simp only [Daemon.forPeer] at hr
  split at hr
  · rename_i d₁ e he
    rw [he] at hd
    cases hr
    exact hd
  · rename_i d₁ s he
    rw [he] at hd hs
    obtain ⟨x, hx, rfl⟩ := Option.map_eq_some_iff.mp hr
    refine ⟨hd.taken, ?_⟩
    exact Every.putSession (d := { d₁ with disk := x.1 }) hd.every
      (kept.run _ _ _ _ s cmd x (hs s rfl) hx) peer

theorem Always.dropSession (h : d.Always since P) {name : Bytes}
    (hd : d.dropSession name = some d') : d'.Always since P := by
  simp only [Daemon.dropSession] at hd
  split at hd
  · cases hd
    exact h
  · split at hd
    · cases hd
      exact ⟨h.taken, h.every.erase name⟩
    · cases hd

theorem Always.moveAll (h : d.Always since P) (kept : Session.Kept since heard P)
    (disk : Std.ExtTreeMap Bytes ConnRecord) (moved : List Bytes) :
    (d.moveAll disk moved).Always since P := by
  have left : Every P { d with
      sessions := moved.foldl (fun m name => m.erase name) d.sessions } := by
    refine foldl_invariant (I := fun m => Every P { d with sessions := m }) ?_ h.every
    exact fun m name hm _ => Every.erase (d := { d with sessions := m }) hm name
  refine ⟨h.taken, foldl_invariant (I := fun m => Every P { d with sessions := m }) ?_ left⟩
  intro m s hm hs
  obtain ⟨name, -, hname⟩ := List.mem_filterMap.mp hs
  simp only [reinsert]
  split
  · exact hm
  · split
    · exact hm
    · exact Every.putSession (d := { d with sessions := m }) hm
        (kept.named s _ (h.every name s hname)) _

theorem Always.adopt {da da' : Daemon × Nat} (h : da.1.Always since P)
    (kept : Session.Kept since heard P) {record : ConnRecord}
    (hr : Daemon.adopt a da record = some da') : da'.1.Always since P := by
  simp only [Daemon.adopt] at hr
  split at hr
  · cases hr
    exact h.startSession kept record
  · split at hr
    · cases hr
      refine ⟨h.taken, fun q t ht => ?_⟩
      rw [Std.ExtTreeMap.getElem?_map] at ht
      obtain ⟨s, hs, rfl⟩ := Option.map_eq_some_iff.mp ht
      split
      · exact kept.recorded s record (h.every q s hs)
      · exact h.every q s hs
    · cases hr

theorem Always.reload (h : d.Always since P) (kept : Session.Kept since heard P)
    {r : Daemon × Bytes} (hr : d.reload a = some r) : r.1.Always since P := by
  simp only [Daemon.reload] at hr
  obtain ⟨d₁, hgone, hr⟩ := Option.bind_eq_some_iff.mp hr
  obtain ⟨da, hadopt, hr⟩ := Option.bind_eq_some_iff.mp hr
  cases hr
  have h₁ : d₁.Always since P := foldlM_invariant (fun _ _ _ hs _ => hs.dropSession) h hgone
  exact foldlM_invariant (I := fun da : Daemon × Nat => da.1.Always since P)
    (fun _ _ _ hs _ => hs.adopt kept) (h₁.moveAll kept _ _) hadopt

theorem Always.eachSession (h : d.Always since P)
    {f : Disk → Session → Option (Disk × Session)} (hd : d.eachSession f = some d')
    (keep : ∀ disk s r, P s → f disk s = some r → P r.2) : d'.Always since P := by
  refine foldlM_invariant (fun d₁ name d₂ h₁ _ h₂ => ?_) h hd
  split at h₂
  · cases h₂
    exact h₁
  · rename_i s hs
    obtain ⟨r, hr, rfl⟩ := Option.map_eq_some_iff.mp h₂
    refine ⟨h₁.taken, ?_⟩
    exact Every.putSession (d := { d₁ with disk := r.1 }) h₁.every
      (keep _ s r (h₁.every name s hs) hr) name

theorem Always.handleCmd (h : d.Always since P) (kept : Session.Kept since heard P) {fd : Nat}
    {line : Bytes} {r : Daemon × Bytes} (hr : d.handleCmd a fd line = some r) :
    r.1.Always since P := by
  simp only [Daemon.handleCmd] at hr
  split at hr
  · cases hr
    exact h
  · obtain ⟨x, hx, rfl⟩ := Option.map_eq_some_iff.mp hr
    exact Always.reload (r := x) h kept hx
  · obtain ⟨x, hx, rfl⟩ := Option.map_eq_some_iff.mp hr
    refine h.eachSession hx fun disk s r hs hr => ?_
    cases hr
    exact kept.reset disk s hs
  · exact h.forPeer kept hr

theorem Always.onSession (h : d.Always since P) {key : Bytes}
    {f : Disk → Session → Disk × Session} (hd : d.onSession key f = some d')
    (keep : ∀ s, d.sessions[key]? = some s → P s → P (f d.disk s).2) : d'.Always since P := by
  obtain ⟨s, hs, rfl⟩ := Option.map_eq_some_iff.mp hd
  refine ⟨h.taken, ?_⟩
  exact Every.putSession (d := { d with disk := (f d.disk s).1 }) h.every
    (keep s hs (h.every key s hs)) key

theorem Always.onDialing (h : d.Always since P) {key : Bytes} {id : Nat} {f : Session → Session}
    (hd : d.onDialing key id f = some d') (keep : ∀ s, P s → P (f s)) : d'.Always since P := by
  simp only [Daemon.onDialing] at hd
  split at hd
  · split at hd
    · exact h.onSession hd fun s _ => keep s
    · cases hd
  · cases hd

theorem Always.run (kept : Session.Kept since heard P) {d : Daemon} (taken : since ≤ d.objects)
    (a : Answers) : (d.run a).Always since P := by
  refine foldl_invariant (fun d r hd _ => hd.startSession kept r) ⟨taken, fun key s hs => ?_⟩
  simp at hs

/-- Which steps may be taken: what a peer sends meets `heard`. -/
def HeardOk (heard : SourceFs → Session → Nat → Bytes → Nat → Prop) (d : Daemon) :
    DaemonAction → Prop
  | .data key id b now => ∀ s, d.sessions[key]? = some s → heard d.files s id b now
  | _ => True

/-- A property that every operation keeps is kept by every step. -/
theorem Always.step (h : d.Always since P) (kept : Session.Kept since heard P)
    {act : DaemonAction} (ok : HeardOk heard d act) (hd : d.step act = some d') :
    d'.Always since P := by
  cases act with
  | command a fd line =>
      obtain ⟨r, hr, rfl⟩ := Option.map_eq_some_iff.mp hd
      exact h.handleCmd kept hr
  | tick now =>
      simp only [Daemon.step, Daemon.tick] at hd
      refine h.eachSession hd fun disk s r hs hr => ?_
      split at hr
      · cases hr
        exact kept.tick disk s now hs
      · cases hr
  | accept key =>
      simp only [Daemon.step] at hd
      exact h.onSession hd fun s _ => kept.accept s
  | data key id b now =>
      simp only [Daemon.step] at hd
      exact h.onSession hd fun s hs => kept.data _ s id b now (ok s hs)
  | gone key id =>
      simp only [Daemon.step] at hd
      exact h.onSession hd fun s _ => kept.gone s id
  | connected key id =>
      simp only [Daemon.step] at hd
      exact h.onDialing hd fun s => kept.connected s id
  | connectFailed key id =>
      simp only [Daemon.step] at hd
      exact h.onDialing hd fun s => kept.connectFailed s id
  | requestClose key id =>
      simp only [Daemon.step] at hd
      exact h.onSession hd fun s _ => kept.requestClose s id
  | ownerGone key name serial fd =>
      simp only [Daemon.step] at hd
      exact h.onSession hd fun s _ => kept.ownerGone _ s name serial fd
  | changeFiles files =>
      cases hd
      exact ⟨h.taken, h.every⟩
  | restart a =>
      cases hd
      exact Always.run kept h.taken a
  | pair record =>
      simp only [Daemon.step] at hd
      split at hd
      · cases hd
      · cases hd
        exact ⟨h.taken, h.every⟩
  | removePeer name | renamePeer source target =>
      cases hd
      exact ⟨h.taken, h.every⟩

theorem Every.run (kept : Session.Kept 0 heard P) (d : Daemon) (a : Answers) :
    (d.run a).Every P := (Always.run kept (Nat.zero_le _) a).every

theorem Every.step (h : d.Every P) (kept : Session.Kept 0 heard P) {act : DaemonAction}
    (ok : HeardOk heard d act) (hd : d.step act = some d') : d'.Every P :=
  (Always.step ⟨Nat.zero_le _, h⟩ kept ok hd).every

end Daemon
end Splice.Peer
