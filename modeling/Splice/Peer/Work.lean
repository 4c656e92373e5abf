import Splice.Peer.Daemon
import Splice.Peer.Offers

/-!
Work on one session and the files below it. Whatever the daemon does with a session
comes down to REGISTER, `unregister`, an offer taken up once more, and work that
changes neither the files nor the face: a property of the files and a session that
these four keep is kept by every operation, and one that the last three keep by every
operation but REGISTER.
-/

namespace Splice.Peer
open Lib

namespace Session

/-- Kept by all work but a REGISTER. -/
structure Tends (P : Disk → Session → Prop) : Prop where
  same : ∀ d s s', P d s → s'.face = s.face → P d s'
  spawned : ∀ d s s' name o, P d s → s.face.offers name = some o →
    s'.face = s.face.put name (some o.spawn) → P d s'
  unregister : ∀ d s name, P d s →
    P (unregister d s name).1 (unregister d s name).2.1

structure Keeps (P : Disk → Session → Prop) : Prop extends Tends P where
  register : ∀ src d s fd name toks, P d s →
    P (register src d s fd name toks).1 (register src d s fd name toks).2.1

theorem face_launch {s s' : Session} {i : Instance} {now : Nat} (h : s.launch i now = some s') :
    s'.face = s.face := by
  simp only [launch] at h
  split at h
  · cases h
    rfl
  · cases h

theorem face_connected (s : Session) (id : Nat) : (s.connected id).face = s.face := by
  simp only [connected]
  split <;> rfl

theorem face_connectFailed (s : Session) (id : Nat) : (s.connectFailed id).face = s.face := by
  simp only [connectFailed]
  split <;> rfl

namespace Tends
variable {P : Disk → Session → Prop} {d : Disk} {s : Session}

/-- A command of a client, with what there is to say of a REGISTER. -/
theorem run (keeps : Tends P) (h : P d s) {src : SourceFs} {fd now : Nat} {cmd : SessionCmd}
    (register : ∀ name toks, cmd = .register name toks →
      P (register src d s fd name toks).1 (register src d s fd name toks).2.1)
    {r : Disk × Session × Bytes} (hr : SessionCmd.run src fd now d s cmd = some r) :
    P r.1 r.2.1 := by
  cases cmd with
  | forceRelay =>
      simp only [SessionCmd.run, forceRelay] at hr
      split at hr
      · cases hr
        exact h
      · cases hr
  | register name toks =>
      cases hr
      exact register name toks rfl
  | unregister name =>
      cases hr
      simp only [unregisterCmd]
      split
      · exact keeps.unregister d s name h
      · exact h
  | openPipe want o type args =>
      simp only [SessionCmd.run, openCmd] at hr
      split at hr
      · split at hr
        · obtain ⟨s', hs', rfl⟩ := Option.map_eq_some_iff.mp hr
          exact keeps.same d s s' h (face_launch hs')
        · cases hr
          exact keeps.same d s _ h rfl
      · split at hr
        · cases hr
          exact keeps.same d s _ h rfl
        · obtain ⟨s', hs', rfl⟩ := Option.map_eq_some_iff.mp hr
          exact keeps.same d s s' h (face_launch hs')
  | query want =>
      obtain ⟨s', hs', rfl⟩ := Option.map_eq_some_iff.mp hr
      exact keeps.same d s s' h (face_launch hs')
  | close text =>
      cases hr
      simp only [closeCmd]
      split
      · exact keeps.same d s _ h (face_closeInstance s _)
      · exact h

theorem reset (keeps : Tends P) (h : P d s) : P (Session.reset d s).1 (Session.reset d s).2 := by
  simp only [Session.reset]
  refine keeps.same _ _ _ ?_ (face_foldl_close _ _)
  refine foldl_invariant (I := fun acc : Disk × Session × List Nat => P acc.1 acc.2.1)
    (fun acc name hacc _ => ?_) h
  exact keeps.unregister acc.1 acc.2.1 name hacc

theorem retire (keeps : Tends P) (h : P d s) (serials : List Nat) :
    P (serials.foldl Session.retire (d, s)).1 (serials.foldl Session.retire (d, s)).2 := by
  refine foldl_invariant (I := fun ds : Disk × Session => P ds.1 ds.2)
    (fun ds serial hds _ => ?_) h
  simp only [Session.retire]
  split
  · exact hds
  · exact keeps.unregister ds.1 ds.2 _ hds

theorem tick (keeps : Tends P) (h : P d s) (now : Nat) :
    P (Session.tick d s now).1 (Session.tick d s now).2 := by
  simp only [Session.tick]
  generalize hs : (if s.busy then { s with lastActive := now } else s) = s₁
  have h₁ : P d s₁ := by
    refine keeps.same d s s₁ h ?_
    rw [← hs]
    split <;> rfl
  split
  · have hclosed : P d s₁.drainClose := keeps.same d s₁ _ h₁ (face_drainClose s₁)
    exact keeps.same _ _ _ (keeps.retire hclosed s₁.drainClose.wantRetire) (face_dialAll _ now)
  · exact h₁

theorem ownerGone (keeps : Tends P) (h : P d s) (name : Bytes) (serial : Nat) (fd : Int) :
    P (Session.ownerGone d s name serial fd).1 (Session.ownerGone d s name serial fd).2 := by
  simp only [Session.ownerGone]
  split
  · exact keeps.same d s _ h (face_foldl_close _ _)
  · split
    · exact keeps.same _ _ _ (keeps.unregister d s name h) (face_foldl_close _ _)
    · exact keeps.same d s _ h (face_foldl_close _ _)

theorem data (keeps : Tends P) (h : P d s) (src : SourceFs) (id : Nat) (b : Bytes) (now : Nat) :
    P d (s.onTunnelData src id b now).1 := by
  rcases onTunnelData_answered src s id b now with ⟨name, o, ho, -, hface, -⟩ | ⟨hface, -⟩
  · exact keeps.spawned d s _ name o h ho hface
  · exact keeps.same d s _ h hface

end Tends

theorem Keeps.run {P : Disk → Session → Prop} {d : Disk} {s : Session} (keeps : Keeps P)
    (h : P d s) {src : SourceFs} {fd now : Nat} {cmd : SessionCmd} {r : Disk × Session × Bytes}
    (hr : SessionCmd.run src fd now d s cmd = some r) : P r.1 r.2.1 :=
  keeps.toTends.run h (fun name toks _ => keeps.register src d s fd name toks h) hr

end Session
end Splice.Peer
