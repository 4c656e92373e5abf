import Splice.Lib.Run
import Splice.Server.PairingServer

/-!
What becomes of a follower. It claims the code under `mu_` and hands its connection over
under the mutex of the leader's `Pending`, and between the two the leader may have given
up. A follower whose leader is still there to take it, with a connection that works, is
sent PAIRED and bridged; any other is dropped without a word.
-/

namespace Splice.Server

/-- The thread has been given a code, perhaps long ago. -/
def LeaderPhase.begun : LeaderPhase → Bool
  | absent | refused | admitted => false
  | _ => true

/-- It has yet to look for its follower. -/
def LeaderPhase.waits : LeaderPhase → Bool
  | sending _ _ | waiting _ _ _ => true
  | _ => false

/-- The follower has passed the check and has not been picked up. -/
def FollowerPhase.of (l : Nat) (p : FollowerPhase) : Prop := p = .claimed l ∨ p = .handed l

namespace PairingServer
open Lib

/-! ## One step -/

/-- What a step does to the threads and to what they share. -/
inductive Turn (s s' : PairingServer) : Action → Prop
  | time {ms : Nat} (sessions : s'.sessions = s.sessions) (pending : s'.pending = s.pending)
      (leader : s'.leader = s.leader) (follower : s'.follower = s.follower)
      (sent : s'.sentFollower = s.sentFollower) : Turn s s' (.advance ms)
  /-- a leader moves on alone -/
  | moved {a : Action} {l : Nat} {p : LeaderPhase}
      (sessions : ∀ c l : Nat, s'.sessions[c]? = some l → s.sessions[c]? = some l)
      (pending : s'.pending = s.pending) (leader : s'.leader = Function.update s.leader l p)
      (follower : s'.follower = s.follower) (sent : s'.sentFollower = s.sentFollower)
      (on : (s.leader l).begun = true → p.begun = true)
      (stays : (s.leader l).waits = true → p.waits = true ∨ a = .sendCode l false ∨
        ((∃ okL okF, a = .wake l okL okF) ∧ (s.pending l).follower = none)) : Turn s s' a
  | given {l c e : Nat} (sessions : s'.sessions = s.sessions.insert c l)
      (pending : s'.pending = Function.update s.pending l {})
      (leader : s'.leader = Function.update s.leader l (.sending c e))
      (follower : s'.follower = s.follower) (sent : s'.sentFollower = s.sentFollower)
      (was : s.leader l = .admitted) : Turn s s' (.allocate l)
  /-- it picks its follower up -/
  | picked {l f : Nat} {okL okF : Bool} {p : LeaderPhase} (sessions : s'.sessions = s.sessions)
      (waits : (s.leader l).waits = true) (there : (s.pending l).follower = some f)
      (pending : s'.pending = Function.update s.pending l { s.pending l with follower := none })
      (leader : s'.leader = Function.update s.leader l p) (on : p.begun = true)
      (follower : s'.follower = Function.update s.follower f .finished)
      (paired : okL = true → okF = true →
        (∃ c e, p = .bridging c e f) ∧ .paired ∈ s'.sentFollower f)
      (sent : ∀ g, s.sentFollower g ⊆ s'.sentFollower g) : Turn s s' (.wake l okL okF)
  | refused {f c : Nat} (sessions : s'.sessions = s.sessions) (pending : s'.pending = s.pending)
      (leader : s'.leader = s.leader) (follower : s'.follower = Function.update s.follower f .finished)
      (was : s.follower f = .absent) (sent : ∀ g, s.sentFollower g ⊆ s'.sentFollower g) :
      Turn s s' (.join f c)
  | claims {f c l : Nat} (sessions : s'.sessions = s.sessions) (found : s.sessions[c]? = some l)
      (free : (s.pending l).taken = false)
      (pending : s'.pending = Function.update s.pending l { s.pending l with taken := true })
      (leader : s'.leader = s.leader)
      (follower : s'.follower = Function.update s.follower f (.claimed l))
      (was : s.follower f = .absent) (sent : s'.sentFollower = s.sentFollower) :
      Turn s s' (.join f c)
  | hands {f l : Nat} (sessions : s'.sessions = s.sessions)
      (pending : s'.pending = Function.update s.pending l { s.pending l with follower := some f })
      (leader : s'.leader = s.leader)
      (follower : s'.follower = Function.update s.follower f (.handed l))
      (was : s.follower f = .claimed l) (sent : s'.sentFollower = s.sentFollower) :
      Turn s s' (.handOver f)

section Steps
variable {s s' : PairingServer} {l f c : Nat}

theorem subset_tellFollower (s : PairingServer) (f g : Nat) (m : Proto.CtrlMessage) :
    s.sentFollower g ⊆ (s.tellFollower f m).sentFollower g := by
  intro x hx
  by_cases hg : g = f
  · subst hg
    simp only [tellFollower, Function.update_self]
    exact List.mem_append_left _ hx
  · simpa only [tellFollower, Function.update_of_ne hg] using hx

theorem turn_init (h : s.init l = some s') : Turn s s' (.init l) := by
  simp only [init] at h
  split at h
  · rename_i was
    split at h
    all_goals
      cases h
      refine .moved (fun _ _ h => h) rfl rfl rfl rfl (fun h => ?_) fun h => ?_
      · simp [was, LeaderPhase.begun] at h
      · simp [was, LeaderPhase.waits] at h
  · cases h

theorem turn_leave (h : s.leave l = some s') : Turn s s' (.leave l) := by
  unfold leave at h
  split at h
  all_goals rename_i was
  · cases h
    exact .moved (fun _ _ h => h) rfl rfl rfl rfl (fun _ => rfl) fun h => by
      simp [was, LeaderPhase.waits] at h
  · cases h
    exact .moved (fun _ _ h => h) rfl rfl rfl rfl (fun _ => rfl) fun h => by
      simp [was, LeaderPhase.waits] at h
  · cases h

theorem turn_allocate (h : s.allocateCode l = some s') : Turn s s' (.allocate l) := by
  unfold allocateCode at h
  split at h
  · rename_i was
    split at h
    · cases h
      exact .moved (fun _ _ h => h) rfl rfl rfl rfl (fun _ => rfl) fun h => by
        simp [was, LeaderPhase.waits] at h
    · cases h
      exact .given rfl rfl rfl rfl rfl was
  · cases h

theorem turn_sendCode {ok : Bool} (h : s.sendCode l ok = some s') : Turn s s' (.sendCode l ok) := by
  unfold sendCode at h
  split at h
  · split at h
    · cases h
      exact .moved (fun _ _ h => h) rfl rfl rfl rfl (fun _ => rfl) fun _ => .inl rfl
    · rename_i hok
      cases h
      refine .moved (fun _ _ h => h) rfl rfl rfl rfl (fun _ => rfl) fun _ => .inr (.inl ?_)
      rw [Bool.not_eq_true] at hok
      rw [hok]
  · cases h

theorem turn_wake {okL okF : Bool} (h : s.wake l okL okF = some s') :
    Turn s s' (.wake l okL okF) := by
  unfold wake at h
  split at h
  · rename_i c e d was
    have waits : (s.leader l).waits = true := by rw [was]; rfl
    split at h
    · rename_i f there
      split at h
      · split at h
        · cases h
          refine .picked rfl waits there rfl rfl rfl rfl (fun _ _ => ⟨⟨c, e, rfl⟩, ?_⟩) ?_
          · simp [setLeader, tellFollower]
          · exact fun g => subset_tellFollower s f g .paired
        · rename_i hok
          cases h
          exact .picked rfl waits there rfl rfl rfl rfl (fun _ h => absurd h hok)
            fun g => List.Subset.refl _
      · rename_i hok
        cases h
        exact .picked rfl waits there rfl rfl rfl rfl (fun h => absurd h hok)
          fun g => List.Subset.refl _
    · rename_i none
      split at h
      · cases h
        cases okL
        all_goals
          exact .moved (fun _ _ h => h) rfl rfl rfl rfl (fun _ => rfl)
            fun _ => .inr (.inr ⟨⟨_, _, rfl⟩, none⟩)
      · cases h
  · cases h

theorem turn_bridgeEnd (h : s.bridgeEnd l = some s') : Turn s s' (.bridgeEnd l) := by
  unfold bridgeEnd at h
  split at h
  · rename_i was
    cases h
    exact .moved (fun _ _ h => h) rfl rfl rfl rfl (fun _ => rfl) fun h => by
      simp [was, LeaderPhase.waits] at h
  · cases h

theorem turn_cleanup (h : s.cleanup l = some s') : Turn s s' (.cleanup l) := by
  unfold cleanup at h
  split at h
  · rename_i was
    cases h
    refine .moved (fun c l h => ?_) rfl rfl rfl rfl (fun _ => rfl) fun h => by
      simp [was, LeaderPhase.waits] at h
    simp only [setLeader, Std.ExtTreeMap.getElem?_erase] at h
    split at h
    · cases h
    · exact h
  · cases h

theorem turn_join (h : s.join f c = some s') : Turn s s' (.join f c) := by
  unfold join at h
  split at h
  · rename_i was
    split at h
    · cases h
      exact .refused rfl rfl rfl rfl was fun g => subset_tellFollower s f g _
    · rename_i l found
      split at h
      · cases h
        exact .refused rfl rfl rfl rfl was fun g => subset_tellFollower s f g _
      · rename_i free
        cases h
        exact .claims rfl found (Bool.not_eq_true _ ▸ free) rfl rfl rfl was rfl
  · cases h

theorem turn_handOver (h : s.handOver f = some s') : Turn s s' (.handOver f) := by
  unfold handOver at h
  split at h
  · rename_i l was
    cases h
    exact .hands rfl rfl rfl rfl was rfl
  · cases h

theorem step_turn {a : Action} (h : s.step a = some s') : Turn s s' a := by
  cases a with
  | advance ms =>
      cases h
      exact .time rfl rfl rfl rfl rfl
  | init l => exact turn_init h
  | leave l => exact turn_leave h
  | allocate l => exact turn_allocate h
  | sendCode l ok => exact turn_sendCode h
  | wake l okL okF => exact turn_wake h
  | bridgeEnd l => exact turn_bridgeEnd h
  | cleanup l => exact turn_cleanup h
  | join f c => exact turn_join h
  | handOver f => exact turn_handOver h

end Steps

/-! ## Claims -/

/-- Who has claimed what, in every reachable state. -/
structure Orderly (s : PairingServer) : Prop where
  listed : ∀ c l : Nat, s.sessions[c]? = some l → (s.leader l).begun = true
  begun : ∀ l, (s.pending l).taken = true → (s.leader l).begun = true
  taken : ∀ f l, (s.follower f).of l → (s.pending l).taken = true
  delivered : ∀ l f, (s.pending l).follower = some f → s.follower f = .handed l
  sole : ∀ f g l, (s.follower f).of l → (s.follower g).of l → f = g

/-- The check was passed and can be passed no more. -/
structure Claimed (s : PairingServer) (l : Nat) : Prop where
  taken : (s.pending l).taken = true
  begun : (s.leader l).begun = true

theorem FollowerPhase.of_update {φ : Nat → FollowerPhase} {f g l : Nat} {p : FollowerPhase}
    (h : (Function.update φ f p g).of l) : g = f ∧ p.of l ∨ g ≠ f ∧ (φ g).of l := by
  by_cases hg : g = f
  · subst hg
    rw [Function.update_self] at h
    exact .inl ⟨rfl, h⟩
  · rw [Function.update_of_ne hg] at h
    exact .inr ⟨hg, h⟩

theorem not_of_finished (l : Nat) : ¬ FollowerPhase.finished.of l := by simp [FollowerPhase.of]

/-- A thread that has begun has not stopped having begun. -/
theorem begun_update {φ : Nat → LeaderPhase} {l l' : Nat} {p : LeaderPhase}
    (on : (φ l).begun = true → p.begun = true) (h : (φ l').begun = true) :
    (Function.update φ l p l').begun = true := by
  by_cases hl : l' = l
  · subst hl
    rw [Function.update_self]
    exact on h
  · rwa [Function.update_of_ne hl]

theorem taken_update {ψ : Nat → Pending} {l l' : Nat} {p : Pending} (h : (ψ l').taken = true)
    (same : l' = l → p.taken = true) : (Function.update ψ l p l').taken = true := by
  by_cases hl : l' = l
  · subst hl
    rw [Function.update_self]
    exact same rfl
  · rwa [Function.update_of_ne hl]

section Steps
variable {s s' : PairingServer} {a : Action} {l f : Nat}

theorem Claimed.step (h : Claimed s l) (hs : s.step a = some s') : Claimed s' l := by
  cases step_turn hs with
  | time _ pending leader => exact ⟨by rw [pending]; exact h.taken, by rw [leader]; exact h.begun⟩
  | moved _ pending leader _ _ on =>
      refine ⟨by rw [pending]; exact h.taken, ?_⟩
      rw [leader]
      exact begun_update on h.begun
  | given _ pending leader _ _ was =>
      constructor
      · rw [pending]
        refine taken_update h.taken ?_
        rintro rfl
        have begun := h.begun
        simp [was, LeaderPhase.begun] at begun
      · rw [leader]
        exact begun_update (fun _ => rfl) h.begun
  | picked _ _ _ pending leader on =>
      constructor
      · rw [pending]
        exact taken_update h.taken fun hl => hl ▸ h.taken
      · rw [leader]
        exact begun_update (fun _ => on) h.begun
  | refused _ pending leader => exact ⟨by rw [pending]; exact h.taken, by rw [leader]; exact h.begun⟩
  | claims _ _ _ pending leader =>
      refine ⟨?_, by rw [leader]; exact h.begun⟩
      rw [pending]
      exact taken_update h.taken fun _ => rfl
  | hands _ pending leader =>
      refine ⟨?_, by rw [leader]; exact h.begun⟩
      rw [pending]
      exact taken_update h.taken fun hl => hl ▸ h.taken

theorem Orderly.step (h : Orderly s) (hs : s.step a = some s') : Orderly s' := by
  cases step_turn hs with
  | time sessions pending leader follower =>
      constructor
      · rw [sessions, leader]
        exact h.listed
      · rw [pending, leader]
        exact h.begun
      · rw [pending, follower]
        exact h.taken
      · rw [pending, follower]
        exact h.delivered
      · rw [follower]
        exact h.sole
  | moved sessions pending leader follower _ on =>
      constructor
      · rw [leader]
        exact fun c l hl => begun_update on (h.listed c l (sessions c l hl))
      · rw [pending, leader]
        exact fun l hl => begun_update on (h.begun l hl)
      · rw [pending, follower]
        exact h.taken
      · rw [pending, follower]
        exact h.delivered
      · rw [follower]
        exact h.sole
  | @given l c e sessions pending leader follower _ was =>
      have unbegun : (s.pending l).taken = false := by
        by_contra ht
        have hb := h.begun l (by simpa using ht)
        simp [was, LeaderPhase.begun] at hb
      have on : (s.leader l).begun = true → (LeaderPhase.sending c e).begun = true := fun _ => rfl
      constructor
      · intro c' l' hl'
        rw [leader]
        rw [sessions, Std.ExtTreeMap.getElem?_insert] at hl'
        split at hl'
        · cases hl'
          rw [Function.update_self]
          rfl
        · exact begun_update on (h.listed c' l' hl')
      · intro l' hl'
        rw [pending] at hl'
        rw [leader]
        by_cases hne : l' = l
        · subst hne
          rw [Function.update_self] at hl'
          cases hl'
        · rw [Function.update_of_ne hne] at hl'
          exact begun_update on (h.begun l' hl')
      · intro f l' hf
        rw [follower] at hf
        rw [pending]
        refine taken_update (h.taken f l' hf) ?_
        rintro rfl
        rw [h.taken f l' hf] at unbegun
        cases unbegun
      · intro l' f hf
        rw [pending] at hf
        rw [follower]
        by_cases hne : l' = l
        · subst hne
          rw [Function.update_self] at hf
          cases hf
        · rw [Function.update_of_ne hne] at hf
          exact h.delivered l' f hf
      · rw [follower]
        exact h.sole
  | @picked l f okL okF p sessions waits there pending leader on follower =>
      have at_l : s.follower f = .handed l := h.delivered l f there
      constructor
      · rw [sessions, leader]
        exact fun c l' hl' => begun_update (fun _ => on) (h.listed c l' hl')
      · intro l' hl'
        rw [leader]
        refine begun_update (fun _ => on) (h.begun l' ?_)
        rw [pending] at hl'
        by_cases hne : l' = l
        · subst hne
          rwa [Function.update_self] at hl'
        · rwa [Function.update_of_ne hne] at hl'
      · intro g l' hg
        rw [follower] at hg
        rcases FollowerPhase.of_update hg with ⟨-, hfin⟩ | ⟨-, hg⟩
        · exact absurd hfin (not_of_finished l')
        · rw [pending]
          refine taken_update (h.taken g l' hg) fun heq => ?_
          exact heq ▸ h.taken g l' hg
      · intro l' g hg
        rw [pending] at hg
        by_cases hne : l' = l
        · subst hne
          rw [Function.update_self] at hg
          cases hg
        · rw [Function.update_of_ne hne] at hg
          have hgl := h.delivered l' g hg
          rw [follower, Function.update_of_ne]
          · exact hgl
          · rintro rfl
            rw [at_l] at hgl
            exact hne (FollowerPhase.handed.inj hgl).symm
      · intro g g' l' hg hg'
        rw [follower] at hg hg'
        rcases FollowerPhase.of_update hg with ⟨-, hfin⟩ | ⟨-, hg⟩
        · exact absurd hfin (not_of_finished l')
        rcases FollowerPhase.of_update hg' with ⟨-, hfin⟩ | ⟨-, hg'⟩
        · exact absurd hfin (not_of_finished l')
        · exact h.sole g g' l' hg hg'
  | @refused f c sessions pending leader follower was =>
      constructor
      · rw [sessions, leader]
        exact h.listed
      · rw [pending, leader]
        exact h.begun
      · intro g l' hg
        rw [follower] at hg
        rw [pending]
        rcases FollowerPhase.of_update hg with ⟨-, hfin⟩ | ⟨-, hg⟩
        · exact absurd hfin (not_of_finished l')
        · exact h.taken g l' hg
      · intro l' g hg
        rw [pending] at hg
        have hgl := h.delivered l' g hg
        rw [follower, Function.update_of_ne]
        · exact hgl
        · rintro rfl
          rw [was] at hgl
          cases hgl
      · intro g g' l' hg hg'
        rw [follower] at hg hg'
        rcases FollowerPhase.of_update hg with ⟨-, hfin⟩ | ⟨-, hg⟩
        · exact absurd hfin (not_of_finished l')
        rcases FollowerPhase.of_update hg' with ⟨-, hfin⟩ | ⟨-, hg'⟩
        · exact absurd hfin (not_of_finished l')
        · exact h.sole g g' l' hg hg'
  | @claims f c l sessions found free pending leader follower was =>
      have only : ∀ {l' : Nat}, (FollowerPhase.claimed l).of l' → l' = l := by
        rintro l' (heq | heq)
        · exact (FollowerPhase.claimed.inj heq).symm
        · cases heq
      constructor
      · rw [sessions, leader]
        exact h.listed
      · intro l' hl'
        rw [leader]
        by_cases hne : l' = l
        · subst hne
          exact h.listed c l' found
        · rw [pending, Function.update_of_ne hne] at hl'
          exact h.begun l' hl'
      · intro g l' hg
        rw [follower] at hg
        rw [pending]
        rcases FollowerPhase.of_update hg with ⟨-, hof⟩ | ⟨-, hg⟩
        · rw [only hof, Function.update_self]
        · exact taken_update (h.taken g l' hg) fun _ => rfl
      · intro l' g hg
        have hgl : s.follower g = .handed l' := by
          refine h.delivered l' g ?_
          rw [pending] at hg
          by_cases hne : l' = l
          · subst hne
            rwa [Function.update_self] at hg
          · rwa [Function.update_of_ne hne] at hg
        rw [follower, Function.update_of_ne]
        · exact hgl
        · rintro rfl
          rw [was] at hgl
          cases hgl
      · intro g g' l' hg hg'
        -- before, nobody had claimed the leader
        have none : ∀ g, ¬ (s.follower g).of l := by
          intro g hg
          rw [h.taken g l hg] at free
          cases free
        rw [follower] at hg hg'
        rcases FollowerPhase.of_update hg with ⟨rfl, hof⟩ | ⟨-, hg⟩
        · rcases FollowerPhase.of_update hg' with ⟨rfl, -⟩ | ⟨-, hg'⟩
          · rfl
          · exact absurd (only hof ▸ hg') (none g')
        · rcases FollowerPhase.of_update hg' with ⟨-, hof⟩ | ⟨-, hg'⟩
          · exact absurd (only hof ▸ hg) (none g)
          · exact h.sole g g' l' hg hg'
  | @hands f l sessions pending leader follower was =>
      have mine : (s.follower f).of l := .inl was
      have moved : ∀ {g l' : Nat}, (s'.follower g).of l' → (s.follower g).of l' := by
        intro g l' hg
        rw [follower] at hg
        rcases FollowerPhase.of_update hg with ⟨rfl, hof⟩ | ⟨-, hg⟩
        · rcases hof with heq | heq
          · cases heq
          · rw [← FollowerPhase.handed.inj heq]
            exact mine
        · exact hg
      constructor
      · rw [sessions, leader]
        exact h.listed
      · intro l' hl'
        rw [leader]
        refine h.begun l' ?_
        rw [pending] at hl'
        by_cases hne : l' = l
        · subst hne
          rwa [Function.update_self] at hl'
        · rwa [Function.update_of_ne hne] at hl'
      · intro g l' hg
        rw [pending]
        refine taken_update (h.taken g l' (moved hg)) fun heq => ?_
        exact heq ▸ h.taken g l' (moved hg)
      · intro l' g hg
        rw [pending] at hg
        rw [follower]
        by_cases hne : l' = l
        · subst hne
          rw [Function.update_self, Option.some.injEq] at hg
          rw [hg, Function.update_self]
        · rw [Function.update_of_ne hne] at hg
          have hgl := h.delivered l' g hg
          rw [Function.update_of_ne]
          · exact hgl
          · rintro rfl
            rw [was] at hgl
            cases hgl
      · exact fun g g' l' hg hg' => h.sole g g' l' (moved hg) (moved hg')

end Steps

theorem orderly_start (cfg : PairingConfig) (acfg : AllocConfig) (now : Nat) :
    Orderly (start cfg acfg now) := by
  constructor
  · intro c l h
    simp [start] at h
  · intro l h
    cases h
  · intro f l h
    simp [start, FollowerPhase.of] at h
  · intro l f h
    cases h
  · intro f g l h
    simp [start, FollowerPhase.of] at h

theorem orderly_reach {cfg : PairingConfig} {acfg : AllocConfig} {now : Nat} {s : PairingServer}
    {ok : PairingServer → Action → Prop} (h : Reach step ok (start cfg acfg now) s) : Orderly s :=
  h.invariant (orderly_start cfg acfg now) fun _ _ _ inv _ => inv.step

/-! ## Answers -/

/-- Follower `f` joins code `c` and passes the `taken` check of leader `l`. -/
def Passes (s s' : PairingServer) (f c l : Nat) : Prop :=
  s.step (.join f c) = some s' ∧ s'.follower f = .claimed l

/-- Leader `l` bridges with `f` somewhere between the two states. -/
def Bridged (s₀ s : PairingServer) (f l : Nat) : Prop :=
  ∃ u c e, Reach step anyStep s₀ u ∧ Reach step anyStep u s ∧ u.leader l = .bridging c e f

/-- The follower was told PAIRED and its frames are carried, or it was told what is wrong. -/
def Answered (s₀ s : PairingServer) (f l : Nat) : Prop :=
  .paired ∈ s.sentFollower f ∧ Bridged s₀ s f l ∨ ∃ code text, .error code text ∈ s.sentFollower f

/-- The leader has its follower's connection to take and takes it: it neither stops
waiting for one that has claimed it, nor fails to send PAIRED to its own peer, nor is
claimed when it waits no longer. -/
def Keeps (s : PairingServer) : Action → Prop
  | .sendCode l ok => ok = true ∨ (s.pending l).taken = false
  | .wake l okLeader _ =>
      okLeader = true ∧ (s.pending l).follower.isSome ∨
        (s.pending l).taken = false
  | .join _ c => ∀ l ∈ s.sessions[c]?, (s.pending l).taken = true ∨ (s.leader l).waits = true
  | _ => True

/-- What is sent to a follower arrives. -/
def Delivers (_ : PairingServer) : Action → Prop
  | .wake _ _ okFollower => okFollower = true
  | _ => True

/-- How far a follower is that passed the check at `s₀`. -/
inductive Serving (s₀ s : PairingServer) (f l : Nat) : Prop
  | due (of : (s.follower f).of l) (waits : (s.leader l).waits = true)
  | served (follower : s.follower f = .finished) (paired : .paired ∈ s.sentFollower f)
      (bridged : Bridged s₀ s f l)

section Runs
variable {s₀ s s' : PairingServer} {a : Action} {f l : Nat} {p : LeaderPhase}

theorem FollowerPhase.of_unique {q : FollowerPhase} {l' : Nat} (h : q.of l) (h' : q.of l') :
    l = l' := by
  rcases h with rfl | rfl
  all_goals
    rcases h' with h' | h'
    all_goals cases h'
    rfl

theorem Bridged.step (h : Bridged s₀ s f l) (hs : s.step a = some s') : Bridged s₀ s' f l := by
  obtain ⟨u, c, e, before, after, bridging⟩ := h
  exact ⟨u, c, e, before, .next after trivial hs, bridging⟩

/-- A leader whose claim was passed waits on. -/
theorem waits_update {φ : Nat → LeaderPhase} {l l' : Nat} {p : LeaderPhase}
    (h : (φ l').waits = true) (on : l' = l → p.waits = true) :
    (Function.update φ l p l').waits = true := by
  by_cases hl : l' = l
  · subst hl
    rw [Function.update_self]
    exact on rfl
  · rwa [Function.update_of_ne hl]

/-- A leader that moves on alone leaves nobody behind. -/
theorem Keeps.stays (keeps : Keeps s a) (taken : (s.pending l).taken = true)
    (stays : (s.leader l).waits = true → p.waits = true ∨ a = .sendCode l false ∨
      ((∃ okL okF, a = .wake l okL okF) ∧ (s.pending l).follower = none))
    (waits : (s.leader l).waits = true) : p.waits = true := by
  rcases stays waits with h | rfl | ⟨⟨okL, okF, rfl⟩, none⟩
  · exact h
  · rcases keeps with h | h
    · cases h
    · rw [taken] at h
      cases h
  · rcases keeps with ⟨-, h⟩ | h
    · rw [none] at h
      cases h
    · rw [taken] at h
      cases h

theorem Serving.step (h : Serving s₀ s f l) (orderly : Orderly s) (reached : Reach step anyStep s₀ s)
    (keeps : Keeps s a) (delivers : Delivers s a) (hs : s.step a = some s') :
    Serving s₀ s' f l := by
  cases h with
  | due of waits =>
      have taken : (s.pending l).taken = true := orderly.taken f l of
      have joined : ∀ {g}, s.follower g = .absent → f ≠ g := by
        rintro g was rfl
        rw [was] at of
        simp [FollowerPhase.of] at of
      cases step_turn hs with
      | time _ _ leader follower => exact .due (by rwa [follower]) (by rwa [leader])
      | moved _ _ leader follower _ _ stays =>
          refine .due (by rwa [follower]) ?_
          rw [leader]
          refine waits_update waits ?_
          rintro rfl
          exact keeps.stays taken stays waits
      | given _ _ leader follower =>
          refine .due (by rwa [follower]) ?_
          rw [leader]
          exact waits_update waits fun _ => rfl
      | @picked l' g okL okF p _ _ there _ leader _ follower paired =>
          have hg : (s.follower g).of l' := .inr (orderly.delivered l' g there)
          by_cases hl : l' = l
          · subst hl
            obtain rfl : f = g := orderly.sole f g l' of hg
            have okLeader : okL = true := by
              rcases keeps with ⟨h, -⟩ | h
              · exact h
              · rw [taken] at h
                cases h
            obtain ⟨⟨c, e, rfl⟩, told⟩ := paired okLeader delivers
            refine .served (by rw [follower, Function.update_self]) told ?_
            exact ⟨s', c, e, .next reached trivial hs, .start, by rw [leader, Function.update_self]⟩
          · refine .due ?_ ?_
            · rw [follower, Function.update_of_ne]
              · exact of
              · rintro rfl
                exact hl (FollowerPhase.of_unique hg of)
            · rw [leader]
              exact waits_update waits fun h => absurd h.symm hl
      | refused _ _ leader follower was =>
          refine .due ?_ (by rwa [leader])
          rwa [follower, Function.update_of_ne (joined was)]
      | claims _ _ _ _ leader follower was =>
          refine .due ?_ (by rwa [leader])
          rwa [follower, Function.update_of_ne (joined was)]
      | @hands g l' _ _ leader follower was =>
          refine .due ?_ (by rwa [leader])
          rw [follower]
          by_cases hg : f = g
          · subst hg
            rw [Function.update_self]
            exact .inr (congrArg _ (FollowerPhase.of_unique (.inl was) of))
          · rwa [Function.update_of_ne hg]
  | served finished paired bridged =>
      have other : ∀ {g}, s.follower g ≠ .finished → f ≠ g := by
        rintro g was rfl
        exact was finished
      have same : s'.follower f = s.follower f ∧ s.sentFollower f ⊆ s'.sentFollower f := by
        cases step_turn hs with
        | time _ _ _ follower sent =>
            rw [follower, sent]
            exact ⟨rfl, List.Subset.refl _⟩
        | moved _ _ _ follower sent =>
            rw [follower, sent]
            exact ⟨rfl, List.Subset.refl _⟩
        | given _ _ _ follower sent =>
            rw [follower, sent]
            exact ⟨rfl, List.Subset.refl _⟩
        | @picked l' g _ _ _ _ _ there _ _ _ follower _ sent =>
            have was : s.follower g ≠ .finished := by simp [orderly.delivered l' g there]
            rw [follower, Function.update_of_ne (other was)]
            exact ⟨rfl, sent f⟩
        | refused _ _ _ follower was sent =>
            rw [follower, Function.update_of_ne (other (by simp [was]))]
            exact ⟨rfl, sent f⟩
        | claims _ _ _ _ _ follower was sent =>
            rw [follower, sent, Function.update_of_ne (other (by simp [was]))]
            exact ⟨rfl, List.Subset.refl _⟩
        | hands _ _ _ follower was sent =>
            rw [follower, sent, Function.update_of_ne (other (by simp [was]))]
            exact ⟨rfl, List.Subset.refl _⟩
      exact .served (same.1.trans finished) (same.2 paired) (bridged.step hs)

/-- Who passes claims a leader that is listed and not taken. -/
theorem Passes.claims (h : Passes s s' f c l) :
    s.sessions[c]? = some l ∧ (s.pending l).taken = false ∧ s'.leader = s.leader := by
  obtain ⟨hs, claimed⟩ := h
  simp only [step, join] at hs
  split at hs
  · split at hs
    · cases hs
      simp [setFollower, tellFollower] at claimed
    · rename_i found
      split at hs
      · cases hs
        simp [setFollower, tellFollower] at claimed
      · rename_i free
        cases hs
        simp only [setFollower, Function.update_self, FollowerPhase.claimed.injEq] at claimed
        subst claimed
        exact ⟨found, Bool.not_eq_true _ ▸ free, rfl⟩
  · cases hs

theorem Passes.serving (keeps : Keeps s (.join f c)) (h : Passes s s' f c l) :
    Serving s' s' f l := by
  obtain ⟨found, free, leader⟩ := h.claims
  refine .due (.inl h.2) ?_
  rw [leader]
  refine (keeps l found).resolve_left ?_
  rw [free]
  exact Bool.false_ne_true

/-- The claim leaves the leader claimed. -/
theorem Passes.claimed (orderly : Orderly s) (h : Passes s s' f c l) : Claimed s' l := by
  have orderly' := orderly.step h.1
  have taken := orderly'.taken f l (.inl h.2)
  exact ⟨taken, orderly'.begun l taken⟩

theorem Claimed.run (h : Claimed s₀ l) (after : Reach PairingServer.step anyStep s₀ s) :
    Claimed s l := by
  induction after with
  | start => exact h
  | next _ _ stepped ih => exact ih.step stepped

/-- A step of a run in which every follower is answered. -/
def Serves (s : PairingServer) (a : Action) : Prop := Keeps s a ∧ Delivers s a

theorem Serving.run (orderly : Orderly s₀) (init : Serving s₀ s₀ f l)
    (h : Reach PairingServer.step Serves s₀ s) : Serving s₀ s f l := by
  have run : Serving s₀ s f l ∧ Orderly s ∧ Reach PairingServer.step anyStep s₀ s := by
    induction h with
    | start => exact ⟨init, orderly, .start⟩
    | next _ meets stepped ih =>
        obtain ⟨serving, orderly, reached⟩ := ih
        exact ⟨serving.step orderly reached meets.1 meets.2 stepped, orderly.step stepped,
          .next reached trivial stepped⟩
  exact run.1

theorem Serving.answered (h : Serving s₀ s f l) (done : s.leader l = .finished) :
    Answered s₀ s f l := by
  cases h with
  | due _ waits =>
      rw [done] at waits
      cases waits
  | served _ paired bridged => exact .inl ⟨paired, bridged⟩

end Runs

/-- Of those who join one leader at most one passes the check. In every run in which each
leader is there to take who claims it, and what it sends to a follower arrives, that one has
been sent PAIRED and bridged to the leader once the leader is done. -/
theorem followers_answered (cfg : PairingConfig) (acfg : AllocConfig) (now : Nat) :
    (∀ s s' t t' f g c c' l, Reach step anyStep (start cfg acfg now) s → Passes s s' f c l →
      Reach step anyStep s' t → ¬ Passes t t' g c' l) ∧
    ∀ s s' t f c l, Reach step Serves (start cfg acfg now) s → Serves s (.join f c) →
      Passes s s' f c l → Reach step Serves s' t → t.leader l = .finished →
        Answered s' t f l := by
  constructor
  · intro s s' t t' f g c c' l before passes after again
    have claimed : Claimed t l := (passes.claimed (orderly_reach before)).run after
    obtain ⟨-, free, -⟩ := again.claims
    rw [claimed.taken] at free
    cases free
  · intro s s' t f c l before serves passes after done
    have orderly := (orderly_reach before).step passes.1
    exact (Serving.run orderly (passes.serving serves.1) after).answered done

instance (s : PairingServer) : (a : Action) → Decidable (Serves s a)
  | .sendCode l ok => inferInstanceAs (Decidable ((ok = true ∨ (s.pending l).taken = false) ∧ True))
  | .wake l okL okF => inferInstanceAs (Decidable ((okL = true ∧ (s.pending l).follower.isSome ∨
      (s.pending l).taken = false) ∧ okF = true))
  | .join _ c => inferInstanceAs (Decidable ((∀ l ∈ s.sessions[c]?,
      (s.pending l).taken = true ∨ (s.leader l).waits = true) ∧ True))
  | .advance _ | .init _ | .leave _ | .allocate _ | .bridgeEnd _ | .cleanup _ | .handOver _ =>
      inferInstanceAs (Decidable (True ∧ True))

/-- Follower 7 joins the first leader and follower 8 comes too late. -/
theorem follower_bridged :
    ∃ s s' t, Reach step Serves (start {} {} 0) s ∧ Passes s s' 7 0 0 ∧
      Reach step Serves s' t ∧ t.follower 8 = .finished ∧ Answered s' t 7 0 := by
  have sound : ∀ s a, decide (Serves s a) = true → Serves s a := fun _ _ h => of_decide_eq_true h
  obtain ⟨s, before, seen⟩ := Reach.observedWhen step sound (start {} {} 0)
    [.init 0, .allocate 0, .sendCode 0 true]
    (fun s => (s.step (.join 7 0)).map fun s' => (decide (Serves s (.join 7 0)), s'.follower 7,
      (execWhen step (fun s a => decide (Serves s a)) s' [.join 8 0, .handOver 7,
        .wake 0 true true, .bridgeEnd 0, .cleanup 0, .leave 0]).map fun t =>
          (t.leader 0, t.follower 8)))
    (by decide +kernel : _ = some (some (true, .claimed 0, some (.finished, .finished))))
  obtain ⟨s', joined, seen⟩ := Option.map_eq_some_iff.mp seen
  simp only [Prod.mk.injEq, decide_eq_true_eq] at seen
  obtain ⟨serves, claimed, seen⟩ := seen
  obtain ⟨t, after, seen⟩ := Option.map_eq_some_iff.mp seen
  have reached := Reach.of_execWhen sound _ .start after
  obtain ⟨done, late⟩ := Prod.mk.inj seen
  exact ⟨s, s', t, before, ⟨joined, claimed⟩, reached, late,
    (followers_answered {} {} 0).2 s s' t 7 0 0 before serves ⟨joined, claimed⟩ reached done⟩

instance (s : PairingServer) : (a : Action) → Decidable (Delivers s a)
  | .wake _ _ okF => inferInstanceAs (Decidable (okF = true))
  | .sendCode _ _ | .join _ _ | .advance _ | .init _ | .leave _ | .allocate _ | .bridgeEnd _
  | .cleanup _ | .handOver _ => inferInstanceAs (Decidable True)

/-- Leader 0 gives up between the claim of follower 7 and the hand-over, and follower 7 is
never told. -/
theorem follower_dropped :
    ¬ ∀ s s' t f c l, Reach step Delivers (start {} {} 0) s → Passes s s' f c l →
      Reach step Delivers s' t → t.follower f = .handed l → t.leader l = .finished →
        Answered s' t f l := by
  intro all
  have sound : ∀ s a, decide (Delivers s a) = true → Delivers s a :=
    fun _ _ h => of_decide_eq_true h
  obtain ⟨s, before, seen⟩ := Reach.observedWhen step sound (start {} {} 0)
    [.init 0, .allocate 0, .sendCode 0 true]
    (fun s => (s.step (.join 7 0)).map fun s' => (s'.follower 7,
      (execWhen step (fun s a => decide (Delivers s a)) s' [.advance 60000, .wake 0 true true,
        .cleanup 0, .leave 0, .handOver 7]).map fun t =>
          (t.leader 0, t.follower 7, (t.sentFollower 7).isEmpty)))
    (by decide +kernel : _ = some (some (.claimed 0, some (.finished, .handed 0, true))))
  obtain ⟨s', joined, seen⟩ := Option.map_eq_some_iff.mp seen
  simp only [Prod.mk.injEq] at seen
  obtain ⟨claimed, seen⟩ := seen
  obtain ⟨t, after, seen⟩ := Option.map_eq_some_iff.mp seen
  have reached := Reach.of_execWhen sound _ .start after
  simp only [Prod.mk.injEq, List.isEmpty_iff] at seen
  obtain ⟨done, handed, silent⟩ := seen
  have answered := all s s' t 7 0 0 before ⟨joined, claimed⟩ reached handed done
  rw [Answered, silent] at answered
  simp at answered

end PairingServer
end Splice.Server
