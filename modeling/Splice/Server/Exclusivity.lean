import Splice.Lib.Run
import Splice.Server.PairingServer

/-!
Who owns a pairing code. As long as no code is handed out again while the thread it
was given to first still runs past its TTL, a leader that waits within its TTL is the
only one with its code, a follower that joins the code reaches that leader, and no
other leader's `cleanup` touches it. A long bridge that overlaps a recycled code
breaks all of this, because `cleanup` erases by code and not by `Pending`.
-/

namespace Splice.Server
namespace PairingServer
open Lib

/-- The leader has code `c`, waits for a follower and is within its TTL. -/
def Holds (s : PairingServer) (l c : Nat) : Prop :=
  ∃ e, (s.leader l = .sending c e ∨ ∃ d, s.leader l = .waiting c e d) ∧ s.now < e

structure Exclusive (s : PairingServer) : Prop where
  own : ∀ l c, Holds s l c → s.sessions[c]? = some l
  sole : ∀ l l' c, Holds s l c → Holds s l' c → l = l'
  /-- A follower that joins the code while it is unclaimed is handed to its leader. -/
  joined : ∀ l c f s' s'', Holds s l c → (s.pending l).taken = false →
    s.step (.join f c) = some s' → s'.step (.handOver f) = some s'' →
    (s''.pending l).follower = some f
  /-- Another leader's `cleanup` neither removes nor releases the code. -/
  kept : ∀ l l' c s', Holds s l c → l' ≠ l → s.step (.cleanup l') = some s' →
    s'.sessions[c]? = some l ∧ s'.alloc.active[c]? = s.alloc.active[c]? ∧
      s'.alloc.cooldown[c]? = s.alloc.cooldown[c]?

/-- A code that is handed out is not that of a thread which has outlived its TTL
without having run `cleanup`. -/
def RecycleOk (s : PairingServer) : Action → Prop
  | .allocate _ => ∀ c, (s.alloc.allocate s.now s.cfg.codeTtlMs).1 = some c →
      ∀ l e, (s.leader l).code? = some (c, e) → s.now < e
  | _ => True

/-- Every thread that has not run `cleanup` owns its session entry, and within its
TTL its code is active. -/
structure Owned (s : PairingServer) : Prop where
  entry : ∀ l c e, (s.leader l).code? = some (c, e) → s.sessions[c]? = some l
  active : ∀ l c e, (s.leader l).code? = some (c, e) → s.now < e → s.alloc.active[c]? = some e

theorem Holds.code? {s : PairingServer} {l c : Nat} (h : Holds s l c) :
    ∃ e, (s.leader l).code? = some (c, e) ∧ s.now < e := by
  obtain ⟨e, h | ⟨d, h⟩, hlt⟩ := h <;> exact ⟨e, by rw [h]; rfl, hlt⟩

/-- A step that leaves `sessions_` alone, lets go of no code within its TTL and gives
no thread a code. -/
structure Quiet (s s' : PairingServer) : Prop where
  later : s.now ≤ s'.now
  sessions : s'.sessions = s.sessions
  active : ∀ c t : Nat, s.alloc.active[c]? = some t → s'.now < t → s'.alloc.active[c]? = some t
  codes : ∀ l p, (s'.leader l).code? = some p → (s.leader l).code? = some p

/-- Thread `l` runs `cleanup` for the code it was given. -/
structure Cleaned (s s' : PairingServer) (l c e : Nat) : Prop where
  was : s.leader l = .cleaning c e
  now : s'.now = s.now
  alloc : s'.alloc = s.alloc.release c s.now
  sessions : s'.sessions = s.sessions.erase c
  leader : s'.leader = Function.update s.leader l .leaving

/-- What one step can do to codes and sessions. -/
inductive Effect (s s' : PairingServer) : Action → Prop
  | quiet {a : Action} (h : Quiet s s') : Effect s s' a
  | allocated {l c : Nat} {alloc : CodeAllocator}
      (got : s.alloc.allocate s.now s.cfg.codeTtlMs = (some c, alloc))
      (now : s'.now = s.now) (halloc : s'.alloc = alloc)
      (sessions : s'.sessions = s.sessions.insert c l)
      (leader : s'.leader = Function.update s.leader l (.sending c (s.now + s.cfg.codeTtlMs))) :
      Effect s s' (.allocate l)
  | cleaned {l c e : Nat} (h : Cleaned s s' l c e) : Effect s s' (.cleanup l)

/-- Moving one thread on without giving it a code is quiet. -/
theorem quiet_of_leader {s s' : PairingServer} {l : Nat} {p : LeaderPhase}
    (now : s'.now = s.now) (alloc : s'.alloc = s.alloc) (sessions : s'.sessions = s.sessions)
    (leader : s'.leader = Function.update s.leader l p)
    (codes : ∀ q, p.code? = some q → (s.leader l).code? = some q) : Quiet s s' := by
  refine ⟨now.ge, sessions, fun c t h _ => by rwa [alloc], ?_⟩
  intro l' q hq
  rw [leader] at hq
  by_cases hl : l' = l
  · subst hl
    exact codes q (by simpa using hq)
  · simpa [Function.update_of_ne hl] using hq

theorem quiet_of_same {s s' : PairingServer} (now : s.now ≤ s'.now)
    (alloc : s'.alloc = s.alloc) (sessions : s'.sessions = s.sessions)
    (leader : s'.leader = s.leader) : Quiet s s' :=
  ⟨now, sessions, fun c t h _ => by rwa [alloc], fun l p h => by rwa [leader] at h⟩

theorem effect_init {s s' : PairingServer} {l : Nat} (h : s.init l = some s') :
    Quiet s s' := by
  simp only [init] at h
  split at h
  · split at h <;> cases h <;>
      exact quiet_of_leader rfl rfl rfl rfl (by simp [LeaderPhase.code?])
  · cases h

theorem effect_leave {s s' : PairingServer} {l : Nat} (h : s.leave l = some s') :
    Quiet s s' := by
  unfold leave at h
  split at h <;> cases h <;>
    exact quiet_of_leader rfl rfl rfl rfl (by simp [LeaderPhase.code?])

theorem effect_sendCode {s s' : PairingServer} {l : Nat} {ok : Bool}
    (h : s.sendCode l ok = some s') : Quiet s s' := by
  unfold sendCode at h
  split at h
  · rename_i c e hl
    split at h <;> cases h <;>
      exact quiet_of_leader rfl rfl rfl rfl (by simp [LeaderPhase.code?, hl])
  · cases h

theorem effect_wake {s s' : PairingServer} {l : Nat} {okL okF : Bool}
    (h : s.wake l okL okF = some s') : Quiet s s' := by
  unfold wake at h
  split at h
  · rename_i c e d hl
    split at h
    · split at h
      · split at h <;> cases h <;>
          exact quiet_of_leader rfl rfl rfl rfl (by simp [LeaderPhase.code?, hl])
      · cases h
        exact quiet_of_leader rfl rfl rfl rfl (by simp [LeaderPhase.code?, hl])
    · split at h
      · cases okL <;> cases h <;>
          exact quiet_of_leader rfl rfl rfl rfl (by simp [LeaderPhase.code?, hl])
      · cases h
  · cases h

theorem effect_bridgeEnd {s s' : PairingServer} {l : Nat} (h : s.bridgeEnd l = some s') :
    Quiet s s' := by
  unfold bridgeEnd at h
  split at h
  · rename_i hl
    cases h
    exact quiet_of_leader rfl rfl rfl rfl (by simp [LeaderPhase.code?, hl])
  · cases h

theorem effect_join {s s' : PairingServer} {f c : Nat} (h : s.join f c = some s') :
    Quiet s s' := by
  unfold join at h
  split at h
  · split at h
    · cases h
      exact quiet_of_same le_rfl rfl rfl rfl
    · split at h <;> cases h <;> exact quiet_of_same le_rfl rfl rfl rfl
  · cases h

theorem effect_handOver {s s' : PairingServer} {f : Nat} (h : s.handOver f = some s') :
    Quiet s s' := by
  unfold handOver at h
  split at h
  · cases h
    exact quiet_of_same le_rfl rfl rfl rfl
  · cases h

theorem effect_allocate {s s' : PairingServer} {l : Nat} (h : s.allocateCode l = some s') :
    Effect s s' (.allocate l) := by
  unfold allocateCode at h
  split at h
  · split at h
    · rename_i alloc got
      cases h
      refine .quiet ⟨le_rfl, rfl, fun c t ht hlt => ?_, fun l' p hp => ?_⟩
      · exact (CodeAllocator.allocate_none got c t).mpr ⟨ht, hlt⟩
      · by_cases hl : l' = l
        · subst hl
          simp [tellLeader, setLeader, LeaderPhase.code?] at hp
        · simpa [tellLeader, setLeader, Function.update_of_ne hl] using hp
    · rename_i c alloc got
      cases h
      exact .allocated got rfl rfl rfl rfl
  · cases h

theorem effect_cleanup {s s' : PairingServer} {l : Nat} (h : s.cleanup l = some s') :
    ∃ c e, Cleaned s s' l c e := by
  unfold cleanup at h
  split at h
  · rename_i c e was
    cases h
    exact ⟨c, e, was, rfl, rfl, rfl, rfl⟩
  · cases h

theorem step_effect {s s' : PairingServer} {a : Action} (h : s.step a = some s') :
    Effect s s' a := by
  cases a with
  | advance ms =>
      cases h
      exact .quiet (quiet_of_same (Nat.le_add_right _ _) rfl rfl rfl)
  | init l => exact .quiet (effect_init h)
  | leave l => exact .quiet (effect_leave h)
  | allocate l => exact effect_allocate h
  | sendCode l ok => exact .quiet (effect_sendCode h)
  | wake l okL okF => exact .quiet (effect_wake h)
  | bridgeEnd l => exact .quiet (effect_bridgeEnd h)
  | cleanup l =>
      obtain ⟨c, e, cleaned⟩ := effect_cleanup h
      exact .cleaned cleaned
  | join f c => exact .quiet (effect_join h)
  | handOver f => exact .quiet (effect_handOver h)

theorem Owned.quiet {s s' : PairingServer} (inv : Owned s) (h : Quiet s s') : Owned s' := by
  refine ⟨fun l c e hc => ?_, fun l c e hc hlt => ?_⟩
  · rw [h.sessions]
    exact inv.entry l c e (h.codes l _ hc)
  · have hlt' : s.now < e := Nat.lt_of_le_of_lt h.later hlt
    exact h.active c e (inv.active l c e (h.codes l _ hc) hlt') hlt

theorem owned_step {s s' : PairingServer} {a : Action} (inv : Owned s) (ok : RecycleOk s a)
    (h : s.step a = some s') : Owned s' := by
  have effect := step_effect h
  clear h
  cases effect with
  | quiet h => exact inv.quiet h
  | @allocated l c alloc got now halloc sessions leader =>
      obtain ⟨unused, after⟩ := CodeAllocator.allocate_some got
      -- a thread that still has `c` would be past its TTL, and that is excluded
      have fresh : ∀ l' e, (s.leader l').code? ≠ some (c, e) := by
        intro l' e hc
        have hlt := ok c (by rw [got]) l' e hc
        have := unused e (inv.active l' c e hc hlt)
        omega
      refine ⟨fun l' c' e' hc => ?_, fun l' c' e' hc hlt => ?_⟩
      · rw [sessions, Std.ExtTreeMap.getElem?_insert]
        by_cases hl : l' = l
        · subst hl
          have hc' : c = c' := by simp [leader, LeaderPhase.code?] at hc; exact hc.1
          simp [hc']
        · rw [leader, Function.update_of_ne hl] at hc
          have hne : c ≠ c' := by rintro rfl; exact fresh l' e' hc
          simpa [hne] using inv.entry l' c' e' hc
      · rw [halloc]
        apply (after c' e').mpr
        by_cases hl : l' = l
        · subst hl
          obtain ⟨rfl, rfl⟩ : c = c' ∧ s.now + s.cfg.codeTtlMs = e' := by
            simpa [leader, LeaderPhase.code?] using hc
          simp
        · rw [leader, Function.update_of_ne hl] at hc
          have hne : c ≠ c' := by rintro rfl; exact fresh l' e' hc
          rw [now] at hlt
          simpa [hne, hlt] using inv.active l' c' e' hc hlt
  | @cleaned l c e h =>
      obtain ⟨was, now, halloc, sessions, leader⟩ := h
      have mine : s.sessions[c]? = some l := inv.entry l c e (by rw [was]; rfl)
      have other : ∀ l' c' e', (s'.leader l').code? = some (c', e') →
          (s.leader l').code? = some (c', e') ∧ c ≠ c' := by
        intro l' c' e' hc
        have hl : l' ≠ l := by
          rintro rfl
          simp [leader, LeaderPhase.code?] at hc
        rw [leader, Function.update_of_ne hl] at hc
        refine ⟨hc, ?_⟩
        rintro rfl
        have := inv.entry l' c e' hc
        rw [mine] at this
        exact hl (Option.some.inj this).symm
      refine ⟨fun l' c' e' hc => ?_, fun l' c' e' hc hlt => ?_⟩
      · obtain ⟨hc, hne⟩ := other l' c' e' hc
        rw [sessions, Std.ExtTreeMap.getElem?_erase]
        simpa [hne] using inv.entry l' c' e' hc
      · obtain ⟨hc, hne⟩ := other l' c' e' hc
        rw [now] at hlt
        rw [halloc, CodeAllocator.release, Std.ExtTreeMap.getElem?_erase]
        simpa [hne] using inv.active l' c' e' hc hlt

theorem owned_start (cfg : PairingConfig) (acfg : AllocConfig) (now : Nat) :
    Owned (start cfg acfg now) :=
  ⟨fun _ _ _ h => by simp [start, LeaderPhase.code?] at h,
    fun _ _ _ h => by simp [start, LeaderPhase.code?] at h⟩

/-- Ownership of the session entry gives everything the server promises a leader. -/
theorem Owned.exclusive {s : PairingServer} (inv : Owned s) : Exclusive s := by
  have own : ∀ l c, Holds s l c → s.sessions[c]? = some l := by
    intro l c h
    obtain ⟨e, hc, _⟩ := h.code?
    exact inv.entry l c e hc
  refine ⟨own, ?_, ?_, ?_⟩
  · intro l l' c h h'
    have := own l c h
    rw [own l' c h'] at this
    exact (Option.some.inj this).symm
  · intro l c f s' s'' h free hj hh
    simp only [step, join] at hj
    split at hj
    · simp only [own l c h, free, Bool.false_eq_true, if_false, Option.some.injEq] at hj
      subst hj
      simp only [step, handOver, setFollower, Function.update_self, Option.some.injEq] at hh
      subst hh
      simp
    · cases hj
  · intro l l' c s' h hne hs
    obtain ⟨c', e, was, now, halloc, sessions, leader⟩ := effect_cleanup hs
    have hc : c' ≠ c := by
      rintro rfl
      have := inv.entry l' c' e (by rw [was]; rfl)
      rw [own l c' h] at this
      exact hne (Option.some.inj this).symm
    refine ⟨?_, ?_, ?_⟩
    · rw [sessions, Std.ExtTreeMap.getElem?_erase]
      simpa [hc] using own l c h
    · rw [halloc, CodeAllocator.release, Std.ExtTreeMap.getElem?_erase]
      simp [hc]
    · rw [halloc, CodeAllocator.release, Std.ExtTreeMap.getElem?_insert]
      simp [hc]

/-- In every run in which codes are recycled only after the thread that had them has
cleaned up or while it is within its TTL, every leader keeps its code to itself. -/
theorem exclusive_of_recycleOk (cfg : PairingConfig) (acfg : AllocConfig) (now : Nat)
    {s : PairingServer} (h : Reach step RecycleOk (start cfg acfg now) s) : Exclusive s :=
  (h.invariant (owned_start cfg acfg now) fun _ _ _ => owned_step).exclusive

/-- A code that is handed out is in nobody's hands. -/
def unlisted (s : PairingServer) : Action → Bool
  | .allocate _ =>
      (s.alloc.allocate s.now s.cfg.codeTtlMs).1.all fun c => (s.sessions[c]?).isNone
  | _ => true

theorem recycleOk_of_unlisted {s : PairingServer} {a : Action} (inv : Owned s)
    (h : unlisted s a = true) : RecycleOk s a := by
  cases a with
  | allocate l =>
      intro c got l' e code
      have listed := inv.entry l' c e code
      rw [unlisted, got, Option.all_some, listed] at h
      cases h
  | _ => trivial

/-- Leader 0 has bridged and cleaned up, leader 1 waits with code 1, and leader 2 with leader 0's
code, which is its own now. -/
theorem exclusive_after_recycling : ∃ s, Reach step RecycleOk (start {} {} 0) s ∧
    s.leader 0 = .finished ∧ Holds s 1 1 ∧ Holds s 2 0 ∧ Exclusive s := by
  obtain ⟨s, reached, seen⟩ := Reach.observedWhen step
    (fun s a (checked : unlisted s a = true) => checked)
    (start {} {} 0) [.init 0, .allocate 0, .sendCode 0 true, .join 0 0, .handOver 0,
      .wake 0 true true, .init 1, .allocate 1, .sendCode 1 true,
      .bridgeEnd 0, .cleanup 0, .leave 0, .advance 3000, .init 2, .allocate 2, .sendCode 2 true]
    (fun s => (s.leader 0, s.leader 1, s.leader 2, s.now))
    (by decide +kernel : _ = some (.finished, .waiting 1 60000 60000, .waiting 0 63000 63000, 3000))
  simp only [Prod.mk.injEq] at seen
  obtain ⟨done_, first, second, now⟩ := seen
  have recycled : Reach step RecycleOk (start {} {} 0) s :=
    reached.mono_of_invariant (owned_start {} {} 0) (fun _ _ _ => owned_step)
      fun _ _ => recycleOk_of_unlisted
  exact ⟨s, recycled, done_, ⟨60000, .inr ⟨60000, first⟩, by omega⟩,
    ⟨63000, .inr ⟨63000, second⟩, by omega⟩, exclusive_of_recycleOk {} {} 0 recycled⟩

/-- Leader 0 bridges for more than its TTL and cooldown. Leader 1's arrival expires
code 0, leader 2 is given it, and leader 0's `cleanup` then takes it away. -/
theorem long_bridge_steals_code :
    ¬ ∀ s, Reach step anyStep (start {} {} 0) s → Exclusive s := by
  intro all
  let actions : List Action :=
    [.init 0, .allocate 0, .sendCode 0 true, .join 0 0, .handOver 0, .wake 0 true true,
      .advance 60000, .init 1, .allocate 1, .advance 3000, .init 2, .allocate 2,
      .sendCode 2 true, .bridgeEnd 0, .cleanup 0]
  obtain ⟨s, reached, seen⟩ := Reach.observed step (start {} {} 0) actions
    (fun s => (s.leader 2, s.now, s.sessions[0]?))
    (by decide +kernel : _ = some (.waiting 0 123000 123000, 63000, none))
  obtain ⟨waits, now, gone⟩ : s.leader 2 = .waiting 0 123000 123000 ∧ s.now = 63000 ∧
      s.sessions[0]? = none := by simpa using seen
  have holds : Holds s 2 0 := ⟨123000, .inr ⟨_, waits⟩, by omega⟩
  have := (all s reached).own 2 0 holds
  rw [gone] at this
  cases this

end PairingServer
end Splice.Server
