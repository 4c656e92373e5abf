import Splice.Proto.Pairing
import Splice.Server.CodeAlloc

/-!
The rendezvous server as a step system: one step for each block that runs under
`mu_` or under a `Pending`'s own mutex, one for each atomic change of
`active_sessions_`, and one for each send in between, whose outcome the action
chooses. A leader's thread and its `Pending` share one number. A bridge lasts until
its `bridgeEnd` step, however long that takes; the clock only moves forward.
-/

namespace Splice.Server
open Proto

structure PairingConfig where
  codeTtlMs : Nat := 60000
  bridgeTimeoutMs : Nat := 60000
  maxSessions : Nat := 64

/-- `follower` is delivered by the follower's thread, `taken` is guarded by `mu_`. -/
structure Pending where
  follower : Option Nat := none
  taken : Bool := false

/-- Where a leader's thread is in `handle_leader`. `expiry` is the time at which the
allocator lets the code go, `deadline` the end of the wait for a follower. -/
inductive LeaderPhase
  | absent
  | refused
  | admitted
  | sending (code expiry : Nat)
  | waiting (code expiry deadline : Nat)
  | bridging (code expiry follower : Nat)
  | cleaning (code expiry : Nat)
  | leaving
  | finished
  deriving DecidableEq

inductive FollowerPhase
  | absent
  | claimed (leader : Nat)
  | handed (leader : Nat)
  | finished
  deriving DecidableEq

/-- The code a thread was given, with its expiry, until the thread has run `cleanup`. -/
def LeaderPhase.code? : LeaderPhase → Option (Nat × Nat)
  | .sending c e | .waiting c e _ | .bridging c e _ | .cleaning c e => some (c, e)
  | .absent | .refused | .admitted | .leaving | .finished => none

structure PairingServer where
  cfg : PairingConfig
  now : Nat
  alloc : CodeAllocator
  /-- code ↦ the leader whose `Pending` it is -/
  sessions : Std.ExtTreeMap Nat Nat
  activeSessions : Nat
  pending : Nat → Pending
  leader : Nat → LeaderPhase
  follower : Nat → FollowerPhase
  /-- control messages sent so far, per connection and newest last -/
  sentLeader : Nat → List CtrlMessage
  sentFollower : Nat → List CtrlMessage

inductive Action
  | advance (ms : Nat)
  | init (l : Nat)
  | leave (l : Nat)
  | allocate (l : Nat)
  | sendCode (l : Nat) (ok : Bool)
  | wake (l : Nat) (okLeader okFollower : Bool)
  | bridgeEnd (l : Nat)
  | cleanup (l : Nat)
  | join (f code : Nat)
  | handOver (f : Nat)

namespace PairingServer

def start (cfg : PairingConfig) (acfg : AllocConfig) (now : Nat) : PairingServer :=
  { cfg, now, alloc := .new acfg, sessions := ∅, activeSessions := 0,
    pending := fun _ => {}, leader := fun _ => .absent, follower := fun _ => .absent,
    sentLeader := fun _ => [], sentFollower := fun _ => [] }

def setLeader (s : PairingServer) (l : Nat) (p : LeaderPhase) : PairingServer :=
  { s with leader := Function.update s.leader l p }

def setFollower (s : PairingServer) (f : Nat) (p : FollowerPhase) : PairingServer :=
  { s with follower := Function.update s.follower f p }

def tellLeader (s : PairingServer) (l : Nat) (m : CtrlMessage) : PairingServer :=
  { s with sentLeader := Function.update s.sentLeader l (s.sentLeader l ++ [m]) }

def tellFollower (s : PairingServer) (f : Nat) (m : CtrlMessage) : PairingServer :=
  { s with sentFollower := Function.update s.sentFollower f (s.sentFollower f ++ [m]) }

/-- `active_sessions_.fetch_add(1) + 1 > max_sessions` decides admission. -/
def init (s : PairingServer) (l : Nat) : Option PairingServer :=
  match s.leader l with
  | .absent =>
      let s := { s with activeSessions := s.activeSessions + 1 }
      if s.activeSessions > s.cfg.maxSessions then some (s.setLeader l .refused)
      else some (s.setLeader l .admitted)
  | _ => none

/-- `active_sessions_.fetch_sub(1)`, after a refusal or after `cleanup`. -/
def leave (s : PairingServer) (l : Nat) : Option PairingServer :=
  match s.leader l with
  | .refused =>
      let s := { s with activeSessions := s.activeSessions - 1 }
      some ((s.setLeader l .finished).tellLeader l (.error 3 (str "server busy")))
  | .leaving => some ({ s with activeSessions := s.activeSessions - 1 }.setLeader l .finished)
  | _ => none

/-- The `mu_` block of `handle_leader`. -/
def allocateCode (s : PairingServer) (l : Nat) : Option PairingServer :=
  match s.leader l with
  | .admitted =>
      match s.alloc.allocate s.now s.cfg.codeTtlMs with
      | (none, alloc) =>
          let s := { s with alloc, activeSessions := s.activeSessions - 1 }
          some ((s.setLeader l .finished).tellLeader l (.error 4 (str "no codes available")))
      | (some c, alloc) =>
          let s := { s with
            alloc
            sessions := s.sessions.insert c l
            pending := Function.update s.pending l {} }
          some (s.setLeader l (.sending c (s.now + s.cfg.codeTtlMs)))
  | _ => none

def sendCode (s : PairingServer) (l : Nat) (ok : Bool) : Option PairingServer :=
  match s.leader l with
  | .sending c e =>
      if ok then
        let m := CtrlMessage.code c.toUInt64 (s.cfg.codeTtlMs / 1000).toUInt32
        some ((s.setLeader l (.waiting c e (s.now + s.cfg.codeTtlMs))).tellLeader l m)
      else some (s.setLeader l (.cleaning c e))
  | _ => none

/-- The timed wait ends when a follower is there or the deadline has passed. -/
def wake (s : PairingServer) (l : Nat) (okLeader okFollower : Bool) : Option PairingServer :=
  match s.leader l with
  | .waiting c e d =>
      match (s.pending l).follower with
      | some f =>
          let s := { s with
            pending := Function.update s.pending l { s.pending l with follower := none } }
          let s := s.setFollower f .finished
          if okLeader then
            let s := s.tellLeader l .paired
            if okFollower then
              some ((s.tellFollower f .paired).setLeader l (.bridging c e f))
            else some (s.setLeader l (.cleaning c e))
          else some (s.setLeader l (.cleaning c e))
      | none =>
          if d ≤ s.now then
            let s := if okLeader then s.tellLeader l (.error 5 (str "pairing code expired")) else s
            some (s.setLeader l (.cleaning c e))
          else none
  | _ => none

def bridgeEnd (s : PairingServer) (l : Nat) : Option PairingServer :=
  match s.leader l with
  | .bridging c e _ => some (s.setLeader l (.cleaning c e))
  | _ => none

def cleanup (s : PairingServer) (l : Nat) : Option PairingServer :=
  match s.leader l with
  | .cleaning c _ =>
      let s := { s with sessions := s.sessions.erase c, alloc := s.alloc.release c s.now }
      some (s.setLeader l .leaving)
  | _ => none

/-- The `mu_` block of `handle_follower`. -/
def join (s : PairingServer) (f code : Nat) : Option PairingServer :=
  match s.follower f with
  | .absent =>
      let refuse :=
        (s.setFollower f .finished).tellFollower f
          (.error 6 (str "unknown or already-claimed code"))
      match s.sessions[code]? with
      | none => some refuse
      | some l =>
          if (s.pending l).taken then some refuse
          else
            let s := { s with
              pending := Function.update s.pending l { s.pending l with taken := true } }
            some (s.setFollower f (.claimed l))
  | _ => none

def handOver (s : PairingServer) (f : Nat) : Option PairingServer :=
  match s.follower f with
  | .claimed l =>
      let s := { s with
        pending := Function.update s.pending l { s.pending l with follower := some f } }
      some (s.setFollower f (.handed l))
  | _ => none

def step (s : PairingServer) : Action → Option PairingServer
  | .advance ms => some { s with now := s.now + ms }
  | .init l => s.init l
  | .leave l => s.leave l
  | .allocate l => s.allocateCode l
  | .sendCode l ok => s.sendCode l ok
  | .wake l okL okF => s.wake l okL okF
  | .bridgeEnd l => s.bridgeEnd l
  | .cleanup l => s.cleanup l
  | .join f c => s.join f c
  | .handOver f => s.handOver f

end PairingServer
end Splice.Server
