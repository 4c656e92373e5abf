import Mathlib.Data.List.Nodup
import Mathlib.Data.List.Perm.Basic
import Mathlib.Logic.Function.Basic
import Splice.Lib.Run

/-!
The programs the daemon runs, as processes. A program whose connection ends first is hung up,
killed some seconds later if it lingers, and waited for. A signal goes to the process group under
the program's number and to the program. Process numbers are given out again once nobody waits for
them and no group has them, and not only to the daemon's own children.
-/

namespace Splice.Peer
open Lib

def kKillAfterMs : Int := 5000

/-- What a process number stands for: the daemon's child number `serial`, running or waiting
to be waited for, a process that this child has started, itself or through others, or somebody
else's process. -/
inductive Proc
  | ours (serial : Nat) (running : Bool)
  | begun (serial : Nat)
  | foreign
  deriving DecidableEq

abbrev ProcTable := Nat → Option Proc

inductive Waited
  | running
  | reaped
  | noChild
  deriving DecidableEq

/-- `waitpid` with `WNOHANG`. -/
def waitpid (t : ProcTable) (pid : Nat) : Waited × ProcTable :=
  match t pid with
  | some (.ours _ true) => (.running, t)
  | some (.ours _ false) => (.reaped, Function.update t pid none)
  | some (.begun _) | some .foreign | none => (.noChild, t)

inductive ProcSignal
  | hup
  | kill
  deriving DecidableEq

/-- A call of `signal_run`, with what it reached. -/
structure SignalSent where
  time : Int
  sig : ProcSignal
  /-- the processes of the group that got it -/
  members : ProcTable
  target : Option Proc
  /-- sent when the daemon exits -/
  last : Bool

/-- `kill(-pid, sig)` and `kill(pid, sig)`; `group` says which group a process is in. -/
def signalRun (t : ProcTable) (group : Nat → Nat) (time : Int) (sig : ProcSignal) (pid : Nat)
    (last : Bool) : SignalSent :=
  ⟨time, sig, fun p => if group p = pid then t p else none, t pid, last⟩

structure Orphan where
  pid : Nat
  killAt : Int
  killed : Bool := false

/-- `pid_` and `reaped_` of an `ExecEnd` that has started its program. -/
structure ExecProc where
  pid : Nat
  reaped : Bool := false

structure Procs where
  table : ProcTable := fun _ => none
  /-- the process group of each process -/
  group : Nat → Nat := fun _ => 0
  /-- the daemon's own process group -/
  own : Nat
  /-- process numbers are smaller -/
  limit : Nat
  ends : List ExecProc := []
  orphans : List Orphan := []
  sent : List SignalSent := []
  now : Int
  /-- programs started so far -/
  started : Nat := 0
  stopped : Bool := false

namespace Procs

/-- `maybe_finish`, once the program has closed its output. -/
def finish (w : Procs) (i : Nat) (e : ExecProc) : Procs :=
  if e.reaped then w
  else match waitpid w.table e.pid with
    | (.running, table) => { w with table }
    | (_, table) => { w with table, ends := w.ends.set i { e with reaped := true } }

/-- `~ExecEnd` -/
def hangUp (w : Procs) (e : ExecProc) : Procs :=
  if e.reaped then w
  else
    let sent := signalRun w.table w.group w.now .hup e.pid false :: w.sent
    match waitpid w.table e.pid with
    | (.reaped, table) => { w with sent, table }
    | (_, table) =>
        { w with sent, table, orphans := w.orphans ++ [⟨e.pid, w.now + kKillAfterMs, false⟩] }

/-- The loop of `reap_orphans`, with the signals it sends, the latest first. -/
def reap (group : Nat → Nat) (now : Int) : List Orphan → ProcTable → List SignalSent →
    List Orphan × ProcTable × List SignalSent
  | [], t, sent => ([], t, sent)
  | o :: os, t, sent =>
      match waitpid t o.pid with
      | (.running, t) =>
          let kill := !o.killed && decide (o.killAt ≤ now)
          let sent := if kill then signalRun t group now .kill o.pid false :: sent else sent
          let r := reap group now os t sent
          ({ o with killed := o.killed || kill } :: r.1, r.2)
      | (_, t) => reap group now os t sent

def reapOrphans (w : Procs) : Procs :=
  let r := reap w.group w.now w.orphans w.table w.sent
  { w with orphans := r.1, table := r.2.1, sent := r.2.2 }

/-- A child ends. -/
def exited (w : Procs) (pid : Nat) : Procs :=
  match w.table pid with
  | some (.ours n true) => { w with table := Function.update w.table pid (some (.ours n false)) }
  | _ => w

/-- One turn of the loop of `stop_orphans`: some programs have ended by then. -/
def poll (w : Procs) (p : Int × List Nat) : Procs :=
  (p.2.foldl exited { w with now := max w.now p.1 }).reapOrphans

/-- `waitpid` without a limit. -/
def waitFor (t : ProcTable) (o : Orphan) : ProcTable :=
  match t o.pid with
  | some (.ours _ _) => Function.update t o.pid none
  | _ => t

/-- What is left is killed, and then waited for. -/
def killLeft (w : Procs) : Procs :=
  let sent := w.orphans.foldl
    (fun sent o => signalRun w.table w.group w.now .kill o.pid true :: sent) w.sent
  { w with sent, table := w.orphans.foldl waitFor w.table, orphans := [] }

/-- The daemon exits: `sessions_.clear()` and `stop_orphans`. -/
def stop (w : Procs) (polls : List (Int × List Nat)) : Procs :=
  let w := w.ends.foldl hangUp { w with ends := [] }
  { (polls.foldl poll w).killLeft with stopped := true }

/-- The daemon's program behind a process: the process itself. -/
def program : Option Proc → Option Nat
  | some (.ours n _) => some n
  | some (.begun _) | some .foreign | none => none

/-- The daemon's program that is a process or has started it. -/
def origin : Proc → Option Nat
  | .ours n _ | .begun n => some n
  | .foreign => none

/-- A new process gets a number that no process and no process group has. -/
def Free (w : Procs) (pid : Nat) : Prop :=
  pid < w.limit ∧ w.table pid = none ∧ pid ≠ w.own ∧
    ∀ p < w.limit, w.group p = pid → w.table p = none

instance (w : Procs) (pid : Nat) : Decidable (w.Free pid) :=
  inferInstanceAs (Decidable (_ ∧ _ ∧ _ ∧ _))

/-- The groups a process can be in: its own, and those of its session. Nobody else is in the
session of a program's, and the daemon's group is in a session of somebody else's. -/
def MayJoin (w : Procs) (who : Option Nat) (pid g : Nat) : Prop :=
  g = pid ∨ (who = none ∧ g = w.own) ∨
    ∃ p < w.limit, w.group p = g ∧ (w.table p).map origin = some who

instance (w : Procs) (who : Option Nat) (pid g : Nat) : Decidable (w.MayJoin who pid g) :=
  inferInstanceAs (Decidable (_ ∨ _ ∨ _))

inductive Act
  /-- an `ExecEnd` starts its program -/
  | start (pid : Nat)
  /-- a child gets as far as its `setsid` -/
  | setsid (pid : Nat)
  | finish (i : Nat)
  | hangUp (i : Nat)
  | tick
  | stop (polls : List (Int × List Nat))
  /-- a child ends -/
  | exited (pid : Nat)
  /-- a program, or what it has started, starts a process -/
  | begins (parent pid : Nat)
  /-- somebody else's process comes -/
  | foreign (pid g : Nat)
  /-- a process that is not the daemon's child goes into another group -/
  | moves (pid g : Nat)
  /-- a process that is not the daemon's child is gone -/
  | gone (pid : Nat)

def act (w : Procs) : Act → Option Procs
  | .start pid =>
      if w.Free pid then
        some { w with
          table := Function.update w.table pid (some (.ours w.started true))
          group := Function.update w.group pid w.own
          ends := w.ends ++ [⟨pid, false⟩]
          started := w.started + 1 }
      else none
  | .setsid pid =>
      match w.table pid with
      | some (.ours _ true) => some { w with group := Function.update w.group pid pid }
      | _ => none
  | .finish i => w.ends[i]?.map (w.finish i)
  | .hangUp i => w.ends[i]?.map fun e => { w with ends := w.ends.eraseIdx i }.hangUp e
  | .tick => some w.reapOrphans
  | .stop polls => some (w.stop polls)
  | .exited pid => some (w.exited pid)
  | .begins parent pid =>
      match w.table parent with
      | some (.ours n true) | some (.begun n) =>
          -- a child starts nothing before it has a session of its own
          if w.Free pid ∧ w.group parent ≠ w.own then
            some { w with
              table := Function.update w.table pid (some (.begun n))
              group := Function.update w.group pid (w.group parent) }
          else none
      | _ => none
  | .foreign pid g =>
      if w.Free pid ∧ w.MayJoin none pid g then
        some { w with
          table := Function.update w.table pid (some .foreign)
          group := Function.update w.group pid g }
      else none
  | .moves pid g =>
      match w.table pid with
      | none | some (.ours _ _) => none
      | some x =>
          if w.MayJoin (origin x) pid g then
            some { w with group := Function.update w.group pid g }
          else none
  | .gone pid =>
      match w.table pid with
      | none | some (.ours _ _) => none
      | some _ => some { w with table := Function.update w.table pid none }

def step (w : Procs) : Int × Act → Option Procs
  | (t, a) => if t < w.now || w.stopped then none else { w with now := t }.act a

/-! ## Whose processes these are -/

/-- The numbers of the daemon's children, each once. -/
structure Owns (pids : List Nat) (t : ProcTable) : Prop where
  nodup : pids.Nodup
  ours : ∀ p, p ∈ pids ↔ (program (t p)).isSome

namespace Owns
variable {pids pids' : List Nat} {t : ProcTable} {pid : Nat}

theorem perm (h : Owns pids t) (same : pids.Perm pids') : Owns pids' t :=
  ⟨same.nodup_iff.mp h.nodup, fun p => same.mem_iff.symm.trans (h.ours p)⟩

theorem start (h : Owns pids t) (free : t pid = none) (n : Nat) :
    Owns (pid :: pids) (Function.update t pid (some (.ours n true))) := by
  have fresh : pid ∉ pids := fun mem => by
    have owned := (h.ours pid).mp mem
    rw [free] at owned
    cases owned
  refine ⟨List.nodup_cons.mpr ⟨fresh, h.nodup⟩, fun p => ?_⟩
  by_cases here : p = pid
  · simp [here, program]
  · simp [here, h.ours p]

theorem reap (h : Owns (pid :: pids) t) : Owns pids (Function.update t pid none) := by
  obtain ⟨fresh, nodup⟩ := List.nodup_cons.mp h.nodup
  refine ⟨nodup, fun p => ?_⟩
  by_cases here : p = pid
  · simp [here, fresh, program]
  · have owned := h.ours p
    simp only [List.mem_cons, here, false_or] at owned
    rw [owned, Function.update_of_ne here]

theorem set (h : Owns pids t) {proc : Option Proc}
    (same : (program proc).isSome = (program (t pid)).isSome) :
    Owns pids (Function.update t pid proc) := by
  refine ⟨h.nodup, fun p => ?_⟩
  by_cases here : p = pid
  · subst here
    rw [Function.update_self, same]
    exact h.ours p
  · rw [Function.update_of_ne here]
    exact h.ours p

end Owns

/-- In the group under a program's number are only the program and what it has started, and that
is not the group the daemon is in. -/
structure Grouped (own limit : Nat) (group : Nat → Nat) (t : ProcTable) : Prop where
  small : ∀ p x, t p = some x → p < limit
  apart : ∀ p n, program (t p) = some n → p ≠ own
  kin : ∀ p n, program (t p) = some n → ∀ q x, group q = p → t q = some x → origin x = some n

namespace Grouped
variable {own limit : Nat} {group : Nat → Nat} {t : ProcTable} {pid : Nat}

theorem origin_of_program {x : Proc} {n : Nat} (h : program (some x) = some n) :
    origin x = some n := by
  cases x with
  | ours => exact h
  | begun | «foreign» => cases h

/-- A process ends, or is waited for. -/
theorem alter (h : Grouped own limit group t) {proc : Option Proc}
    (same : ∀ x, proc = some x →
      ∃ y, t pid = some y ∧ program (some x) = program (some y) ∧ origin x = origin y) :
    Grouped own limit group (Function.update t pid proc) := by
  have before : ∀ p x, Function.update t pid proc p = some x →
      ∃ y, t p = some y ∧ program (some x) = program (some y) ∧ origin x = origin y := by
    intro p x found
    by_cases here : p = pid
    · subst here
      rw [Function.update_self] at found
      exact same x found
    · rw [Function.update_of_ne here] at found
      exact ⟨x, found, rfl, rfl⟩
  have ours : ∀ p n, program (Function.update t pid proc p) = some n → program (t p) = some n := by
    intro p n owned
    cases found : Function.update t pid proc p with
    | none =>
        rw [found] at owned
        cases owned
    | some x =>
        obtain ⟨y, old, prog, -⟩ := before p x found
        rw [found, prog] at owned
        rw [old, owned]
  refine ⟨fun p x found => ?_, fun p n owned => h.apart p n (ours p n owned),
    fun p n owned q x at_ found => ?_⟩
  · obtain ⟨y, old, -⟩ := before p x found
    exact h.small p y old
  · obtain ⟨y, old, -, kin⟩ := before q x found
    exact kin.trans (h.kin p n (ours p n owned) q y at_ old)

theorem wait (h : Grouped own limit group t) (pid : Nat) :
    Grouped own limit group (Function.update t pid none) :=
  h.alter nofun

/-- A process that is not the daemon's child is in a group. -/
theorem place (h : Grouped own limit group t) {g : Nat} {x : Proc} (small : pid < limit)
    (other : program (some x) = none)
    (fits : ∀ n, g ≠ pid → program (t g) = some n → origin x = some n) :
    Grouped own limit (Function.update group pid g) (Function.update t pid (some x)) := by
  have ours : ∀ p n, program (Function.update t pid (some x) p) = some n →
      p ≠ pid ∧ program (t p) = some n := by
    intro p n owned
    by_cases here : p = pid
    · subst here
      rw [Function.update_self, other] at owned
      cases owned
    · rw [Function.update_of_ne here] at owned
      exact ⟨here, owned⟩
  refine ⟨fun p y found => ?_, fun p n owned => h.apart p n (ours p n owned).2,
    fun p n held q y at_ found => ?_⟩
  · by_cases here : p = pid
    · exact here ▸ small
    · rw [Function.update_of_ne here] at found
      exact h.small p y found
  · obtain ⟨there, owned⟩ := ours p n held
    by_cases here : q = pid
    · subst here
      rw [Function.update_self] at at_ found
      subst at_
      cases found
      exact fits n there owned
    · rw [Function.update_of_ne here] at at_ found
      exact h.kin p n owned q y at_ found

/-- A new child is in the daemon's group. -/
theorem start (h : Grouped own limit group t) (small : pid < limit) (differ : pid ≠ own)
    (empty : ∀ p < limit, group p = pid → t p = none) (n : Nat) :
    Grouped own limit (Function.update group pid own)
      (Function.update t pid (some (.ours n true))) := by
  refine ⟨fun p x found => ?_, fun p m owned => ?_, fun p m owned q x at_ found => ?_⟩
  · by_cases here : p = pid
    · exact here ▸ small
    · rw [Function.update_of_ne here] at found
      exact h.small p x found
  · by_cases here : p = pid
    · exact here ▸ differ
    · rw [Function.update_of_ne here] at owned
      exact h.apart p m owned
  · by_cases here : q = pid
    · subst here
      rw [Function.update_self] at at_ found
      subst at_
      rw [Function.update_of_ne differ.symm] at owned
      exact absurd rfl (h.apart _ m owned)
    · rw [Function.update_of_ne here] at at_ found
      by_cases there : p = pid
      · subst there
        rw [empty q (h.small q x found) at_] at found
        cases found
      · rw [Function.update_of_ne there] at owned
        exact h.kin p m owned q x at_ found

/-- From its `setsid` on a child is in the group under its own number. -/
theorem setsid (h : Grouped own limit group t) {n : Nat} {running : Bool}
    (child : t pid = some (.ours n running)) :
    Grouped own limit (Function.update group pid pid) t := by
  refine ⟨h.small, h.apart, fun p m owned q x at_ found => ?_⟩
  by_cases here : q = pid
  · subst here
    rw [Function.update_self] at at_
    subst at_
    rw [found] at owned
    exact origin_of_program owned
  · rw [Function.update_of_ne here] at at_
    exact h.kin p m owned q x at_ found

end Grouped

/-- A signal to a program of the daemon's, and to what it has started. -/
def Inside (s : SignalSent) : Prop :=
  ∃ n, program s.target = some n ∧ ∀ p x, s.members p = some x → origin x = some n

theorem Grouped.inside {own limit : Nat} {group : Nat → Nat} {t : ProcTable} {pid : Nat}
    (h : Grouped own limit group t) (ours : (program (t pid)).isSome) (time : Int)
    (sig : ProcSignal) (last : Bool) : Inside (signalRun t group time sig pid last) := by
  obtain ⟨n, owned⟩ := Option.isSome_iff_exists.mp ours
  refine ⟨n, owned, fun p x got => ?_⟩
  obtain ⟨at_, found⟩ := Option.ite_none_right_eq_some.mp got
  exact h.kin pid n owned p x at_ found

theorem program_other {x : Proc} (h : ∀ n running, x ≠ .ours n running) :
    program (some x) = none := by
  cases x with
  | ours n running => exact absurd rfl (h n running)
  | begun | «foreign» => rfl

/-- `waitpid` of one of the daemon's children. -/
theorem waitpid_ours {t : ProcTable} {pid : Nat} (ours : (program (t pid)).isSome) :
    waitpid t pid = (.running, t) ∨ waitpid t pid = (.reaped, Function.update t pid none) := by
  rw [waitpid]
  cases found : t pid with
  | none =>
      rw [found] at ours
      cases ours
  | some proc =>
      cases proc with
      | begun | «foreign» =>
          rw [found] at ours
          cases ours
      | ours n running =>
          cases running with
          | true => exact .inl rfl
          | false => exact .inr rfl

/-- A child that has been hung up, and killed if it is marked so. -/
structure Hung (sent : List SignalSent) (t : ProcTable) (o : Orphan) : Prop where
  hup : ∃ h ∈ sent, h.sig = .hup ∧ program h.target = program (t o.pid) ∧
    h.time + kKillAfterMs = o.killAt
  kill : o.killed = true → ∃ s ∈ sent, s.sig = .kill ∧ program s.target = program (t o.pid)

/-- Signals reach the daemon's own programs and what these have started, and one is killed only
after it was hung up: some seconds after, unless the daemon exits. -/
def Proper (sent : List SignalSent) : Prop :=
  ∀ s ∈ sent, Inside s ∧ (s.sig = .kill →
    ∃ h ∈ sent, h.sig = .hup ∧ program h.target = program s.target ∧
      (s.last = true ∨ h.time + kKillAfterMs ≤ s.time))

theorem Proper.cons {sent : List SignalSent} (h : Proper sent) {s : SignalSent} (inside : Inside s)
    (kill : s.sig = .kill → ∃ h ∈ sent, h.sig = .hup ∧ program h.target = program s.target ∧
      (s.last = true ∨ h.time + kKillAfterMs ≤ s.time)) : Proper (s :: sent) := by
  intro s' hs
  cases List.mem_cons.mp hs with
  | inl here =>
      subst here
      refine ⟨inside, fun killed => ?_⟩
      obtain ⟨hup, sent_, rest⟩ := kill killed
      exact ⟨hup, List.mem_cons_of_mem _ sent_, rest⟩
  | inr before =>
      obtain ⟨owned, killed⟩ := h s' before
      refine ⟨owned, fun kill => ?_⟩
      obtain ⟨hup, sent_, rest⟩ := killed kill
      exact ⟨hup, List.mem_cons_of_mem _ sent_, rest⟩

theorem Proper.kill {sent : List SignalSent} (h : Proper sent) {t : ProcTable}
    {group : Nat → Nat} {o : Orphan} (hung : Hung sent t o) {time : Int} {last : Bool}
    (inside : Inside (signalRun t group time .kill o.pid last))
    (due : last = true ∨ o.killAt ≤ time) :
    Proper (signalRun t group time .kill o.pid last :: sent) := by
  refine h.cons inside fun _ => ?_
  obtain ⟨hup, sent_, sig, same, at_⟩ := hung.hup
  exact ⟨hup, sent_, sig, same, at_ ▸ due⟩

theorem Hung.mono {sent sent' : List SignalSent} {t t' : ProcTable} {o : Orphan}
    (h : Hung sent t o) (more : sent ⊆ sent') (same : program (t' o.pid) = program (t o.pid)) :
    Hung sent' t' o := by
  obtain ⟨hup, sent_, sig, target, at_⟩ := h.hup
  refine ⟨⟨hup, more sent_, sig, target.trans same.symm, at_⟩, fun killed => ?_⟩
  obtain ⟨s, hs, sig, target⟩ := h.kill killed
  exact ⟨s, more hs, sig, target.trans same.symm⟩

theorem Hung.apart {sent : List SignalSent} {t : ProcTable} {o : Orphan} (h : Hung sent t o)
    {pid : Nat} (apart : o.pid ≠ pid) (proc : Option Proc) :
    Hung sent (Function.update t pid proc) o :=
  h.mono (List.Subset.refl _) (congrArg program (Function.update_of_ne apart ..))

section Pass
variable {own limit : Nat} {group : Nat → Nat}

/-- What one pass over the orphans leaves, next to children that are not among them. -/
structure Reaped (own limit : Nat) (group : Nat → Nat) (now : Int) (others : List Nat)
    (t : ProcTable) (sent : List SignalSent) (r : List Orphan × ProcTable × List SignalSent) :
    Prop where
  owns : Owns (others ++ r.1.map (·.pid)) r.2.1
  grouped : Grouped own limit group r.2.1
  others : ∀ p ∈ others, r.2.1 p = t p
  proper : Proper r.2.2
  more : sent ⊆ r.2.2
  hung : ∀ o ∈ r.1, Hung r.2.2 r.2.1 o
  killed : ∀ o ∈ r.1, o.killAt ≤ now → o.killed = true

theorem reap_reaped {now : Int} {os : List Orphan} {others : List Nat} {t : ProcTable}
    {sent : List SignalSent} (owns : Owns (others ++ os.map (·.pid)) t)
    (grouped : Grouped own limit group t) (proper : Proper sent)
    (hung : ∀ o ∈ os, Hung sent t o) :
    Reaped own limit group now others t sent (reap group now os t sent) := by
  induction os generalizing others t sent with
  | nil => exact ⟨owns, grouped, fun _ _ => rfl, proper, List.Subset.refl _, nofun, nofun⟩
  | cons o os ih =>
      have ours : (program (t o.pid)).isSome := (owns.ours o.pid).mp (by simp)
      obtain ⟨here, rest⟩ := List.forall_mem_cons.mp hung
      rw [reap]
      cases waitpid_ours ours with
      | inl running =>
          rw [running]
          simp only
          generalize hsent : (if (!o.killed && decide (o.killAt ≤ now)) = true then
            signalRun t group now .kill o.pid false :: sent else sent) = sent'
          have more : sent ⊆ sent' := by
            rw [← hsent]
            split
            · exact List.subset_cons_self ..
            · exact List.Subset.refl _
          have proper' : Proper sent' := by
            rw [← hsent]
            split
            · rename_i due
              simp only [Bool.and_eq_true, decide_eq_true_eq] at due
              exact proper.kill here (grouped.inside ours now .kill false) (.inr due.2)
            · exact proper
          have owns' : Owns ((others ++ [o.pid]) ++ os.map (·.pid)) t := by
            rw [List.append_assoc]
            exact owns
          have r := ih owns' grouped proper' fun o' ho' => (rest o' ho').mono more rfl
          have same : (reap group now os t sent').2.1 o.pid = t o.pid := r.others o.pid (by simp)
          refine ⟨?_, r.grouped, fun p hp => r.others p (by simp [hp]), r.proper,
            fun _ hs => r.more (more hs), ?_, ?_⟩
          · have owned := r.owns
            rw [List.append_assoc] at owned
            exact owned
          · refine List.forall_mem_cons.mpr ⟨?_, r.hung⟩
            have kept := here.mono (fun _ hs => r.more (more hs)) (congrArg program same)
            refine ⟨kept.hup, fun killed => ?_⟩
            simp only [Bool.or_eq_true] at killed
            cases killed with
            | inl before => exact kept.kill before
            | inr now_ =>
                have killed : signalRun t group now .kill o.pid false ∈ sent' := by
                  rw [← hsent, if_pos now_]
                  exact List.mem_cons_self
                exact ⟨_, r.more killed, rfl, congrArg program same.symm⟩
          · refine List.forall_mem_cons.mpr ⟨fun due => ?_, r.killed⟩
            simp only at due
            simp [due]
      | inr reaped =>
          rw [reaped]
          simp only
          have moved : (others ++ o.pid :: os.map (·.pid)).Perm
              (o.pid :: (others ++ os.map (·.pid))) := List.perm_middle
          have owned := owns.perm moved
          have fresh := (List.nodup_cons.mp owned.nodup).1
          have apart : ∀ p ∈ others ++ os.map (·.pid), p ≠ o.pid := fun p hp eq => fresh (eq ▸ hp)
          have r := ih owned.reap (grouped.wait o.pid) proper fun o' ho' => (rest o' ho').apart
            (apart _ (List.mem_append_right _ (List.mem_map_of_mem ho'))) none
          refine ⟨r.owns, r.grouped, fun p hp => ?_, r.proper, r.more, r.hung, r.killed⟩
          rw [r.others p hp, Function.update_of_ne (apart p (by simp [hp]))]

end Pass

/-! ## What every step keeps -/

/-- The programs of connections that the daemon has still to wait for. -/
def live (ends : List ExecProc) : List Nat :=
  (ends.filter (!·.reaped)).map (·.pid)

theorem live_cons (e : ExecProc) (es : List ExecProc) :
    live (e :: es) = if e.reaped then live es else e.pid :: live es := by
  cases h : e.reaped <;> simp [live, h]

theorem live_perm {es es' : List ExecProc} (same : es.Perm es') : (live es).Perm (live es') :=
  (same.filter _).map _

/-- Every child is accounted for: it has a connection, or it was hung up. -/
structure Accounted (w : Procs) : Prop where
  owns : Owns (live w.ends ++ w.orphans.map (·.pid)) w.table
  grouped : Grouped w.own w.limit w.group w.table
  proper : Proper w.sent
  hung : ∀ o ∈ w.orphans, Hung w.sent w.table o

variable {w : Procs}

theorem Accounted.perm (h : w.Accounted) {es : List ExecProc} (same : w.ends.Perm es) :
    Accounted { w with ends := es } :=
  ⟨h.owns.perm ((live_perm same).append_right _), h.grouped, h.proper, h.hung⟩

/-- A step of a process that is no child, or the end of one. -/
theorem Accounted.table (h : w.Accounted) {pid : Nat} {proc : Option Proc} {group : Nat → Nat}
    (same : program proc = program (w.table pid))
    (grouped : Grouped w.own w.limit group (Function.update w.table pid proc)) :
    Accounted { w with table := Function.update w.table pid proc, group } := by
  refine ⟨h.owns.set (congrArg _ same), grouped, h.proper, fun o ho => ?_⟩
  by_cases here : o.pid = pid
  · subst here
    refine (h.hung o ho).mono (List.Subset.refl _) ?_
    exact (congrArg program (Function.update_self o.pid proc w.table)).trans same
  · exact (h.hung o ho).apart here proc

/-- A program waited for. -/
theorem Accounted.reaped {e : ExecProc} {es : List ExecProc}
    (h : Accounted { w with ends := e :: es }) (waits : e.reaped = false) :
    Accounted { w with ends := es, table := Function.update w.table e.pid none } := by
  have owns := h.owns
  simp only [live_cons, waits, Bool.false_eq_true, if_false, List.cons_append] at owns
  refine ⟨owns.reap, h.grouped.wait e.pid, h.proper, fun o ho =>
    (h.hung o ho).apart (fun eq => ?_) none⟩
  refine (List.nodup_cons.mp owns.nodup).1 (eq ▸ ?_)
  exact List.mem_append_right _ (List.mem_map_of_mem ho)

theorem Accounted.start (h : w.Accounted) {pid : Nat} (free : w.Free pid) :
    Accounted { w with
      table := Function.update w.table pid (some (.ours w.started true))
      group := Function.update w.group pid w.own
      ends := w.ends ++ [⟨pid, false⟩]
      started := w.started + 1 } := by
  obtain ⟨small, unused, differ, empty⟩ := free
  refine ⟨?_, h.grouped.start small differ empty w.started, h.proper, fun o ho =>
    (h.hung o ho).apart (fun eq => ?_) _⟩
  · refine (h.owns.start unused w.started).perm ?_
    have moved : (live (w.ends ++ [⟨pid, false⟩])).Perm (pid :: live w.ends) := by
      have same := live_perm (List.perm_append_singleton (⟨pid, false⟩ : ExecProc) w.ends)
      rw [live_cons] at same
      exact same
    exact (moved.append_right _).symm
  · have ours := (h.owns.ours o.pid).mp (List.mem_append_right _ (List.mem_map_of_mem ho))
    rw [eq, unused] at ours
    cases ours

theorem Accounted.finish (h : w.Accounted) {i : Nat} {e : ExecProc} (at_ : w.ends[i]? = some e) :
    (w.finish i e).Accounted := by
  obtain ⟨bound, rfl⟩ := List.getElem?_eq_some_iff.mp at_
  rw [Procs.finish]
  cases waits : w.ends[i].reaped with
  | true => exact h
  | false =>
      have first := h.perm (List.getElem_cons_eraseIdx_perm bound).symm
      have ours : (program (w.table w.ends[i].pid)).isSome := by
        refine (first.owns.ours _).mp ?_
        simp [live_cons, waits]
      rw [if_neg Bool.false_ne_true]
      cases waitpid_ours ours with
      | inl running =>
          rw [running]
          exact h
      | inr reaped =>
          rw [reaped]
          have rest := first.reaped waits
          have same : (w.ends.set i { w.ends[i] with reaped := true }).Perm
              ({ w.ends[i] with reaped := true } :: w.ends.eraseIdx i) :=
            List.set_perm_cons_eraseIdx bound _
          refine ⟨rest.owns.perm ?_, rest.grouped, rest.proper, rest.hung⟩
          have gone := live_perm same
          rw [live_cons] at gone
          exact (gone.append_right _).symm

theorem Accounted.hangUp {e : ExecProc} {es : List ExecProc}
    (h : Accounted { w with ends := e :: es }) : Accounted { w.hangUp e with ends := es } := by
  rw [Procs.hangUp]
  cases waits : e.reaped with
  | true =>
      have owns := h.owns
      simp only [live_cons, waits, if_true] at owns
      exact ⟨owns, h.grouped, h.proper, h.hung⟩
  | false =>
      rw [if_neg Bool.false_ne_true]
      have ours : (program (w.table e.pid)).isSome := by
        refine (h.owns.ours _).mp ?_
        simp [live_cons, waits]
      have proper := h.proper.cons (h.grouped.inside ours w.now .hup false) nofun
      have hung : ∀ o ∈ w.orphans,
          Hung (signalRun w.table w.group w.now .hup e.pid false :: w.sent) w.table o :=
        fun o ho => (h.hung o ho).mono (List.subset_cons_self ..) rfl
      cases waitpid_ours ours with
      | inl running =>
          rw [running]
          refine ⟨?_, h.grouped, proper, List.forall_mem_append.mpr ⟨hung, ?_⟩⟩
          · have owns := h.owns
            simp only [live_cons, waits, Bool.false_eq_true, if_false, List.cons_append] at owns
            refine owns.perm ?_
            simp only [List.map_append, List.map_cons, List.map_nil, ← List.append_assoc]
            exact (List.perm_append_singleton _ _).symm
          · refine List.forall_mem_singleton.mpr ?_
            exact ⟨⟨_, List.mem_cons_self, rfl, rfl, rfl⟩, nofun⟩
      | inr reaped =>
          rw [reaped]
          have rest := h.reaped waits
          refine ⟨rest.owns, rest.grouped, proper, fun o ho => ?_⟩
          exact (rest.hung o ho).mono (List.subset_cons_self ..) rfl

theorem Accounted.reapOrphans (h : w.Accounted) : w.reapOrphans.Accounted ∧
    ∀ o ∈ w.reapOrphans.orphans, o.killAt ≤ w.now → o.killed = true := by
  have r : Reaped w.own w.limit w.group w.now _ _ _ _ :=
    reap_reaped h.owns h.grouped h.proper h.hung
  exact ⟨⟨r.owns, r.grouped, r.proper, r.hung⟩, r.killed⟩

theorem Accounted.exited (h : w.Accounted) (pid : Nat) : (w.exited pid).Accounted := by
  rw [Procs.exited]
  split
  · rename_i n found
    refine h.table (by rw [found]; rfl) (h.grouped.alter fun x same => ?_)
    cases same
    exact ⟨_, found, rfl, rfl⟩
  · exact h

theorem Accounted.poll (h : w.Accounted) (p : Int × List Nat) : (w.poll p).Accounted := by
  have late : Accounted { w with now := max w.now p.1 } :=
    ⟨h.owns, h.grouped, h.proper, h.hung⟩
  exact (foldl_invariant (fun _ pid kept _ => kept.exited pid) late).reapOrphans.1

theorem hangUp_ends (w : Procs) (e : ExecProc) (es : List ExecProc) :
    { w with ends := es }.hangUp e = { w.hangUp e with ends := es } := by
  simp only [hangUp]
  split
  · rfl
  · split <;> rfl

theorem hangUps_ends (w : Procs) (es : List ExecProc) :
    es.foldl hangUp { w with ends := [] } = { es.foldl hangUp w with ends := [] } := by
  induction es generalizing w with
  | nil => rfl
  | cons e es ih => rw [List.foldl_cons, List.foldl_cons, hangUp_ends, ih]

theorem Accounted.hangUps {es : List ExecProc} (h : Accounted { w with ends := es }) :
    Accounted { es.foldl Procs.hangUp w with ends := [] } := by
  induction es generalizing w with
  | nil => exact h
  | cons e es ih => exact ih h.hangUp

theorem poll_ends (w : Procs) (p : Int × List Nat) : (w.poll p).ends = w.ends := by
  refine foldl_invariant (I := fun w' : Procs => w'.ends = w.ends) (fun w' pid same _ => ?_) rfl
  simp only [exited]
  split <;> exact same

theorem polls_ends (w : Procs) (polls : List (Int × List Nat)) :
    (polls.foldl poll w).ends = w.ends := by
  refine foldl_invariant (I := fun w' : Procs => w'.ends = w.ends) (fun w' p same _ => ?_) rfl
  exact (poll_ends w' p).trans same

theorem Proper.killAll {own limit : Nat} {group : Nat → Nat} {now : Int} {os : List Orphan}
    {t : ProcTable} {sent : List SignalSent} (proper : Proper sent)
    (grouped : Grouped own limit group t) (hung : ∀ o ∈ os, Hung sent t o)
    (ours : ∀ o ∈ os, (program (t o.pid)).isSome) :
    Proper (os.foldl (fun sent o => signalRun t group now .kill o.pid true :: sent) sent) := by
  induction os generalizing sent with
  | nil => exact proper
  | cons o os ih =>
      obtain ⟨first, rest⟩ := List.forall_mem_cons.mp hung
      obtain ⟨own, owns⟩ := List.forall_mem_cons.mp ours
      have killed := proper.kill first (grouped.inside own now .kill true) (.inl rfl)
      refine ih killed (fun o ho => ?_) owns
      exact (rest o ho).mono (List.subset_cons_self ..) rfl

theorem Owns.waitAll {own limit : Nat} {group : Nat → Nat} {os : List Orphan} {t : ProcTable}
    (owns : Owns (os.map (·.pid)) t) (grouped : Grouped own limit group t) :
    Owns [] (os.foldl waitFor t) ∧ Grouped own limit group (os.foldl waitFor t) := by
  induction os generalizing t with
  | nil => exact ⟨owns, grouped⟩
  | cons o os ih =>
      have ours : (program (t o.pid)).isSome := (owns.ours o.pid).mp List.mem_cons_self
      rw [List.foldl_cons, waitFor]
      split
      · exact ih owns.reap (grouped.wait o.pid)
      · rename_i other
        cases found : t o.pid with
        | none =>
            rw [found] at ours
            cases ours
        | some proc =>
            cases proc with
            | ours n running => exact absurd found (other n running)
            | begun | «foreign» =>
                rw [found] at ours
                cases ours

theorem Accounted.killLeft (h : w.Accounted) (ended : w.ends = []) : w.killLeft.Accounted ∧
    ∀ p, program (w.killLeft.table p) = none := by
  have owns : Owns (w.orphans.map (·.pid)) w.table := by
    have owns := h.owns
    rw [ended] at owns
    exact owns
  have ours : ∀ o ∈ w.orphans, (program (w.table o.pid)).isSome := fun o ho =>
    (owns.ours o.pid).mp (List.mem_map_of_mem ho)
  obtain ⟨left, grouped⟩ := owns.waitAll h.grouped
  refine ⟨⟨?_, grouped, h.proper.killAll h.grouped h.hung ours, nofun⟩, fun p => ?_⟩
  · rw [Procs.killLeft, ended]
    exact left
  · exact Option.not_isSome_iff_eq_none.mp fun some_ => List.not_mem_nil ((left.ours p).mpr some_)

theorem Accounted.stop (h : w.Accounted) (polls : List (Int × List Nat)) :
    (w.stop polls).Accounted ∧ ∀ p, program ((w.stop polls).table p) = none := by
  have hung : Accounted (w.ends.foldl Procs.hangUp { w with ends := [] }) := by
    rw [hangUps_ends]
    exact Accounted.hangUps h
  have ended : (w.ends.foldl Procs.hangUp { w with ends := [] }).ends = [] := by
    rw [hangUps_ends]
  have polled :
      Accounted (polls.foldl Procs.poll (w.ends.foldl Procs.hangUp { w with ends := [] })) :=
    foldl_invariant (I := Accounted) (fun _ p kept _ => kept.poll p) hung
  have left := polled.killLeft ((polls_ends _ polls).trans ended)
  exact ⟨⟨left.1.owns, left.1.grouped, left.1.proper, left.1.hung⟩, left.2⟩

/-- Who may join a group belongs to those that are in it. -/
theorem MayJoin.fits {x : Proc} {pid g : Nat} (joins : w.MayJoin (origin x) pid g)
    (h : Grouped w.own w.limit w.group w.table) (n : Nat) (differ : g ≠ pid)
    (owned : program (w.table g) = some n) : origin x = some n := by
  obtain here | ⟨-, shared⟩ | ⟨p, -, at_, kin⟩ := joins
  · exact absurd here differ
  · exact absurd shared (h.apart g n owned)
  · obtain ⟨y, found, same⟩ := Option.map_eq_some_iff.mp kin
    exact same ▸ h.kin g n owned p y at_ found

/-- A process that is no child has come, or has gone into another group. -/
theorem Accounted.place (h : w.Accounted) {pid g : Nat} {x : Proc} (small : pid < w.limit)
    (before : program (w.table pid) = none) (other : program (some x) = none)
    (fits : ∀ n, g ≠ pid → program (w.table g) = some n → origin x = some n) :
    Accounted { w with
      table := Function.update w.table pid (some x)
      group := Function.update w.group pid g } :=
  h.table (other.trans before.symm) (h.grouped.place small other fits)

theorem Accounted.begins (h : w.Accounted) {parent pid n : Nat} {x : Proc}
    (found : w.table parent = some x) (kin : origin x = some n) (free : w.Free pid) :
    Accounted { w with
      table := Function.update w.table pid (some (.begun n))
      group := Function.update w.group pid (w.group parent) } := by
  obtain ⟨small, unused, -⟩ := free
  refine h.place small (by rw [unused]; rfl) rfl fun m _ owned => ?_
  exact kin.symm.trans (h.grouped.kin _ m owned parent x rfl found)

/-- Gone is a process that is no child. -/
theorem Accounted.gone (h : w.Accounted) {pid : Nat} (before : program (w.table pid) = none) :
    Accounted { w with table := Function.update w.table pid none } :=
  h.table before.symm (h.grouped.wait pid)

theorem Accounted.moves (h : w.Accounted) {pid g : Nat} {x : Proc} (found : w.table pid = some x)
    (other : program (some x) = none) (joins : w.MayJoin (origin x) pid g) :
    Accounted { w with group := Function.update w.group pid g } := by
  have placed := h.place (h.grouped.small pid x found) (found ▸ other) other
    fun n => joins.fits h.grouped n
  rwa [← found, Function.update_eq_self] at placed

theorem Accounted.act (h : w.Accounted) {a : Act} {w' : Procs} (acted : w.act a = some w') :
    w'.Accounted := by
  cases a with
  | start pid =>
      obtain ⟨free, acted⟩ := Option.ite_none_right_eq_some.mp acted
      cases acted
      exact h.start free
  | setsid pid =>
      simp only [Procs.act] at acted
      split at acted
      · rename_i n child
        cases acted
        exact ⟨h.owns, h.grouped.setsid child, h.proper, h.hung⟩
      · cases acted
  | finish i =>
      obtain ⟨e, at_, rfl⟩ := Option.map_eq_some_iff.mp acted
      exact h.finish at_
  | hangUp i =>
      obtain ⟨e, at_, rfl⟩ := Option.map_eq_some_iff.mp acted
      obtain ⟨bound, rfl⟩ := List.getElem?_eq_some_iff.mp at_
      rw [hangUp_ends]
      exact (h.perm (List.getElem_cons_eraseIdx_perm bound).symm).hangUp
  | tick =>
      cases acted
      exact h.reapOrphans.1
  | stop polls =>
      cases acted
      exact (h.stop polls).1
  | exited pid =>
      cases acted
      exact h.exited pid
  | begins parent pid =>
      simp only [Procs.act] at acted
      split at acted
      · rename_i found
        obtain ⟨⟨free, -⟩, acted⟩ := Option.ite_none_right_eq_some.mp acted
        cases acted
        exact h.begins found rfl free
      · rename_i found
        obtain ⟨⟨free, -⟩, acted⟩ := Option.ite_none_right_eq_some.mp acted
        cases acted
        exact h.begins found rfl free
      · cases acted
  | «foreign» pid g =>
      obtain ⟨⟨⟨small, unused, -⟩, joins⟩, acted⟩ := Option.ite_none_right_eq_some.mp acted
      cases acted
      exact h.place (x := .foreign) small (by rw [unused]; rfl) rfl fun n =>
        MayJoin.fits (x := .foreign) joins h.grouped n
  | moves pid g =>
      simp only [Procs.act] at acted
      split at acted
      · cases acted
      · cases acted
      · rename_i x other found
        obtain ⟨joins, acted⟩ := Option.ite_none_right_eq_some.mp acted
        cases acted
        exact h.moves found (program_other fun n r => other n r) joins
  | gone pid =>
      simp only [Procs.act] at acted
      split at acted
      · cases acted
      · cases acted
      · rename_i x other found
        cases acted
        exact h.gone (found ▸ program_other fun n r => other n r)

theorem Accounted.step (h : w.Accounted) {a : Int × Act} {w' : Procs}
    (stepped : w.step a = some w') : w'.Accounted := by
  obtain ⟨t, a⟩ := a
  obtain ⟨-, acted⟩ := Option.ite_none_left_eq_some.mp stepped
  exact Accounted.act (w := { w with now := t }) ⟨h.owns, h.grouped, h.proper, h.hung⟩ acted

theorem accounted {now₀ : Int} {own limit : Nat}
    (run : Reach step anyStep { now := now₀, own, limit } w) : w.Accounted := by
  refine run.invariant (P := Accounted) ?_ fun s a s' h _ stepped => h.step stepped
  exact ⟨⟨List.nodup_nil, fun p => by simp [live, program]⟩, ⟨nofun, nofun, nofun⟩, nofun, nofun⟩

/-- In every run, whoever else's processes come and go, and whatever numbers are given out
again: a signal reaches a program of the daemon's that has not been waited for, and besides only
what that program has started; a program is killed only after it was hung up, five seconds later
or as the daemon exits, and no program is forgotten: it still has its connection, or has been hung
up and is waited for. A tick kills those that linger, and none is left when the daemon has
exited. -/
theorem programs_end {now₀ : Int} {own limit : Nat} {w : Procs}
    (run : Reach step anyStep { now := now₀, own, limit } w) :
    (∀ s ∈ w.sent, (∃ n, program s.target = some n ∧
        ∀ p x, s.members p = some x → origin x = some n) ∧ (s.sig = .kill →
      ∃ h ∈ w.sent, h.sig = .hup ∧ program h.target = program s.target ∧
        (s.last = true ∨ h.time + kKillAfterMs ≤ s.time))) ∧
    (∀ p, (program (w.table p)).isSome →
      (∃ e ∈ w.ends, e.reaped = false ∧ e.pid = p) ∨ ∃ o ∈ w.orphans, o.pid = p ∧
        ∃ h ∈ w.sent, h.sig = .hup ∧ program h.target = program (w.table p)) ∧
    (∀ t w', step w (t, .tick) = some w' → ∀ o ∈ w'.orphans, o.killAt ≤ t →
      ∃ s ∈ w'.sent, s.sig = .kill ∧ program s.target = program (w'.table o.pid)) ∧
    ∀ t polls w', step w (t, .stop polls) = some w' → ∀ p, program (w'.table p) = none := by
  have h := accounted run
  refine ⟨h.proper, fun p ours => ?_, fun t w' stepped o ho due => ?_, fun t polls w' stepped => ?_⟩
  · have held := (h.owns.ours p).mpr ours
    cases List.mem_append.mp held with
    | inl live =>
        obtain ⟨e, he, rfl⟩ := List.mem_map.mp live
        obtain ⟨he, waits⟩ := List.mem_filter.mp he
        exact .inl ⟨e, he, by simpa using waits, rfl⟩
    | inr orphan =>
        obtain ⟨o, ho, rfl⟩ := List.mem_map.mp orphan
        obtain ⟨hup, sent, sig, target, -⟩ := (h.hung o ho).hup
        exact .inr ⟨o, ho, rfl, hup, sent, sig, target⟩
  · obtain ⟨-, acted⟩ := Option.ite_none_left_eq_some.mp stepped
    cases acted
    have late : Accounted { w with now := t } := ⟨h.owns, h.grouped, h.proper, h.hung⟩
    exact (late.reapOrphans.1.hung o ho).kill (late.reapOrphans.2 o ho due)
  · obtain ⟨-, acted⟩ := Option.ite_none_left_eq_some.mp stepped
    cases acted
    exact (Accounted.stop (w := { w with now := t }) ⟨h.owns, h.grouped, h.proper, h.hung⟩ polls).2

/-- Two programs whose connections end first. One ends when it is hung up, and its number goes to
somebody else only when what it had started is gone too; the other lingers, is killed by a tick
together with what it has started, and is waited for as the daemon exits. -/
theorem programs_end_lingering : ∃ w : Procs, w.sent.map (·.sig) = [.kill, .hup, .hup] ∧
    w.sent.map (fun s => (List.range 16).filter fun p => (s.members p).isSome) =
      [[8, 9], [8, 9], [7, 10]] ∧
    ∀ t polls w', step w (t, .stop polls) = some w' → ∀ p, program (w'.table p) = none := by
  obtain ⟨w, run, seen⟩ := Reach.observed step { now := 0, own := 1, limit := 16 }
    [(0, .start 7), (0, .setsid 7), (1, .start 8), (1, .setsid 8), (2, .begins 8 9),
      (3, .begins 7 10), (10, .hangUp 0), (20, .exited 7), (30, .tick), (35, .gone 10),
      (40, .foreign 7 1), (50, .hangUp 0), (5000, .tick), (5050, .tick)]
    (fun w => (w.sent.map (·.sig), w.sent.map
      (fun s => (List.range 16).filter fun p => (s.members p).isSome)))
    (o := ([.kill, .hup, .hup], [[8, 9], [8, 9], [7, 10]])) (by decide)
  obtain ⟨sigs, reached⟩ := Prod.mk.inj seen
  exact ⟨w, sigs, reached, (programs_end run).2.2.2⟩

end Procs
end Splice.Peer
