import Splice.Common.Bytes
import Splice.Lib.Run
import Mathlib.Data.List.Induction

/-!
The sending side of a connection over the tunnel: what the application passed on waits in
`pending` until lwIP takes it, and a close waits for that. All that happened is kept in
`trace`, which no code reads. What lwIP answers is the world's.
-/

namespace Splice.Peer.Lwip
open Lib

def tcpMss : Nat := 1200

/-- What the application asked for, what lwIP was told and what the application was told. -/
inductive Entry
  /-- `send` while there is a pcb -/
  | passed (b : Bytes)
  /-- `close` -/
  | asked
  /-- `tcp_write`, with `tcp_sndbuf` and whether lwIP took the bytes -/
  | wrote (b : Bytes) (avail : UInt16) (ok : Bool)
  | output
  /-- `tcp_close`, and whether it worked -/
  | closed (ok : Bool)
  | aborted
  | writable
  | connected
  | failed
  | error
  | ended
  deriving DecidableEq

/-- What lwIP has to say in a `flush`: `tcp_sndbuf` and `tcp_write`, time after time. -/
abbrev Answers := Nat → UInt16 × Bool

structure TcpConn where
  pcb : Bool := true
  pending : Bytes := []
  connected : Bool := false
  wantClose : Bool := false
  /-- which callbacks of the application are set -/
  onWritable : Bool := false
  onError : Bool := false
  onClosed : Bool := false
  failCb : Bool := false
  connectCb : Bool := false
  trace : List Entry := []

namespace TcpConn

def note (c : TcpConn) (e : Entry) : TcpConn := { c with trace := c.trace ++ [e] }

/-- The loop of `flush`, at its `k`-th turn. -/
def writes (answers : Answers) (k : Nat) (c : TcpConn) : TcpConn :=
  if h : c.pending = [] ∨ (answers k).1 = 0 then c
  else
    let n := min (min c.pending.length (answers k).1.toNat) tcpMss
    let c' := c.note (.wrote (c.pending.take n) (answers k).1 (answers k).2)
    if (answers k).2 then writes answers (k + 1) { c' with pending := c.pending.drop n } else c'
termination_by c.pending.length
decreasing_by
  have some := List.length_pos_iff.mpr (not_or.mp h).1
  have room : (answers k).1.toNat ≠ 0 := fun zero => (not_or.mp h).2 (UInt16.toNat_inj.mp zero)
  simp only [List.length_drop, tcpMss]
  omega

def flush (answers : Answers) (c : TcpConn) : TcpConn :=
  if c.pcb then (c.writes answers 0).note .output else c

def send (b : Bytes) (answers : Answers) (c : TcpConn) : TcpConn :=
  if c.pcb then
    flush answers ({ c with pending := c.pending ++ b }.note (.passed b))
  else c

def doClose (ok : Bool) (c : TcpConn) : TcpConn :=
  if c.pcb then
    let c := c.note (.closed ok)
    { if ok then c else c.note .aborted with pcb := false }
  else c

def close (answers : Answers) (c : TcpConn) : TcpConn :=
  flush answers ({ c with wantClose := true }.note .asked)

/-- Done by `check_timeouts`. -/
def pollClose (ok : Bool) (c : TcpConn) : TcpConn :=
  if c.wantClose ∧ c.pending = [] ∧ c.pcb then c.doClose ok else c

def onLwipSent (answers : Answers) (c : TcpConn) : TcpConn :=
  let c := c.flush answers
  if !c.wantClose && c.onWritable then c.note .writable else c

/-- lwIP has freed the pcb. -/
def onLwipErr (c : TcpConn) : TcpConn :=
  let c := { c with pcb := false }
  if !c.connected && c.failCb then c.note .failed
  else if c.onError then c.note .error
  else if c.onClosed then c.note .ended
  else c

def attach (c : TcpConn) : TcpConn := if c.pcb then { c with connected := true } else c

def onLwipConnected (ok : Bool) (c : TcpConn) : TcpConn :=
  if ok then
    let c := c.attach
    if c.connectCb then c.note .connected else c
  else
    let c := { c with pcb := false }
    if c.failCb then c.note .failed else c

/-- The destructor. -/
def destroy (c : TcpConn) : TcpConn :=
  if c.pcb then { c.note .aborted with pcb := false } else c

inductive Event
  | send (b : Bytes) (answers : Answers)
  | close (answers : Answers)
  | pollClose (ok : Bool)
  | sent (answers : Answers)
  | err
  | connected (ok : Bool)
  | callbacks (onWritable onError onClosed failCb connectCb : Bool)
  | destroy

def step (c : TcpConn) : Event → Option TcpConn
  | .send b answers => some (c.send b answers)
  | .close answers => some (c.close answers)
  | .pollClose ok => some (c.pollClose ok)
  | .sent answers => some (c.onLwipSent answers)
  | .err => some c.onLwipErr
  | .connected ok => some (c.onLwipConnected ok)
  | .callbacks onWritable onError onClosed failCb connectCb =>
      some { c with onWritable, onError, onClosed, failCb, connectCb }
  | .destroy => some c.destroy

end TcpConn

/-! ## Traces -/

/-- What lwIP has taken. -/
def accepted (t : List Entry) : Bytes :=
  t.flatMap fun
    | .wrote b _ true => b
    | _ => []

/-- What the application has sent. -/
def passed (t : List Entry) : Bytes :=
  t.flatMap fun
    | .passed b => b
    | _ => []

/-- What is due before an entry. -/
def Due (before : List Entry) : Entry → Prop
  | .wrote b avail _ => (1 ≤ b.length ∧ b.length ≤ min avail.toNat tcpMss) ∧
      accepted before ++ b <+: passed before
  | .closed _ => .asked ∈ before ∧ accepted before = passed before
  | _ => True

def Sound (t : List Entry) : Prop := ∀ pre e post, t = pre ++ e :: post → Due pre e

theorem sound_nil : Sound [] := fun pre e post h => by
  have := congrArg List.length h
  simp at this

theorem Sound.concat {t : List Entry} {e : Entry} (h : Sound t) (due : Due t e) :
    Sound (t ++ [e]) := by
  intro pre e' post split
  rcases List.eq_nil_or_concat post with rfl | ⟨post, last, rfl⟩
  · obtain ⟨rfl, ⟨⟩⟩ := List.append_inj' split rfl
    exact due
  · rw [List.concat_eq_append, ← List.cons_append, ← List.append_assoc] at split
    exact h pre e' post (List.append_inj' split rfl).1

theorem accepted_concat (t : List Entry) (e : Entry) :
    accepted (t ++ [e]) = accepted t ++ accepted [e] := by
  simp [accepted]

theorem passed_concat (t : List Entry) (e : Entry) :
    passed (t ++ [e]) = passed t ++ passed [e] := by
  simp [passed]

/-- At every moment of a sound trace, lwIP has taken the beginning of what was sent. -/
theorem Sound.accepted_prefix {t : List Entry} (h : Sound t) : accepted t <+: passed t := by
  induction t using List.reverseRecOn with
  | nil => exact List.nil_prefix
  | append_singleton t e ih =>
      have before := ih fun pre e' post split =>
        h pre e' (post ++ [e]) (by rw [split, List.append_assoc, List.cons_append])
      have due := h t e [] rfl
      rw [accepted_concat, passed_concat]
      cases e with
      | wrote b avail ok =>
          cases ok with
          | true => simpa [accepted, passed] using due.2
          | false => simpa [accepted, passed] using before
      | _ => exact (by simpa [accepted] using before.trans (List.prefix_append ..))

namespace TcpConn

/-- What lwIP has not taken yet is pending, in order. -/
structure Inv (c : TcpConn) : Prop where
  queued : accepted c.trace ++ c.pending = passed c.trace
  asked : c.wantClose = true → .asked ∈ c.trace
  sound : Sound c.trace

variable {c c' : TcpConn}

/-- An entry that neither takes nor passes bytes. -/
theorem Inv.note (inv : c.Inv) {e : Entry} (due : Due c.trace e) (none : accepted [e] = [])
    (idle : passed [e] = []) : (c.note e).Inv where
  queued := by
    rw [TcpConn.note, accepted_concat, passed_concat, none, idle, List.append_nil, List.append_nil]
    exact inv.queued
  asked want := List.mem_append_left _ (inv.asked want)
  sound := inv.sound.concat due

/-- A write takes some of what is pending, as much as lwIP and a segment have room for. -/
theorem Inv.due (inv : c.Inv) {avail : UInt16} (h : ¬ (c.pending = [] ∨ avail = 0)) (ok : Bool) :
    Due c.trace (.wrote (c.pending.take (min (min c.pending.length avail.toNat) tcpMss)) avail ok) := by
  have some := List.length_pos_iff.mpr (not_or.mp h).1
  have room : avail.toNat ≠ 0 := fun zero => (not_or.mp h).2 (UInt16.toNat_inj.mp zero)
  refine ⟨?_, ?_⟩
  · simp only [List.length_take, tcpMss]
    omega
  · rw [← inv.queued]
    exact (List.prefix_append_right_inj _).mpr (List.take_prefix ..)

theorem Inv.writes (inv : c.Inv) (answers : Answers) (k : Nat) : (c.writes answers k).Inv := by
  fun_induction TcpConn.writes answers k c with
  | case1 k c h => exact inv
  | case2 k c h n c' ok ih =>
      have due := inv.due h true
      refine ih ⟨?_, fun want => List.mem_append_left _ (inv.asked want), ?_⟩
      · simp only [c', TcpConn.note, ok, accepted_concat, passed_concat, ← inv.queued]
        simp [accepted, passed]
      · simp only [c', TcpConn.note, ok]
        exact inv.sound.concat due
  | case3 k c h n c' ok =>
      have refused : (answers k).2 = false := Bool.eq_false_iff.mpr ok
      have due := inv.due h false
      simp only [c', refused]
      exact inv.note due rfl rfl

theorem Inv.flush (inv : c.Inv) (answers : Answers) : (c.flush answers).Inv := by
  rw [TcpConn.flush]
  split
  · exact (inv.writes answers 0).note trivial rfl rfl
  · exact inv

theorem Inv.send (inv : c.Inv) (b : Bytes) (answers : Answers) : (c.send b answers).Inv := by
  rw [TcpConn.send]
  split
  · have taken : Inv ({ c with pending := c.pending ++ b }.note (.passed b)) := by
      refine ⟨?_, fun want => List.mem_append_left _ (inv.asked want), inv.sound.concat trivial⟩
      simp only [TcpConn.note, accepted_concat, passed_concat, ← inv.queued]
      simp [accepted, passed]
    exact taken.flush answers
  · exact inv

theorem Inv.close (inv : c.Inv) (answers : Answers) : (c.close answers).Inv := by
  have wanted : Inv ({ c with wantClose := true }.note .asked) := by
    refine ⟨?_, fun _ => List.mem_append_right _ (List.mem_singleton_self _),
      inv.sound.concat trivial⟩
    simp only [TcpConn.note, accepted_concat, passed_concat, ← inv.queued]
    simp [accepted, passed]
  exact wanted.flush answers

/-- The flags but `want_close_` are not looked at. -/
theorem Inv.congr (inv : c.Inv) (pending : c'.pending = c.pending) (trace : c'.trace = c.trace)
    (want : c'.wantClose = c.wantClose) : c'.Inv :=
  ⟨by rw [trace, pending, inv.queued], by rw [trace, want]; exact inv.asked,
    trace ▸ inv.sound⟩

theorem Inv.pollClose (inv : c.Inv) (ok : Bool) : (c.pollClose ok).Inv := by
  rw [TcpConn.pollClose]
  split
  · rename_i h
    obtain ⟨want, none, live⟩ := h
    have all := inv.queued
    rw [none, List.append_nil] at all
    have closed := inv.note (e := .closed ok) ⟨inv.asked want, all⟩ rfl rfl
    rw [doClose, if_pos live]
    cases ok with
    | true => exact closed.congr rfl rfl rfl
    | false => exact (closed.note (e := .aborted) trivial rfl rfl).congr rfl rfl rfl
  · exact inv

theorem Inv.onLwipSent (inv : c.Inv) (answers : Answers) : (c.onLwipSent answers).Inv := by
  have flushed := inv.flush answers
  rw [TcpConn.onLwipSent]
  split
  · exact flushed.note trivial rfl rfl
  · exact flushed

theorem Inv.onLwipErr (inv : c.Inv) : c.onLwipErr.Inv := by
  have dead : Inv { c with pcb := false } := inv.congr rfl rfl rfl
  simp only [TcpConn.onLwipErr]
  split
  · exact dead.note trivial rfl rfl
  split
  · exact dead.note trivial rfl rfl
  split
  · exact dead.note trivial rfl rfl
  · exact dead

theorem Inv.attach (inv : c.Inv) : c.attach.Inv := by
  rw [TcpConn.attach]
  split
  · exact inv.congr rfl rfl rfl
  · exact inv

theorem Inv.onLwipConnected (inv : c.Inv) (ok : Bool) : (c.onLwipConnected ok).Inv := by
  have up := inv.attach
  have dead : Inv { c with pcb := false } := inv.congr rfl rfl rfl
  simp only [TcpConn.onLwipConnected]
  split <;> split
  · exact up.note trivial rfl rfl
  · exact up
  · exact dead.note trivial rfl rfl
  · exact dead

theorem Inv.destroy (inv : c.Inv) : c.destroy.Inv := by
  rw [TcpConn.destroy]
  split
  · exact (inv.note (e := .aborted) trivial rfl rfl).congr rfl rfl rfl
  · exact inv

theorem Inv.step (inv : c.Inv) {e : Event} (h : c.step e = some c') : c'.Inv := by
  cases e with
  | send b answers => cases h; exact inv.send b answers
  | close answers => cases h; exact inv.close answers
  | pollClose ok => cases h; exact inv.pollClose ok
  | sent answers => cases h; exact inv.onLwipSent answers
  | err => cases h; exact inv.onLwipErr
  | connected ok => cases h; exact inv.onLwipConnected ok
  | callbacks => cases h; exact inv.congr rfl rfl rfl
  | destroy => cases h; exact inv.destroy

theorem inv_of_reach (reached : Reach TcpConn.step anyStep {} c) : c.Inv :=
  reached.invariant ⟨rfl, nofun, sound_nil⟩ fun _ _ _ inv _ stepped => inv.step stepped

/-- At every moment of a run lwIP has taken the beginning of what was sent; it is told to close
after `close` and once it has taken all of it; and no write is empty, beyond the send buffer
or beyond a segment. -/
theorem sent_before_closed (reached : Reach TcpConn.step anyStep {} c) :
    accepted c.trace ++ c.pending = passed c.trace ∧
    (∀ t, t <+: c.trace → accepted t <+: passed t) ∧
    (∀ t ok, t ++ [.closed ok] <+: c.trace → .asked ∈ t ∧ accepted t = passed t) ∧
    ∀ b avail ok, .wrote b avail ok ∈ c.trace →
      1 ≤ b.length ∧ b.length ≤ min avail.toNat tcpMss := by
  obtain ⟨queued, -, sound⟩ := inv_of_reach reached
  refine ⟨queued, ?_, ?_, ?_⟩
  · rintro t ⟨rest, split⟩
    refine Sound.accepted_prefix fun pre e post split' => sound pre e (post ++ rest) ?_
    rw [← split, split', List.append_assoc, List.cons_append]
  · rintro t ok ⟨rest, split⟩
    exact sound t (.closed ok) rest (by rw [← split, List.append_assoc, List.singleton_append])
  · intro b avail ok mem
    obtain ⟨pre, post, split⟩ := List.append_of_mem mem
    exact (sound pre (.wrote b avail ok) post split).1

/-- Five bytes to a send buffer with room for three, and a close. -/
theorem sent_before_closed_hello :
    let answers : Answers := fun k => (if k = 0 then 3 else 0, true)
    let c := ((({} : TcpConn).send (str "hello") answers).close fun _ => (0, true)).pollClose true
    c.trace = [.passed (str "hello"), .wrote (str "hel") 3 true, .output, .asked, .output] ∧
      accepted c.trace ++ c.pending = passed c.trace := by
  refine ⟨?_, (sent_before_closed (.next (.next (.next .start trivial
    (a := .send (str "hello") fun k => (if k = 0 then 3 else 0, true)) rfl) trivial
    (a := .close fun _ => (0, true)) rfl) trivial (a := .pollClose true) rfl)).1⟩
  have hello : str "hello" = [104, 101, 108, 108, 111] := rfl
  have hel : str "hel" = [104, 101, 108] := rfl
  simp [send, close, pollClose, flush, note, writes, hello, hel, tcpMss]

end TcpConn
end Splice.Peer.Lwip
