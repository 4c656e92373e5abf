import Splice.Peer.ExecInput

/-!
What the program's side owes the connection. Bytes that arrive are reported through `consumed`
when they are written to the program, when they are no input of its, or when its input is
dropped; until then they are an incomplete frame or wait in `inbuf`. While nothing waits, what
is not yet reported is less than the longest frame, and that is less than the window.
-/

namespace Splice.Peer
open Lib

/-- bytes in flight before a sender waits -/
def tcpWnd : Nat := 256 * 1024

/-- What `start` comes to: a program, or what it says instead of one and the code it ends with. -/
inductive StartResult
  | spawned (dup : Bool)
  | refused (text : Bytes) (code : UInt8)

/-- What reaches the program's side. -/
inductive ExecEvent
  | data (b : Bytes) (veof : UInt8) (ws : List WriteResult)
  | writable (ws : List WriteResult) (w : WaitResult)
  | readable (isErr : Bool) (r : ReadResult) (w : WaitResult)
  | tick (w : WaitResult)

def ExecEvent.received : ExecEvent → Nat
  | .data b _ _ => b.length
  | .writable _ _ | .readable _ _ _ | .tick _ => 0

namespace ExecEnd

def start (pty : Bool) : StartResult → ExecEnd × List Frame
  | .spawned dup => ({ pty, input := !pty || dup, err := !pty }, [])
  | .refused text code =>
      let r := finish { pty, input := false, out := false, err := false } kExited code
      (r.1, ⟨kErr, text⟩ :: r.2)

/-- What one event leads to, with the frames that are sent. -/
def on (h : ExecEnd) : ExecEvent → Option (ExecEnd × List Frame)
  | .data b veof ws => (h.onTunnelData veof ws b).map fun r => (r.1, [])
  | .writable ws w => (h.onWritable ws w).map fun r => (r.1, r.2.2)
  | .readable isErr r w => h.onReadable isErr r w
  | .tick w => some (h.maybeFinish w)

end ExecEnd

/-- An end, what it has received and what it has sent. -/
structure ExecLedger where
  host : ExecEnd
  received : Nat := 0
  sent : List Frame

namespace ExecLedger

def begin (pty : Bool) (r : StartResult) : ExecLedger :=
  { host := (ExecEnd.start pty r).1, sent := (ExecEnd.start pty r).2 }

def step (t : ExecLedger) (e : ExecEvent) : Option ExecLedger :=
  (t.host.on e).map fun r =>
    { host := r.1, received := t.received + e.received, sent := t.sent ++ r.2 }

end ExecLedger

/-- The account of `n` bytes that came in complete frames. -/
structure Credited (h : ExecEnd) (n : Nat) : Prop where
  balance : n + h.synthetic = h.consumed + h.inbuf.length
  held : h.synthetic ≤ h.inbuf.length
  one : h.synthetic ≤ 1
  typed : h.eof = false → h.synthetic = 0
  dropped : h.input = false → h.inbuf = []

namespace Credited
variable {h h' : ExecEnd} {n : Nat} {b : Bytes} {ws : List WriteResult}

/-- `n` bytes were written to the program. -/
theorem wrote (c : Credited h n) {k : Nat} (hk : k ≤ h.inbuf.length) :
    Credited { h.account k with inbuf := h.inbuf.drop k } n := by
  obtain ⟨balance, held, one, typed, dropped⟩ := c
  refine ⟨?_, ?_, ?_, fun eof => ?_, fun input => ?_⟩
  · simp only [ExecEnd.account, List.length_drop]
    omega
  · simp only [ExecEnd.account, List.length_drop]
    omega
  · simp only [ExecEnd.account]
    omega
  · simp only [ExecEnd.account, typed eof]
    rfl
  · exact (congrArg (List.drop k) (dropped input)).trans List.drop_nil

/-- Dropped input is reported like input that was written. -/
theorem drop (c : Credited h n) : Credited h.dropInput n := by
  have wrote := c.wrote (Nat.le_refl h.inbuf.length)
  rw [List.drop_length] at wrote
  exact ⟨wrote.balance, wrote.held, wrote.one, wrote.typed, fun _ => rfl⟩

/-- What the account does not depend on is different. -/
theorem like (c : Credited h n) (consumed : h'.consumed = h.consumed) (inbuf : h'.inbuf = h.inbuf)
    (synthetic : h'.synthetic = h.synthetic) (eof : h'.eof = false → h.eof = false)
    (input : h'.input = false → h.inbuf = []) : Credited h' n := by
  refine ⟨?_, ?_, ?_, fun he => ?_, fun hi => ?_⟩
  · rw [synthetic, consumed, inbuf]
    exact c.balance
  · rw [synthetic, inbuf]
    exact c.held
  · exact synthetic ▸ c.one
  · exact synthetic.trans (c.typed (eof he))
  · exact inbuf.trans (input hi)

theorem closeAtEof (c : Credited h n) : Credited h.closeAtEof n := by
  unfold ExecEnd.closeAtEof
  split
  · rename_i ends
    simp only [Bool.and_eq_true, List.isEmpty_iff] at ends
    exact c.like rfl rfl rfl id fun _ => ends.1.1.2
  · exact c

theorem flush (c : Credited h n) (hf : ExecEnd.flushInput ws h = some (h', b)) :
    Credited h' n := by
  induction ws generalizing h b with
  | nil =>
      simp only [ExecEnd.flushInput] at hf
      split at hf
      · cases hf
      · cases hf
        exact c.closeAtEof
  | cons w ws ih =>
      simp only [ExecEnd.flushInput] at hf
      split at hf
      swap
      · cases hf
      cases w with
      | some k =>
          simp only at hf
          split at hf
          · rename_i fits
            obtain ⟨⟨h₁, b₁⟩, hp, hq⟩ := Option.map_eq_some_iff.mp hf
            cases hq
            exact ih (c.wrote fits.2) hp
          · cases hf
      | interrupted | full =>
          simp only at hf
          split at hf
          · cases hf
            exact c
          · cases hf
      | failed =>
          simp only at hf
          split at hf
          · cases hf
            exact c.drop
          · cases hf

/-- A frame is reported at once but for what the program has yet to read. -/
theorem frame (c : Credited h n) (veof : UInt8) (f : Frame) :
    Credited (h.onFrame veof f) (n + (3 + f.payload.length)) := by
  obtain ⟨balance, held, one, typed, dropped⟩ := c
  simp only [ExecEnd.onFrame]
  split
  · rename_i data
    refine ⟨?_, ?_, one, typed, fun hi => ?_⟩
    · simp only [List.length_append]
      omega
    · simp only [List.length_append]
      omega
    · rw [data.2.1] at hi
      cases hi
  · have reported : Credited { h with consumed := h.consumed + (3 + f.payload.length) }
        (n + (3 + f.payload.length)) := ⟨by simp only; omega, held, one, typed, dropped⟩
    split
    · exact reported.like rfl rfl rfl id dropped
    · split
      · rename_i ends
        split
        · rename_i keystroke
          simp only [Bool.and_eq_true] at keystroke
          have none := typed ends.2
          refine ⟨?_, ?_, ?_, (fun he => by cases he), fun hi => ?_⟩
          · simp only [List.length_append, List.length_singleton]
            omega
          · simp only [List.length_append, List.length_singleton]
            omega
          · simp only
            omega
          · rw [keystroke.2] at hi
            cases hi
        · exact reported.like rfl rfl rfl (fun he => by cases he) dropped
      · exact reported

theorem frames (c : Credited h n) (veof : UInt8) (fs : List Frame) :
    Credited (fs.foldl (ExecEnd.onFrame veof) h)
      (n + (fs.map fun f => 3 + f.payload.length).sum) := by
  induction fs generalizing h n with
  | nil => exact c
  | cons f fs ih =>
      rw [List.map_cons, List.sum_cons, ← Nat.add_assoc]
      exact ih (c.frame veof f)

theorem finish (c : Credited h n) (w : WaitResult) : Credited (h.maybeFinish w).1 n := by
  unfold ExecEnd.maybeFinish
  split
  · exact c
  · cases w with
    | running => exact c
    | unknown => exact c.like rfl rfl rfl id c.dropped
    | exited code | signaled sig => exact c.drop.like rfl rfl rfl id fun _ => rfl

theorem outputEnded (c : Credited h n) (isErr : Bool) : Credited (h.outputEnded isErr) n := by
  have unread : ∀ {h' : ExecEnd}, Credited h' n →
      Credited (if h'.pty then h'.dropInput else h') n := by
    intro h' c'
    split
    · exact c'.drop
    · exact c'
  cases isErr with
  | true => exact unread (c.like rfl rfl rfl id c.dropped)
  | false => exact unread (c.like rfl rfl rfl id c.dropped)

end Credited

namespace ExecLedger
variable {t t' : ExecLedger} {e : ExecEvent}

/-- What holds between events: `n` of the bytes received came in complete frames, and the rest
is less than a frame. -/
structure Balanced (t : ExecLedger) : Prop where
  credited : ∃ n, t.received = n + t.host.ibuf.length ∧ Credited t.host n
  short : Frame.take t.host.ibuf = none
  exited : (∃ f ∈ t.sent, f.type = kExit) → t.host.input = false

/-- The account of an end, and what a sender can count on. -/
structure Conserved (t : ExecLedger) : Prop where
  received : t.received =
    t.host.consumed + t.host.ibuf.length + t.host.inbuf.length - t.host.synthetic
  held : t.host.synthetic ≤ t.host.inbuf.length
  one : t.host.synthetic ≤ 1
  dropped : t.host.input = false → t.host.inbuf = []
  finished : (∃ f ∈ t.sent, f.type = kExit) → t.host.inbuf = []
  unreported : t.host.inbuf = [] →
    t.received < t.host.consumed + (3 + 65535) ∧ 3 + 65535 < tcpWnd
  /-- the frame that has begun can be sent to its end -/
  room : t.host.inbuf = [] → ∀ f : Frame, f.Sound → t.host.ibuf <+: f.encode →
    t.received + (f.encode.length - t.host.ibuf.length) < t.host.consumed + tcpWnd

theorem Balanced.conserved (k : t.Balanced) : t.Conserved := by
  obtain ⟨⟨n, received, credited⟩, short, exited⟩ := k
  obtain ⟨balance, held, one, -, dropped⟩ := credited
  have short := Frame.length_of_take short
  refine ⟨by omega, held, one, dropped, fun ended => dropped (exited ended), fun empty => ?_,
    fun empty f sound begun => ?_⟩
  · rw [empty, List.length_nil] at balance held
    exact ⟨by omega, by decide⟩
  · rw [empty, List.length_nil] at balance held
    have := begun.length_le
    rw [Frame.length_encode] at this ⊢
    simp only [Frame.Sound] at sound
    simp only [tcpWnd]
    omega

theorem balanced_begin (pty : Bool) (r : StartResult) : (begin pty r).Balanced := by
  cases r with
  | spawned dup => exact ⟨⟨0, rfl, rfl, Nat.zero_le _, Nat.zero_le _, fun _ => rfl, fun _ => rfl⟩,
      rfl, nofun⟩
  | refused text code =>
      exact ⟨⟨0, rfl, rfl, Nat.zero_le _, Nat.zero_le _, fun _ => rfl, fun _ => rfl⟩, rfl,
        fun _ => rfl⟩

/-- What `on` keeps of an end that has received no more than before. -/
theorem Balanced.quiet (k : t.Balanced) {h : ExecEnd} {fs : List Frame}
    (credited : ∀ n, Credited t.host n → Credited h n) (ibuf : h.ibuf = t.host.ibuf)
    (input : t.host.input = false → h.input = false)
    (exits : (∃ f ∈ fs, f.type = kExit) → h.input = false) :
    Balanced { host := h, received := t.received + 0, sent := t.sent ++ fs } := by
  obtain ⟨⟨n, received, hn⟩, short, exited⟩ := k
  refine ⟨⟨n, ?_, credited n hn⟩, ?_, ?_⟩
  · exact received.trans (congrArg (fun b : Bytes => n + b.length) ibuf.symm)
  · exact (congrArg Frame.take ibuf).trans short
  · rintro ⟨f, hf, ends⟩
    rcases List.mem_append.mp hf with hf | hf
    · exact input (exited ⟨f, hf, ends⟩)
    · exact exits ⟨f, hf, ends⟩

theorem exits_maybeFinish (h : ExecEnd) (w : WaitResult)
    (ends : ∃ f ∈ (h.maybeFinish w).2, f.type = kExit) : (h.maybeFinish w).1.input = false := by
  obtain ⟨f, hf, -⟩ := ends
  unfold ExecEnd.maybeFinish at hf ⊢
  split at hf
  · cases hf
  · rename_i past
    rw [if_neg past]
    cases w with
    | running | unknown => cases hf
    | exited code | signaled sig => rfl

theorem Balanced.finish (k : t.Balanced) {h : ExecEnd} (fs : List Frame) (w : WaitResult)
    (credited : ∀ n, Credited t.host n → Credited h n) (ibuf : h.ibuf = t.host.ibuf)
    (input : t.host.input = false → h.input = false) (plain : ∀ f ∈ fs, f.type ≠ kExit) :
    Balanced { host := (h.maybeFinish w).1, received := t.received + 0,
               sent := t.sent ++ (fs ++ (h.maybeFinish w).2) } := by
  obtain ⟨-, -, opened, -, ibuf'⟩ := Feed.maybeFinish_input h w
  refine k.quiet (fun n hn => (credited n hn).finish w) (ibuf'.trans ibuf) (fun closed => ?_) ?_
  · by_contra still
    rw [(opened (Bool.eq_true_of_not_eq_false still)).1] at input
    cases input closed
  · rintro ⟨f, hf, ends⟩
    rcases List.mem_append.mp hf with hf | hf
    · exact absurd ends (plain f hf)
    · exact exits_maybeFinish h w ⟨f, hf, ends⟩

theorem outputEnded_closes (h : ExecEnd) (isErr : Bool) :
    (h.outputEnded isErr).ibuf = h.ibuf ∧
      (h.input = false → (h.outputEnded isErr).input = false) := by
  have unread : ∀ h' : ExecEnd, (if h'.pty then h'.dropInput else h').ibuf = h'.ibuf ∧
      (h'.input = false → (if h'.pty then h'.dropInput else h').input = false) := by
    intro h'
    split
    · exact ⟨rfl, fun _ => rfl⟩
    · exact ⟨rfl, id⟩
  cases isErr with
  | true => exact unread { h with err := false }
  | false => exact unread { h with out := false }

theorem Balanced.arrive (k : t.Balanced) {b b' : Bytes} {veof : UInt8} {ws : List WriteResult}
    {h : ExecEnd} (hd : t.host.onTunnelData veof ws b = some (h, b')) :
    Balanced { host := h, received := t.received + b.length, sent := t.sent ++ [] } := by
  obtain ⟨⟨n, received, credited⟩, short, exited⟩ := k
  simp only [ExecEnd.onTunnelData] at hd
  have flushed := ExecEnd.flushed_flushInput hd
  have all := Frame.length_drain (t.host.ibuf ++ b)
  rw [List.length_append] at all
  have framed := credited.frames veof (Frame.drain (t.host.ibuf ++ b)).1
  have ready : Credited { (Frame.drain (t.host.ibuf ++ b)).1.foldl (ExecEnd.onFrame veof)
      t.host with ibuf := (Frame.drain (t.host.ibuf ++ b)).2 } _ :=
    framed.like rfl rfl rfl id framed.dropped
  refine ⟨⟨_, ?_, ready.flush hd⟩, ?_, ?_⟩
  · rw [flushed.ibuf]
    simp only
    omega
  · rw [flushed.ibuf]
    exact Frame.take_drain (t.host.ibuf ++ b)
  · rw [List.append_nil]
    intro ends
    by_contra opened
    have input := (flushed.stays (Bool.eq_true_of_not_eq_false opened)).1
    simp only [Feed.input_onFrames, exited ends] at input
    cases input

theorem Balanced.step (k : t.Balanced) (hstep : t.step e = some t') : t'.Balanced := by
  obtain ⟨⟨h, fs⟩, hon, rfl⟩ := Option.map_eq_some_iff.mp hstep
  cases e with
  | data b veof ws =>
      obtain ⟨⟨h₁, b'⟩, hd, hq⟩ := Option.map_eq_some_iff.mp hon
      cases hq
      exact k.arrive hd
  | writable ws w =>
      obtain ⟨⟨h₁, b, gs⟩, hw, hq⟩ := Option.map_eq_some_iff.mp hon
      cases hq
      obtain ⟨⟨h₂, b'⟩, hf, hq⟩ := Option.map_eq_some_iff.mp hw
      cases hq
      have flushed := ExecEnd.flushed_flushInput hf
      refine k.finish [] w (fun n hn => hn.flush hf) flushed.ibuf (fun closed => ?_) nofun
      by_contra opened
      rw [(flushed.stays (Bool.eq_true_of_not_eq_false opened)).1] at closed
      cases closed
  | readable isErr r w =>
      obtain ⟨-, ⟨b, rfl, -, hp⟩ | ⟨rfl, hp⟩ | ⟨rfl, hp⟩⟩ := ExecRun.onReadable_cases hon
      · obtain ⟨rfl, rfl⟩ := Prod.mk.inj hp
        refine k.finish [_] w (fun _ hn => hn) rfl id fun f hf => ?_
        rw [List.mem_singleton.mp hf]
        cases isErr with
        | true => exact (by decide : kErr ≠ kExit)
        | false => exact (by decide : kOut ≠ kExit)
      · obtain ⟨rfl, rfl⟩ := Prod.mk.inj hp
        exact k.finish [] w (fun _ hn => hn) rfl id nofun
      · obtain ⟨rfl, rfl⟩ := Prod.mk.inj hp
        obtain ⟨ibuf, closes⟩ := outputEnded_closes t.host isErr
        exact k.finish [] w (fun n hn => hn.outputEnded isErr) ibuf closes nofun
  | tick w =>
      obtain ⟨rfl, rfl⟩ := Prod.mk.inj (Option.some.inj hon)
      exact k.finish [] w (fun _ hn => hn) rfl id nofun

/-- Whatever arrives, and whatever comes of writing it to the program: every byte received is
reported, in an incomplete frame or waiting for the program. -/
theorem exec_conserves {pty : Bool} {r : StartResult}
    (h : Reach step anyStep (begin pty r) t) : t.Conserved :=
  (h.invariant (balanced_begin pty r) fun _ _ _ k _ => k.step).conserved

/-- On a terminal: input that is not all read yet, its end, and then the program's. -/
theorem exec_conserves_terminal : ∃ t t' : ExecLedger,
    (t.received, t.host.consumed, t.host.inbuf.length, t.host.synthetic) = (9, 7, 3, 1) ∧
    (t'.received, t'.host.consumed, t'.host.inbuf.length, t'.host.synthetic) = (9, 9, 0, 0) ∧
    t.Conserved ∧ t'.Conserved := by
  obtain ⟨t, reached, seen⟩ := Reach.observed step (begin true (.spawned true))
    [.data [0, 0, 3, 104] 4 [], .data [105, 10, 2, 0, 0] 4 [.some 1, .full]]
    (fun t => (t.received, t.host.consumed, t.host.inbuf.length, t.host.synthetic))
    (by decide +kernel : _ = some (9, 7, 3, 1))
  obtain ⟨t', reached', seen'⟩ := Reach.observed step (begin true (.spawned true))
    [.data [0, 0, 3, 104] 4 [], .data [105, 10, 2, 0, 0] 4 [.some 1, .full],
      .readable false .ended (.exited 0)]
    (fun t => (t.received, t.host.consumed, t.host.inbuf.length, t.host.synthetic))
    (by decide +kernel : _ = some (9, 9, 0, 0))
  exact ⟨t, t', seen, seen', exec_conserves reached, exec_conserves reached'⟩

end ExecLedger
end Splice.Peer
