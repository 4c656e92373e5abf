import Splice.Peer.ExecOutput

/-!
The client's input on its way to the program, and both directions together. What the client
has read was written to the program, is held for it, or is in frames under way, until the
input is closed; and the frame that says it has ended comes after all of it.
-/

namespace Splice.Peer
open Lib

/-- Where the client's input is: written to the program, held for it, or in frames under way. -/
structure Feed (h : ExecEnd) (stdinOpen : Bool) (stdin typed : Bytes) (pending : List Frame) :
    Prop where
  pty : h.pty = false
  ordered : pending.Pairwise fun f g => f.type = kEof → g.type ≠ kData
  opened : stdinOpen = true → h.eof = false ∧ ∀ f ∈ pending, f.type ≠ kEof
  past : h.eof = true → ∀ f ∈ pending, f.type ≠ kData
  held : h.input = true → stdin ++ h.inbuf ++ (payloads kData pending).flatten = typed
  written : stdin <+: typed

namespace Feed
variable {h h' : ExecEnd} {stdinOpen : Bool} {stdin typed b : Bytes} {f : Frame}
  {pending : List Frame} {ws : List WriteResult} {w : WaitResult}

/-- Less is open, and nothing else is different. -/
theorem less (feed : Feed h stdinOpen stdin typed pending) (pty : h'.pty = h.pty)
    (eof : h'.eof = h.eof)
    (input : h'.input = true → h.input = true ∧ h'.inbuf = h.inbuf) :
    Feed h' stdinOpen stdin typed pending := by
  refine ⟨pty.trans feed.pty, feed.ordered, eof ▸ feed.opened, eof ▸ feed.past, fun hi => ?_,
    feed.written⟩
  rw [(input hi).2]
  exact feed.held (input hi).1

theorem frame (feed : Feed h stdinOpen stdin typed (f :: pending)) (veof : UInt8) :
    Feed (h.onFrame veof f) stdinOpen stdin typed pending := by
  obtain ⟨first, ordered⟩ := List.pairwise_cons.mp feed.ordered
  have opened : stdinOpen = true → h.eof = false ∧ ∀ g ∈ pending, g.type ≠ kEof :=
    fun ho => ⟨(feed.opened ho).1, fun g hg => (feed.opened ho).2 g (List.mem_cons_of_mem f hg)⟩
  have past : h.eof = true → ∀ g ∈ pending, g.type ≠ kData :=
    fun he g hg => feed.past he g (List.mem_cons_of_mem f hg)
  have notData : f.type ≠ kData → h.input = true →
      stdin ++ h.inbuf ++ (payloads kData pending).flatten = typed := by
    intro hne hi
    have := feed.held hi
    rwa [payloads_cons, if_neg hne] at this
  simp only [ExecEnd.onFrame]
  split
  · rename_i data
    refine ⟨feed.pty, ordered, opened, past, fun hi => ?_, feed.written⟩
    have := feed.held hi
    rwa [payloads_cons, if_pos data.1, List.flatten_cons, ← List.append_assoc,
      List.append_assoc stdin] at this
  · rename_i other
    have rest : h.input = true → stdin ++ h.inbuf ++ (payloads kData pending).flatten = typed := by
      intro hi
      refine notData (fun data => ?_) hi
      cases he : h.eof with
      | true => exact feed.past he f List.mem_cons_self data
      | false => exact other ⟨data, hi, he⟩
    split
    · exact ⟨feed.pty, ordered, opened, past, rest, feed.written⟩
    · split
      · rename_i ends
        rw [if_neg (by simp [feed.pty])]
        refine ⟨feed.pty, ordered, fun ho => ?_, fun _ g hg => first g hg ends.1, rest,
          feed.written⟩
        exact absurd ends.1 ((feed.opened ho).2 f List.mem_cons_self)
      · exact ⟨feed.pty, ordered, opened, past, rest, feed.written⟩

theorem frames {fs : List Frame} (feed : Feed h stdinOpen stdin typed (fs ++ pending))
    (veof : UInt8) : Feed (fs.foldl (ExecEnd.onFrame veof) h) stdinOpen stdin typed pending := by
  induction fs generalizing h with
  | nil => exact feed
  | cons f fs ih => exact ih (feed.frame veof)

theorem input_onFrames (veof : UInt8) (h : ExecEnd) (fs : List Frame) :
    (fs.foldl (ExecEnd.onFrame veof) h).input = h.input := by
  refine foldl_invariant (I := fun h' : ExecEnd => h'.input = h.input) (fun h' f same _ => ?_) rfl
  refine Eq.trans ?_ same
  simp only [ExecEnd.onFrame]
  split
  · rfl
  · split
    · rfl
    · split
      · split
        · rfl
        · rfl
      · rfl

theorem flush (feed : Feed h stdinOpen stdin typed pending) (flushed : h.Flushed h' ws b) :
    Feed h' stdinOpen (stdin ++ b) typed pending := by
  refine ⟨flushed.like.pty.trans feed.pty, feed.ordered, flushed.eof ▸ feed.opened,
    flushed.eof ▸ feed.past, fun hi => ?_, ?_⟩
  · obtain ⟨input, inbuf⟩ := flushed.stays hi
    have := feed.held input
    rwa [inbuf, ← List.append_assoc stdin] at this
  · cases hi : h.input with
    | false =>
        rw [flushed.idle hi, List.append_nil]
        exact feed.written
    | true =>
        rw [← feed.held hi, List.append_assoc]
        exact (List.prefix_append_right_inj stdin).mpr
          (flushed.taken.trans (List.prefix_append _ _))

/-- The input is closed after the whole of the client's, or a write has failed. -/
theorem closes (feed : Feed h stdinOpen stdin typed pending) (flushed : h.Flushed h' ws b)
    (hi : h.input = true) (hi' : h'.input = false) :
    stdin ++ b = typed ∧ stdinOpen = false ∨ WriteResult.failed ∈ ws := by
  refine (flushed.closes hi hi').imp_left fun ⟨all, eof⟩ => ⟨?_, ?_⟩
  · have := feed.held hi
    rwa [payloads_eq_nil (feed.past eof), List.flatten_nil, List.append_nil, ← all] at this
  · by_contra ho
    rw [(feed.opened (by simpa using ho)).1] at eof
    cases eof

theorem maybeFinish_input (h : ExecEnd) (w : WaitResult) :
    (h.maybeFinish w).1.pty = h.pty ∧ (h.maybeFinish w).1.eof = h.eof ∧
      ((h.maybeFinish w).1.input = true → h.input = true ∧ (h.maybeFinish w).1.inbuf = h.inbuf) ∧
      (h.input = true → (h.maybeFinish w).1.input = false → (h.maybeFinish w).1.reaped = true) ∧
      (h.maybeFinish w).1.ibuf = h.ibuf := by
  simp only [ExecEnd.maybeFinish]
  split
  · refine ⟨rfl, rfl, fun hi => ⟨hi, rfl⟩, fun hi hi' => ?_, rfl⟩
    rw [hi] at hi'
    cases hi'
  · cases w with
    | running =>
        refine ⟨rfl, rfl, fun hi => ⟨hi, rfl⟩, fun hi hi' => ?_, rfl⟩
        rw [hi] at hi'
        cases hi'
    | unknown => exact ⟨rfl, rfl, fun hi => ⟨hi, rfl⟩, fun _ _ => rfl, rfl⟩
    | exited code => exact ⟨rfl, rfl, (fun hi => by cases hi), fun _ _ => rfl, rfl⟩
    | signaled sig => exact ⟨rfl, rfl, (fun hi => by cases hi), fun _ _ => rfl, rfl⟩

theorem maybeFinish (feed : Feed h stdinOpen stdin typed pending) (w : WaitResult) :
    Feed (h.maybeFinish w).1 stdinOpen stdin typed pending := by
  obtain ⟨pty, eof, input, -, -⟩ := maybeFinish_input h w
  exact feed.less pty eof input

theorem outputEnded (feed : Feed h stdinOpen stdin typed pending) (isErr : Bool) :
    Feed (h.outputEnded isErr) stdinOpen stdin typed pending ∧
      (h.outputEnded isErr).input = h.input ∧ (h.outputEnded isErr).ibuf = h.ibuf := by
  have plain : ∀ {h' : ExecEnd}, h'.pty = h.pty → ¬ h'.pty = true :=
    fun e => by simp [e, feed.pty]
  unfold ExecEnd.outputEnded
  cases isErr with
  | true =>
      simp only [if_true]
      rw [if_neg (plain rfl)]
      exact ⟨feed.less rfl rfl fun hi => ⟨hi, rfl⟩, rfl, rfl⟩
  | false =>
      simp only [Bool.false_eq_true, if_false]
      rw [if_neg (plain rfl)]
      exact ⟨feed.less rfl rfl fun hi => ⟨hi, rfl⟩, rfl, rfl⟩

/-- The client reads from its input, and what it sends comes last. -/
theorem read (feed : Feed h stdinOpen stdin typed pending) {winch gs : List Frame}
    {input : Option Bytes} {stdinOpen' : Bool}
    (sizes : ∀ f ∈ winch, f.type = kWinsz)
    (sends : gs = [] ∧ input = none ∧ stdinOpen' = stdinOpen ∨ stdinOpen = true ∧
      (gs = [⟨kEof, []⟩] ∧ input = some [] ∧ stdinOpen' = false ∨
        ∃ b, gs = [⟨kData, b⟩] ∧ input = some b ∧ stdinOpen' = true)) :
    Feed h stdinOpen' stdin (typed ++ input.getD []) (pending ++ (winch ++ gs)) := by
  have sized : ∀ f ∈ winch, f.type ≠ kData ∧ f.type ≠ kEof := by
    intro f hf
    rw [sizes f hf]
    decide
  have none : (payloads kData winch).flatten = [] := by
    rw [payloads_eq_nil fun f hf => (sized f hf).1, List.flatten_nil]
  have apart : winch.Pairwise fun f g => f.type = kEof → g.type ≠ kData :=
    List.pairwise_of_forall_mem_list fun f hf _ _ e => absurd e (sized f hf).2
  rcases sends with ⟨rfl, rfl, rfl⟩ | ⟨rfl, ⟨rfl, rfl, rfl⟩ | ⟨b, rfl, rfl, rfl⟩⟩
  · rw [List.append_nil, Option.getD_none, List.append_nil]
    refine ⟨feed.pty, ?_, fun ho => ?_, fun he f hf => ?_, fun hi => ?_, feed.written⟩
    · exact List.pairwise_append.mpr ⟨feed.ordered, apart, fun f _ g hg _ => (sized g hg).1⟩
    · refine ⟨(feed.opened ho).1, fun f hf => ?_⟩
      rcases List.mem_append.mp hf with hf | hf
      · exact (feed.opened ho).2 f hf
      · exact (sized f hf).2
    · rcases List.mem_append.mp hf with hf | hf
      · exact feed.past he f hf
      · exact (sized f hf).1
    · rw [payloads_append, List.flatten_append, none, List.append_nil]
      exact feed.held hi
  · obtain ⟨eof, unended⟩ := feed.opened rfl
    rw [Option.getD_some, List.append_nil]
    refine ⟨feed.pty, ?_, nofun, fun he => ?_, fun hi => ?_, feed.written⟩
    · refine List.pairwise_append.mpr ⟨feed.ordered, List.pairwise_append.mpr
        ⟨apart, List.pairwise_singleton _ _, fun f hf _ _ e => absurd e (sized f hf).2⟩,
        fun f hf _ _ e => absurd e (unended f hf)⟩
    · rw [eof] at he
      cases he
    · rw [payloads_append, payloads_append, List.flatten_append, List.flatten_append, none]
      simp only [payloads_cons, show kEof ≠ kData by decide, if_false, payloads_nil,
        List.flatten_nil, List.append_nil]
      exact feed.held hi
  · obtain ⟨eof, unended⟩ := feed.opened rfl
    rw [Option.getD_some]
    refine ⟨feed.pty, ?_, fun _ => ⟨eof, fun f hf => ?_⟩, fun he => ?_, fun hi => ?_,
      feed.written.trans (List.prefix_append _ _)⟩
    · refine List.pairwise_append.mpr ⟨feed.ordered, List.pairwise_append.mpr
        ⟨apart, List.pairwise_singleton _ _, fun f hf _ _ e => absurd e (sized f hf).2⟩,
        fun f hf _ _ e => absurd e (unended f hf)⟩
    · rcases List.mem_append.mp hf with hf | hf
      · exact unended f hf
      · rcases List.mem_append.mp hf with hf | hf
        · exact (sized f hf).2
        · rw [List.mem_singleton.mp hf]
          exact (by decide : kData ≠ kEof)
    · rw [eof] at he
      cases he
    · rw [payloads_append, payloads_append, List.flatten_append, List.flatten_append, none]
      simp only [payloads_cons, if_true, payloads_nil, List.flatten_cons, List.flatten_nil,
        List.append_nil, List.nil_append]
      rw [← List.append_assoc, feed.held hi]

end Feed
namespace ExecClient
variable {c c' : ExecClient} {r : ExecRound} {net : Option Bytes} {fs : List Frame}

theorem receive_stdinOpen {o e : List WriteResult} {b : Bytes} (hr : c.receive o e b = some c') :
    c'.stdinOpen = c.stdinOpen := by
  obtain ⟨p, hp, hr⟩ := Option.bind_eq_some_iff.mp hr
  split at hr
  · cases hr
    exact (onFrames_like hp).stdinOpen
  · cases hr

/-- What one turn of the client sends. -/
theorem round_sends (hr : c.round r net = some (c', fs)) :
    ∃ gs, fs = c.winchFrames r.winch ++ gs ∧ (∀ g ∈ gs, g.Sound) ∧
      (gs = [] ∧ r.stdin = none ∧ c'.stdinOpen = c.stdinOpen ∨ c.stdinOpen = true ∧
        (gs = [⟨kEof, []⟩] ∧ r.stdin = some [] ∧ c'.stdinOpen = false ∨
          ∃ b, gs = [⟨kData, b⟩] ∧ r.stdin = some b ∧ c'.stdinOpen = true)) := by
  have input : ∀ {c₁ : ExecClient} {gs : List Frame}, c₁.stdinOpen = c.stdinOpen →
      c₁.onStdin r.stdin = some (c', gs) → (∀ g ∈ gs, g.Sound) ∧
      (gs = [] ∧ r.stdin = none ∧ c'.stdinOpen = c.stdinOpen ∨ c.stdinOpen = true ∧
        (gs = [⟨kEof, []⟩] ∧ r.stdin = some [] ∧ c'.stdinOpen = false ∨
          ∃ b, gs = [⟨kData, b⟩] ∧ r.stdin = some b ∧ c'.stdinOpen = true)) := by
    intro c₁ gs same hs
    cases hb : r.stdin with
    | none =>
        rw [hb] at hs
        cases hs
        exact ⟨nofun, .inl ⟨rfl, rfl, same⟩⟩
    | some b =>
        rw [hb] at hs
        simp only [onStdin] at hs
        split at hs
        · rename_i fits
          simp only [Bool.and_eq_true, decide_eq_true_eq] at fits
          split at hs
          · rename_i ended
            subst ended
            cases hs
            refine ⟨fun g hg => ?_, .inr ⟨same ▸ fits.1, .inl ⟨rfl, rfl, rfl⟩⟩⟩
            rw [List.mem_singleton.mp hg]
            exact (by decide : (0 : Nat) < 65536)
          · cases hs
            refine ⟨fun g hg => ?_, .inr ⟨same ▸ fits.1, .inr ⟨b, rfl, rfl, fits.1⟩⟩⟩
            rw [List.mem_singleton.mp hg]
            exact Nat.lt_of_le_of_lt fits.2 (by decide)
        · cases hs
  simp only [round] at hr
  split at hr
  · cases hr
  · split at hr
    · split at hr
      · rename_i hstdin
        cases hr
        exact ⟨[], (List.append_nil _).symm, nofun, .inl ⟨rfl, hstdin, rfl⟩⟩
      · cases hr
    · obtain ⟨c₁, hc₁, hr⟩ := Option.bind_eq_some_iff.mp hr
      obtain ⟨⟨c₂, gs⟩, hs, hq⟩ := Option.map_eq_some_iff.mp hr
      cases hq
      exact ⟨gs, rfl, input (receive_stdinOpen hc₁) hs⟩
    · obtain ⟨⟨c₂, gs⟩, hs, hq⟩ := Option.map_eq_some_iff.mp hr
      cases hq
      exact ⟨gs, rfl, input rfl hs⟩

/-- Whatever the frames are, the writes they lead to can all come off. -/
theorem onFrames_enabled (c : ExecClient) (fs : List Frame) :
    ∃ o e, NoneFails o ∧ NoneFails e ∧ ∃ c', c.onFrames o e fs = some (c', [], []) := by
  have write : ∀ b : Bytes, ∃ ws, NoneFails ws ∧
      ∀ ws', writeFull (ws ++ ws') b = some (b, true, ws') := by
    intro b
    cases b with
    | nil => exact ⟨[], ⟨nofun, nofun⟩, fun ws' => by simp [writeFull]⟩
    | cons x b =>
        refine ⟨[.some (x :: b).length], ⟨by simp, by simp⟩, fun ws' => ?_⟩
        simp [writeFull]
  have none : NoneFails [] := ⟨nofun, nofun⟩
  have one : ∀ (c : ExecClient) (f : Frame), ∃ o e, NoneFails o ∧ NoneFails e ∧
      ∃ c', ∀ o' e', c.onFrame (o ++ o') (e ++ e') f = some (c', o', e') := by
    intro c f
    obtain ⟨ws, hws, write⟩ := write f.payload
    by_cases isErr : f.type = kErr
    · refine ⟨[], ws, none, hws, { c with err := c.err ++ f.payload }, fun o' e' => ?_⟩
      simp only [onFrame, if_pos isErr, write, Option.map_some, List.nil_append]
    · by_cases isOut : f.type = kOut
      · refine ⟨ws, [], hws, none, { c with out := c.out ++ f.payload }, fun o' e' => ?_⟩
        simp only [onFrame, if_neg isErr, if_pos isOut, write, Option.map_some, if_true,
          List.nil_append]
      · obtain ⟨c', hc'⟩ : ∃ c', ∀ o' e', c.onFrame o' e' f = some (c', o', e') := by
          simp only [onFrame, if_neg isErr, if_neg isOut]
          split
          · split
            · exact ⟨_, fun _ _ => rfl⟩
            · exact ⟨_, fun _ _ => rfl⟩
          · exact ⟨_, fun _ _ => rfl⟩
        exact ⟨[], [], none, none, c', hc'⟩
  induction fs generalizing c with
  | nil => exact ⟨[], [], none, none, c, rfl⟩
  | cons f fs ih =>
      obtain ⟨o, e, ho, he, c₁, first⟩ := one c f
      cases status : c₁.status with
      | some n =>
          refine ⟨o, e, ho, he, c₁, ?_⟩
          have := first [] []
          rw [List.append_nil, List.append_nil] at this
          simp [onFrames, this, status]
      | none =>
          obtain ⟨o', e', ho', he', c', rest⟩ := ih c₁
          refine ⟨o ++ o', e ++ e', ⟨?_, ?_⟩, ⟨?_, ?_⟩, c', ?_⟩
          · exact fun hm => (List.mem_append.mp hm).elim ho.1 ho'.1
          · exact fun hm => (List.mem_append.mp hm).elim ho.2 ho'.2
          · exact fun hm => (List.mem_append.mp hm).elim he.1 he'.1
          · exact fun hm => (List.mem_append.mp hm).elim he.2 he'.2
          · simp [onFrames, first, status, rest]

theorem winchFrames_spec (c : ExecClient) (winch : Option (Nat × Nat)) :
    ∀ f ∈ c.winchFrames winch, f.type = kWinsz ∧ f.Sound := by
  intro f hf
  simp only [winchFrames] at hf
  split at hf
  · split at hf
    · rw [List.mem_singleton.mp hf]
      exact ⟨rfl, by simp [Frame.Sound]⟩
    · cases hf
  · cases hf

end ExecClient

namespace ExecRun
open ExecClient (Outputs exitFrames statusOf)

/-- The stream of input, at some point of a run without a terminal. -/
structure Up (t : ExecRun) (pending : List Frame) : Prop where
  sound : ∀ f ∈ pending, f.Sound
  stream : t.host.ibuf ++ t.toHost = Frame.encodeAll pending
  feed : Feed t.host t.client.stdinOpen t.stdin t.typed pending

/-- The program reads no more: a write to it fails. -/
def Deaf : ExecAction → Prop
  | .writable ws _ | .arrive _ _ ws => WriteResult.failed ∈ ws
  | .readable _ _ _ | .tick _ | .round _ => False

variable {t t' : ExecRun} {pending : List Frame}

theorem up_begin (dup term : Bool) : (begin false dup term).Up [] :=
  ⟨nofun, rfl, rfl, .nil, fun _ => ⟨rfl, nofun⟩, nofun, fun _ => rfl, List.prefix_rfl⟩

/-- The program's side looks for the end after `h`, which is open as it was. -/
theorem Up.finish (up : t.Up pending) {h : ExecEnd} (w : WaitResult)
    (feed : Feed h t.client.stdinOpen t.stdin t.typed pending) (input : h.input = t.host.input)
    (ibuf : h.ibuf = t.host.ibuf) (host : t'.host = (h.maybeFinish w).1)
    (client : t'.client = t.client) (toHost : t'.toHost = t.toHost) (stdin : t'.stdin = t.stdin)
    (typed : t'.typed = t.typed) {P Q : Prop} : (∃ pending', t'.Up pending') ∧
      (t.host.input = true → t'.host.input = false → P ∨ Q ∨ t'.host.reaped = true) := by
  obtain ⟨-, -, -, closes, ibuf'⟩ := Feed.maybeFinish_input h w
  refine ⟨⟨pending, up.sound, ?_, ?_⟩, fun hi hi' => .inr (.inr ?_)⟩
  · rw [host, ibuf', ibuf, toHost]
    exact up.stream
  · rw [host, client, stdin, typed]
    exact feed.maybeFinish w
  · rw [host] at hi' ⊢
    exact closes (input.trans hi) hi'

theorem Up.step (up : t.Up pending) {a : ExecAction} (hstep : t.step a = some t') :
    (∃ pending', t'.Up pending') ∧ (t.host.input = true → t'.host.input = false →
      t'.stdin = t'.typed ∧ t'.client.stdinOpen = false ∨ Deaf a ∨ t'.host.reaped = true) := by
  cases a with
  | writable ws w =>
      obtain ⟨p, hr, rfl⟩ := Option.map_eq_some_iff.mp hstep
      obtain ⟨⟨h₁, b⟩, hf, rfl⟩ := Option.map_eq_some_iff.mp hr
      have flushed := ExecEnd.flushed_flushInput hf
      obtain ⟨-, -, -, closes, ibuf⟩ := Feed.maybeFinish_input h₁ w
      refine ⟨⟨pending, up.sound, ?_, (up.feed.flush flushed).maybeFinish w⟩, fun hi hi' => ?_⟩
      · exact (congrArg (· ++ t.toHost) (ibuf.trans flushed.ibuf)).trans up.stream
      · cases h₁i : h₁.input with
        | true => exact .inr (.inr (closes h₁i hi'))
        | false => exact (up.feed.closes flushed hi h₁i).imp_right .inl
  | readable isErr r w =>
      obtain ⟨p, hr, rfl⟩ := Option.map_eq_some_iff.mp hstep
      obtain ⟨-, ⟨b, rfl, -, rfl⟩ | ⟨rfl, rfl⟩ | ⟨rfl, rfl⟩⟩ := onReadable_cases hr
      · refine up.finish w up.feed ?_ ?_ ?_ ?_ ?_ ?_ ?_ <;> rfl
      · refine up.finish w up.feed ?_ ?_ ?_ ?_ ?_ ?_ ?_ <;> rfl
      · obtain ⟨feed, input, ibuf⟩ := up.feed.outputEnded isErr
        refine up.finish w feed input ibuf ?_ ?_ ?_ ?_ ?_ <;> rfl
  | tick w =>
      cases hstep
      refine up.finish w up.feed ?_ ?_ ?_ ?_ ?_ ?_ ?_ <;> rfl
  | arrive n veof ws =>
      simp only [ExecRun.step] at hstep
      split at hstep
      · obtain ⟨⟨h', b⟩, hr, rfl⟩ := Option.map_eq_some_iff.mp hstep
        simp only [ExecEnd.onTunnelData] at hr
        have flushed := ExecEnd.flushed_flushInput hr
        have stream := up.stream
        rw [← List.take_append_drop n t.toHost, ← List.append_assoc] at stream
        obtain ⟨pending', rfl, stream'⟩ := Frame.drain_prefix up.sound stream
        have fed : Feed { (Frame.drain (t.host.ibuf ++ t.toHost.take n)).1.foldl
            (ExecEnd.onFrame veof) t.host with
              ibuf := (Frame.drain (t.host.ibuf ++ t.toHost.take n)).2 } _ _ _ _ :=
          (up.feed.frames veof).less rfl rfl fun hi => ⟨hi, rfl⟩
        refine ⟨⟨pending', fun f hf => up.sound f (List.mem_append_right _ hf), ?_,
          fed.flush flushed⟩, fun hi hi' => ?_⟩
        · exact (congrArg (· ++ t.toHost.drop n) flushed.ibuf).trans stream'
        · have input := Feed.input_onFrames veof t.host (Frame.drain (t.host.ibuf ++
            t.toHost.take n)).1
          exact (fed.closes flushed (input.trans hi) hi').imp_right .inl
      · cases hstep
  | round r =>
      obtain ⟨net, hnet, hstep⟩ := Option.bind_eq_some_iff.mp hstep
      obtain ⟨⟨c', fs⟩, hr, rfl⟩ := Option.map_eq_some_iff.mp hstep
      obtain ⟨gs, rfl, sound, sends⟩ := ExecClient.round_sends hr
      have winch := ExecClient.winchFrames_spec t.client r.winch
      refine ⟨⟨pending ++ (t.client.winchFrames r.winch ++ gs), fun f hf => ?_, ?_,
        up.feed.read (fun f hf => (winch f hf).1) sends⟩, fun hi hi' => ?_⟩
      · rcases List.mem_append.mp hf with hf | hf
        · exact up.sound f hf
        · rcases List.mem_append.mp hf with hf | hf
          · exact (winch f hf).2
          · exact sound f hf
      · change t.host.ibuf ++ (t.toHost ++ Frame.encodeAll _) = _
        rw [← List.append_assoc, up.stream]
        simp only [Frame.encodeAll_append]
      · rw [hi] at hi'
        cases hi'

theorem up_run {dup term : Bool} (hr : Reach step anyStep (begin false dup term) t) :
    ∃ pending, t.Up pending := by
  induction hr with
  | start => exact ⟨[], up_begin dup term⟩
  | next _ _ hstep ih =>
      obtain ⟨pending, up⟩ := ih
      exact (up.step hstep).1

/-- What the client has of the program's output and its end. -/
structure OutputFaithful (strict : Bool) (t : ExecRun) : Prop where
  out : t.client.out <+: t.stdout.flatten
  err : ∃ shown, shown <+: t.stderr ∧ Taken strict t.client.err shown
  returned : ∀ n, t.client.status = some n → t.client.out = t.stdout.flatten ∧
    Taken strict t.client.err t.stderr ∧ ∃ e, t.exit = some e ∧ n = statusOf e
  /-- when it has read all there is it has returned -/
  returns : t.exit ≠ none → t.toClient = [] → t.client.status ≠ none
  /-- and until then it can read on -/
  reads : t.exit ≠ none → t.client.status = none → ∃ r t', Writable true t (.round r) ∧
    t.step (.round r) = some t' ∧ t'.toClient.length < t.toClient.length

/-- What the program has of the client's input and its end. -/
structure InputFaithful (t : ExecRun) : Prop where
  written : t.stdin <+: t.typed
  /-- the end of input is known, and nothing is missing -/
  held : t.host.input = true → t.host.eof = true → t.stdin ++ t.host.inbuf = t.typed
  closes : ∀ a t', t.step a = some t' → t.host.input = true → t'.host.input = false →
    t'.stdin = t'.typed ∧ t'.client.stdinOpen = false ∨ Deaf a ∨ t'.host.reaped = true

/-- A client that has not returned has something to read once the program has ended. -/
theorem Down.unread {strict : Bool} {body : List Frame} (d : t.Down strict body)
    (ended : t.exit ≠ none) (status : t.client.status = none) :
    t.client.lost = false ∧ t.toClient ≠ [] := by
  have lost : t.client.lost = false := by
    cases d.phase with
    | running _ lost => exact lost
    | returned _ returned =>
        rw [status] at returned
        cases returned
    | lost cut => exact absurd cut ended
  refine ⟨lost, fun empty => ?_⟩
  have phase := d.phase
  rw [empty] at phase
  cases phase.cut d.outputs status lost with
  | running _ gone => cases gone
  | returned _ returned =>
      rw [status] at returned
      cases returned
  | lost cut => exact ended cut

theorem Down.reads {strict : Bool} {body : List Frame} (d : t.Down strict body)
    (ended : t.exit ≠ none) (status : t.client.status = none) :
    ∃ r t', Writable true t (.round r) ∧ t.step (.round r) = some t' ∧
      t'.toClient.length < t.toClient.length := by
  obtain ⟨lost, unread⟩ := d.unread ended status
  obtain ⟨x, rest, hrest⟩ := List.exists_cons_of_ne_nil unread
  obtain ⟨o, e, ho, he, c', hc'⟩ :=
    t.client.onFrames_enabled (Frame.drain (t.client.buf ++ [x])).1
  let r : ExecRound := { net := some 1, toOut := o, toErr := e }
  obtain ⟨p, hp⟩ : ∃ p, t.client.round r (some [x]) = some p := by
    simp [ExecClient.round, status, lost, ExecClient.receive, hc', r, ExecClient.onStdin]
  have arriving : t.arriving (some 1) = some (some [x]) := by
    simp [ExecRun.arriving, hrest, kExecChunk]
  have hstep : t.step (.round r) = some { t with
      client := p.1
      toHost := t.toHost ++ Frame.encodeAll p.2
      toClient := t.toClient.drop 1
      typed := t.typed ++ [] } := by
    simp only [ExecRun.step]
    rw [arriving, Option.bind_some, hp, Option.map_some]
    rfl
  exact ⟨r, _, ⟨ho, fun _ => he⟩, hstep, by simp [hrest]⟩

theorem Down.faithful {strict : Bool} {body : List Frame} (d : t.Down strict body) :
    t.OutputFaithful strict := by
  have within : ∀ {handled : List Frame}, handled <+: body → t.client.Shown strict handled →
      t.client.out <+: t.stdout.flatten ∧
        ∃ shown, shown <+: t.stderr ∧ Taken strict t.client.err shown := by
    rintro handled ⟨r, rfl⟩ shown
    rw [shown.out, ← d.stdout, ← d.stderr, payloads_append, payloads_append, List.flatten_append]
    exact ⟨List.prefix_append _ _, _, List.prefix_append _ _, shown.err⟩
  have shows : t.client.out <+: t.stdout.flatten ∧
      ∃ shown, shown <+: t.stderr ∧ Taken strict t.client.err shown := by
    cases d.phase with
    | running _ _ _ prefixed _ _ shown => exact within prefixed shown
    | returned _ _ shown => exact within List.prefix_rfl shown
    | lost _ _ _ shown => exact within List.prefix_rfl shown
  refine ⟨shows.1, shows.2, fun n hn => ?_, fun ended empty status => ?_, d.reads⟩
  · cases d.phase with
    | running status =>
        rw [hn] at status
        cases status
    | returned ended status shown =>
        rw [hn] at status
        exact ⟨by rw [shown.out, d.stdout], d.stderr ▸ shown.err, _, ended, Option.some.inj status⟩
    | lost _ status =>
        rw [hn] at status
        cases status
  · exact (d.unread ended status).2 empty

theorem Up.faithful (up : t.Up pending) : t.InputFaithful := by
  refine ⟨up.feed.written, fun hi he => ?_, fun a t' hstep => (up.step hstep).2⟩
  have := up.feed.held hi
  rwa [payloads_eq_nil (up.feed.past he), List.flatten_nil, List.append_nil] at this

/-- Both directions of every run, however the bytes are cut and whatever comes of the writes:
the output is all there, the errors as far as standard error took them, and the input is a
prefix of the client's, all of it where the program's is closed for the end of the client's. -/
theorem exec_faithful {pty dup term : Bool} (hr : Reach step anyStep (begin pty dup term) t) :
    (∀ strict, Reach step (Writable strict) (begin pty dup term) t → t.OutputFaithful strict) ∧
      (pty = false → t.InputFaithful) := by
  refine ⟨fun strict hw => ?_, fun plain => ?_⟩
  · obtain ⟨body, d⟩ := down_run hw
    exact d.faithful
  · subst plain
    obtain ⟨pending, up⟩ := up_run hr
    exact up.faithful

instance (ws : List WriteResult) : Decidable (NoneFails ws) :=
  inferInstanceAs (Decidable (_ ∧ _))

instance (strict : Bool) (t : ExecRun) (a : ExecAction) : Decidable (Writable strict t a) :=
  match a with
  | .round _ => inferInstanceAs (Decidable (_ ∧ (_ → _)))
  | .writable _ _ | .readable _ _ _ | .tick _ | .arrive _ _ _ => isTrue trivial

/-- A program that says what it was told, then fails. -/
theorem echoed : ∃ t : ExecRun, t.client.status = some 3 ∧
    t.client.out = t.stdout.flatten ∧ t.client.err = t.stderr.flatten ∧ t.stdin <+: t.typed := by
  obtain ⟨t, writable, seen⟩ := Reach.observedWhen step
    (fun t a h => of_decide_eq_true (p := Writable true t a) h) (begin false false false)
    [.round { stdin := some (str "hi") }, .arrive 4 0 [], .arrive 1 0 [.some 1, .full],
      .writable [.some 1] .running, .readable false (.some (str "hi")) .running,
      .readable true (.some (str "no")) .running, .round { stdin := some [] }, .arrive 3 0 [],
      .readable false .ended .running, .readable true .ended (.exited 3),
      .round { net := some 7, toOut := [.some 2] }, .round { net := some 8, toErr := [.some 2] }]
    (fun t => t.client.status) (by decide +kernel : _ = some (some 3))
  obtain ⟨output, input⟩ := exec_faithful (writable.mono fun _ _ _ => trivial)
  obtain ⟨out, err, -⟩ := (output true writable).returned 3 seen
  exact ⟨t, seen, out, err.eq, (input rfl).written⟩

/-- The client's standard error is gone, its standard output is not. -/
theorem errors_lost : ¬ ∀ t, Reach step (Writable false) (begin false false false) t →
    ∀ n, t.client.status = some n → t.client.err = t.stderr.flatten := by
  intro all
  obtain ⟨t, writable, seen⟩ := Reach.observedWhen step
    (fun t a h => of_decide_eq_true (p := Writable false t a) h) (begin false false false)
    [.readable true (.some (str "no")) .running, .readable true .ended .running,
      .readable false .ended (.exited 0), .round { net := some 10, toErr := [.failed] }]
    (fun t => (t.client.status, t.client.err, t.stderr))
    (by decide +kernel : _ = some (some 0, [], [str "no"]))
  simp only [Prod.mk.injEq] at seen
  obtain ⟨status, err, stderr⟩ := seen
  have := all t writable 0 status
  rw [err, stderr] at this
  exact absurd this (by decide)

end ExecRun
end Splice.Peer
