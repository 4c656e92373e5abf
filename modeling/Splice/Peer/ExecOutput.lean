import Splice.Peer.Exec

/-!
A program's output on its way to the client. Of the frames that were sent, those not handled
yet are what is in the client's buffer and what is still under way; all before them has been
shown in order, however the bytes were cut, and the frame for the program's end is the last.
-/

namespace Splice.Peer
open Lib

/-- The payloads of the frames of one type. -/
def payloads (type : UInt8) (fs : List Frame) : List Bytes :=
  (fs.filter fun f => f.type = type).map (·.payload)

section Payloads
variable {type : UInt8} {f : Frame} {fs gs : List Frame}

@[simp] theorem payloads_nil : payloads type [] = [] := rfl

@[simp] theorem payloads_append :
    payloads type (fs ++ gs) = payloads type fs ++ payloads type gs := by
  simp [payloads]

theorem payloads_cons : payloads type (f :: fs) =
    if f.type = type then f.payload :: payloads type fs else payloads type fs := by
  simp only [payloads, List.filter_cons, decide_eq_true_eq]
  split
  · rfl
  · rfl

theorem payloads_eq_nil (h : ∀ f ∈ fs, f.type ≠ type) : payloads type fs = [] := by
  simp only [payloads, List.map_eq_nil_iff, List.filter_eq_nil_iff, decide_eq_true_eq]
  exact h

end Payloads

/-! ## The client -/

/-- No write fails. -/
def NoneFails (ws : List WriteResult) : Prop := WriteResult.failed ∉ ws ∧ WriteResult.full ∉ ws

theorem NoneFails.suffix {ws ws' : List WriteResult} (h : NoneFails ws) (s : ws' <:+ ws) :
    NoneFails ws' := ⟨fun hm => h.1 (s.subset hm), fun hm => h.2 (s.subset hm)⟩

theorem writeFull_spec {ws ws' : List WriteResult} {b w : Bytes} {ok : Bool}
    (h : writeFull ws b = some (w, ok, ws')) :
    w <+: b ∧ ws' <:+ ws ∧ (NoneFails ws → ok = true) ∧ (ok = true → w = b) := by
  induction ws generalizing b w with
  | nil =>
      cases b with
      | nil =>
          cases h
          exact ⟨List.prefix_rfl, List.suffix_rfl, fun _ => rfl, fun _ => rfl⟩
      | cons x b => cases h
  | cons r ws ih =>
      cases b with
      | nil =>
          cases h
          exact ⟨List.prefix_rfl, List.suffix_rfl, fun _ => rfl, fun _ => rfl⟩
      | cons x b =>
          have tail : ∀ {ws'' : List WriteResult}, ws'' <:+ ws → ws'' <:+ r :: ws :=
            fun hs => hs.trans (List.suffix_cons r ws)
          cases r with
          | some n =>
              simp only [writeFull] at h
              split at h
              · obtain ⟨⟨w₁, ok₁, ws₁⟩, hp, hq⟩ := Option.map_eq_some_iff.mp h
                cases hq
                obtain ⟨⟨rest, hrest⟩, suffix, sound, all⟩ := ih hp
                refine ⟨⟨rest, ?_⟩, tail suffix,
                  fun hf => sound (hf.suffix (List.suffix_cons _ ws)), fun hok => ?_⟩
                · rw [List.append_assoc, hrest, List.take_append_drop]
                · rw [all hok, List.take_append_drop]
              · cases h
          | interrupted =>
              simp only [writeFull] at h
              obtain ⟨prefixed, suffix, sound, all⟩ := ih h
              exact ⟨prefixed, tail suffix, fun hf => sound (hf.suffix (List.suffix_cons _ ws)),
                all⟩
          | full =>
              cases h
              exact ⟨List.nil_prefix, tail List.suffix_rfl,
                fun hf => absurd List.mem_cons_self hf.2, fun hok => by cases hok⟩
          | failed =>
              cases h
              exact ⟨List.nil_prefix, tail List.suffix_rfl,
                fun hf => absurd List.mem_cons_self hf.1, fun hok => by cases hok⟩

/-- Of each chunk its first bytes, or with `strict` all. -/
def Taken (strict : Bool) (b : Bytes) (chunks : List Bytes) : Prop :=
  ∃ taken : List Bytes, b = taken.flatten ∧
    List.Forall₂ (fun w chunk => w <+: chunk ∧ (strict = true → w = chunk)) taken chunks

theorem Taken.nil (strict : Bool) : Taken strict [] [] := ⟨[], rfl, .nil⟩

theorem Taken.snoc {strict : Bool} {b w chunk : Bytes} {chunks : List Bytes}
    (h : Taken strict b chunks) (hw : w <+: chunk) (all : strict = true → w = chunk) :
    Taken strict (b ++ w) (chunks ++ [chunk]) := by
  obtain ⟨taken, rfl, each⟩ := h
  refine ⟨taken ++ [w], by simp, ?_⟩
  exact List.rel_append each (.cons ⟨hw, all⟩ .nil)

theorem Taken.eq {b : Bytes} {chunks : List Bytes} (h : Taken true b chunks) :
    b = chunks.flatten := by
  obtain ⟨taken, rfl, each⟩ := h
  congr 1
  induction each with
  | nil => rfl
  | cons hw _ ih => rw [hw.2 rfl, ih]

namespace ExecClient

/-- Of these frames, and with `strict` also of those for standard error, nothing is missing. -/
structure Shown (strict : Bool) (c : ExecClient) (handled : List Frame) : Prop where
  out : c.out = (payloads kOut handled).flatten
  err : Taken strict c.err (payloads kErr handled)

/-- The client but for what it writes and how it ends. -/
structure Like (c c' : ExecClient) : Prop where
  onTerm : c'.onTerm = c.onTerm
  buf : c'.buf = c.buf
  stdinOpen : c'.stdinOpen = c.stdinOpen
  lost : c'.lost = c.lost

theorem Like.refl (c : ExecClient) : c.Like c := ⟨rfl, rfl, rfl, rfl⟩

theorem Like.trans {c c' c'' : ExecClient} (h : c.Like c') (h' : c'.Like c'') : c.Like c'' :=
  ⟨h'.1.trans h.1, h'.2.trans h.2, h'.3.trans h.3, h'.4.trans h.4⟩

variable {c : ExecClient} {strict : Bool} {o e : List WriteResult} {f : Frame}
  {fs handled : List Frame} {r : ExecClient × List WriteResult × List WriteResult}

theorem onFrame_like (h : c.onFrame o e f = some r) : c.Like r.1 := by
  simp only [onFrame] at h
  split at h
  · obtain ⟨p, -, rfl⟩ := Option.map_eq_some_iff.mp h
    exact ⟨rfl, rfl, rfl, rfl⟩
  · split at h
    · obtain ⟨p, -, rfl⟩ := Option.map_eq_some_iff.mp h
      exact ⟨rfl, rfl, rfl, rfl⟩
    · split at h
      · split at h
        · cases h
          exact ⟨rfl, rfl, rfl, rfl⟩
        · cases h
          exact .refl c
      · cases h
        exact .refl c

theorem onFrames_like (h : c.onFrames o e fs = some r) : c.Like r.1 := by
  induction fs generalizing c o e with
  | nil =>
      cases h
      exact .refl c
  | cons f fs ih =>
      obtain ⟨p, hp, h⟩ := Option.bind_eq_some_iff.mp h
      split at h
      · cases h
        exact onFrame_like hp
      · exact (onFrame_like hp).trans (ih h)

/-- A frame of output is shown. -/
theorem onFrame_output (h : c.onFrame o e f = some r) (kind : f.type = kOut ∨ f.type = kErr)
    (status : c.status = none) (ho : NoneFails o) (he : strict = true → NoneFails e)
    (shown : c.Shown strict handled) :
    r.1.status = none ∧ r.2.1 <:+ o ∧ r.2.2 <:+ e ∧ r.1.Shown strict (handled ++ [f]) := by
  simp only [onFrame] at h
  split at h
  · rename_i isErr
    obtain ⟨⟨w, ok, e'⟩, hp, rfl⟩ := Option.map_eq_some_iff.mp h
    obtain ⟨prefixed, suffix, sound, all⟩ := writeFull_spec hp
    refine ⟨status, List.suffix_rfl, suffix, ?_, ?_⟩
    · have other : f.type ≠ kOut := by rw [isErr]; decide
      simp only [payloads_append, payloads_cons, other, if_false, payloads_nil, List.append_nil]
      exact shown.out
    · simp only [payloads_append, payloads_cons, isErr, if_true, payloads_nil]
      exact shown.err.snoc prefixed fun hs => all (sound (he hs))
  · rename_i notErr
    have isOut : f.type = kOut := kind.resolve_right notErr
    rw [if_pos isOut] at h
    obtain ⟨⟨w, ok, o'⟩, hp, rfl⟩ := Option.map_eq_some_iff.mp h
    obtain ⟨-, suffix, sound, all⟩ := writeFull_spec hp
    refine ⟨?_, suffix, List.suffix_rfl, ?_, ?_⟩
    · simp only [sound ho, if_true, status]
    · simp only [payloads_append, payloads_cons, isOut, if_true, payloads_nil, List.flatten_append,
        List.flatten_cons, List.flatten_nil, List.append_nil, shown.out, all (sound ho)]
    · simp only [payloads_append, payloads_cons, notErr, if_false, payloads_nil, List.append_nil]
      exact shown.err

theorem onFrames_outputs (h : c.onFrames o e fs = some r)
    (kinds : ∀ f ∈ fs, f.type = kOut ∨ f.type = kErr) (status : c.status = none)
    (ho : NoneFails o) (he : strict = true → NoneFails e) (shown : c.Shown strict handled) :
    r.1.status = none ∧ r.2.1 <:+ o ∧ r.2.2 <:+ e ∧ r.1.Shown strict (handled ++ fs) := by
  induction fs generalizing c o e handled with
  | nil =>
      cases h
      rw [List.append_nil]
      exact ⟨status, List.suffix_rfl, List.suffix_rfl, shown⟩
  | cons f fs ih =>
      obtain ⟨p, hp, h⟩ := Option.bind_eq_some_iff.mp h
      obtain ⟨status', ho', he', shown'⟩ :=
        onFrame_output hp (kinds f List.mem_cons_self) status ho he shown
      rw [status'] at h
      obtain ⟨last, ho'', he'', shown''⟩ := ih h
        (fun g hg => kinds g (List.mem_cons_of_mem _ hg)) status' (ho.suffix ho')
        (fun hs => (he hs).suffix he') shown'
      rw [List.append_assoc] at shown''
      exact ⟨last, ho''.trans ho', he''.trans he', shown''⟩

theorem onFrames_append (gs : List Frame) (status : c.status = none) :
    c.onFrames o e (fs ++ gs) = (c.onFrames o e fs).bind fun r =>
      if r.1.status.isSome then some r else r.1.onFrames r.2.1 r.2.2 gs := by
  induction fs generalizing c o e with
  | nil => simp only [List.nil_append, onFrames, Option.bind_some, status, Option.isSome_none,
      Bool.false_eq_true, if_false]
  | cons f fs ih =>
      simp only [List.cons_append, onFrames, Option.bind_assoc]
      congr 1
      funext p
      cases hp : p.1.status with
      | none => simp only [Option.isSome_none, Bool.false_eq_true, if_false, ih hp]
      | some n => simp only [Option.isSome_some, if_true, Option.bind_some, hp]

/-- The status an EXIT is for. -/
def statusOf (exit : UInt8 × UInt8) : Nat :=
  if exit.1 = kSignaled then 128 + exit.2.toNat else exit.2.toNat

def exitFrames : Option (UInt8 × UInt8) → List Frame
  | some exit => [⟨kExit, [exit.1, exit.2]⟩]
  | none => []

theorem onFrames_exit (exit : UInt8 × UInt8) : c.onFrames o e (exitFrames (some exit)) =
    some ({ c with status := some (statusOf exit) }, o, e) := by
  simp only [exitFrames, onFrames, onFrame]
  rw [if_neg (by decide), if_neg (by decide)]
  simp [statusOf]

theorem Shown.congr {c' : ExecClient} (h : c.Shown strict handled) (out : c'.out = c.out)
    (err : c'.err = c.err) : c'.Shown strict handled := ⟨out ▸ h.out, err ▸ h.err⟩

/-- The frames of a program's output. -/
def Outputs (body : List Frame) : Prop :=
  ∀ f ∈ body, (f.type = kOut ∨ f.type = kErr) ∧ f.Sound

theorem sound_exit {exit : Option (UInt8 × UInt8)} : ∀ f ∈ exitFrames exit, f.Sound := by
  cases exit with
  | none => simp [exitFrames]
  | some e => simp [exitFrames, Frame.Sound]

/-- How far the client is with the frames `body` of output, and the one for `exit`. -/
inductive Phase (strict : Bool) (c : ExecClient) (toClient : Bytes) (body : List Frame)
    (exit : Option (UInt8 × UInt8)) : Prop
  | running {handled pending : List Frame} (status : c.status = none) (lost : c.lost = false)
      (split : body ++ exitFrames exit = handled ++ pending) (within : handled <+: body)
      (stream : c.buf ++ toClient = Frame.encodeAll pending) (part : Frame.take c.buf = none)
      (shown : c.Shown strict handled)
  | returned {e : UInt8 × UInt8} (ended : exit = some e) (status : c.status = some (statusOf e))
      (shown : c.Shown strict body)
  | lost (cut : exit = none) (status : c.status = none) (lost : c.lost = true)
      (shown : c.Shown strict body)

variable {body : List Frame} {exit : Option (UInt8 × UInt8)} {toClient b y : Bytes}
  {c' : ExecClient}

/-- The frame for the program's end is the last. -/
theorem output_or_exit {r got rest : List Frame} (h : r ++ exitFrames exit = got ++ rest) :
    (∃ a, r = got ++ a) ∨ ∃ e, exit = some e ∧ got = r ++ exitFrames exit := by
  rcases List.append_eq_append_iff.mp h with ⟨a, ha, hexit⟩ | ⟨a, ha, -⟩
  · cases a with
    | nil => exact .inl ⟨[], by rw [ha, List.append_nil, List.append_nil]⟩
    | cons x a =>
        cases exit with
        | none => cases hexit
        | some e =>
            simp only [exitFrames, List.cons_append, List.cons.injEq, List.nil_eq,
              List.append_eq_nil_iff] at hexit
            refine .inr ⟨e, rfl, ?_⟩
            rw [ha, exitFrames, hexit.1, hexit.2.1]
  · exact .inl ⟨a, ha⟩

theorem Phase.receive (h : c.Phase strict (b ++ y) body exit) (outputs : Outputs body)
    (status : c.status = none) (lost : c.lost = false) (ho : NoneFails o)
    (he : strict = true → NoneFails e) (hr : c.receive o e b = some c') :
    c'.Phase strict y body exit := by
  cases h with
  | returned _ returned =>
      rw [status] at returned
      cases returned
  | lost _ _ gone =>
      rw [lost] at gone
      cases gone
  | @running handled pending _ _ split within stream part shown =>
      obtain ⟨p, hp, hr⟩ := Option.bind_eq_some_iff.mp hr
      split at hr
      swap
      · cases hr
      cases hr
      have sound : ∀ f ∈ pending, f.Sound := by
        intro f hf
        rcases List.mem_append.mp (split ▸ List.mem_append_right handled hf) with hf | hf
        · exact (outputs f hf).2
        · exact sound_exit f hf
      rw [← List.append_assoc] at stream
      obtain ⟨pending', rfl, stream'⟩ := Frame.drain_prefix sound stream
      have part' := Frame.take_drain (c.buf ++ b)
      generalize Frame.drain (c.buf ++ b) = drained at hp stream' part' split
      obtain ⟨r, rfl⟩ := within
      have kinds : ∀ f ∈ r, f.type = kOut ∨ f.type = kErr :=
        fun f hf => (outputs f (List.mem_append_right _ hf)).1
      have rests : r ++ exitFrames exit = drained.1 ++ pending' := by
        rw [List.append_assoc] at split
        exact List.append_cancel_left split
      have like := onFrames_like hp
      rcases output_or_exit rests with ⟨a, ha⟩ | ⟨e', ended, hdrained⟩
      · have kinds' : ∀ f ∈ drained.1, f.type = kOut ∨ f.type = kErr :=
          fun f hf => kinds f (ha ▸ List.mem_append_left _ hf)
        obtain ⟨status', -, -, shown'⟩ := onFrames_outputs hp kinds' status ho he shown
        refine .running status'
          (like.lost.trans lost) ?_ ?_ stream' part' (shown'.congr rfl rfl)
        · rw [split, List.append_assoc]
        · exact ⟨a, by rw [List.append_assoc, ← ha]⟩
      · -- the program's end is among them
        rw [hdrained, onFrames_append _ status] at hp
        obtain ⟨q, hq, hp⟩ := Option.bind_eq_some_iff.mp hp
        obtain ⟨status', -, -, shown'⟩ := onFrames_outputs hq kinds status ho he shown
        rw [status', ended] at hp
        simp only [Option.isSome_none, Bool.false_eq_true, if_false, onFrames_exit,
          Option.some.injEq] at hp
        subst hp
        exact .returned ended rfl (shown'.congr rfl rfl)

theorem receive_lost (hr : c.receive o e b = some c') : c'.lost = c.lost := by
  obtain ⟨p, hp, hr⟩ := Option.bind_eq_some_iff.mp hr
  split at hr
  · cases hr
    exact (onFrames_like hp).lost
  · cases hr

theorem Phase.congr (h : c.Phase strict toClient body exit) (buf : c'.buf = c.buf)
    (status : c'.status = c.status) (lost : c'.lost = c.lost) (out : c'.out = c.out)
    (err : c'.err = c.err) : c'.Phase strict toClient body exit := by
  cases h with
  | running status₁ lost₁ split within stream part shown =>
      exact .running (status.trans status₁) (lost.trans lost₁) split within (buf ▸ stream)
        (buf ▸ part) (shown.congr out err)
  | returned ended status₁ shown =>
      exact .returned ended (status.trans status₁) (shown.congr out err)
  | lost cut status₁ lost₁ shown =>
      exact .lost cut (status.trans status₁) (lost.trans lost₁) (shown.congr out err)

/-- A frame is added to what is under way. -/
theorem Phase.emit (h : c.Phase strict toClient body exit) {body' : List Frame}
    {exit' : Option (UInt8 × UInt8)} (more : body <+: body')
    (sent : body' ++ exitFrames exit' = body ++ exitFrames exit ++ fs)
    (past : c.status ≠ none ∨ c.lost = true → fs = [] ∧ body' = body ∧ exit' = exit) :
    c.Phase strict (toClient ++ Frame.encodeAll fs) body' exit' := by
  cases h with
  | @running handled pending status lost split within stream part shown =>
      have split' : body' ++ exitFrames exit' = handled ++ (pending ++ fs) := by
        rw [sent, split, List.append_assoc]
      have stream' : c.buf ++ (toClient ++ Frame.encodeAll fs) =
          Frame.encodeAll (pending ++ fs) := by
        rw [← List.append_assoc, stream, Frame.encodeAll_append]
      exact .running status lost split' (within.trans more) stream' part shown
  | returned ended status shown =>
      obtain ⟨rfl, rfl, rfl⟩ := past (.inl (by rw [status]; simp))
      exact .returned ended status shown
  | lost cut status lost shown =>
      obtain ⟨rfl, rfl, rfl⟩ := past (.inr lost)
      exact .lost cut status lost shown

/-- The connection has ended, and nothing is under way. -/
theorem Phase.cut (h : c.Phase strict [] body exit) (outputs : Outputs body)
    (status : c.status = none) (lost : c.lost = false) :
    ExecClient.Phase strict { c with lost := true } [] body exit := by
  cases h with
  | returned _ returned =>
      rw [status] at returned
      cases returned
  | lost _ _ gone =>
      rw [lost] at gone
      cases gone
  | @running handled pending _ _ split within stream part shown =>
      have sound : ∀ f ∈ pending, f.Sound := by
        intro f hf
        rcases List.mem_append.mp (split ▸ List.mem_append_right handled hf) with hf | hf
        · exact (outputs f hf).2
        · exact sound_exit f hf
      rw [List.append_nil] at stream
      obtain rfl := Frame.eq_nil_of_take sound (stream ▸ part)
      obtain ⟨r, rfl⟩ := within
      rw [List.append_nil, List.append_assoc, List.append_right_eq_self,
        List.append_eq_nil_iff] at split
      obtain ⟨rfl, cut⟩ := split
      rw [List.append_nil]
      refine .lost ?_ status rfl (shown.congr rfl rfl)
      cases exit with
      | none => rfl
      | some e => cases cut

theorem onStdin_like {stdin : Option Bytes} {fs : List Frame}
    (h : c.onStdin stdin = some (c', fs)) : c'.buf = c.buf ∧ c'.status = c.status ∧
      c'.lost = c.lost ∧ c'.out = c.out ∧ c'.err = c.err := by
  simp only [onStdin] at h
  split at h
  · cases h
    exact ⟨rfl, rfl, rfl, rfl, rfl⟩
  · split at h
    · split at h
      · cases h
        exact ⟨rfl, rfl, rfl, rfl, rfl⟩
      · cases h
        exact ⟨rfl, rfl, rfl, rfl, rfl⟩
    · cases h

end ExecClient

namespace ExecEnd
variable {h : ExecEnd}

theorem maybeFinish_cases (h : ExecEnd) (w : WaitResult) :
    h.maybeFinish w = (h, []) ∨
      h.reaped = false ∧ h.out = false ∧ h.err = false ∧ (h.maybeFinish w).1.reaped = true ∧
        (h.maybeFinish w).1.out = false ∧ (h.maybeFinish w).1.err = false ∧
        (h.maybeFinish w).2 = ExecClient.exitFrames w.exit := by
  simp only [maybeFinish]
  split
  · exact .inl rfl
  · rename_i past
    simp only [Bool.or_eq_true, not_or, Bool.not_eq_true] at past
    obtain ⟨⟨reaped, out⟩, err⟩ := past
    cases w with
    | running => exact .inl rfl
    | unknown => exact .inr ⟨reaped, out, err, rfl, out, err, rfl⟩
    | exited code => exact .inr ⟨reaped, out, err, rfl, out, err, rfl⟩
    | signaled sig => exact .inr ⟨reaped, out, err, rfl, out, err, rfl⟩

/-- The two differ in what is held for the program at most. -/
structure Like (h h' : ExecEnd) : Prop where
  pty : h'.pty = h.pty
  out : h'.out = h.out
  err : h'.err = h.err
  reaped : h'.reaped = h.reaped
  shut : h'.shut = h.shut

theorem Like.refl (h : ExecEnd) : h.Like h := ⟨rfl, rfl, rfl, rfl, rfl⟩

theorem Like.trans {h h' h'' : ExecEnd} (l : h.Like h') (l' : h'.Like h'') : h.Like h'' :=
  ⟨l'.1.trans l.1, l'.2.trans l.2, l'.3.trans l.3, l'.4.trans l.4, l'.5.trans l.5⟩

/-- What `flush_input` does: `b` is written, and the input is closed after all of it, when the
client's has ended, or after a write that failed. -/
structure Flushed (h h' : ExecEnd) (ws : List WriteResult) (b : Bytes) : Prop where
  like : h.Like h'
  ibuf : h'.ibuf = h.ibuf
  eof : h'.eof = h.eof
  taken : b <+: h.inbuf
  stays : h'.input = true → h.input = true ∧ h.inbuf = b ++ h'.inbuf
  closes : h.input = true → h'.input = false →
    b = h.inbuf ∧ h.eof = true ∨ WriteResult.failed ∈ ws
  idle : h.input = false → b = []

theorem flushed_flushInput {ws : List WriteResult} {h h' : ExecEnd} {b : Bytes}
    (hf : flushInput ws h = some (h', b)) : h.Flushed h' ws b := by
  induction ws generalizing h b with
  | nil =>
      simp only [flushInput] at hf
      split at hf
      · cases hf
      · rename_i idle
        cases hf
        simp only [closeAtEof]
        split
        · rename_i ended
          simp only [Bool.and_eq_true, List.isEmpty_iff] at ended
          refine ⟨⟨rfl, rfl, rfl, rfl, rfl⟩, rfl, rfl, List.nil_prefix, nofun,
            fun _ _ => .inl ⟨ended.1.1.2.symm, ended.1.2⟩, fun _ => rfl⟩
        · refine ⟨.refl h, rfl, rfl, List.nil_prefix, fun hi => ⟨hi, rfl⟩, fun hi hi' => ?_,
            fun _ => rfl⟩
          rw [hi] at hi'
          cases hi'
  | cons w ws ih =>
      simp only [flushInput] at hf
      split at hf
      swap
      · cases hf
      rename_i busy
      simp only [Bool.and_eq_true] at busy
      cases w with
      | some n =>
          simp only at hf
          split at hf
          · obtain ⟨⟨h₁, b₁⟩, hp, hq⟩ := Option.map_eq_some_iff.mp hf
            cases hq
            have flushed := ih hp
            have first : h.Like { h.account n with inbuf := h.inbuf.drop n } :=
              ⟨rfl, rfl, rfl, rfl, rfl⟩
            refine ⟨first.trans flushed.like, flushed.ibuf, flushed.eof, ?_,
              fun hi => ⟨busy.1, ?_⟩, fun _ hi => ?_, fun hi => ?_⟩
            · obtain ⟨rest, hrest⟩ := flushed.taken
              exact ⟨rest, by rw [List.append_assoc, hrest, List.take_append_drop]⟩
            · rw [List.append_assoc, ← (flushed.stays hi).2, List.take_append_drop]
            · rcases flushed.closes busy.1 hi with ⟨all, eof⟩ | failed
              · exact .inl ⟨by rw [all, List.take_append_drop], eof⟩
              · exact .inr (List.mem_cons_of_mem _ failed)
            · rw [busy.1] at hi
              cases hi
          · cases hf
      | interrupted | full =>
          simp only at hf
          split at hf
          · cases hf
            refine ⟨.refl _, rfl, rfl, List.nil_prefix, fun hi => ⟨hi, rfl⟩, fun hi hi' => ?_,
              fun _ => rfl⟩
            rw [hi] at hi'
            cases hi'
          · cases hf
      | failed =>
          simp only at hf
          split at hf
          · cases hf
            exact ⟨⟨rfl, rfl, rfl, rfl, rfl⟩, rfl, rfl, List.nil_prefix, nofun,
              fun _ _ => .inr List.mem_cons_self, fun _ => rfl⟩
          · cases hf

theorem like_onFrame (veof : UInt8) (h : ExecEnd) (f : Frame) : h.Like (h.onFrame veof f) := by
  simp only [onFrame]
  split
  · exact ⟨rfl, rfl, rfl, rfl, rfl⟩
  · split
    · exact ⟨rfl, rfl, rfl, rfl, rfl⟩
    · split
      · split
        · exact ⟨rfl, rfl, rfl, rfl, rfl⟩
        · exact ⟨rfl, rfl, rfl, rfl, rfl⟩
      · exact ⟨rfl, rfl, rfl, rfl, rfl⟩

theorem like_onFrames (veof : UInt8) (h : ExecEnd) (fs : List Frame) :
    h.Like (fs.foldl (onFrame veof) h) :=
  foldl_invariant (I := fun h' : ExecEnd => h.Like h')
    (fun h' f l _ => l.trans (like_onFrame veof h' f)) (.refl h)

theorem like_onTunnelData {veof : UInt8} {ws : List WriteResult} {b b' : Bytes} {h' : ExecEnd}
    (hr : h.onTunnelData veof ws b = some (h', b')) : h.Like h' := by
  simp only [onTunnelData] at hr
  have flushed := (flushed_flushInput hr).like
  exact (like_onFrames veof h _).trans ⟨flushed.pty, flushed.out, flushed.err, flushed.reaped,
    flushed.shut⟩

/-- Without descriptors there is no output. -/
structure Closed (h : ExecEnd) : Prop where
  reaped : h.reaped = true → h.out = false ∧ h.err = false
  shut : h.shut = true → h.reaped = true

end ExecEnd

namespace ExecRun
open ExecClient (Outputs exitFrames statusOf)

/-- The stream of output, at some point of a run. -/
structure Down (strict : Bool) (t : ExecRun) (body : List Frame) : Prop where
  outputs : Outputs body
  stdout : payloads kOut body = t.stdout
  stderr : payloads kErr body = t.stderr
  phase : t.client.Phase strict t.toClient body t.exit
  closed : t.host.Closed
  ended : t.exit ≠ none → t.host.reaped = true
  lost : t.client.lost = true → t.host.reaped = true

variable {strict : Bool} {t t' : ExecRun} {body : List Frame} {h : ExecEnd} {w : WaitResult}

/-- A client that has come to its end has a program that has. -/
theorem Down.concluded (d : t.Down strict body) (h : t.client.status ≠ none ∨ t.client.lost = true) :
    t.host.reaped = true := by
  rcases h with status | lost
  · refine d.ended ?_
    cases d.phase with
    | running none => exact absurd none status
    | returned ended => simp [ended]
    | lost _ none => exact absurd none status
  · exact d.lost lost

/-- The program's side has a chunk of output, or has not, and then looks for the end. -/
theorem Down.hosted (d : t.Down strict body) (chunk : List Frame) (outputs : Outputs chunk)
    (live : t.host.reaped = true → chunk = []) (reaped : h.reaped = t.host.reaped)
    (closed : h.Closed) (host : t'.host = (h.maybeFinish w).1) (client : t'.client = t.client)
    (toClient : t'.toClient =
      t.toClient ++ Frame.encodeAll (chunk ++ (h.maybeFinish w).2))
    (exit : t'.exit = if (h.maybeFinish w).1.reaped && !t.host.reaped then w.exit else t.exit)
    (stdout : t'.stdout = t.stdout ++ payloads kOut chunk)
    (stderr : t'.stderr = t.stderr ++ payloads kErr chunk) : t'.Down strict (body ++ chunk) := by
  have outputs' : Outputs (body ++ chunk) := by
    intro f hf
    rcases List.mem_append.mp hf with hf | hf
    · exact d.outputs f hf
    · exact outputs f hf
  have out : payloads kOut (body ++ chunk) = t'.stdout := by
    rw [payloads_append, d.stdout, stdout]
  have err : payloads kErr (body ++ chunk) = t'.stderr := by
    rw [payloads_append, d.stderr, stderr]
  rcases ExecEnd.maybeFinish_cases h w with same | ⟨alive, hout, herr, after, hout', herr', frames⟩
  · rw [same] at host toClient exit
    have exit : t'.exit = t.exit := by
      rw [exit, reaped]
      simp
    refine ⟨outputs', out, err, ?_, host ▸ closed, ?_, ?_⟩
    · rw [client, toClient, exit]
      refine d.phase.emit (List.prefix_append _ _) ?_ fun h => ?_
      · cases hexit : t.exit with
        | none => simp [exitFrames]
        | some e =>
            rw [live (d.ended (by simp [hexit]))]
            simp
      · rw [live (d.concluded h)]
        simp
    · rw [exit, host, reaped]
      exact d.ended
    · rw [client, host, reaped]
      exact d.lost
  · rw [reaped] at alive
    have unended : t.exit = none := by
      by_contra ended
      rw [d.ended ended] at alive
      cases alive
    rw [after, alive] at exit
    refine ⟨outputs', out, err, ?_, ?_, fun _ => host ▸ after, fun _ => host ▸ after⟩
    · rw [client, toClient, exit, frames]
      refine d.phase.emit (List.prefix_append _ _) ?_ fun h => ?_
      · simp [unended, exitFrames]
      · have := d.concluded h
        rw [alive] at this
        cases this
    · rw [host]
      exact ⟨fun _ => ⟨hout', herr'⟩, fun _ => after⟩

/-- The client's standard output stays writable, and with `strict` its standard error. -/
def Writable (strict : Bool) (_ : ExecRun) : ExecAction → Prop
  | .round r => NoneFails r.toOut ∧ (strict = true → NoneFails r.toErr)
  | _ => True

theorem closed_outputEnded (closed : h.Closed) (isErr : Bool) :
    (h.outputEnded isErr).reaped = h.reaped ∧ (h.outputEnded isErr).Closed := by
  have less : ∀ h' : ExecEnd, h'.reaped = h.reaped → h'.shut = h.shut →
      (h.out = false → h'.out = false) → (h.err = false → h'.err = false) →
        h'.reaped = h.reaped ∧ h'.Closed := by
    intro h' reaped shut out err
    refine ⟨reaped, fun hr => ?_, fun hs => reaped ▸ closed.shut (shut ▸ hs)⟩
    exact ⟨out (closed.reaped (reaped ▸ hr)).1, err (closed.reaped (reaped ▸ hr)).2⟩
  unfold ExecEnd.outputEnded
  cases isErr with
  | true =>
      simp only [if_true]
      split
      · exact less _ rfl rfl (fun h => h) fun _ => rfl
      · exact less _ rfl rfl (fun h => h) fun _ => rfl
  | false =>
      simp only [Bool.false_eq_true, if_false]
      split
      · exact less _ rfl rfl (fun _ => rfl) fun h => h
      · exact less _ rfl rfl (fun _ => rfl) fun h => h

theorem onReadable_cases {isErr : Bool} {r : ReadResult} {p : ExecEnd × List Frame}
    (hr : h.onReadable isErr r w = some p) : (if isErr then h.err else h.out) = true ∧
      ((∃ b, r = .some b ∧ b.length ≤ kExecChunk ∧ p = ((h.maybeFinish w).1,
          ⟨if isErr then kErr else kOut, b⟩ :: (h.maybeFinish w).2)) ∨
        r = .nothing ∧ p = h.maybeFinish w ∨
        r = .ended ∧ p = (h.outputEnded isErr).maybeFinish w) := by
  unfold ExecEnd.onReadable at hr
  by_cases there : (if isErr then h.err else h.out) = true
  · rw [if_pos there] at hr
    refine ⟨there, ?_⟩
    cases r with
    | some b =>
        simp only at hr
        by_cases fits : b ≠ [] ∧ b.length ≤ kExecChunk
        · rw [if_pos fits] at hr
          exact .inl ⟨b, rfl, fits.2, (Option.some.inj hr).symm⟩
        · rw [if_neg fits] at hr
          cases hr
    | nothing => exact .inr (.inl ⟨rfl, (Option.some.inj hr).symm⟩)
    | ended => exact .inr (.inr ⟨rfl, (Option.some.inj hr).symm⟩)
  · rw [if_neg there] at hr
    cases hr

theorem Down.readable (d : t.Down strict body) {isErr : Bool} {r : ReadResult}
    (hstep : t.step (.readable isErr r w) = some t') : ∃ body', t'.Down strict body' := by
  obtain ⟨p, hr, rfl⟩ := Option.map_eq_some_iff.mp hstep
  obtain ⟨there, ⟨b, rfl, fits, rfl⟩ | ⟨rfl, rfl⟩ | ⟨rfl, rfl⟩⟩ := onReadable_cases hr
  · refine ⟨_, d.hosted [⟨if isErr then kErr else kOut, b⟩] (fun f hf => ?_) (fun reaped => ?_)
      rfl d.closed rfl rfl rfl rfl ?_ ?_⟩
    · obtain rfl := List.mem_singleton.mp hf
      refine ⟨?_, Nat.lt_of_le_of_lt fits (by decide)⟩
      cases isErr with
      | true => exact .inr rfl
      | false => exact .inl rfl
    · obtain ⟨out, err⟩ := d.closed.reaped reaped
      rw [out, err] at there
      simp at there
    · cases isErr with
      | true => simp [payloads_cons, show kErr ≠ kOut by decide]
      | false => simp [payloads_cons, ReadResult.chunk]
    · cases isErr with
      | true => simp [payloads_cons, ReadResult.chunk]
      | false => simp [payloads_cons, show kOut ≠ kErr by decide]
  · exact ⟨_, d.hosted [] nofun (fun _ => rfl) rfl d.closed rfl rfl rfl rfl
      (by simp [ReadResult.chunk]) (by simp [ReadResult.chunk])⟩
  · obtain ⟨reaped, closed⟩ := closed_outputEnded d.closed isErr
    exact ⟨_, d.hosted [] nofun (fun _ => rfl) reaped closed rfl rfl rfl rfl
      (by simp [ReadResult.chunk]) (by simp [ReadResult.chunk])⟩

theorem Down.round (d : t.Down strict body) {r : ExecRound}
    (ok : NoneFails r.toOut ∧ (strict = true → NoneFails r.toErr))
    (hstep : t.step (.round r) = some t') : t'.Down strict body := by
  obtain ⟨net, hnet, hstep⟩ := Option.bind_eq_some_iff.mp hstep
  obtain ⟨⟨c', fs⟩, hr, rfl⟩ := Option.map_eq_some_iff.mp hstep
  simp only [ExecClient.round] at hr
  split at hr
  · cases hr
  rename_i running
  simp only [Bool.or_eq_true, not_or, Bool.not_eq_true, Option.isSome_eq_false_iff,
    Option.isNone_iff_eq_none] at running
  obtain ⟨status, lost⟩ := running
  have after : c'.Phase strict (t.toClient.drop (r.net.getD 0)) body t.exit ∧
      (c'.lost = true → t.host.reaped = true) := by
    cases hn : r.net with
    | none =>
        rw [hn] at hnet
        cases hnet
        obtain ⟨⟨c₁, fs₁⟩, hs, hq⟩ := Option.map_eq_some_iff.mp hr
        cases hq
        obtain ⟨buf, status', lost', out, err⟩ := ExecClient.onStdin_like hs
        refine ⟨d.phase.congr buf status' lost' out err, fun h => ?_⟩
        rw [lost', lost] at h
        cases h
    | some n =>
        rw [hn] at hnet
        simp only [Option.getD_some]
        cases n with
        | zero =>
            simp only [arriving] at hnet
            split at hnet
            · rename_i past
              simp only [Bool.and_eq_true, List.isEmpty_iff] at past
              cases hnet
              simp only at hr
              split at hr
              · cases hr
                have phase := d.phase
                rw [past.2] at phase ⊢
                exact ⟨phase.cut d.outputs status lost, fun _ => d.closed.shut past.1⟩
              · cases hr
            · cases hnet
        | succ n =>
            simp only [arriving] at hnet
            split at hnet
            · cases hnet
              cases hb : t.toClient.take (n + 1) with
              | nil =>
                  rename_i fits
                  rw [List.take_eq_nil_iff] at hb
                  rcases hb with hb | hb
                  · cases hb
                  · rw [hb] at fits
                    cases fits.1
              | cons x b =>
                  rw [hb] at hr
                  obtain ⟨c₂, hc₂, hr⟩ := Option.bind_eq_some_iff.mp hr
                  obtain ⟨⟨c₁, fs₁⟩, hs, hq⟩ := Option.map_eq_some_iff.mp hr
                  cases hq
                  obtain ⟨buf, status', lost', out, err⟩ := ExecClient.onStdin_like hs
                  have phase := d.phase
                  rw [← List.take_append_drop (n + 1) t.toClient, hb] at phase
                  have received := phase.receive d.outputs status lost ok.1 ok.2 hc₂
                  refine ⟨received.congr buf status' lost' out err, fun h => ?_⟩
                  rw [lost', ExecClient.receive_lost hc₂, lost] at h
                  cases h
            · cases hnet
  exact ⟨d.outputs, d.stdout, d.stderr, after.1, d.closed, d.ended, after.2⟩

theorem Down.step (d : t.Down strict body) {a : ExecAction} (ok : Writable strict t a)
    (hstep : t.step a = some t') : ∃ body', t'.Down strict body' := by
  cases a with
  | writable ws w =>
      obtain ⟨⟨h', b, fs⟩, hr, rfl⟩ := Option.map_eq_some_iff.mp hstep
      obtain ⟨⟨h₁, b₁⟩, hf, hq⟩ := Option.map_eq_some_iff.mp hr
      cases hq
      have like := (ExecEnd.flushed_flushInput hf).like
      refine ⟨_, d.hosted [] nofun (fun _ => rfl) like.reaped ?_ rfl rfl rfl rfl
        (by simp [ExecRun.hosted]) (by simp [ExecRun.hosted])⟩
      exact ⟨fun hr => by rw [like.out, like.err]; exact d.closed.reaped (like.reaped ▸ hr),
        fun hs => by rw [like.reaped]; exact d.closed.shut (like.shut ▸ hs)⟩
  | readable isErr r w => exact d.readable hstep
  | tick w =>
      cases hstep
      exact ⟨_, d.hosted [] nofun (fun _ => rfl) rfl d.closed rfl rfl rfl rfl
        (by simp [ExecRun.hosted]) (by simp [ExecRun.hosted])⟩
  | arrive n veof ws =>
      simp only [ExecRun.step] at hstep
      split at hstep
      · obtain ⟨⟨h', b⟩, hr, rfl⟩ := Option.map_eq_some_iff.mp hstep
        have like := ExecEnd.like_onTunnelData hr
        refine ⟨body, d.outputs, d.stdout, d.stderr, d.phase, ?_, ?_, ?_⟩
        · exact ⟨fun hr => by rw [like.out, like.err]; exact d.closed.reaped (like.reaped ▸ hr),
            fun hs => by rw [like.reaped]; exact d.closed.shut (like.shut ▸ hs)⟩
        · exact fun h => like.reaped.trans (d.ended h)
        · exact fun h => like.reaped.trans (d.lost h)
      · cases hstep
  | round r => exact ⟨body, d.round ok hstep⟩

theorem down_begin (pty dup term : Bool) : (begin pty dup term).Down strict [] := by
  refine ⟨nofun, rfl, rfl, ?_, ⟨nofun, nofun⟩, fun h => absurd rfl h, nofun⟩
  exact .running rfl rfl rfl List.prefix_rfl rfl rfl
    ⟨rfl, .nil strict⟩

theorem down_run {pty dup term : Bool} (hr : Reach step (Writable strict) (begin pty dup term) t) :
    ∃ body, t.Down strict body := by
  induction hr with
  | start => exact ⟨[], down_begin pty dup term⟩
  | next _ ok hstep ih =>
      obtain ⟨body, d⟩ := ih
      exact d.step ok hstep

end ExecRun

end Splice.Peer
