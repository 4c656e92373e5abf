import Splice.Common.Bytes

/-!
Frames on the pairing channel: a length and a payload. A buffer is parsed from its
front, a stream is read byte by exact byte; in either case a sequence of payloads that
was written one after the other comes back as it was, however the stream is cut.
-/

namespace Splice.Proto

/-- 64 KiB -/
def kMaxFrameLen : Nat := 64 * 1024

def encodeFrame (payload : Bytes) : Bytes := bigEndian 4 payload.length ++ payload

def encodeFrames (payloads : List Bytes) : Bytes := payloads.flatMap encodeFrame

/-! ## Parsing a buffer -/

inductive FrameParse
  | frame (payload : Bytes) (consumed : Nat)
  /-- more bytes are needed -/
  | incomplete
  | protocolError
  deriving DecidableEq

def tryParseFrame (buf : Bytes) : FrameParse :=
  if buf.length < 4 then .incomplete
  else
    let len := ofBigEndian (buf.take 4)
    if kMaxFrameLen < len then .protocolError
    else if buf.length < 4 + len then .incomplete
    else .frame ((buf.drop 4).take len) (4 + len)

theorem tryParseFrame_consumed {buf payload : Bytes} {n : Nat}
    (h : tryParseFrame buf = .frame payload n) : 0 < n ∧ n ≤ buf.length := by
  simp only [tryParseFrame] at h
  split at h
  · cases h
  · split at h
    · cases h
    · split at h
      · cases h
      · cases h
        omega

/-- Frame after frame, and what is left in the buffer. -/
def parseFrames (buf : Bytes) : List Bytes × Bytes :=
  match _h : tryParseFrame buf with
  | .frame payload n => (payload :: (parseFrames (buf.drop n)).1, (parseFrames (buf.drop n)).2)
  | .incomplete | .protocolError => ([], buf)
termination_by buf.length
decreasing_by
  all_goals
    have := tryParseFrame_consumed _h
    rw [List.length_drop]
    omega

/-- Pieces arrive one by one and every frame that is there is taken off at once. -/
def feed : Bytes → List Bytes → List Bytes × Bytes
  | buf, [] => ([], buf)
  | buf, piece :: pieces =>
      let (got, buf) := parseFrames (buf ++ piece)
      let (more, buf) := feed buf pieces
      (got ++ more, buf)

/-! ## Reading a stream -/

/-- The pieces a peer's bytes arrive in; the stream ends after them. -/
abbrev Wire := List Bytes

/-- `recv` and `SSL_read`: what has arrived of the next piece, nothing at the end. -/
def recv (n : Nat) : Wire → Bytes × Wire
  | [] => ([], [])
  | [] :: wire => recv n wire
  | (b :: piece) :: wire => ((b :: piece).take n, (b :: piece).drop n :: wire)

/-- Every round takes a byte at least, so as many rounds as bytes are enough. -/
def readLoop : Nat → Nat → Wire → Option (Bytes × Wire)
  | _, 0, wire => some ([], wire)
  | 0, _ + 1, _ => none
  | fuel + 1, n + 1, wire =>
      let (b, wire) := recv (n + 1) wire
      if b = [] then none
      else (readLoop fuel (n + 1 - b.length) wire).map fun r => (b ++ r.1, r.2)

def readExact (n : Nat) (wire : Wire) : Option (Bytes × Wire) := readLoop n n wire

def readFrame (maxLen : Nat) (wire : Wire) : Option (Bytes × Wire) :=
  (readExact 4 wire).bind fun (hdr, wire) =>
    let len := ofBigEndian hdr
    if maxLen < len then none
    else if len = 0 then some ([], wire)
    else readExact len wire

def plainReadFrame : Wire → Option (Bytes × Wire) := readFrame kMaxFrameLen

/-- `read_frame` of a TLS connection; its callers all pass the same bound. -/
def tlsReadFrame : Wire → Option (Bytes × Wire) := readFrame kMaxFrameLen

/-- Read up to `n` frames, as long as there are any. -/
def readFrames (read : Wire → Option (Bytes × Wire)) : Nat → Wire → List Bytes
  | 0, _ => []
  | n + 1, wire =>
      match read wire with
      | none => []
      | some (payload, wire) => payload :: readFrames read n wire

/-! ## What stands at the front -/

theorem encodeFrame_length (payload : Bytes) : (encodeFrame payload).length = 4 + payload.length := by
  simp [encodeFrame]

theorem ofBigEndian_length {payload : Bytes} (h : payload.length ≤ kMaxFrameLen) :
    ofBigEndian (bigEndian 4 payload.length) = payload.length := by
  rw [ofBigEndian_bigEndian]
  exact Nat.mod_eq_of_lt (h.trans_lt (by decide))

/-- A frame at the front of a buffer is taken, and no more. -/
theorem tryParseFrame_append {payload : Bytes} (h : payload.length ≤ kMaxFrameLen) (rest : Bytes) :
    tryParseFrame (encodeFrame payload ++ rest) = .frame payload (encodeFrame payload).length := by
  have hhead : (encodeFrame payload ++ rest).take 4 = bigEndian 4 payload.length := by
    rw [encodeFrame, List.append_assoc]
    exact List.take_left' (bigEndian_length 4 _)
  have hbody : (encodeFrame payload ++ rest).drop 4 = payload ++ rest := by
    rw [encodeFrame, List.append_assoc]
    exact List.drop_left' (bigEndian_length 4 _)
  have hlen : ¬ (encodeFrame payload ++ rest).length < 4 + payload.length := by
    rw [List.length_append, encodeFrame_length]
    omega
  rw [tryParseFrame, if_neg (by omega), hhead, ofBigEndian_length h, if_neg (by omega), if_neg hlen,
    hbody, List.take_left, encodeFrame_length]

/-- Less than a frame is never taken for one. -/
theorem tryParseFrame_short {payload t : Bytes} (h : payload.length ≤ kMaxFrameLen)
    (cut : t <+: encodeFrame payload) (short : t.length < (encodeFrame payload).length) :
    tryParseFrame t = .incomplete := by
  rw [tryParseFrame]
  split
  · rfl
  · rename_i hlong
    have hhead : t.take 4 = bigEndian 4 payload.length := by
      obtain ⟨more, hmore⟩ := cut
      have : (t ++ more).take 4 = bigEndian 4 payload.length := by
        rw [hmore]
        exact List.take_left' (bigEndian_length 4 _)
      rwa [List.take_append_of_le_length (by omega)] at this
    rw [encodeFrame_length] at short
    rw [hhead, ofBigEndian_length h, if_neg (by omega), if_pos short]

/-- Frames, and the beginning of one more. -/
structure Cut (payloads : List Bytes) (tail : Bytes) : Prop where
  bound : ∀ p ∈ payloads, p.length ≤ kMaxFrameLen
  tail : ∃ p, p.length ≤ kMaxFrameLen ∧ tail <+: encodeFrame p ∧ tail.length < (encodeFrame p).length

theorem parseFrames_cut {payloads : List Bytes} {tail : Bytes} (h : Cut payloads tail) :
    parseFrames (encodeFrames payloads ++ tail) = (payloads, tail) := by
  induction payloads with
  | nil =>
      obtain ⟨p, hp, hcut, hshort⟩ := h.tail
      rw [parseFrames]
      simp only [encodeFrames, List.flatMap_nil, List.nil_append]
      split
      · rename_i hparse
        exact absurd ((tryParseFrame_short hp hcut hshort).symm.trans hparse) (by simp)
      · rfl
      · rfl
  | cons p payloads ih =>
      have hrest := ih ⟨fun q hq => h.bound q (List.mem_cons_of_mem p hq), h.tail⟩
      have hparse := tryParseFrame_append (h.bound p List.mem_cons_self)
        (encodeFrames payloads ++ tail)
      rw [parseFrames, encodeFrames, List.flatMap_cons, List.append_assoc]
      split
      · rename_i q n hq
        cases hparse.symm.trans hq
        rw [List.drop_left]
        exact congrArg (fun r => (p :: r.1, r.2)) hrest
      · rename_i hq
        exact absurd (hparse.symm.trans hq) (by simp)
      · rename_i hq
        exact absurd (hparse.symm.trans hq) (by simp)

theorem Cut.short {payloads : List Bytes} {tail : Bytes} (h : Cut payloads tail) : Cut [] tail :=
  ⟨fun _ hp => absurd hp List.not_mem_nil, h.tail⟩

/-- Wherever the bytes are cut, whole frames and the beginning of the next stand before. -/
theorem Cut.split {payloads : List Bytes} {tail x y : Bytes} (h : Cut payloads tail)
    (hx : x ++ y = encodeFrames payloads ++ tail) :
    ∃ got more t, payloads = got ++ more ∧ x = encodeFrames got ++ t ∧ Cut got t ∧ Cut more tail ∧
      t ++ y = encodeFrames more ++ tail := by
  induction payloads generalizing x with
  | nil =>
      obtain ⟨p, hp, hcut, hshort⟩ := h.tail
      have hprefix : x <+: tail := ⟨y, hx⟩
      exact ⟨[], [], x, rfl, rfl, ⟨fun _ hq => absurd hq List.not_mem_nil, p, hp, hprefix.trans hcut,
        hprefix.length_le.trans_lt hshort⟩, h, hx⟩
  | cons p payloads ih =>
      have hp := h.bound p List.mem_cons_self
      rw [encodeFrames, List.flatMap_cons, List.append_assoc] at hx
      rcases List.append_eq_append_iff.mp hx with ⟨c, hframe, hy⟩ | ⟨x', hx', hrest⟩
      · by_cases hc : c = []
        · subst hc
          rw [List.append_nil] at hframe
          rw [List.nil_append] at hy
          have hnil : Cut [p] [] := by
            refine ⟨fun q hq => ?_, [], by simp, List.nil_prefix, by simp [encodeFrame_length]⟩
            rwa [List.mem_singleton.mp hq]
          exact ⟨[p], payloads, [], rfl, by simp [encodeFrames, hframe], hnil,
            ⟨fun q hq => h.bound q (List.mem_cons_of_mem p hq), h.tail⟩, hy⟩
        · have hlen := congrArg List.length hframe
          rw [List.length_append] at hlen
          have hpos := List.length_pos_of_ne_nil hc
          refine ⟨[], p :: payloads, x, rfl, rfl,
            ⟨fun _ hq => absurd hq List.not_mem_nil, p, hp, ⟨c, hframe.symm⟩, by omega⟩, h, ?_⟩
          rw [encodeFrames, List.flatMap_cons, List.append_assoc]
          exact hx
      · have hcut : Cut payloads tail := ⟨fun q hq => h.bound q (List.mem_cons_of_mem p hq), h.tail⟩
        obtain ⟨got, more, t, rfl, hgot, hcut₁, hcut₂, hmore⟩ := ih hcut hrest.symm
        refine ⟨p :: got, more, t, rfl, ?_, ⟨fun q hq => ?_, hcut₁.tail⟩, hcut₂, hmore⟩
        · rw [hx', hgot, encodeFrames, encodeFrames, List.flatMap_cons, List.append_assoc]
        · rcases List.mem_cons.mp hq with rfl | hq
          · exact hp
          · exact hcut₁.bound q hq

/-- The frames come back however the bytes arrive, and what is left is no whole frame. -/
theorem feed_cut {payloads : List Bytes} {tail buf : Bytes} {pieces : List Bytes}
    (h : Cut payloads tail) (short : Cut [] buf)
    (hbytes : buf ++ pieces.flatten = encodeFrames payloads ++ tail) :
    feed buf pieces = (payloads, tail) := by
  induction pieces generalizing payloads buf with
  | nil =>
      rw [List.flatten_nil, List.append_nil] at hbytes
      have hparse := parseFrames_cut h
      rw [← hbytes] at hparse
      exact (parseFrames_cut short).symm.trans hparse
  | cons piece pieces ih =>
      rw [List.flatten_cons, ← List.append_assoc] at hbytes
      obtain ⟨got, more, t, rfl, hgot, hcut, hcut', hmore⟩ := h.split hbytes
      rw [feed, hgot, parseFrames_cut hcut]
      simp only [ih hcut' hcut.short hmore]

/-! ## What a reader takes -/

theorem recv_spec {n : Nat} (hn : 0 < n) (wire : Wire) :
    (recv n wire).1.length ≤ n ∧ (recv n wire).1 ++ (recv n wire).2.flatten = wire.flatten ∧
      ((recv n wire).1 = [] → wire.flatten = []) := by
  induction wire with
  | nil => simp [recv]
  | cons piece wire ih =>
      cases piece with
      | nil => simpa [recv] using ih
      | cons b piece =>
          refine ⟨List.length_take_le n _, ?_, fun hnil => ?_⟩
          · rw [recv, List.flatten_cons, ← List.append_assoc, List.take_append_drop,
              List.flatten_cons]
          · obtain ⟨n, rfl⟩ := Nat.exists_eq_succ_of_ne_zero (by omega : n ≠ 0)
            simp [recv] at hnil

theorem readLoop_spec {fuel n : Nat} (hfuel : n ≤ fuel) (wire : Wire) :
    if n ≤ wire.flatten.length then
      ∃ wire', readLoop fuel n wire = some (wire.flatten.take n, wire') ∧
        wire'.flatten = wire.flatten.drop n
    else readLoop fuel n wire = none := by
  induction fuel generalizing n wire with
  | zero =>
      obtain rfl : n = 0 := by omega
      exact ⟨wire, by simp [readLoop], rfl⟩
  | succ fuel ih =>
      cases n with
      | zero => exact ⟨wire, by simp [readLoop], rfl⟩
      | succ n =>
          obtain ⟨hlen, hbytes, hnil⟩ := recv_spec (Nat.succ_pos n) wire
          rw [readLoop]
          generalize hgot : recv (n + 1) wire = got at hlen hbytes hnil ⊢
          obtain ⟨b, wire'⟩ := got
          dsimp only at hlen hbytes hnil ⊢
          by_cases hb : b = []
          · have hempty := hnil hb
            rw [if_neg (by simp [hempty]), if_pos hb]
          · have hpos := List.length_pos_of_ne_nil hb
            have hrest := ih (by omega : n + 1 - b.length ≤ fuel) wire'
            have htotal : wire.flatten.length = b.length + wire'.flatten.length := by
              rw [← hbytes, List.length_append]
            rw [if_neg hb]
            by_cases henough : n + 1 ≤ wire.flatten.length
            · rw [if_pos (by omega)] at hrest
              obtain ⟨wire'', hread, hflat⟩ := hrest
              rw [if_pos henough, hread]
              refine ⟨wire'', ?_, ?_⟩
              · rw [← hbytes, List.take_append, List.take_of_length_le hlen]
                rfl
              · rw [hflat, ← hbytes, List.drop_append, List.drop_eq_nil_of_le hlen]
                rfl
            · rw [if_neg (by omega)] at hrest
              rw [if_neg henough, hrest]
              rfl

theorem readExact_append {a rest : Bytes} {wire : Wire} (h : wire.flatten = a ++ rest) :
    ∃ wire', readExact a.length wire = some (a, wire') ∧ wire'.flatten = rest := by
  have hspec := readLoop_spec (le_refl a.length) wire
  rw [h, if_pos (by simp), List.take_left, List.drop_left] at hspec
  exact hspec

theorem readExact_short {n : Nat} {wire : Wire} (h : wire.flatten.length < n) :
    readExact n wire = none := by
  have hspec := readLoop_spec (le_refl n) wire
  rwa [if_neg (by omega)] at hspec

theorem readFrame_append {payload rest : Bytes} {wire : Wire}
    (h : payload.length ≤ kMaxFrameLen) (hbytes : wire.flatten = encodeFrame payload ++ rest) :
    ∃ wire', readFrame kMaxFrameLen wire = some (payload, wire') ∧ wire'.flatten = rest := by
  rw [encodeFrame, List.append_assoc] at hbytes
  obtain ⟨wire₁, hhead, hwire₁⟩ := readExact_append hbytes
  rw [bigEndian_length] at hhead
  simp only [readFrame, hhead, Option.bind_some, ofBigEndian_length h, if_neg (not_lt_of_ge h)]
  split
  · rename_i hzero
    obtain rfl := List.eq_nil_of_length_eq_zero hzero
    exact ⟨wire₁, rfl, hwire₁⟩
  · exact readExact_append hwire₁

/-- The stream ends before the frame does: nothing is returned. -/
theorem readFrame_short {payload : Bytes} {wire : Wire} (h : payload.length ≤ kMaxFrameLen)
    (cut : wire.flatten <+: encodeFrame payload)
    (short : wire.flatten.length < (encodeFrame payload).length) :
    readFrame kMaxFrameLen wire = none := by
  rw [encodeFrame_length] at short
  by_cases hhead : wire.flatten.length < 4
  · rw [readFrame, readExact_short hhead, Option.bind_none]
  · obtain ⟨body, hbody⟩ : ∃ body, wire.flatten = bigEndian 4 payload.length ++ body :=
      (List.prefix_of_prefix_length_le (List.prefix_append _ payload) cut
        (by rw [bigEndian_length]; omega)).imp
        fun _ h => h.symm
    obtain ⟨wire₁, hread, hwire₁⟩ := readExact_append hbody
    rw [bigEndian_length] at hread
    have hlen : wire.flatten.length = 4 + body.length := by simp [hbody]
    simp only [readFrame, hread, Option.bind_some, ofBigEndian_length h, if_neg (not_lt_of_ge h)]
    rw [if_neg (by omega)]
    exact readExact_short (by rw [hwire₁]; omega)

theorem readFrames_cut {payloads : List Bytes} {tail : Bytes} (h : Cut payloads tail) {wire : Wire}
    (hbytes : wire.flatten = encodeFrames payloads ++ tail) {n : Nat} (hn : payloads.length < n) :
    readFrames (readFrame kMaxFrameLen) n wire = payloads := by
  induction payloads generalizing wire n with
  | nil =>
      obtain ⟨n, rfl⟩ := Nat.exists_eq_succ_of_ne_zero (by omega : n ≠ 0)
      obtain ⟨p, hp, hcut, hshort⟩ := h.tail
      have htail : wire.flatten = tail := hbytes
      rw [← htail] at hcut hshort
      rw [readFrames, readFrame_short hp hcut hshort]
  | cons p payloads ih =>
      obtain ⟨n, rfl⟩ := Nat.exists_eq_succ_of_ne_zero (by omega : n ≠ 0)
      rw [encodeFrames, List.flatMap_cons, List.append_assoc] at hbytes
      obtain ⟨wire', hread, hwire'⟩ := readFrame_append (h.bound p List.mem_cons_self) hbytes
      rw [readFrames, hread]
      have hcut : Cut payloads tail := ⟨fun q hq => h.bound q (List.mem_cons_of_mem p hq), h.tail⟩
      rw [List.length_cons] at hn
      exact congrArg (p :: ·) (ih hcut hwire' (by omega))

end Splice.Proto
