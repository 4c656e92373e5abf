import Splice.Peer.ShareFile
import Splice.Peer.Segments
import Splice.Lib.Run

/-!
A SHARE_FILE and a GET_FILE and the two channels between them, which lose nothing and cut the
bytes anywhere. The two ends take turns: an offer, a RESUME, the rest of the file. `Phase` says
whose turn it is and what is under way; a header is read where one was written as long as the
receiver looks for it at the right byte.
-/

namespace Splice.Peer
open Lib

namespace GetFileEnd

/-- The header line a round handles, if any. -/
def roundLines (e : GetFileEnd) (b : Bytes) : List Bytes :=
  match e.state, scanHeader e.hdr b with
  | .header, .line line _ => [line]
  | _, _ => []

/-- The header lines a call handles, with the fuel of `rounds`. -/
def headerLines : Nat → GetFileEnd → Files → Bytes → List Bytes
  | 0, _, _, _ => []
  | fuel + 1, e, w, b =>
      if b = [] ∨ e.done ∨ e.err ≠ [] then []
      else e.roundLines b ++
        headerLines fuel (e.round w b).1.1 (e.round w b).1.2 (e.round w b).2

end GetFileEnd

/-! ## What the receiver waits for -/

namespace GetFileEnd

/-- The answer to an offer. -/
def resumeLine (off : Nat) : Bytes := str "RESUME " ++ decimal off ++ [newline]

/-- Nothing is wrong, and `n` bytes of the entry are missing. -/
structure Awaits (e : GetFileEnd) (n : Nat) : Prop where
  err : e.err = []
  going : e.done = false
  hdr : e.hdr = []
  left : n = 0 ∧ e.state = .header ∨ 0 < n ∧ e.state = .recv ∧ e.size = e.got + n

variable {e : GetFileEnd} {w : Files} {b : Bytes} {n : Nat}

theorem err_fail_ne (e : GetFileEnd) (w : Files) {why : Bytes} (hwhy : why ≠ []) :
    (e.fail w why).1.err ≠ [] := hwhy

theorem finishEntry_outcome (err : e.err = []) (going : e.done = false) (hdr : e.hdr = [])
    (w : Files) : (e.finishEntry w).1.err ≠ [] ∨
      (e.finishEntry w).1.Awaits 0 ∧ (e.finishEntry w).1.sent = e.sent := by
  simp only [finishEntry]
  split
  · exact .inl (err_fail_ne _ _ (by simp [str]))
  · split
    · exact .inl (err_fail_ne _ _ (by simp [str]))
    · rw [closeFile_fst]
      exact .inr ⟨⟨err, going, hdr, .inl ⟨rfl, rfl⟩⟩, rfl⟩

theorem complete_outcome (err : e.err = []) (going : e.done = false) (hdr : e.hdr = [])
    (receiving : e.state = .recv) (size : e.size = e.got + n) (w : Files) :
    (e.complete w).1.err ≠ [] ∨ (e.complete w).1.Awaits n ∧ (e.complete w).1.sent = e.sent := by
  rw [complete]
  split
  · obtain rfl : n = 0 := by omega
    exact finishEntry_outcome err going hdr w
  · exact .inr ⟨⟨err, going, hdr, .inr ⟨by omega, receiving, size⟩⟩, rfl⟩

/-- An entry that can be received is answered. -/
theorem placeEntry_outcome (err : e.err = []) (going : e.done = false) (hdr : e.hdr = [])
    (w : Files) : (e.placeEntry w).1.err ≠ [] ∨ ∃ off, off ≤ e.size ∧
      (e.placeEntry w).1.Awaits (e.size - off) ∧
      (e.placeEntry w).1.sent = e.sent ++ resumeLine off := by
  have started : ∀ (dest : Bytes) (h : Handle) (w' : Files) (off : Nat) (crc : UInt32),
      off ≤ e.size →
      let r := ({ e with dest := dest } : GetFileEnd).startRecv w' h off crc
      r.1.err ≠ [] ∨ ∃ off, off ≤ e.size ∧ r.1.Awaits (e.size - off) ∧
        r.1.sent = e.sent ++ resumeLine off := by
    intro dest h w' off crc within
    refine (complete_outcome (n := e.size - off) (e := { e with
      dest := dest, file := some h, crc := crc, got := off, state := .recv,
      sent := e.sent ++ str "RESUME " ++ decimal off ++ [newline] }) err going hdr rfl
      ?_ w').imp_right fun answered => ⟨off, within, answered.1, ?_⟩
    · simp only
      omega
    · rw [resumeLine, ← List.append_assoc, ← List.append_assoc]
      exact answered.2
  simp only [placeEntry]
  split
  · exact .inl (err_fail_ne _ _ (by simp [str]))
  · have within := ({ e with dest := (e.destination w).1 } : GetFileEnd).resumeAt_le
      (e.destination w).2.fs
    simp only [openPart]
    split
    · exact .inl (err_fail_ne _ _ (by simp [str]))
    · exact started _ _ _ _ _ within

/-- A whole header. -/
theorem handleHeader_outcome (err : e.err = []) (going : e.done = false) (hdr : e.hdr = [])
    (w : Files) {size : Nat} {crc : UInt32} {rel : Bytes}
    (hparse : parseHeader (headerLine size crc rel) = some (size, crc, rel)) :
    (e.handleHeader w (headerLine size crc rel)).1.err ≠ [] ∨ ∃ off, off ≤ size ∧
      (e.handleHeader w (headerLine size crc rel)).1.Awaits (size - off) ∧
      (e.handleHeader w (headerLine size crc rel)).1.sent = e.sent ++ resumeLine off := by
  have magic : str "SPLF2 " <+: headerLine size crc rel := by
    simp only [headerLine, List.append_assoc]
    exact List.prefix_append _ _
  have other : headerLine size crc rel ≠ str "SPLF2-END" := headerLine_ne_endLine size crc rel
  rw [handleHeader, if_neg other, if_neg (by simp [magic]), hparse]
  exact placeEntry_outcome (e := { e with size := size, wantCrc := crc, relpath := rel }) err going
    hdr w

theorem handleHeader_end (e : GetFileEnd) (w : Files) : e.handleHeader w endLine =
    ({ e with done := true, state := .done, shut := true }, w) :=
  if_pos rfl

/-- The scan of part of a line, and of a whole one. -/
theorem scanHeader_within {hdr : Bytes} (h : newline ∉ b) (short : (hdr ++ b).length ≤ maxHeader) :
    scanHeader hdr b = .more (hdr ++ b) := by
  induction b generalizing hdr with
  | nil => rw [scanHeader, List.append_nil]
  | cons c b ih =>
      rw [List.mem_cons, not_or] at h
      rw [scanHeader, if_neg (Ne.symm h.1), if_neg, ih h.2]
      · rw [List.append_assoc, List.singleton_append]
      · rwa [List.append_assoc, List.singleton_append]
      · simp only [List.length_append, List.length_cons, List.length_nil] at short ⊢
        omega

theorem scanHeader_whole {hdr : Bytes} (h : newline ∉ b) (short : (hdr ++ b).length ≤ maxHeader)
    (rest : Bytes) : scanHeader hdr (b ++ newline :: rest) = .line (hdr ++ b) rest := by
  induction b generalizing hdr with
  | nil => rw [List.nil_append, scanHeader, if_pos rfl, List.append_nil]
  | cons c b ih =>
      rw [List.mem_cons, not_or] at h
      rw [List.cons_append, scanHeader, if_neg (Ne.symm h.1), if_neg, ih h.2]
      · rw [List.append_assoc, List.singleton_append]
      · rwa [List.append_assoc, List.singleton_append]
      · simp only [List.length_append, List.length_cons, List.length_nil] at short ⊢
        omega

/-- What the receiver waits for comes, or some of it. -/
theorem Awaits.round (a : e.Awaits n) (some : 0 < n) (w : Files) (b : Bytes) :
    (e.round w b).1.1.err ≠ [] ∨ (e.round w b).1.1.Awaits (n - min b.length n) ∧
      (e.round w b).1.1.sent = e.sent ∧ (e.round w b).2 = b.drop (min b.length n) := by
  obtain ⟨none, -⟩ | ⟨-, receiving, size⟩ := a.left
  · omega
  · have keeps : e.keep b = min b.length n := by
      rw [keep]
      omega
    rcases round_recv receiving w b with ⟨-, hr⟩ | ⟨k, hr⟩
    · rw [hr]
      exact .inl (err_fail_ne _ _ (by simp [str]))
    · rw [hr, keeps]
      refine (complete_outcome (e := e.write (b.take (min b.length n))) a.err a.going a.hdr
        receiving ?_ _).imp_right fun left => ⟨left.1, left.2, rfl⟩
      simp only [write, List.length_take]
      omega

end GetFileEnd

structure Transfer where
  src : SourceFs
  sender : ShareFileEnd
  receiver : GetFileEnd
  disk : Files
  /-- from the sender to the receiver, and back -/
  down : Bytes := []
  up : Bytes := []
  /-- all that the sender has put into the tunnel -/
  said : List Sent := []
  /-- the lines the receiver has handled as headers -/
  seen : List Bytes := []

inductive TransferMove
  /-- `n` bytes arrive at the receiver -/
  | deliver (n : Nat)
  /-- `n` bytes arrive at the sender -/
  | answer (n : Nat) (room : List Bool)
  | writable (room : List Bool)
  | flush (n : Nat)
  /-- the user's files change -/
  | change (src : SourceFs)

namespace Transfer

/-- The sender after a call. -/
def sends (t : Transfer) (r : ShareFileEnd × List Sent) : Transfer :=
  { t with sender := r.1, down := t.down ++ Sent.encodeAll r.2, said := t.said ++ r.2 }

def step (t : Transfer) : TransferMove → Option Transfer
  | .deliver n =>
      if 0 < n ∧ n ≤ t.down.length then
        let b := t.down.take n
        let r := t.receiver.onTunnelData t.disk b
        some { t with
          receiver := r.1
          disk := r.2
          down := t.down.drop n
          up := t.up ++ r.1.sent.drop t.receiver.sent.length
          seen := t.seen ++ t.receiver.headerLines (2 * b.length + 1) t.disk b }
      else none
  | .answer n room =>
      if 0 < n ∧ n ≤ t.up.length then
        (t.sender.onTunnelData t.src room (t.up.take n)).map fun r =>
          { t with up := t.up.drop n }.sends r
      else none
  | .writable room => (t.sender.pump t.src room).map t.sends
  | .flush n =>
      let r := t.receiver.flush t.disk n
      some { t with receiver := r.1, disk := r.2 }
  | .change src => some { t with src }

/-- Both ends have just been started. -/
def begin (src : SourceFs) (entries : List Entry) (target : Bytes) (overwrite : Bool)
    (disk : Files) : Transfer :=
  { src, sender := { entries }, receiver := { target, overwrite }, disk : Transfer }.sends
    (ShareFileEnd.pumpOffer src { entries })

end Transfer

/-! ## Whose turn it is -/

open GetFileEnd (Awaits resumeLine)

/-- An entry with a header that can be read back. -/
structure Entry.Sound (en : Entry) : Prop where
  plain : newline ∉ en.relpath
  text : 0 ∉ en.relpath
  some : en.relpath ≠ []
  short : en.relpath.length < pathMax
  size : en.size < 2 ^ 63

/-- The line a sender has just written: the offer of the entry it is at, or the end. -/
def ShareFileEnd.Wrote (s : ShareFileEnd) (line : Bytes) : Prop :=
  s.state = .waitResume ∧
    (∃ en crc, s.entries[s.idx]? = some en ∧ line = headerLine en.size crc en.relpath) ∨
  s.state = .done ∧ line = endLine

/-- Where a transfer is: what is under way both ways, and the header line not handled yet. -/
inductive Phase (s : ShareFileEnd) (e : GetFileEnd) (down up : Bytes) : List Bytes → Prop
  /-- what is left of a body, and a header -/
  | offered {line body tail : Bytes} (wrote : s.Wrote line) (err : s.err = []) (rbuf : s.rbuf = [])
      (still : up = []) (split : down = body ++ tail) (awaits : e.err = [] ∧ e.done = false)
      (reads : e.Awaits body.length ∧ tail = line ++ [newline] ∨
        body = [] ∧ tail ≠ [] ∧ e.state = .header ∧ e.hdr ++ tail = line ++ [newline]) :
      Phase s e down up [line]
  /-- where the sender should go on from -/
  | answered {en : Entry} {off : Nat} (state : s.state = .waitResume) (err : s.err = [])
      (at_ : s.entries[s.idx]? = some en) (within : off ≤ en.size) (through : down = [])
      (answer : s.rbuf ++ up = resumeLine off) (more : up ≠ [])
      (awaits : e.Awaits (en.size - off)) : Phase s e down up []
  /-- part of a body -/
  | streaming (state : s.state = .stream) (err : s.err = []) (rbuf : s.rbuf = []) (still : up = [])
      (more : 0 < s.remaining) (awaits : e.Awaits (down.length + s.remaining)) :
      Phase s e down up []
  /-- the sender could not go on -/
  | stopped {n : Nat} (err : s.err ≠ []) (still : up = []) (rest : down.length ≤ n)
      (awaits : e.Awaits n) : Phase s e down up []
  /-- both have come to the end -/
  | finished (state : s.state = .done) (err : s.err = []) (still : up = []) (through : down = [])
      (ended : e.err = [] ∧ e.done = true) : Phase s e down up []

namespace Phase
variable {s : ShareFileEnd} {e e' : GetFileEnd} {down up b rest : Bytes} {u : List Bytes}

theorem headerLine_short {en : Entry} (sound : en.Sound) (crc : UInt32) :
    (headerLine en.size crc en.relpath).length ≤ GetFileEnd.maxHeader := by
  have digits : (decimal en.size).length ≤ 20 :=
    length_decimal_le (by decide) (Nat.lt_trans sound.size (by decide))
  have := sound.short
  have sum : (hex8 crc).length = 8 := length_hex 8 _
  have magic : (str "SPLF2 ").length = 6 := rfl
  simp only [headerLine, List.length_append, List.length_singleton, sum, magic, pathMax,
    GetFileEnd.maxHeader] at *
  omega

/-- A line that a sender writes. -/
theorem wrote_line {line : Bytes} (sound : ∀ en ∈ s.entries, en.Sound) (wrote : s.Wrote line) :
    newline ∉ line ∧ line.length ≤ GetFileEnd.maxHeader := by
  rcases wrote with ⟨-, en, crc, hen, rfl⟩ | ⟨-, rfl⟩
  · have ok := sound en (List.mem_of_getElem? hen)
    exact ⟨fun h => ok.plain (newline_mem_headerLine.mp h), headerLine_short ok crc⟩
  · exact ⟨by decide, by decide⟩

/-- A header is handled as soon as its line is complete. -/
theorem read_line {line tail : Bytes} (sound : ∀ en ∈ s.entries, en.Sound) (wrote : s.Wrote line)
    (err : s.err = []) (rbuf : s.rbuf = []) (still : up = []) (alive : e.err = [])
    (going : e.done = false) (hs : e.state = .header) (split : b ++ rest = tail)
    (some : b ≠ []) (reads : e.hdr ++ tail = line ++ [newline]) (w : Files) :
    ∃ u', [line] = e.roundLines b ++ u' ∧ ((e.round w b).1.1.err ≠ [] ∨
      ∃ x, (e.round w b).1.1.sent = e.sent ++ x ∧
        Phase s (e.round w b).1.1 ((e.round w b).2 ++ rest) (up ++ x) u') := by
  obtain ⟨plain, short⟩ := wrote_line sound wrote
  by_cases last : rest = []
  · -- the newline is the last byte that has arrived
    subst last
    rw [List.append_nil] at split
    subst split
    obtain ⟨front, rfl⟩ : ∃ front, b = front ++ [newline] := by
      obtain ⟨front, c, rfl⟩ := List.eq_nil_or_concat b |>.resolve_left some
      rw [List.concat_eq_append, ← List.append_assoc] at reads
      obtain ⟨-, hc⟩ := List.append_inj' reads rfl
      exact ⟨front, by rw [List.concat_eq_append, hc]⟩
    rw [← List.append_assoc] at reads
    have whole := (List.append_inj' reads rfl).1
    have scan : GetFileEnd.scanHeader e.hdr (front ++ [newline]) = .line line [] := by
      rw [← whole]
      refine GetFileEnd.scanHeader_whole (fun hm => plain ?_) (whole ▸ short) []
      rw [← whole]
      exact List.mem_append_right _ hm
    refine ⟨[], by simp only [GetFileEnd.roundLines, hs, scan, List.append_nil], ?_⟩
    rw [GetFileEnd.round_header hs, scan]
    rcases wrote with ⟨state, en, crc, hen, rfl⟩ | ⟨state, rfl⟩
    · have ok := sound en (List.mem_of_getElem? hen)
      rcases GetFileEnd.handleHeader_outcome (e := { e with hdr := [] }) alive going rfl w
        (parseHeader_headerLine (Nat.lt_trans ok.size (by decide)) crc ok.text ok.some)
        with failed | ⟨off, within, awaits, sent⟩
      · exact .inl failed
      · refine .inr ⟨resumeLine off, sent, .answered state err hen within rfl ?_ ?_ awaits⟩
        · rw [rbuf, still]
          rfl
        · simp [still, resumeLine, str]
    · refine .inr ⟨[], (List.append_nil _).symm, ?_⟩
      simp only [GetFileEnd.handleHeader_end]
      exact .finished state err (by rw [still]; rfl) rfl ⟨alive, rfl⟩
  · -- only part of the line has arrived
    have before : newline ∉ e.hdr ++ b ∧ (e.hdr ++ b).length ≤ GetFileEnd.maxHeader := by
      obtain ⟨back, c, hc⟩ := List.eq_nil_or_concat rest |>.resolve_left last
      rw [← split, hc, List.concat_eq_append, ← List.append_assoc, ← List.append_assoc] at reads
      obtain ⟨whole, -⟩ := List.append_inj' reads rfl
      refine ⟨fun hm => plain (whole ▸ List.mem_append_left _ hm), ?_⟩
      rw [← whole, List.length_append] at short
      omega
    have scan := GetFileEnd.scanHeader_within (fun hm => before.1 (List.mem_append_right _ hm))
      before.2
    refine ⟨[line], by simp only [GetFileEnd.roundLines, hs, scan, List.nil_append],
      .inr ⟨[], ?_, ?_⟩⟩
    · rw [GetFileEnd.round_header hs, scan, List.append_nil]
    · rw [GetFileEnd.round_header hs, scan, List.append_nil, List.nil_append]
      refine .offered wrote err rbuf still rfl ⟨alive, going⟩ (.inr ⟨rfl, last, hs, ?_⟩)
      rw [List.append_assoc, split]
      exact reads

/-- While a body is awaited no header is handled. -/
theorem roundLines_recv (hs : e.state = .recv) (b : Bytes) : e.roundLines b = [] := by
  rw [GetFileEnd.roundLines]
  split
  · rename_i header _
    cases hs.symm.trans header
  · rfl

/-- One round keeps to the phases, or the receiver gives up. -/
theorem round (sound : ∀ en ∈ s.entries, en.Sound) (p : Phase s e (b ++ rest) up u)
    (some : b ≠ []) (w : Files) :
    ∃ u', u = e.roundLines b ++ u' ∧ ((e.round w b).1.1.err ≠ [] ∨
      ∃ x, (e.round w b).1.1.sent = e.sent ++ x ∧
        Phase s (e.round w b).1.1 ((e.round w b).2 ++ rest) (up ++ x) u') := by
  have positive : 0 < b.length := List.length_pos_iff.mpr some
  have body : ∀ {n : Nat}, e.Awaits n → 0 < n →
      (∀ n' e', GetFileEnd.Awaits e' n' → n' = n - min b.length n →
        Phase s e' (b.drop (min b.length n) ++ rest) up u) →
      ∃ u', u = e.roundLines b ++ u' ∧ ((e.round w b).1.1.err ≠ [] ∨
        ∃ x, (e.round w b).1.1.sent = e.sent ++ x ∧
          Phase s (e.round w b).1.1 ((e.round w b).2 ++ rest) (up ++ x) u') := by
    intro n awaits more next
    have receiving : e.state = .recv := by
      rcases awaits.left with ⟨none, -⟩ | ⟨-, hs, -⟩
      · omega
      · exact hs
    refine ⟨u, by rw [roundLines_recv receiving, List.nil_append], ?_⟩
    refine (awaits.round more w b).imp_right fun ⟨left, sent, taken⟩ => ⟨[], ?_, ?_⟩
    · rw [sent, List.append_nil]
    · rw [taken, List.append_nil]
      exact next _ _ left rfl
  cases p with
  | @offered line body' tail wrote err rbuf still split alive reads =>
      rcases reads with ⟨awaits, htail⟩ | ⟨rfl, more, hs, hdr⟩
      · by_cases none : body'.length = 0
        · obtain rfl := List.length_eq_zero_iff.mp none
          have hs : e.state = .header := by
            rcases awaits.left with ⟨-, hs⟩ | ⟨more, -⟩
            · exact hs
            · cases more
          refine read_line sound wrote err rbuf still alive.1 alive.2 hs split some ?_ w
          rw [awaits.hdr, List.nil_append, List.nil_append, htail]
        · refine body awaits (Nat.pos_of_ne_zero none) fun n' e' left hn => ?_
          have rest' : b.drop (min b.length body'.length) ++ rest =
              body'.drop (min b.length body'.length) ++ tail := by
            have := congrArg (List.drop (min b.length body'.length)) split
            rwa [List.drop_append_of_le_length (by omega),
              List.drop_append_of_le_length (by omega)] at this
          refine .offered wrote err rbuf still rest' ⟨left.err, left.going⟩ (.inl ⟨?_, htail⟩)
          rw [List.length_drop, ← hn]
          exact left
      · exact read_line sound wrote err rbuf still alive.1 alive.2 hs split some hdr w
  | answered _ _ _ _ through =>
      exact absurd (List.append_eq_nil_iff.mp through).1 some
  | streaming state err rbuf still more awaits =>
      rw [List.length_append] at awaits
      refine body awaits (by omega) fun n' e' left hn => ?_
      refine .streaming state err rbuf still more ?_
      have same : (b.drop (min b.length (b.length + rest.length + s.remaining)) ++ rest).length +
          s.remaining = n' := by
        rw [List.length_append, List.length_drop]
        omega
      exact same ▸ left
  | stopped err still fits awaits =>
      rw [List.length_append] at fits
      refine body awaits (by omega) fun n' e' left hn => ?_
      refine .stopped err still ?_ left
      rw [List.length_append, List.length_drop]
      omega
  | finished _ _ _ through => exact absurd (List.append_eq_nil_iff.mp through).1 some

theorem alive (p : Phase s e (b ++ rest) up u) (some : b ≠ []) : e.err = [] ∧ e.done = false := by
  cases p with
  | offered _ _ _ _ _ alive _ => exact alive
  | answered _ _ _ _ _ _ _ awaits => exact ⟨awaits.err, awaits.going⟩
  | streaming _ _ _ _ _ awaits => exact ⟨awaits.err, awaits.going⟩
  | stopped _ _ _ awaits => exact ⟨awaits.err, awaits.going⟩
  | finished _ _ _ through => exact absurd (List.append_eq_nil_iff.mp through).1 some

theorem headerLines_stopped {n : Nat} {w : Files} (stopped : b = [] ∨ e.done ∨ e.err ≠ []) :
    e.headerLines n w b = [] := by
  cases n with
  | zero => rfl
  | succ n => rw [GetFileEnd.headerLines, if_pos stopped]

theorem rounds_stopped {n : Nat} {w : Files} (stopped : b = [] ∨ e.done ∨ e.err ≠ []) :
    GetFileEnd.rounds n e w b = (e, w) := by
  cases n with
  | zero => rfl
  | succ n => rw [GetFileEnd.rounds_succ, if_pos stopped]

/-- A call keeps to the phases, or the receiver gives up. -/
theorem rounds (sound : ∀ en ∈ s.entries, en.Sound) (ready : e.Ready) {n : Nat}
    (fuel : b.length ≤ n) (p : Phase s e (b ++ rest) up u) (w : Files) :
    ∃ u', u = e.headerLines n w b ++ u' ∧ ((GetFileEnd.rounds n e w b).1.err ≠ [] ∨
      ∃ x, (GetFileEnd.rounds n e w b).1.sent = e.sent ++ x ∧
        Phase s (GetFileEnd.rounds n e w b).1 rest (up ++ x) u') := by
  induction n generalizing e b up u w with
  | zero =>
      obtain rfl := List.length_eq_zero_iff.mp (Nat.le_zero.mp fuel)
      exact ⟨u, rfl, .inr ⟨[], (List.append_nil _).symm, by rwa [List.append_nil]⟩⟩
  | succ n ih =>
      by_cases empty : b = []
      · subst empty
        rw [headerLines_stopped (.inl rfl), rounds_stopped (.inl rfl)]
        exact ⟨u, rfl, .inr ⟨[], (List.append_nil _).symm, by rwa [List.append_nil]⟩⟩
      · obtain ⟨err, going⟩ := p.alive empty
        have on : ¬ (b = [] ∨ e.done ∨ e.err ≠ []) := by simp [empty, err, going]
        have shorter := ready.shrinks (w := w) empty err
        obtain ⟨u', hu, next⟩ := p.round sound empty w
        have first : e.headerLines (n + 1) w b = e.roundLines b ++
            (e.round w b).1.1.headerLines n (e.round w b).1.2 (e.round w b).2 := by
          rw [GetFileEnd.headerLines, if_neg on]
        rw [GetFileEnd.rounds_succ, if_neg on, first, hu]
        rcases next with failed | ⟨x, sent, p'⟩
        · rw [headerLines_stopped (.inr (.inr failed)), rounds_stopped (.inr (.inr failed))]
          exact ⟨u', by rw [List.append_nil], .inl failed⟩
        · obtain ⟨u'', hu', last⟩ := ih (ready.round err w b) (by omega) p' (e.round w b).1.2
          refine ⟨u'', by rw [hu', List.append_assoc], last.imp_right ?_⟩
          rintro ⟨y, sent', p''⟩
          refine ⟨x ++ y, by rw [sent', sent, List.append_assoc], ?_⟩
          rwa [← List.append_assoc]

/-! The sender's side. -/

variable {src : SourceFs} {room : List Bool} {r : ShareFileEnd × List Sent}

theorem lines_append (a b : List Sent) : Sent.lines (a ++ b) = Sent.lines a ++ Sent.lines b :=
  List.filterMap_append ..

theorem lines_bodies (bs : List Bytes) : Sent.lines (bs.map .body) = [] := by
  simp [Sent.lines, Sent.line]

theorem encodeAll_append (a b : List Sent) :
    Sent.encodeAll (a ++ b) = Sent.encodeAll a ++ Sent.encodeAll b :=
  List.flatMap_append

theorem encodeAll_bodies (bs : List Bytes) : Sent.encodeAll (bs.map .body) = bs.flatten := by
  rw [Sent.encodeAll, List.flatMap_map]
  exact List.flatMap_id'

theorem wrote_pumpOffer (src : SourceFs) (s : ShareFileEnd) :
    ∃ line, (s.pumpOffer src).1.Wrote line ∧ Sent.lines (s.pumpOffer src).2 = [line] ∧
      Sent.encodeAll (s.pumpOffer src).2 = line ++ [newline] ∧ (s.pumpOffer src).1.err = s.err ∧
      (s.pumpOffer src).1.rbuf = s.rbuf := by
  rw [ShareFileEnd.pumpOffer]
  cases hen : s.entries[s.idx]? with
  | none => exact ⟨endLine, .inr ⟨rfl, rfl⟩, rfl, List.append_nil _, rfl, rfl⟩
  | some en =>
      exact ⟨_, .inl ⟨rfl, en, _, hen, rfl⟩, rfl, List.append_nil _, rfl, rfl⟩

/-- A turn of streaming, with the receiver waiting for as much as is left to send. -/
theorem stream (state : s.state = .stream) (err : s.err = []) (rbuf : s.rbuf = [])
    (awaits : e.Awaits (down.length + s.remaining))
    (h : ShareFileEnd.pumpStream src room s = some r) :
    Phase r.1 e (down ++ Sent.encodeAll r.2) [] (Sent.lines r.2) := by
  obtain ⟨bs, -, streamed⟩ := ShareFileEnd.pumpStream_spec h
  cases streamed with
  | blocked rest =>
      rw [lines_bodies, encodeAll_bodies]
      refine .streaming state err rbuf rfl (Nat.sub_pos_of_lt rest) ?_
      have same : (down ++ bs.flatten).length + (s.remaining - bs.flatten.length) =
          down.length + s.remaining := by
        rw [List.length_append]
        omega
      exact same ▸ awaits
  | short rest ends =>
      rw [lines_bodies, encodeAll_bodies]
      refine .stopped (n := down.length + s.remaining) ?_ rfl ?_ awaits
      · simp [ShareFileEnd.fail, str]
      · rw [List.length_append]
        omega
  | through all =>
      obtain ⟨line, wrote, said, coded, err', rbuf'⟩ := wrote_pumpOffer src
        { s.advance bs.flatten.length with file := none, idx := s.idx + 1 }
      rw [lines_append, lines_bodies, List.nil_append, said, encodeAll_append, encodeAll_bodies,
        coded, ← List.append_assoc]
      refine .offered wrote (err'.trans err) (rbuf'.trans rbuf) rfl rfl ⟨awaits.err, awaits.going⟩
        (.inl ⟨?_, rfl⟩)
      rw [List.length_append, all]
      exact awaits

theorem pump (p : Phase s e down up u) (h : s.pump src room = some r) :
    Phase r.1 e (down ++ Sent.encodeAll r.2) up (u ++ Sent.lines r.2) := by
  have idle : ∀ {q : Prop} [Decidable q], (if q then some (s, []) else none) = some r →
      Phase r.1 e (down ++ Sent.encodeAll r.2) up (u ++ Sent.lines r.2) := by
    intro q _ h
    split at h
    · cases h
      rwa [show Sent.lines [] = [] from rfl, show Sent.encodeAll [] = [] from rfl, List.append_nil,
        List.append_nil]
    · cases h
  simp only [ShareFileEnd.pump] at h
  split at h
  · exact idle h
  · rename_i going
    rw [Decidable.not_not] at going
    cases p with
    | offered wrote =>
        rcases wrote with ⟨state, -⟩ | ⟨state, -⟩
        · simp only [state] at h
          exact idle h
        · simp only [state] at h
          exact idle h
    | answered state =>
        simp only [state] at h
        exact idle h
    | streaming state err rbuf still more awaits =>
        simp only [state] at h
        subst still
        exact stream state err rbuf awaits h
    | stopped err => exact absurd going err
    | finished state =>
        simp only [state] at h
        exact idle h

theorem newline_notMem_resume (off : Nat) : newline ∉ str "RESUME " ++ decimal off := by
  intro h
  rcases List.mem_append.mp h with h | h
  · exact absurd h (by decide)
  · exact (text_decimal h).2 rfl

/-- The line of an answer is complete with its last byte. -/
theorem resume_split {x y : Bytes} {off : Nat} (h : x ++ y = resumeLine off) :
    newline ∈ x ↔ y = [] := by
  rw [resumeLine] at h
  constructor
  · intro hm
    by_contra some
    obtain ⟨back, c, rfl⟩ := List.eq_nil_or_concat y |>.resolve_left some
    rw [List.concat_eq_append, ← List.append_assoc] at h
    obtain ⟨front, -⟩ := List.append_inj' h rfl
    exact newline_notMem_resume off (front ▸ List.mem_append_left _ hm)
  · rintro rfl
    rw [List.append_nil] at h
    rw [h]
    exact List.mem_append_right _ List.mem_cons_self

/-- The whole answer has come. -/
theorem resumed {en : Entry} {off : Nat} (err : s.err = []) (rbuf : s.rbuf = []) (at_ : s.entries[s.idx]? = some en) (sound : en.Sound)
    (within : off ≤ en.size) (awaits : e.Awaits (en.size - off))
    (h : s.resume src room (str "RESUME " ++ decimal off) = some r) :
    Phase r.1 e (Sent.encodeAll r.2) [] (Sent.lines r.2) := by
  have number : (strtoul 10 (cstr ((str "RESUME " ++ decimal off).drop 7))).1 = off := by
    have clean : 0 ∉ decimal off := fun hm => (text_decimal hm).1 rfl
    have text : (str "RESUME " ++ decimal off).drop 7 = decimal off := List.drop_left' rfl
    have small : off < 2 ^ 64 :=
      Nat.lt_of_le_of_lt within (Nat.lt_trans sound.size (by decide))
    have read : strtoul 10 (decimal off ++ []) = (off, []) := strtoul_decimal small rfl
    rw [List.append_nil] at read
    rw [text, cstr_eq clean, read]
  simp only [ShareFileEnd.resume, at_, if_pos (List.prefix_append _ _), number,
    if_neg (Nat.not_lt.mpr within)] at h
  split at h
  · split at h
    · cases h
      refine .stopped ?_ rfl (Nat.zero_le _) awaits
      simp [ShareFileEnd.fail, str]
    · cases h
  · rw [ShareFileEnd.pump_stream (e := { s with
      file := some (en.abspath, off), remaining := en.size - off, state := .stream }) rfl err] at h
    have awaits' : e.Awaits (([] : Bytes).length + (en.size - off)) := by
      rw [List.length_nil, Nat.zero_add]
      exact awaits
    refine stream ?_ ?_ ?_ awaits' h
    · rfl
    · exact err
    · exact rbuf

theorem receive {en : Entry} {off : Nat} (state : s.state = .waitResume) (err : s.err = [])
    (at_ : s.entries[s.idx]? = some en) (sound : en.Sound) (within : off ≤ en.size)
    (awaits : e.Awaits (en.size - off)) (answer : s.rbuf ++ (b ++ rest) = resumeLine off)
    (more : b ++ rest ≠ []) (h : ShareFileEnd.receive src room s b = some r) :
    Phase r.1 e (Sent.encodeAll r.2) rest (Sent.lines r.2) := by
  induction b generalizing s with
  | nil =>
      simp only [ShareFileEnd.receive] at h
      split at h
      · cases h
        exact .answered state err at_ within rfl answer more awaits
      · cases h
  | cons c b ih =>
      have whole : s.rbuf ++ [c] ++ (b ++ rest) = resumeLine off := by
        rw [← answer, List.append_assoc]
        rfl
      have short : (s.rbuf ++ [c]).length ≤ 64 := by
        have length := congrArg List.length whole
        have digits : (decimal off).length ≤ 20 := length_decimal_le (by decide)
          (Nat.lt_of_le_of_lt within (Nat.lt_trans sound.size (by decide)))
        have magic : (str "RESUME ").length = 7 := rfl
        rw [resumeLine] at length
        simp only [List.length_append, magic, List.length_singleton] at length ⊢
        omega
      simp only [ShareFileEnd.receive] at h
      split at h
      · rename_i ends
        subst ends
        have empty := (resume_split whole).mp (List.mem_append_right _ List.mem_cons_self)
        obtain ⟨rfl, rfl⟩ := List.append_eq_nil_iff.mp empty
        rw [List.append_nil, List.append_nil, resumeLine] at whole
        rw [(List.append_inj' whole rfl).1] at h
        exact resumed (s := { s with rbuf := [] }) err rfl at_ sound within awaits h
      · rename_i other
        rw [if_neg (Nat.not_lt.mpr short)] at h
        refine ih (s := { s with rbuf := s.rbuf ++ [c] }) state err at_ whole (fun empty => ?_) h
        have front := (resume_split answer).not.mpr more
        rcases List.mem_append.mp ((resume_split whole).mpr empty) with hm | hm
        · exact front hm
        · exact other (List.mem_singleton.mp hm).symm

/-- What the sender does with some of the answer. -/
theorem answer (sound : ∀ en ∈ s.entries, en.Sound) (p : Phase s e down (b ++ rest) u)
    (some : b ++ rest ≠ []) (h : s.onTunnelData src room b = .some r) :
    Phase r.1 e (down ++ Sent.encodeAll r.2) rest (u ++ Sent.lines r.2) := by
  have gone : ∀ {q : Prop}, b ++ rest = [] → q := fun empty => absurd empty some
  cases p with
  | offered _ _ _ still => exact gone still
  | answered state err at_ within through answer more awaits =>
      simp only [ShareFileEnd.onTunnelData, state, ne_eq, not_true_eq_false, if_false] at h
      subst through
      exact receive state err at_ (sound _ (List.mem_of_getElem? at_)) within awaits answer more h
  | streaming _ _ _ still => exact gone still
  | stopped _ still => exact gone still
  | finished _ _ still => exact gone still

/-- The receiver is as before but for its file. -/
theorem like (p : Phase s e down up u) (err : e'.err = e.err) (going : e'.done = e.done)
    (hdr : e'.hdr = e.hdr) (state : e'.state = e.state) (size : e'.size = e.size)
    (got : e'.got = e.got) : Phase s e' down up u := by
  have awaits' : ∀ {n : Nat}, e.Awaits n → e'.Awaits n := by
    intro n a
    refine ⟨err.trans a.err, going.trans a.going, hdr.trans a.hdr, ?_⟩
    rw [state, size, got]
    exact a.left
  cases p with
  | offered wrote serr rbuf still split alive reads =>
      refine .offered wrote serr rbuf still split ⟨err.trans alive.1, going.trans alive.2⟩ ?_
      rw [state, hdr]
      exact reads.imp_left fun ⟨a, htail⟩ => ⟨awaits' a, htail⟩
  | answered hs serr at_ within through answer more a =>
      exact .answered hs serr at_ within through answer more (awaits' a)
  | streaming hs serr rbuf still more a => exact .streaming hs serr rbuf still more (awaits' a)
  | stopped serr still rest a => exact .stopped serr still rest (awaits' a)
  | finished hs serr still through ended =>
      exact .finished hs serr still through ⟨err.trans ended.1, going.trans ended.2⟩

end Phase

namespace Sample

/-- A directory `/d` with one file in it. -/
def dirOfOne (name content : Bytes) (plain : Plain name ∧ 0 ∉ name)
    (short : (str "/d/" ++ name).length < pathMax) (small : content.length < 2 ^ 63) : SourceFs where
  stat p :=
    if p = str "/d" then some .dir
    else if p = str "/d/" ++ name then some (.reg content.length) else none
  readdir p := if p = str "/d" then some [name] else none
  content p := if p = str "/d/" ++ name then some content else none
  stat_short := by
    intro p s h
    split at h
    · subst p
      decide
    · split at h
      · subst p
        exact short
      · cases h
  size_content := by
    intro p n b h h'
    split at h'
    · cases h'
      split at h
      · cases h
      · simp_all
    · cases h'
  size_lt := by
    intro p n h
    split at h
    · cases h
    · split at h
      · cases h
        exact small
      · cases h
  names_plain := by
    intro p l h n hn
    split at h
    · cases h
      rw [List.mem_singleton.mp hn]
      exact plain
    · cases h
  names_nodup := by
    intro p l h
    split at h
    · cases h
      exact List.nodup_singleton _
    · cases h
  reg_plain := by
    intro p n h
    split at h
    · cases h
    · split at h
      · subst p
        obtain ⟨cs, c, front, whole⟩ := FileSystem.comps_append_notMem (str "/d/") plain.1.2.2.2
        have last : c = [] := by
          have := congrArg List.getLast? front
          rw [List.getLast?_concat] at this
          exact Option.some.inj (this.symm.trans (by decide))
        rw [whole, List.getLast?_concat, last]
        exact ⟨name, rfl, plain.1⟩
      · cases h

end Sample

namespace Transfer
variable {t t' : Transfer} {entries : List Entry} {m : TransferMove}

/-- What holds along a transfer of the entries. -/
structure Steady (entries : List Entry) (t : Transfer) : Prop where
  offered : t.sender.Offered entries t.said
  ready : t.receiver.Ready
  phase : t.receiver.err ≠ [] ∧ t.seen <+: Sent.lines t.said ∨
    ∃ u, Sent.lines t.said = t.seen ++ u ∧ Phase t.sender t.receiver t.down t.up u

/-- The headers the receiver has handled are those that were written, in order, each is read
back, and there are no others. -/
structure Unambiguous (entries : List Entry) (t : Transfer) : Prop where
  /-- an offer for each entry in order, and the end after the last -/
  offers : ∃ k os, List.Forall₂ ShareFileEnd.Offers (entries.take k) os ∧
    (ShareFileEnd.heads t.said = os ∨
      k = entries.length ∧ ShareFileEnd.heads t.said = os ++ [.finish])
  parsed : ∀ size crc rel, .offer size crc rel ∈ t.said →
    str "SPLF2 " <+: headerLine size crc rel ∧ headerLine size crc rel ≠ endLine ∧
      parseHeader (headerLine size crc rel) = some (size, crc, rel)
  seen : t.seen <+: Sent.lines t.said
  /-- nothing is missing unless the receiver has given up -/
  all : t.receiver.err = [] → t.down = [] → t.seen = Sent.lines t.said
  ends : t.receiver.done = true → t.receiver.err = [] → t.seen = Sent.lines t.said ∧
    ∃ os, List.Forall₂ ShareFileEnd.Offers entries os ∧
      ShareFileEnd.heads t.said = os ++ [.finish]

theorem steady_begin (src : SourceFs) (entries : List Entry) (target : Bytes) (overwrite : Bool)
    (disk : Files) : (begin src entries target overwrite disk).Steady entries := by
  obtain ⟨line, wrote, said, coded, err, rbuf⟩ := Phase.wrote_pumpOffer src { entries }
  refine ⟨?_, GetFileEnd.ready_start target overwrite, .inr ⟨[line], ?_, ?_⟩⟩
  · exact ShareFileEnd.offered_pumpOffer (e := { entries }) src rfl .nil rfl
  · simp only [begin, sends, List.nil_append]
    exact said
  · have split : (begin src entries target overwrite disk).down = [] ++ (line ++ [newline]) := by
      simp only [begin, sends, List.nil_append]
      exact coded
    exact .offered wrote err rbuf rfl split ⟨rfl, rfl⟩
      (.inl ⟨⟨rfl, rfl, rfl, .inl ⟨rfl, rfl⟩⟩, rfl⟩)

/-- The sender has done something that keeps to the phases. -/
theorem Steady.sends (k : t.Steady entries) {r : ShareFileEnd × List Sent} {up : Bytes}
    (offered : r.1.Offered entries (t.said ++ r.2))
    (phase : ∀ u, Phase t.sender t.receiver t.down t.up u →
      Phase r.1 t.receiver (t.down ++ Sent.encodeAll r.2) up (u ++ Sent.lines r.2)) :
    ({ t with up := up }.sends r).Steady entries := by
  refine ⟨offered, k.ready, ?_⟩
  have said : Sent.lines ({ t with up := up }.sends r).said =
      Sent.lines t.said ++ Sent.lines r.2 :=
    Phase.lines_append t.said r.2
  rw [said]
  refine k.phase.imp (fun ⟨failed, seen⟩ => ⟨failed, seen.trans (List.prefix_append _ _)⟩) ?_
  rintro ⟨u, hu, p⟩
  exact ⟨u ++ Sent.lines r.2, by rw [hu, List.append_assoc]; rfl, phase u p⟩

theorem Steady.step (sound : ∀ en ∈ entries, en.Sound) (k : t.Steady entries)
    (h : t.step m = some t') : t'.Steady entries := by
  have sound' : ∀ en ∈ t.sender.entries, en.Sound := k.offered.same ▸ sound
  cases m with
  | deliver n =>
      simp only [Transfer.step] at h
      split at h
      · cases h
        refine ⟨k.offered, k.ready.rounds _ _ _, ?_⟩
        simp only
        rcases k.phase with ⟨failed, seen⟩ | ⟨u, hu, p⟩
        · refine .inl ⟨?_, ?_⟩
          · rw [GetFileEnd.onTunnelData_stopped (.inr failed)]
            exact failed
          · rwa [Phase.headerLines_stopped (.inr (.inr failed)), List.append_nil]
        · rw [← List.take_append_drop n t.down] at p
          obtain ⟨u', hu', next⟩ := p.rounds sound' k.ready
            (n := 2 * (t.down.take n).length + 1) (by omega) t.disk
          refine next.imp (fun failed => ⟨failed, ?_⟩) ?_
          · rw [hu, hu', ← List.append_assoc]
            exact List.prefix_append _ _
          · rintro ⟨x, sent, p'⟩
            refine ⟨u', by rw [hu, hu', List.append_assoc], ?_⟩
            have new : (t.receiver.onTunnelData t.disk (t.down.take n)).1.sent.drop
                t.receiver.sent.length = x := by
              rw [GetFileEnd.onTunnelData, sent, List.drop_left]
            rw [new]
            exact p'
      · cases h
  | answer n room =>
      simp only [Transfer.step] at h
      split at h
      · rename_i within
        obtain ⟨r, hr, rfl⟩ := Option.map_eq_some_iff.mp h
        refine k.sends (k.offered.onTunnelData hr)
          fun u p => ?_
        rw [← List.take_append_drop n t.up] at p
        refine p.answer sound' (fun empty => ?_) hr
        rw [List.take_append_drop] at empty
        rw [empty, List.length_nil] at within
        omega
      · cases h
  | writable room =>
      obtain ⟨r, hr, rfl⟩ := Option.map_eq_some_iff.mp h
      exact k.sends (k.offered.pump hr) fun u p => p.pump hr
  | flush n =>
      cases h
      have same : (t.receiver.flush t.disk n).1 =
          { t.receiver with file := (t.receiver.flush t.disk n).1.file } := by
        rw [GetFileEnd.flush]
        split
        · rfl
        · rfl
      refine ⟨k.offered, k.ready.flush _ _, ?_⟩
      simp only
      rw [same]
      rcases k.phase with failed | ⟨u, hu, p⟩
      · exact .inl failed
      · exact .inr ⟨u, hu, p.like rfl rfl rfl rfl rfl rfl⟩
  | change src =>
      cases h
      exact ⟨k.offered, k.ready, k.phase⟩

theorem Steady.unambiguous (sound : ∀ en ∈ entries, en.Sound) (k : t.Steady entries) :
    t.Unambiguous entries := by
  obtain ⟨same, ⟨os, told, heads⟩, moment⟩ := k.offered
  have seen : t.seen <+: Sent.lines t.said := by
    rcases k.phase with ⟨-, seen⟩ | ⟨u, hu, -⟩
    · exact seen
    · exact hu ▸ List.prefix_append _ _
  refine ⟨⟨_, os, told, ?_⟩, fun size crc rel hm => ?_, seen, fun alive empty => ?_,
    fun ended alive => ?_⟩
  · split at heads
    · exact .inr ⟨if_pos (by assumption), heads⟩
    · rw [List.append_nil] at heads
      exact .inl heads
  · have offer : Sent.offer size crc rel ∈ os := by
      have head : Sent.offer size crc rel ∈ ShareFileEnd.heads t.said :=
        List.mem_filter.mpr ⟨hm, rfl⟩
      rw [heads] at head
      refine (List.mem_append.mp head).resolve_right fun h => ?_
      split at h
      · cases List.mem_singleton.mp h
      · cases h
    obtain ⟨en, hen, crc', same⟩ := ShareFileEnd.offers_of_mem told offer
    obtain ⟨rfl, rfl, rfl⟩ := Sent.offer.inj same
    have ok := sound en (List.mem_of_mem_take hen)
    have small : en.size < 2 ^ 64 := Nat.lt_trans ok.size (by decide)
    refine ⟨?_, headerLine_ne_endLine _ _ _, parseHeader_headerLine small crc ok.text ok.some⟩
    simp only [headerLine, List.append_assoc]
    exact List.prefix_append _ _
  · rcases k.phase with ⟨failed, -⟩ | ⟨u, hu, p⟩
    · exact absurd alive failed
    · have none : u = [] := by
        cases p with
        | @offered line body tail wrote err rbuf still split alive reads =>
            rw [empty] at split
            obtain ⟨-, rfl⟩ := List.append_eq_nil_iff.mp split.symm
            rcases reads with ⟨-, nil⟩ | ⟨-, more, -⟩
            · exact absurd nil.symm (by simp)
            · exact absurd rfl more
        | answered | streaming | stopped | finished => rfl
      rw [hu, none, List.append_nil]
  · rcases k.phase with ⟨failed, -⟩ | ⟨u, hu, p⟩
    · exact absurd alive failed
    · have going : ∀ {q : Prop}, t.receiver.done = false → q := by
        intro q h
        rw [h] at ended
        cases ended
      cases p with
      | offered _ _ _ _ _ alive => exact going alive.2
      | answered _ _ _ _ _ _ _ awaits => exact going awaits.going
      | streaming _ _ _ _ _ awaits => exact going awaits.going
      | stopped _ _ _ awaits => exact going awaits.going
      | finished state =>
          simp only [state, if_true, List.take_length] at told heads
          exact ⟨by rw [hu, List.append_nil], os, told, heads⟩

/-- Where no name of an entry has a newline in it every header is what was written: however the
bytes are cut, whatever is in the files, and whatever the receiver makes of the entries. -/
theorem headers_unambiguous {src : SourceFs} {path : Bytes} {entries : List Entry}
    (shared : src.shareEntries path = .ok entries) (clean : 0 ∉ path)
    (plain : ∀ en ∈ entries, newline ∉ en.relpath) {target : Bytes} {overwrite : Bool}
    {disk : Files} {t : Transfer}
    (h : Reach step anyStep (begin src entries target overwrite disk) t) :
    t.Unambiguous entries := by
  have sound : ∀ en ∈ entries, en.Sound := by
    intro en hen
    obtain ⟨some, text, short, size⟩ := SourceFs.shareEntries_sound shared clean en hen
    exact ⟨plain en hen, text, some, short, size⟩
  have steady : t.Steady entries :=
    h.invariant (steady_begin src entries target overwrite disk)
      fun _ _ _ k _ hstep => k.step sound hstep
  exact steady.unambiguous sound

/-- One file of two bytes, in small pieces. -/
theorem headers_unambiguous_hi : ∃ t : Transfer, t.seen =
    [str "SPLF2 2 d8932aac d/hi", str "SPLF2-END"] ∧
    t.Unambiguous [⟨str "d/hi", str "/d/hi", 2⟩] := by
  let src := Sample.dirOfOne (str "hi") (str "hi") (by decide) (by decide) (by decide)
  have shared : src.shareEntries (str "/d") = .ok [⟨str "d/hi", str "/d/hi", 2⟩] := by
    decide +kernel
  obtain ⟨t, reached, seen⟩ := Reach.observed step
    (begin src [⟨str "d/hi", str "/d/hi", 2⟩] (str "f") false { fs := FileSystem.empty })
    [.deliver 9, .deliver 13, .answer 4 [], .answer 5 [true], .deliver 1, .deliver 11]
    (fun t => t.seen)
    (by decide +kernel : _ = some [str "SPLF2 2 d8932aac d/hi", str "SPLF2-END"])
  refine ⟨t, seen, headers_unambiguous shared
    (by decide) (by decide) reached⟩

/-- A file `a` and then its name with a newline: the receiver takes the rest for a header. -/
theorem headers_split : ¬ ∀ (src : SourceFs) (path : Bytes) (entries : List Entry),
    src.shareEntries path = .ok entries → 0 ∉ path →
    ∀ (target : Bytes) (overwrite : Bool) (disk : Files) (t : Transfer),
      Reach step anyStep (begin src entries target overwrite disk) t → t.Unambiguous entries := by
  intro all
  let src := Sample.dirOfOne (str "a\nb") [] (by decide) (by decide) (by decide)
  obtain ⟨t, reached, seen⟩ := Reach.observed step
    (begin src [⟨str "d/a\nb", str "/d/a\nb", 0⟩] (str "f") false { fs := FileSystem.empty })
    [.deliver 23] (fun t => (t.seen, Sent.lines t.said))
    (by decide +kernel : _ = some ([str "SPLF2 0 00000000 d/a", str "b"],
      [str "SPLF2 0 00000000 d/a\nb"]))
  have := (all src (str "/d") _ (by decide +kernel) (by decide) _ _ _ t reached).seen
  simp only [Prod.mk.injEq] at seen
  rw [seen.1, seen.2] at this
  exact absurd this (by decide)

end Transfer
end Splice.Peer
