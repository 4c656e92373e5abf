import Splice.Peer.GetFile
import Splice.Peer.Ends
import Splice.Lib.FileEdits

/-!
SHARE_FILE: for every entry an offer, and once it is answered with RESUME what follows from
there. What it puts into the tunnel is kept apart by what it means, `Sent`; the peer sees the
bytes only.
-/

namespace Splice.Peer
open Lib

/-- `crc32_file` of a file of the user's. -/
def SourceFs.crc32File (src : SourceFs) (path : Bytes) (upto : Nat) : UInt32 :=
  crc32Update 0 (((src.content path).getD []).take upto)

/-- What goes into the tunnel. -/
inductive Sent
  | offer (size : Nat) (crc : UInt32) (rel : Bytes)
  | body (b : Bytes)
  | finish

/-- `SPLF2 <size> <crc8hex> <relpath>` -/
def headerLine (size : Nat) (crc : UInt32) (rel : Bytes) : Bytes :=
  str "SPLF2 " ++ decimal size ++ [32] ++ hex8 crc ++ [32] ++ rel

def endLine : Bytes := str "SPLF2-END"

theorem zero_notMem_headerLine {size : Nat} {crc : UInt32} {rel : Bytes} (h : 0 ∉ rel) :
    0 ∉ headerLine size crc rel := by
  have digits : 0 ∉ decimal size ∧ 0 ∉ hex8 crc :=
    ⟨fun hm => (text_decimal hm).1 rfl, fun hm => (text_hex hm).1 rfl⟩
  simp only [headerLine, List.mem_append, not_or, List.mem_singleton]
  exact ⟨⟨⟨⟨⟨by decide, digits.1⟩, by decide⟩, digits.2⟩, by decide⟩, h⟩

theorem newline_mem_headerLine {size : Nat} {crc : UInt32} {rel : Bytes} :
    newline ∈ headerLine size crc rel ↔ newline ∈ rel := by
  have digits : newline ∉ decimal size ∧ newline ∉ hex8 crc :=
    ⟨fun hm => (text_decimal hm).2 rfl, fun hm => (text_hex hm).2 rfl⟩
  simp only [headerLine, List.mem_append, List.mem_singleton, digits.1, digits.2, or_false,
    show newline ∉ str "SPLF2 " by decide, show newline ≠ 32 by decide, false_or]

theorem headerLine_ne_endLine (size : Nat) (crc : UInt32) (rel : Bytes) :
    headerLine size crc rel ≠ endLine := by
  intro h
  have front := congrArg (List.take 6) h
  simp only [headerLine, List.append_assoc] at front
  rw [List.take_append_of_le_length (by decide)] at front
  exact absurd front (by decide)

/-- An offer is read back as it was made. -/
theorem parseHeader_headerLine {size : Nat} (hs : size < 2 ^ 64) (crc : UInt32) {rel : Bytes}
    (hz : 0 ∉ rel) (hne : rel ≠ []) :
    parseHeader (headerLine size crc rel) = some (size, crc, rel) := by
  have text : (headerLine size crc rel).drop 6 =
      decimal size ++ (32 :: (hex8 crc ++ 32 :: rel)) := by
    simp only [headerLine, List.append_assoc, List.singleton_append]
    rfl
  have clean : cstr ((headerLine size crc rel).drop 6) =
      decimal size ++ (32 :: (hex8 crc ++ 32 :: rel)) := by
    rw [cstr_eq fun hm => zero_notMem_headerLine hz (List.mem_of_mem_drop hm), text]
  have number : strtoul 10 (decimal size ++ (32 :: (hex8 crc ++ 32 :: rel))) =
      (size, 32 :: (hex8 crc ++ 32 :: rel)) := strtoul_decimal hs rfl
  have sum : strtoul 16 (hex8 crc ++ 32 :: rel) = (crc.toNat, 32 :: rel) :=
    strtoul_hex (n := 6) (by decide) crc.toNat_lt rfl
  have shorter : 32 :: (hex8 crc ++ 32 :: rel) ≠
      decimal size ++ (32 :: (hex8 crc ++ 32 :: rel)) := by
    obtain ⟨d, digits, -, hd⟩ := decimal_head size
    intro h
    have := congrArg List.length h
    rw [hd] at this
    simp only [List.length_append, List.length_cons] at this
    omega
  rw [parseHeader]
  simp only [clean, number, List.tail_cons, sum, List.head?_cons]
  rw [if_neg (by simp [shorter]), if_neg (by simp [hne]), UInt32.ofNat_toNat]

namespace Sent

def line : Sent → Option Bytes
  | .offer size crc rel => some (headerLine size crc rel)
  | .body _ => none
  | .finish => some endLine

def encode : Sent → Bytes
  | .offer size crc rel => headerLine size crc rel ++ [newline]
  | .body b => b
  | .finish => endLine ++ [newline]

def encodeAll (out : List Sent) : Bytes := out.flatMap encode

/-- The header lines among it. -/
def lines (out : List Sent) : List Bytes := out.filterMap line

end Sent

inductive SendState
  | offer
  | waitResume
  | stream
  | end_
  | done
  deriving DecidableEq

structure ShareFileEnd where
  entries : List Entry
  idx : Nat := 0
  state : SendState := .offer
  /-- the open file and where it is read -/
  file : Option (Bytes × Nat) := none
  /-- bytes left to stream in the current entry -/
  remaining : Nat := 0
  rbuf : Bytes := []
  err : Bytes := []
  /-- `shutdown()` was called -/
  shut : Bool := false

namespace ShareFileEnd

/-- bytes read at once -/
def kChunk : Nat := 16384

def fail (e : ShareFileEnd) (why : Bytes) : ShareFileEnd := { e with err := why, shut := true }

/-- `pump` in `Offer`, and in `End`, where it goes when no entry is left. -/
def pumpOffer (src : SourceFs) (e : ShareFileEnd) : ShareFileEnd × List Sent :=
  match e.entries[e.idx]? with
  | none => ({ e with state := .done, shut := true }, [.finish])
  | some en =>
      ({ e with state := .waitResume },
        [.offer en.size (src.crc32File en.abspath en.size) en.relpath])

/-- `fread` of at most a chunk. -/
def fread (src : SourceFs) (e : ShareFileEnd) : Bytes :=
  match e.file with
  | none => []
  | some (path, pos) =>
      (((src.content path).getD []).drop pos).take (min e.remaining kChunk)

/-- `pump` in `Stream`; `room` are the answers to `tunnel_space() >= kChunk`. -/
def pumpStream (src : SourceFs) : List Bool → ShareFileEnd → Option (ShareFileEnd × List Sent)
  | room, e =>
      if e.remaining = 0 then
        if room = [] then some (pumpOffer src { e with file := none, idx := e.idx + 1 }) else none
      else match room with
        | [] => none
        | false :: room => if room = [] then some (e, []) else none
        | true :: room =>
            let b := fread src e
            if b = [] then if room = [] then some (e.fail (str "read error"), []) else none
            else
              (pumpStream src room { e with
                file := e.file.map fun f => (f.1, f.2 + b.length)
                remaining := e.remaining - b.length }).map fun r => (r.1, .body b :: r.2)

def pump (src : SourceFs) (room : List Bool) (e : ShareFileEnd) :
    Option (ShareFileEnd × List Sent) :=
  if e.err ≠ [] then if room = [] then some (e, []) else none
  else match e.state with
    | .offer => if room = [] then some (pumpOffer src e) else none
    | .stream => pumpStream src room e
    | .end_ =>
        if room = [] then some ({ e with state := .done, shut := true }, [.finish]) else none
    | .waitResume | .done => if room = [] then some (e, []) else none

/-- A line of the receiver's: the entry follows from where it says. -/
def resume (src : SourceFs) (room : List Bool) (e : ShareFileEnd) (line : Bytes) :
    Option (ShareFileEnd × List Sent) :=
  match e.entries[e.idx]? with
  | none => none
  | some en =>
      let off := if str "RESUME " <+: line then (strtoul 10 (cstr (line.drop 7))).1 else 0
      let off := if en.size < off then 0 else off
      match src.content en.abspath with
      | none =>
          if room = [] then some (e.fail (str "cannot read '" ++ en.abspath ++ str "'"), [])
          else none
      | some _ => pump src room { e with
          file := some (en.abspath, off), remaining := en.size - off, state := .stream }

/-- The bytes of a RESUME line; what follows the line is not looked at. -/
def receive (src : SourceFs) (room : List Bool) (e : ShareFileEnd) :
    Bytes → Option (ShareFileEnd × List Sent)
  | [] => if room = [] then some (e, []) else none
  | c :: b =>
      if c = newline then resume src room { e with rbuf := [] } e.rbuf
      else if 64 < (e.rbuf ++ [c]).length then
        if room = [] then
          some (({ e with rbuf := e.rbuf ++ [c] } : ShareFileEnd).fail
            (str "bad RESUME from peer"), [])
        else none
      else receive src room { e with rbuf := e.rbuf ++ [c] } b

def onTunnelData (src : SourceFs) (room : List Bool) (e : ShareFileEnd) (b : Bytes) :
    Option (ShareFileEnd × List Sent) :=
  if e.state ≠ .waitResume then if room = [] then some (e, []) else none
  else receive src room e b

/-! ## What `pump` comes to -/

variable {src : SourceFs} {room : List Bool} {e : ShareFileEnd} {r : ShareFileEnd × List Sent}

/-- So much of the file has been read and sent. -/
def advance (e : ShareFileEnd) (n : Nat) : ShareFileEnd :=
  { e with file := e.file.map fun f => (f.1, f.2 + n), remaining := e.remaining - n }

theorem advance_zero (e : ShareFileEnd) : e.advance 0 = e := by
  rw [advance]
  cases e with
  | mk entries idx state file remaining rbuf err shut => cases file <;> rfl

theorem advance_advance (e : ShareFileEnd) (n m : Nat) :
    (e.advance n).advance m = e.advance (n + m) := by
  cases e with
  | mk entries idx state file remaining rbuf err shut =>
      cases file <;> simp [advance, Nat.sub_sub, Nat.add_assoc]

/-- What is there to read. -/
def unread (src : SourceFs) (e : ShareFileEnd) : Bytes :=
  match e.file with
  | none => []
  | some (path, pos) => ((src.content path).getD []).drop pos

theorem fread_eq (src : SourceFs) (e : ShareFileEnd) :
    fread src e = (unread src e).take (min e.remaining kChunk) := by
  rw [fread, unread]
  split
  · rw [List.take_nil]
  · rfl

theorem unread_advance (src : SourceFs) (e : ShareFileEnd) (n : Nat) :
    unread src (e.advance n) = (unread src e).drop n := by
  simp only [unread, advance]
  cases e.file with
  | none => rw [Option.map_none, List.drop_nil]
  | some f => simp only [Option.map_some, List.drop_drop]

/-- How a turn of streaming ends: for want of room, at the end of a file that has become
shorter, or with the next offer. -/
inductive Streamed (src : SourceFs) (e : ShareFileEnd) (bs : List Bytes) :
    ShareFileEnd × List Sent → Prop
  | blocked (rest : bs.flatten.length < e.remaining) :
      Streamed src e bs (e.advance bs.flatten.length, bs.map .body)
  | short (rest : bs.flatten.length < e.remaining) (ends : unread src e = bs.flatten) :
      Streamed src e bs
        ((e.advance bs.flatten.length).fail (str "read error"), bs.map .body)
  | through (all : bs.flatten.length = e.remaining) :
      Streamed src e bs
        ((pumpOffer src
            { e.advance bs.flatten.length with file := none, idx := e.idx + 1 }).1,
          bs.map .body ++ (pumpOffer src
            { e.advance bs.flatten.length with file := none, idx := e.idx + 1 }).2)

/-- One more chunk, before the others. -/
theorem Streamed.cons {b : Bytes} {bs : List Bytes} (within : b.length ≤ e.remaining)
    (read : b <+: unread src e) (h : Streamed src (e.advance b.length) bs r) :
    Streamed src e (b :: bs) (r.1, .body b :: r.2) := by
  have length : (b :: bs).flatten.length = b.length + bs.flatten.length := by
    rw [List.flatten_cons, List.length_append]
  have left : (e.advance b.length).remaining = e.remaining - b.length := rfl
  cases h with
  | blocked rest =>
      rw [left] at rest
      rw [advance_advance, ← length]
      exact .blocked (by omega)
  | short rest ends =>
      rw [left] at rest
      rw [advance_advance, ← length]
      refine .short (by omega) ?_
      rw [unread_advance] at ends
      rw [List.flatten_cons, ← ends]
      exact (List.prefix_iff_eq_append.mp read).symm
  | through all =>
      rw [left] at all
      have at_ : (e.advance b.length).advance bs.flatten.length =
          e.advance (b :: bs).flatten.length := by
        rw [advance_advance, length]
      simp only [at_]
      exact .through (by omega)

theorem pumpStream_spec (h : pumpStream src room e = some r) :
    ∃ bs : List Bytes, bs.flatten <+: unread src e ∧ Streamed src e bs r := by
  induction room generalizing e r with
  | nil =>
      simp only [pumpStream] at h
      split at h
      · rename_i none
        rw [if_true, Option.some.injEq] at h
        have through : Streamed src e [] _ := .through none.symm
        rw [List.flatten_nil, List.length_nil, advance_zero] at through
        exact ⟨[], List.nil_prefix, h ▸ through⟩
      · cases h
  | cons ready room ih =>
      unfold pumpStream at h
      split at h
      · split at h
        · rename_i more
          cases more
        · cases h
      · rename_i some
        have more : ([] : List Bytes).flatten.length < e.remaining := Nat.pos_of_ne_zero some
        cases ready with
        | false =>
            simp only at h
            split at h
            · cases h
              have blocked : Streamed src e [] _ := .blocked more
              rw [List.flatten_nil, List.length_nil, advance_zero] at blocked
              exact ⟨[], List.nil_prefix, blocked⟩
            · cases h
        | true =>
            simp only at h
            have read := fread_eq src e
            split at h
            · rename_i nothing
              rw [nothing] at read
              have ends : unread src e = [] := by
                rcases List.take_eq_nil_iff.mp read.symm with zero | nil
                · exact absurd zero (Nat.ne_of_gt (Nat.lt_min.mpr ⟨more, by decide⟩))
                · exact nil
              split at h
              · cases h
                have short := Streamed.short more ends
                rw [List.flatten_nil, List.length_nil, advance_zero] at short
                exact ⟨[], List.nil_prefix, short⟩
              · cases h
            · obtain ⟨r', hr, hrr⟩ := Option.map_eq_some_iff.mp h
              subst hrr
              obtain ⟨bs, within, streamed⟩ := ih (e := e.advance (fread src e).length) hr
              have prefixed : fread src e <+: unread src e := read ▸ List.take_prefix _ _
              refine ⟨fread src e :: bs, ?_, streamed.cons ?_ prefixed⟩
              · rw [unread_advance] at within
                obtain ⟨tail, htail⟩ := within
                refine ⟨tail, ?_⟩
                rw [List.flatten_cons, List.append_assoc, htail]
                exact List.prefix_iff_eq_append.mp prefixed
              · rw [read, List.length_take]
                omega

theorem pump_stream (state : e.state = .stream) (err : e.err = []) :
    e.pump src room = pumpStream src room e := by
  rw [pump, if_neg (by simp [err])]
  simp only [state]

/-! ## The offers in order -/

/-- The offer of an entry. -/
def Offers (en : Entry) (x : Sent) : Prop := ∃ crc, x = .offer en.size crc en.relpath

def heads (said : List Sent) : List Sent := said.filter (·.line.isSome)

theorem offers_of_mem {ens : List Entry} {os : List Sent} (h : List.Forall₂ Offers ens os)
    {x : Sent} (hx : x ∈ os) : ∃ en ∈ ens, Offers en x := by
  induction h with
  | nil => cases hx
  | cons head _ ih =>
      rcases List.mem_cons.mp hx with rfl | hx
      · exact ⟨_, List.mem_cons_self, head⟩
      · obtain ⟨en, hen, offers⟩ := ih hx
        exact ⟨en, List.mem_cons_of_mem _ hen, offers⟩

theorem heads_append (a b : List Sent) : heads (a ++ b) = heads a ++ heads b := List.filter_append ..

theorem heads_bodies (bs : List Bytes) : heads (bs.map .body) = [] := by
  simp [heads, Sent.line]

/-- Every entry up to the one it is at has been offered, and the end has been announced after the
last. -/
structure Offered (entries : List Entry) (e : ShareFileEnd) (said : List Sent) : Prop where
  same : e.entries = entries
  told : ∃ os, List.Forall₂ Offers
      (entries.take (if e.state = .done then entries.length else e.idx + 1)) os ∧
    heads said = os ++ if e.state = .done then [.finish] else []
  moment : (e.state = .waitResume ∨ e.state = .stream) ∧ e.idx < entries.length ∨
    e.state = .done

variable {entries : List Entry} {said : List Sent}

theorem offered_pumpOffer {os : List Sent} (src : SourceFs) (same : e.entries = entries)
    (told : List.Forall₂ Offers (entries.take e.idx) os) (hs : heads said = os) :
    Offered entries (pumpOffer src e).1 (said ++ (pumpOffer src e).2) := by
  subst same
  rw [pumpOffer]
  cases hen : e.entries[e.idx]? with
  | none =>
      have all := List.getElem?_eq_none_iff.mp hen
      refine ⟨rfl, ⟨os, ?_, ?_⟩, .inr rfl⟩
      · simp only [if_true, List.take_length]
        rwa [List.take_of_length_le all] at told
      · simp only [heads_append, hs, if_true]
        rfl
  | some en =>
      obtain ⟨within, rfl⟩ := List.getElem?_eq_some_iff.mp hen
      refine ⟨rfl, ⟨os ++ [.offer e.entries[e.idx].size
        (src.crc32File e.entries[e.idx].abspath e.entries[e.idx].size)
        e.entries[e.idx].relpath], ?_, ?_⟩, .inl ⟨.inl rfl, within⟩⟩
      · simp only [reduceCtorEq, if_false, List.take_succ_eq_append_getElem within]
        exact List.rel_append told (.cons ⟨_, rfl⟩ .nil)
      · simp only [heads_append, hs, reduceCtorEq, if_false, List.append_nil]
        rfl

/-- What makes no offer and stays at the same entry. -/
theorem Offered.quiet (o : Offered entries e said) {e' : ShareFileEnd}
    (same : e'.entries = e.entries) (idx : e'.idx = e.idx) (state : e'.state = e.state)
    (bs : List Bytes) : Offered entries e' (said ++ bs.map .body) := by
  obtain ⟨same', ⟨os, told, heads⟩, moment⟩ := o
  refine ⟨same.trans same', ⟨os, ?_, ?_⟩, ?_⟩
  · rwa [idx, state]
  · rw [heads_append, heads_bodies, List.append_nil, heads, state]
  · rwa [idx, state]

/-- A call that is not made, or that changes nothing of these. -/
theorem Offered.idle (o : Offered entries e said) {e' : ShareFileEnd}
    (same : e'.entries = e.entries) (idx : e'.idx = e.idx) (state : e'.state = e.state) {q : Prop}
    [Decidable q] (h : (if q then some (e', []) else none) = some r) :
    Offered entries r.1 (said ++ r.2) := by
  split at h
  · cases h
    exact o.quiet same idx state []
  · cases h

theorem Offered.pumpStream (o : Offered entries e said) (hs : e.state = .stream)
    (h : pumpStream src room e = some r) : Offered entries r.1 (said ++ r.2) := by
  obtain ⟨bs, -, streamed⟩ := pumpStream_spec h
  cases streamed with
  | blocked rest => refine o.quiet ?_ ?_ ?_ bs <;> rfl
  | short rest ends => refine o.quiet ?_ ?_ ?_ bs <;> rfl
  | through all =>
      obtain ⟨same, ⟨os, told, heads⟩, -⟩ := o
      simp only [hs, reduceCtorEq, if_false, List.append_nil] at told heads
      rw [← List.append_assoc]
      refine offered_pumpOffer (e := { e.advance bs.flatten.length with
        file := none, idx := e.idx + 1 }) src same told ?_
      rw [heads_append, heads_bodies, List.append_nil, heads]

theorem Offered.pump (o : Offered entries e said) (h : pump src room e = some r) :
    Offered entries r.1 (said ++ r.2) := by
  simp only [ShareFileEnd.pump] at h
  split at h
  · exact o.idle rfl rfl rfl h
  · rcases o.moment with ⟨hs | hs, -⟩ | hs
    · simp only [hs] at h
      exact o.idle rfl rfl rfl h
    · simp only [hs] at h
      exact o.pumpStream hs h
    · simp only [hs] at h
      exact o.idle rfl rfl rfl h

theorem Offered.resume (o : Offered entries e said) (hs : e.state = .waitResume) {line : Bytes}
    (h : resume src room e line = some r) : Offered entries r.1 (said ++ r.2) := by
  simp only [ShareFileEnd.resume] at h
  split at h
  · cases h
  · rename_i en hen
    split at h
    · refine o.idle ?_ ?_ ?_ h <;> rfl
    · refine Offered.pump (e := { e with file := _, remaining := _, state := .stream }) ?_ h
      obtain ⟨same, ⟨os, told, heads⟩, -⟩ := o
      simp only [hs, reduceCtorEq, if_false, List.append_nil] at told heads
      refine ⟨same, ⟨os, ?_, ?_⟩, .inl ⟨.inr rfl, ?_⟩⟩
      · simpa only [reduceCtorEq, if_false] using told
      · simpa only [reduceCtorEq, if_false, List.append_nil] using heads
      · exact same ▸ (List.getElem?_eq_some_iff.mp hen).1

theorem Offered.onTunnelData (o : Offered entries e said) {b : Bytes}
    (h : onTunnelData src room e b = some r) : Offered entries r.1 (said ++ r.2) := by
  simp only [ShareFileEnd.onTunnelData] at h
  split at h
  · exact o.idle rfl rfl rfl h
  · rename_i waiting
    rw [Decidable.not_not] at waiting
    induction b generalizing e with
    | nil => exact o.idle rfl rfl rfl h
    | cons c b ih =>
        have told : ∀ x, Offered entries { e with rbuf := x } said :=
          fun _ => ⟨o.same, o.told, o.moment⟩
        simp only [receive] at h
        split at h
        · exact (told []).resume waiting h
        · split at h
          · refine (told (e.rbuf ++ [c])).idle ?_ ?_ ?_ h <;> rfl
          · exact ih (told (e.rbuf ++ [c])) waiting h

end ShareFileEnd

/-! ## The entries -/

namespace SourceFs
variable {src : SourceFs}

/-- A path below a directory. -/
def below (cs : List Name) : Bytes := cs.flatMap (slash :: ·)

theorem walk_spec (fuel : Nat) (dir pre : Bytes) : ∀ en ∈ src.walk fuel dir pre,
    ∃ cs : List Name, cs ≠ [] ∧ (∀ c ∈ cs, Plain c ∧ 0 ∉ c) ∧ en.relpath = pre ++ below cs ∧
      en.abspath = dir ++ below cs ∧ src.stat en.abspath = some (.reg en.size) := by
  induction fuel generalizing dir pre with
  | zero => nofun
  | succ fuel ih =>
      intro en hen
      rw [walk] at hen
      obtain ⟨n, hn, hen⟩ := List.mem_flatMap.mp hen
      have plain : Plain n ∧ 0 ∉ n := by
        have listed := (List.perm_insertionSort _ _).mem_iff.mp hn
        cases hd : src.readdir dir with
        | none =>
            rw [hd] at listed
            cases listed
        | some names =>
            rw [hd] at listed
            exact src.names_plain hd n listed
      have one : below [n] = slash :: n := List.append_nil _
      simp only at hen
      split at hen
      · obtain ⟨cs, -, all, rel, abs, size⟩ := ih _ _ en hen
        have path : below (n :: cs) = slash :: n ++ below cs := rfl
        refine ⟨n :: cs, List.cons_ne_nil _ _, ?_, ?_, ?_, size⟩
        · rintro c (_ | ⟨_, hc⟩)
          · exact plain
          · exact all c hc
        · rw [rel, path, List.append_assoc]
        · rw [abs, path, List.append_assoc]
      · rename_i size hsize
        rw [List.mem_singleton] at hen
        subst hen
        exact ⟨[n], List.cons_ne_nil _ _, by simpa using plain, by rw [one], by rw [one], hsize⟩
      · cases hen
      · cases hen

/-- What SHARE_FILE sets out to send can be offered. -/
theorem shareEntries_sound {path : Bytes} {entries : List Entry}
    (h : src.shareEntries path = .ok entries) (hz : 0 ∉ path) : ∀ en ∈ entries,
    en.relpath ≠ [] ∧ 0 ∉ en.relpath ∧ en.relpath.length < pathMax ∧ en.size < 2 ^ 63 := by
  have base : (basenameOf path).Sublist path := by
    rw [basenameOf]
    cases hl : (comps path).getLast? with
    | none => exact .refl path
    | some c => exact FileSystem.sublist_of_mem_comps (List.mem_of_getLast? hl)
  have clean : 0 ∉ basenameOf path := fun hm => hz (base.mem hm)
  intro en hen
  simp only [shareEntries] at h
  cases hs : src.stat path with
  | none =>
      simp only [hs] at h
      cases h
  | some st =>
      cases st with
      | other =>
          simp only [hs] at h
          cases h
      | reg size =>
          simp only [hs] at h
          cases h
          rw [List.mem_singleton] at hen
          subst hen
          obtain ⟨c, last, plain⟩ := src.reg_plain hs
          refine ⟨?_, clean, Nat.lt_of_le_of_lt base.length_le (src.stat_short hs), src.size_lt hs⟩
          simp only [basenameOf, last, Option.getD_some]
          exact plain.1
      | dir =>
          simp only [hs] at h
          have listed : en ∈ src.walk pathMax path (basenameOf path) := by
            split at h
            · cases h
            · cases h
            · rename_i l hl
              cases h
              cases hl
              exact hen
          obtain ⟨cs, some, all, rel, abs, size⟩ := walk_spec _ _ _ en listed
          refine ⟨?_, ?_, ?_, src.size_lt size⟩
          · rw [rel]
            cases cs with
            | nil => exact absurd rfl some
            | cons c cs => simp [below]
          · rw [rel]
            intro hm
            rcases List.mem_append.mp hm with hm | hm
            · exact clean hm
            · obtain ⟨c, hc, hm⟩ := List.mem_flatMap.mp hm
              rcases List.mem_cons.mp hm with zero | hm
              · exact absurd zero (by decide)
              · exact (all c hc).2 hm
          · have short := src.stat_short size
            have := base.length_le
            rw [abs, List.length_append] at short
            rw [rel, List.length_append]
            omega

end SourceFs
end Splice.Peer
