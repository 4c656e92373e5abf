import Splice.Peer.Confinement
import Splice.Peer.Segments

/-!
GET_FILE over a C library that fails where nobody looks: a buffer can be lost when its
file is closed, a seek can leave the position where it was, and the kept part may not
open, or not to its end, for its checksum. None of the three results is read.
-/

namespace Splice.Peer
open Lib FileSystem

/-- What the calls without a check do, by the number of calls before them. -/
structure Stdio where
  /-- of so many buffered bytes, how many reach the file that is closed -/
  handed : Nat → Nat → Nat := fun _ n => n
  /-- does a seek move the position? -/
  seeks : Nat → Bool := fun _ => true
  /-- does `.part.meta` open for reading? -/
  reads : Nat → Bool := fun _ => true
  /-- how many bytes of a part `crc32_file` gets to see; none when it cannot be opened -/
  checked : Nat → Nat → Nat := fun _ n => n
  /-- how many bytes of its text get into `.part.meta` -/
  noted : Nat → Nat → Nat := fun _ n => n
  /-- how many bytes a failing `fwrite` takes all the same -/
  taken : Nat → Nat := fun _ => 0

/-- How an entry was begun. -/
structure Begun where
  /-- the part that is resumed -/
  kept : Bytes := []
  /-- what its checksum was taken of -/
  checked : Bytes := []
  /-- is the position at its end? -/
  sought : Bool := true

/-- An entry that was renamed to its destination and counted. -/
structure Publication where
  size : Nat
  wantCrc : UInt32
  /-- what is at the destination then -/
  content : Bytes
  begun : Begun
  /-- what was buffered when the part was closed, and what of it reached the file -/
  buffered : Nat
  handed : Nat

/-- A receiving end and its disk. No code reads the last two fields. -/
structure Receiver where
  e : GetFileEnd
  w : Files
  begun : Begun := {}
  published : List Publication := []

namespace Receiver
variable (io : Stdio)

def closeFile (r : Receiver) : Receiver :=
  match r.e.file with
  | none => r
  | some h => { r with
      e := { r.e with file := none }
      w := { r.w with fs := (h.flush (io.handed r.w.calls h.buf.length) r.w.fs).2 } }

def fail (r : Receiver) (why : Bytes) : Receiver :=
  let r := r.closeFile io
  { r with e := { r.e with err := why, shut := true } }

def buffered (r : Receiver) : Nat := (r.e.file.map (·.buf.length)).getD 0

def finishEntry (r : Receiver) : Receiver :=
  let buffered := r.buffered
  let handed := io.handed r.w.calls buffered
  let r := r.closeFile io
  if r.e.crc ≠ r.e.wantCrc then
    { r with w := (r.w.remove r.e.part).remove r.e.meta_ }.fail io
      (str "checksum mismatch for '" ++ r.e.dest ++ str "'")
  else
    match r.w.rename r.e.part r.e.dest with
    | (false, w) => { r with w := w }.fail io (str "rename failed for '" ++ r.e.dest ++ str "'")
    | (true, w) => { r with
        e := { r.e with files := r.e.files + 1, state := .header }
        w := w.remove r.e.meta_
        published := r.published ++ [{
          size := r.e.size, wantCrc := r.e.wantCrc,
          content := (w.fs.read (cstr r.e.dest)).getD [],
          begun := r.begun, buffered, handed }] }

/-- How much of a kept `.part` can be used, and what its checksum is taken of. -/
def resumeAt (r : Receiver) : Nat × Bytes :=
  let off := if io.reads r.w.calls then (r.e.resumeAt r.w.fs).1 else 0
  let kept := ((r.w.fs.read (cstr r.e.part)).getD []).take off
  (off, kept.take (io.checked r.w.calls kept.length))

/-- An entry whose bytes are all there is finished. -/
def complete (r : Receiver) : Receiver := if r.e.got = r.e.size then r.finishEntry io else r

def startRecv (r : Receiver) (h : Handle) (off : Nat) (crc : UInt32) : Receiver :=
  { r with e := { r.e with
    file := some h, crc := crc, got := off, state := .recv,
    sent := r.e.sent ++ str "RESUME " ++ decimal off ++ [newline] } }.complete io

def openPart (r : Receiver) : Receiver :=
  let (off, checked) := r.resumeAt io
  if off > 0 then
    let kept := (r.w.fs.read (cstr r.e.part)).getD []
    let (file, w) := r.w.openUpdate r.e.part 0
    let sought := io.seeks w.calls
    let r := { r with w := w, begun := { kept, checked, sought } }
    match file with
    | none => r.fail io (str "cannot write '" ++ r.e.part ++ str "'")
    | some h => r.startRecv io { h with pos := if sought then off else 0 } off
        (crc32Update 0 checked)
  else
    let (file, w) := r.w.openTrunc r.e.part
    let text := metaText r.e.size r.e.wantCrc r.e.relpath
    let w := w.writeText r.e.meta_ (text.take (io.noted w.calls text.length))
    let r := { r with w := w, begun := {} }
    match file with
    | none => r.fail io (str "cannot write '" ++ r.e.part ++ str "'")
    | some h => r.startRecv io h off (crc32Update 0 checked)

def placeEntry (r : Receiver) : Receiver :=
  let (dest, w) := r.e.destination r.w
  let r := { r with e := { r.e with dest := dest }, w := w }
  if !r.e.overwrite && r.w.fs.exist (cstr r.e.dest) then
    r.fail io (str "'" ++ r.e.dest ++ str "' exists (use -f)")
  else r.openPart io

def handleHeader (r : Receiver) (line : Bytes) : Receiver :=
  if line = str "SPLF2-END" then
    { r with e := { r.e with done := true, state := .done, shut := true } }
  else if ¬ str "SPLF2 " <+: line then r.fail io (str "not a SHARE_FILE pipe (bad header)")
  else match parseHeader line with
    | none => r.fail io (str "bad header")
    | some (size, crc, rel) =>
        { r with e := { r.e with size := size, wantCrc := crc, relpath := rel } }.placeEntry io

def write (r : Receiver) (b : Bytes) : Receiver :=
  { r with e := { r.e with file := r.e.file.map fun h => h.fwrite b } }

/-- One round of the loop in `on_tunnel_data`, and the bytes left. -/
def round (r : Receiver) (b : Bytes) : Receiver × Bytes :=
  match r.e.state with
  | .header =>
      match GetFileEnd.scanHeader r.e.hdr b with
      | .more hdr => ({ r with e := { r.e with hdr := hdr } }, [])
      | .line line rest => ({ r with e := { r.e with hdr := [] } }.handleHeader io line, rest)
      | .long hdr => ({ r with e := { r.e with hdr := hdr } }.fail io
          (str "not a SHARE_FILE pipe (no header)"), [])
  | .recv =>
      let keep := min b.length (r.e.size - r.e.got)
      if keep ≠ 0 ∧ r.w.full r.w.writes then
        let taken := (b.take keep).take (io.taken r.w.writes)
        (({ r with w := { r.w with writes := r.w.writes + 1 } }.write taken).fail io
          (str "write failed"), [])
      else
        let w := if keep ≠ 0 then { r.w with writes := r.w.writes + 1 } else r.w
        let r : Receiver := { r with w := w }.write (b.take keep)
        let r : Receiver := { r with e := { r.e with
          crc := crc32Update r.e.crc (b.take keep), got := r.e.got + keep } }
        (r.complete io, b.drop keep)
  | .done => (r, [])

def rounds : Nat → Receiver → Bytes → Receiver
  | 0, r, _ => r
  | fuel + 1, r, b =>
      if b = [] ∨ r.e.done ∨ r.e.err ≠ [] then r
      else rounds fuel (r.round io b).1 (r.round io b).2

def onTunnelData (r : Receiver) (b : Bytes) : Receiver := rounds io (2 * b.length + 1) r b

def onTunnelClosed (r : Receiver) : Receiver :=
  if r.e.done ∨ r.e.err ≠ [] then r
  else
    let r := r.closeFile io
    { r with e := { r.e with err := str "incomplete (the connection closed early)" } }

/-- The C library hands buffered bytes on when it likes. -/
def flush (r : Receiver) (n : Nat) : Receiver :=
  match r.e.file with
  | none => r
  | some h => { r with
      e := { r.e with file := some (h.flush n r.w.fs).1 }
      w := { r.w with fs := (h.flush n r.w.fs).2 } }

def on (r : Receiver) : GetFileEnd.Event → Receiver
  | .data b => r.onTunnelData io b
  | .closed => r.onTunnelClosed io
  | .flush n => r.flush n

def run (r : Receiver) (as : List GetFileEnd.Event) : Receiver := as.foldl (on io) r

/-! ## A library that does not fail -/

/-- The same step on the end and the disk alone. -/
def At (r : Receiver) (p : GetFileEnd × Files) : Prop := (r.e, r.w) = p

theorem closeFile_plain (r : Receiver) : (r.closeFile {}).At (r.e.closeFile r.w) := by
  simp only [At, closeFile, GetFileEnd.closeFile]
  cases r.e.file with
  | none => rfl
  | some h => rfl

theorem fail_plain (r : Receiver) (why : Bytes) : (r.fail {} why).At (r.e.fail r.w why) := by
  have closed := r.closeFile_plain
  simp only [At, fail, GetFileEnd.fail] at closed ⊢
  rw [← closed]

theorem finishEntry_plain (r : Receiver) : (r.finishEntry {}).At (r.e.finishEntry r.w) := by
  have closed := r.closeFile_plain
  simp only [At] at closed
  simp only [finishEntry, GetFileEnd.finishEntry, ← closed]
  split
  · exact fail_plain _ _
  · generalize (r.closeFile {}).w.rename (r.closeFile {}).e.part (r.closeFile {}).e.dest = moved
    obtain ⟨_ | _, w⟩ := moved
    · exact fail_plain _ _
    · rfl

theorem complete_plain (r : Receiver) :
    (r.complete {}).At (if r.e.got = r.e.size then r.e.finishEntry r.w else (r.e, r.w)) := by
  rw [complete]
  split
  · exact r.finishEntry_plain
  · rfl

theorem startRecv_plain (r : Receiver) (h : Handle) (off : Nat) (crc : UInt32) :
    (r.startRecv {} h off crc).At (r.e.startRecv r.w h off crc) := by
  rw [startRecv, GetFileEnd.startRecv]
  exact complete_plain _

theorem resumeAt_plain (r : Receiver) :
    ((r.resumeAt {}).1, crc32Update 0 (r.resumeAt {}).2) = r.e.resumeAt r.w.fs := by
  simp only [resumeAt, if_true, List.take_length, GetFileEnd.resumeAt]
  split
  · split
    · rfl
    · simp
  · simp

theorem openUpdate_pos (w : Files) (path : Bytes) (off : Nat) :
    w.openUpdate path off =
      ((w.openUpdate path 0).1.map fun h => { h with pos := off }, (w.openUpdate path 0).2) := by
  simp only [Files.openUpdate, Files.call]
  split
  · rename_i none
    split at none
    · rename_i refused
      simp [refused]
    · rename_i go
      cases opened : w.fs.openUpdate (cstr path) with
      | none => simp [go]
      | some i => simp [opened] at none
  · rename_i fs a some
    split at some
    · cases some
    · rename_i go
      cases opened : w.fs.openUpdate (cstr path) with
      | none => simp [opened] at some
      | some i =>
          simp only [opened, Option.map_some, Option.some.injEq, Prod.mk.injEq] at some
          obtain ⟨rfl, rfl⟩ := some
          simp [go]

theorem openPart_plain (r : Receiver) : (r.openPart {}).At (r.e.openPart r.w) := by
  have resume := r.resumeAt_plain
  rw [openPart, GetFileEnd.openPart, ← resume]
  dsimp only
  by_cases off : (r.resumeAt {}).1 > 0
  · rw [if_pos off, if_pos off, openUpdate_pos r.w r.e.part (r.resumeAt {}).1]
    cases (r.w.openUpdate r.e.part 0).1 with
    | none => exact fail_plain _ _
    | some h => exact startRecv_plain _ _ _ _
  · rw [if_neg off, if_neg off]
    dsimp only
    rw [List.take_length]
    cases (r.w.openTrunc r.e.part).1 with
    | none => exact fail_plain _ _
    | some h => exact startRecv_plain _ _ _ _

theorem placeEntry_plain (r : Receiver) : (r.placeEntry {}).At (r.e.placeEntry r.w) := by
  rw [placeEntry, GetFileEnd.placeEntry]
  dsimp only
  split
  · exact fail_plain _ _
  · exact openPart_plain _

theorem handleHeader_plain (r : Receiver) (line : Bytes) :
    (r.handleHeader {} line).At (r.e.handleHeader r.w line) := by
  rw [handleHeader, GetFileEnd.handleHeader]
  split
  · rfl
  · split
    · exact fail_plain _ _
    · cases parseHeader line with
      | none => exact fail_plain _ _
      | some p => exact placeEntry_plain _

theorem round_header {r : Receiver} (header : r.e.state = .header) (b : Bytes) : r.round io b =
    match GetFileEnd.scanHeader r.e.hdr b with
    | .more hdr => ({ r with e := { r.e with hdr := hdr } }, [])
    | .line line rest => ({ r with e := { r.e with hdr := [] } }.handleHeader io line, rest)
    | .long hdr => ({ r with e := { r.e with hdr := hdr } }.fail io
        (str "not a SHARE_FILE pipe (no header)"), []) := by
  rw [round, header]

theorem round_plain_recv {r : Receiver} (receiving : r.e.state = .recv) (b : Bytes) :
    (r.round {} b).1.At (r.e.round r.w b).1 ∧ (r.round {} b).2 = (r.e.round r.w b).2 := by
  have unfolds : r.e.round r.w b =
      let keep := min b.length (r.e.size - r.e.got)
      if keep ≠ 0 ∧ r.w.full r.w.writes then
        (r.e.fail { r.w with writes := r.w.writes + 1 } (str "write failed"), [])
      else
        let w := if keep ≠ 0 then { r.w with writes := r.w.writes + 1 } else r.w
        let e : GetFileEnd := { r.e with
          file := r.e.file.map (·.fwrite (b.take keep)),
          crc := crc32Update r.e.crc (b.take keep), got := r.e.got + keep }
        (if e.got = e.size then e.finishEntry w else (e, w), b.drop keep) := by
    rw [GetFileEnd.round]
    split
    · rename_i header
      cases receiving.symm.trans header
    · rfl
    · rename_i done
      cases receiving.symm.trans done
  have same : { r with w := { r.w with writes := r.w.writes + 1 } }.write [] =
      { r with w := { r.w with writes := r.w.writes + 1 } } := by
    simp [write, Handle.fwrite]
  rw [unfolds, round]
  split
  · rename_i header
    cases receiving.symm.trans header
  · dsimp only
    rw [List.take_zero, same]
    split
    · exact ⟨fail_plain _ _, rfl⟩
    · exact ⟨complete_plain _, rfl⟩
  · rename_i done
    cases receiving.symm.trans done

theorem round_plain (r : Receiver) (b : Bytes) :
    (r.round {} b).1.At (r.e.round r.w b).1 ∧ (r.round {} b).2 = (r.e.round r.w b).2 := by
  cases state : r.e.state with
  | header =>
      rw [round_header {} state, GetFileEnd.round_header state]
      cases GetFileEnd.scanHeader r.e.hdr b with
      | more hdr => exact ⟨rfl, rfl⟩
      | line line rest => exact ⟨handleHeader_plain _ _, rfl⟩
      | long hdr => exact ⟨fail_plain _ _, rfl⟩
  | recv => exact round_plain_recv state b
  | done =>
      rw [round, GetFileEnd.round, state]
      exact ⟨rfl, rfl⟩

theorem rounds_plain (fuel : Nat) (r : Receiver) (b : Bytes) :
    (rounds {} fuel r b).At (GetFileEnd.rounds fuel r.e r.w b) := by
  induction fuel generalizing r b with
  | zero => rfl
  | succ fuel ih =>
      obtain ⟨same, rest⟩ := r.round_plain b
      rw [rounds, GetFileEnd.rounds]
      split
      · rfl
      · simp only [At] at same
        have whole : r.e.round r.w b =
            (((r.round {} b).1.e, (r.round {} b).1.w), (r.round {} b).2) := Prod.ext same.symm rest.symm
        rw [whole]
        exact ih _ _

/-- Where nothing fails unseen, this is the receiving end. -/
theorem run_plain (r : Receiver) (as : List GetFileEnd.Event) :
    (r.run {} as).At (r.e.run r.w as) := by
  induction as generalizing r with
  | nil => rfl
  | cons a as ih =>
      have step : (r.on {} a).At (r.e.on r.w a) := by
        cases a with
        | data b => exact rounds_plain _ r b
        | closed =>
            have closed := r.closeFile_plain
            simp only [At] at closed
            simp only [on, GetFileEnd.on, onTunnelClosed, GetFileEnd.onTunnelClosed, ← closed]
            split
            · rfl
            · rfl
        | flush n =>
            simp only [on, GetFileEnd.on, flush, GetFileEnd.flush]
            cases r.e.file with
            | none => rfl
            | some h => rfl
      simp only [At] at step
      rw [GetFileEnd.run, ← step]
      exact ih _

end Receiver

/-! ## What is published -/

namespace Publication

/-- It is what was announced. -/
def Whole (p : Publication) : Prop :=
  p.content.length = p.size ∧ crc32Update 0 p.content = p.wantCrc

instance (p : Publication) : Decidable p.Whole := inferInstanceAs (Decidable (_ ∧ _))

/-- No failure on the way made a difference: the last bytes reached the file when it was
closed; the seek was done, or there was nothing to write; and the checksum of what was read
of the kept part is that of the part. -/
structure Faultless (p : Publication) : Prop where
  handed : p.buffered ≤ p.handed
  sought : p.begun.sought = true ∨ p.begun.kept.length = p.size
  checked : crc32Update 0 p.begun.checked = crc32Update 0 p.begun.kept

end Publication

namespace Begun
variable {g : Begun} {body : Bytes} {m : Nat}

/-- Where the first byte goes. -/
def base (g : Begun) : Nat := if g.sought then g.kept.length else 0

/-- The part after some bytes of the body have reached it. -/
def part (g : Begun) (body : Bytes) : Bytes := writeAt g.kept g.base body

theorem part_sought (sought : g.sought = true) (body : Bytes) : g.part body = g.kept ++ body := by
  rw [part, base, if_pos sought, writeAt_end]

theorem length_part_lost (lost : g.sought = false) (some : body ≠ []) :
    (g.part body).length = max g.kept.length body.length := by
  rw [part, base, lost, if_neg Bool.false_ne_true, length_writeAt _ _ some, Nat.zero_add]

/-- A body's front has the length of the whole only if it is the whole. -/
theorem whole_of_length (resumed : g.sought = false → g.kept ≠ []) (hm : m ≤ body.length)
    (length : (g.part (body.take m)).length = g.kept.length + body.length) :
    m = body.length ∧ (g.sought = true ∨ body = []) := by
  have taken : (body.take m).length = m := List.length_take_of_le hm
  cases sought : g.sought with
  | true =>
      rw [part_sought sought, List.length_append, taken] at length
      exact ⟨by omega, .inl rfl⟩
  | false =>
      have positive : 0 < g.kept.length := List.length_pos_iff.mpr (resumed sought)
      by_cases some : body.take m = []
      · rw [some, part, writeAt_nil] at length
        have empty : body.length = 0 := by omega
        exact ⟨by omega, .inr (List.eq_nil_of_length_eq_zero empty)⟩
      · have : m ≠ 0 := by
          rintro rfl
          exact some rfl
        rw [length_part_lost sought some, taken] at length
        omega

/-- Once the checksum over the stream is right, the part is right just if nothing failed. -/
theorem part_whole_iff (resumed : g.sought = false → g.kept ≠ []) (hm : m ≤ body.length) :
    ((g.part (body.take m)).length = g.kept.length + body.length ∧
      crc32Update 0 (g.part (body.take m)) = crc32Update (crc32Update 0 g.checked) body) ↔
    m = body.length ∧ (g.sought = true ∨ body = []) ∧
      crc32Update 0 g.checked = crc32Update 0 g.kept := by
  have content : (g.sought = true ∨ body = []) → g.part body = g.kept ++ body := by
    rintro (sought | rfl)
    · exact part_sought sought body
    · rw [part, writeAt_nil, List.append_nil]
  constructor
  · rintro ⟨length, crc⟩
    obtain ⟨rfl, sought⟩ := whole_of_length resumed hm length
    rw [List.take_length, content sought, crc32Update_append] at crc
    exact ⟨rfl, sought, (crc32Update_inj crc).symm⟩
  · rintro ⟨rfl, sought, checked⟩
    rw [List.take_length, content sought, checked, crc32Update_append, List.length_append]
    exact ⟨rfl, rfl⟩

end Begun

namespace Receiver
variable {io : Stdio} {r : Receiver} {h : Handle} {body : Bytes} {m : Nat}

/-- An open entry: `m` bytes of the body so far have reached the part, the others wait. -/
structure Opened (r : Receiver) (h : Handle) (body : Bytes) (m : Nat) : Prop where
  clean : 0 ∉ r.e.dest
  part : ∃ p, r.w.fs.resolve (cstr r.e.part) = some p ∧ r.w.fs.node p = some (.file h.ino)
  front : m ≤ body.length
  data : r.w.fs.data h.ino = r.begun.part (body.take m)
  pos : h.pos = r.begun.base + m
  buf : h.buf = body.drop m
  got : r.e.got = r.begun.kept.length + body.length
  crc : r.e.crc = crc32Update (crc32Update 0 r.begun.checked) body
  resumed : r.begun.sought = false → r.begun.kept ≠ []

/-- What holds along a run. -/
structure Sound (r : Receiver) : Prop where
  clean : 0 ∉ r.e.target
  header : r.e.state = .header → r.e.file = none
  recv : r.e.state = .recv → r.e.err = [] → ∃ h, r.e.file = some h
  opened : ∀ h, r.e.file = some h → ∃ body m, r.Opened h body m
  counted : r.e.files = r.published.length
  published : ∀ p ∈ r.published, p.Whole ↔ p.Faultless

theorem Opened.handed (o : r.Opened h body m) (n : Nat) :
    (h.flush n r.w.fs).2.data h.ino = r.begun.part (body.take (m + n)) := by
  have length : (body.take m).length = m := List.length_take_of_le o.front
  simp only [Handle.flush, data_setData]
  rw [o.data, o.pos, o.buf, Begun.part, Begun.part, List.take_add, ← writeAt_append, length]

theorem Opened.flush (o : r.Opened h body m) (file : r.e.file = some h) (n : Nat) :
    (r.flush n).Opened (h.flush n r.w.fs).1 body (min (m + n) body.length) := by
  have handed := o.handed n
  have taken : (h.buf.take n).length = min (m + n) body.length - m := by
    rw [o.buf, List.length_take, List.length_drop]
    have := o.front
    omega
  have front := o.front
  simp only [Receiver.flush, file]
  obtain ⟨p, resolved, node⟩ := o.part
  refine ⟨o.clean, ⟨p, ?_, node⟩, Nat.min_le_right _ _, ?_, ?_, ?_, o.got, o.crc, o.resumed⟩
  · exact (resolve_flush h n r.w.fs _).trans resolved
  · refine handed.trans ?_
    rw [← List.take_eq_take_min]
  · simp only [Handle.flush]
    rw [taken, o.pos]
    omega
  · simp only [Handle.flush]
    rw [o.buf, List.drop_drop]
    by_cases all : m + n ≤ body.length
    · rw [Nat.min_eq_left all]
    · rw [List.drop_of_length_le (by omega), List.drop_of_length_le (by omega)]

/-- Nothing is open after a failure. -/
theorem sound_fail (clean : 0 ∉ r.e.target) (counted : r.e.files = r.published.length)
    (published : ∀ p ∈ r.published, p.Whole ↔ p.Faultless) {why : Bytes} (hwhy : why ≠ []) :
    Sound (r.fail io why) := by
  rw [fail, closeFile]
  split
  · rename_i file
    exact ⟨clean, fun _ => file, fun _ err => absurd err hwhy,
      fun h open_ => absurd (file.symm.trans open_) (by simp), counted, published⟩
  · exact ⟨clean, fun _ => rfl, fun _ err => absurd err hwhy, fun h open_ => (by cases open_),
      counted, published⟩

/-- The part is closed, with the bytes of its buffer that are handed on. -/
theorem Opened.closed (o : r.Opened h body m) (file : r.e.file = some h) :
    let c := r.closeFile io
    c.e = { r.e with file := none } ∧ c.begun = r.begun ∧ c.published = r.published ∧
      ∃ p, c.w.fs.resolve (cstr r.e.part) = some p ∧ c.w.fs.node p = some (.file h.ino) ∧
        c.w.fs.data h.ino = r.begun.part
          (body.take (min (m + io.handed r.w.calls r.buffered) body.length)) := by
  have waiting : r.buffered = h.buf.length := by
    rw [buffered, file, Option.map_some, Option.getD_some]
  obtain ⟨p, resolved, node⟩ := o.part
  simp only [closeFile, file, waiting]
  refine ⟨trivial, trivial, trivial, p, ?_, node, ?_⟩
  · exact (resolve_flush h _ r.w.fs _).trans resolved
  · rw [← List.take_eq_take_min]
    exact o.handed _

/-- What is renamed was announced so just when nothing failed. -/
theorem Opened.published_iff (o : r.Opened h body m) (file : r.e.file = some h)
    (complete : r.e.got = r.e.size) (right : r.e.crc = r.e.wantCrc) (n : Nat) :
    let p : Publication := {
      size := r.e.size, wantCrc := r.e.wantCrc,
      content := r.begun.part (body.take (min (m + n) body.length)),
      begun := r.begun, buffered := r.buffered, handed := n }
    p.Whole ↔ p.Faultless := by
  have waiting : r.buffered = body.length - m := by
    rw [buffered, file, Option.map_some, Option.getD_some, o.buf, List.length_drop]
  have size : r.e.size = r.begun.kept.length + body.length := complete.symm.trans o.got
  have front := o.front
  intro p
  have whole : p.Whole ↔ min (m + n) body.length = body.length ∧
      (r.begun.sought = true ∨ body = []) ∧
      crc32Update 0 r.begun.checked = crc32Update 0 r.begun.kept := by
    rw [← Begun.part_whole_iff o.resumed (Nat.min_le_right (m + n) body.length), ← size, ← o.crc,
      right]
    exact Iff.rfl
  rw [whole]
  constructor
  · rintro ⟨all, sought, checked⟩
    refine ⟨?_, sought.imp_right fun e => ?_, checked⟩
    · show r.buffered ≤ n
      omega
    · show r.begun.kept.length = r.e.size
      rw [size, e, List.length_nil, Nat.add_zero]
  · rintro ⟨handed, sought, checked⟩
    refine ⟨?_, sought.imp_right fun e => ?_, checked⟩
    · have : r.buffered ≤ n := handed
      omega
    · have : r.begun.kept.length = r.e.size := e
      exact List.eq_nil_of_length_eq_zero (by omega)

theorem Opened.sound_finishEntry (o : r.Opened h body m) (file : r.e.file = some h)
    (complete : r.e.got = r.e.size) (clean : 0 ∉ r.e.target)
    (counted : r.e.files = r.published.length)
    (published : ∀ p ∈ r.published, p.Whole ↔ p.Faultless) : Sound (r.finishEntry io) := by
  obtain ⟨entry, begun, past, p, resolved, node, data⟩ := o.closed file
  have said : ∀ a b : Bytes, str "checksum mismatch for '" ++ a ++ b ≠ [] ∧
      str "rename failed for '" ++ a ++ b ≠ [] := by
    intro a b
    simp [str]
  rw [finishEntry]
  dsimp only
  generalize r.closeFile io = c at *
  have clean' : 0 ∉ c.e.target := by
    rw [entry]
    exact clean
  have counted' : c.e.files = c.published.length := by
    rw [entry, past]
    exact counted
  rw [← past] at published
  have part : c.e.part = r.e.part := by
    rw [entry]
    rfl
  split
  · refine sound_fail ?_ ?_ ?_ (said _ _).1
    · exact clean'
    · exact counted'
    · exact published
  · rename_i right
    rw [not_not, entry] at right
    rw [← part] at resolved
    rcases c.w.rename_cases c.e.part c.e.dest resolved node with
      ⟨failed, -⟩ | ⟨dst, done, found, there, -, -, same, dirs, -⟩
    · split
      · refine sound_fail ?_ ?_ ?_ (said _ _).2
        · exact clean'
        · exact counted'
        · exact published
      · rename_i w renamed
        rw [renamed] at failed
        cases failed
    · split
      · rename_i w renamed
        rw [renamed] at done
        cases done
      · rename_i w renamed
        rw [renamed] at there same dirs
        have content : (w.fs.read (cstr c.e.dest)).getD [] = c.w.fs.data h.ino := by
          rw [FileSystem.read, stat, dirs.resolve, found, Option.bind_some, there]
          exact congrFun same _
        have shut : c.e.file = none := by
          rw [entry]
        refine ⟨clean', fun _ => shut, fun state => (by cases state),
          fun h' open_ => ?_, ?_, fun q hq => ?_⟩
        · cases shut.symm.trans open_
        · simp [counted']
        · rcases List.mem_append.mp hq with hq | hq
          · exact published q hq
          · rw [List.mem_singleton.mp hq, content, data, entry, begun]
            exact o.published_iff file complete right _

theorem Opened.sound_complete (o : r.Opened h body m) (file : r.e.file = some h)
    (receiving : r.e.state = .recv) (clean : 0 ∉ r.e.target)
    (counted : r.e.files = r.published.length)
    (published : ∀ p ∈ r.published, p.Whole ↔ p.Faultless) : Sound (r.complete io) := by
  rw [complete]
  split
  · rename_i full
    exact o.sound_finishEntry file full clean counted published
  · refine ⟨clean, fun header => ?_, fun _ _ => ⟨h, file⟩, fun h' open_ => ?_, counted, published⟩
    · cases receiving.symm.trans header
    · cases file.symm.trans open_
      exact ⟨body, m, o⟩

theorem sound_startRecv {off : Nat} {crc : UInt32} (place : 0 ∉ r.e.dest)
    (part : ∃ p, r.w.fs.resolve (cstr r.e.part) = some p ∧ r.w.fs.node p = some (.file h.ino))
    (data : r.w.fs.data h.ino = r.begun.kept) (pos : h.pos = r.begun.base) (buf : h.buf = [])
    (at_ : off = r.begun.kept.length) (right : crc = crc32Update 0 r.begun.checked)
    (resumed : r.begun.sought = false → r.begun.kept ≠ []) (clean : 0 ∉ r.e.target)
    (counted : r.e.files = r.published.length)
    (published : ∀ p ∈ r.published, p.Whole ↔ p.Faultless) : Sound (r.startRecv io h off crc) := by
  rw [startRecv]
  refine Opened.sound_complete (?_ : Opened _ h [] 0) rfl rfl clean counted published
  refine ⟨place, part, Nat.le_refl 0, ?_, pos, buf, at_, ?_, resumed⟩
  · rw [Begun.part, List.take_nil, writeAt_nil]
    exact data
  · rw [crc32Update_nil]
    exact right

/-- A part that is resumed is resumed at its end. -/
theorem resumeAt_length {e : GetFileEnd} {fs : FileSystem} {p : Path} {i : Nat}
    (resolved : fs.resolve (cstr e.part) = some p) (node : fs.node p = some (.file i))
    (some : 0 < (e.resumeAt fs).1) : (e.resumeAt fs).1 = (fs.data i).length := by
  have size : ((fs.stat (cstr e.part)).map fs.nodeSize).getD 0 = (fs.data i).length := by
    rw [stat, resolved, Option.bind_some, node]
    rfl
  rw [GetFileEnd.resumeAt] at some ⊢
  split
  · rename_i both
    rw [if_pos both] at some
    dsimp only at some ⊢
    split
    · exact size
    · rename_i past
      simp only [if_neg past, Nat.lt_irrefl] at some
  · rename_i one
    simp only [if_neg one, Nat.lt_irrefl] at some

/-- The part's own inode is not touched by what is written to `.part.meta`. -/
theorem writeText_part {w : Files} {dest text : Bytes} {p : Path} {i : Nat} (clean : 0 ∉ dest)
    (resolved : w.fs.resolve (cstr (dest ++ str ".part")) = some p)
    (node : w.fs.node p = some (.file i)) :
    let w' := w.writeText (dest ++ str ".part.meta") text
    w'.fs.resolve (cstr (dest ++ str ".part")) = some p ∧ w'.fs.node p = some (.file i) ∧
      w'.fs.data i = w.fs.data i := by
  rcases w.writeText_cases (dest ++ str ".part.meta") text with
    quiet | ⟨q, j, beside, -, -, -, -, edits, dirs, -⟩
  · simp only [quiet.fs]
    exact ⟨resolved, node, trivial⟩
  · have plain : ∀ s : Bytes, 0 ∉ s → cstr (dest ++ s) = dest ++ s := by
      intro s hs
      exact cstr_eq fun hm => (List.mem_append.mp hm).elim clean hs
    have apart : p ≠ q := by
      rw [plain _ (by decide)] at resolved beside
      exact resolve_endings (by decide) (by decide) (by decide) resolved beside
    refine ⟨?_, ?_, ?_⟩
    · rw [dirs.resolve]
      exact resolved
    · rw [edits.node p apart]
      exact node
    · exact edits.data p i apart node

theorem sound_openPart (place : 0 ∉ r.e.dest) (clean : 0 ∉ r.e.target)
    (counted : r.e.files = r.published.length)
    (published : ∀ p ∈ r.published, p.Whole ↔ p.Faultless) : Sound (r.openPart io) := by
  have said : str "cannot write '" ++ r.e.part ++ str "'" ≠ [] := by simp [str]
  rw [openPart]
  dsimp only
  split
  · rename_i some
    have some' : 0 < (r.e.resumeAt r.w.fs).1 ∧
        (r.resumeAt io).1 = (r.e.resumeAt r.w.fs).1 := by
      simp only [resumeAt] at some ⊢
      split
      · rename_i readable
        rw [if_pos readable] at some
        exact ⟨some, rfl⟩
      · rename_i closed
        simp [closed] at some
    rcases r.w.openUpdate_cases r.e.part 0 with
      ⟨none, -⟩ | ⟨h, p, opened, -, empty, resolved, node, same, -⟩
    · rw [none]
      refine sound_fail ?_ ?_ ?_ said
      · exact clean
      · exact counted
      · exact published
    · have length := resumeAt_length resolved node some'.1
      rw [← some'.2] at length
      have kept : (r.w.fs.read (cstr r.e.part)).getD [] = r.w.fs.data h.ino := by
        rw [FileSystem.read, stat, resolved, Option.bind_some, node]
        rfl
      have nonempty : r.w.fs.data h.ino ≠ [] := by
        refine List.length_pos_iff.mp ?_
        rw [← length]
        exact some
      rw [opened, kept]
      refine sound_startRecv place ⟨p, ?_, ?_⟩ ?_ ?_ empty length rfl (fun _ => nonempty) clean
        counted published
      · simp only [same]
        exact resolved
      · simp only [same]
        exact node
      · simp only [same]
      · simp only [Begun.base, length]
  · rename_i fresh
    have zero : (r.resumeAt io).1 = 0 := by omega
    have unread : (r.resumeAt io).2 = [] := by
      simp only [resumeAt] at zero ⊢
      rw [zero, List.take_zero, List.take_nil]
    rcases r.w.openTrunc_cases r.e.part with
      ⟨none, -⟩ | ⟨h, p, opened, start, empty, resolved, -, node, blank, -, dirs, -⟩
    · rw [none]
      refine sound_fail ?_ ?_ ?_ said
      · exact clean
      · exact counted
      · exact published
    · rw [← dirs.resolve] at resolved
      rw [opened]
      dsimp only
      generalize (metaText r.e.size r.e.wantCrc r.e.relpath).take _ = text
      obtain ⟨resolved', node', data⟩ := writeText_part place resolved node
      rw [zero, unread]
      exact sound_startRecv place ⟨p, resolved', node'⟩ (data.trans blank) start empty rfl rfl
        (fun lost => by cases lost) clean counted published

theorem sound_placeEntry (text : 0 ∉ r.e.relpath) (clean : 0 ∉ r.e.target)
    (counted : r.e.files = r.published.length)
    (published : ∀ p ∈ r.published, p.Whole ↔ p.Faultless) : Sound (r.placeEntry io) := by
  have place : 0 ∉ (r.e.destination r.w).1 := by
    by_cases dir : r.w.fs.isDir (cstr r.e.dir) = true
    · have base : 0 ∉ r.e.dir := by
        rw [GetFileEnd.dir]
        split
        · decide
        · exact clean
      exact (GetFileEnd.destination_dir dir base text).1.1
    · rw [GetFileEnd.destination, if_neg dir]
      exact clean
  rw [placeEntry]
  dsimp only
  split
  · refine sound_fail ?_ ?_ ?_ (by simp [str])
    · exact clean
    · exact counted
    · exact published
  · exact sound_openPart place clean counted published

theorem Sound.handleHeader (s : r.Sound) (header : r.e.state = .header) (line : Bytes) :
    Sound (r.handleHeader io line) := by
  have closed := s.header header
  rw [Receiver.handleHeader]
  split
  · refine ⟨s.clean, fun _ => closed, fun state => (by cases state), fun h open_ => ?_, s.counted,
      s.published⟩
    cases closed.symm.trans open_
  · split
    · exact sound_fail s.clean s.counted s.published (by simp [str])
    · split
      · exact sound_fail s.clean s.counted s.published (by simp [str])
      · rename_i size crc rel parsed
        exact sound_placeEntry (parseHeader_notMem parsed) s.clean s.counted s.published

/-- Bytes of the body join those that wait. -/
theorem Opened.received (o : r.Opened h body m) (b : Bytes) (w : Files) (same : w.fs = r.w.fs) :
    Opened { r with
        w := w
        e := { r.e with
          file := r.e.file.map fun h => h.fwrite b
          crc := crc32Update r.e.crc b
          got := r.e.got + b.length } }
      (h.fwrite b) (body ++ b) m := by
  have front := o.front
  obtain ⟨p, resolved, node⟩ := o.part
  refine ⟨o.clean, ⟨p, ?_, ?_⟩, ?_, ?_, o.pos, ?_, ?_, ?_, o.resumed⟩
  · rw [same]
    exact resolved
  · rw [same]
    exact node
  · rw [List.length_append]
    omega
  · rw [same, List.take_append_of_le_length front]
    exact o.data
  · rw [Handle.fwrite, List.drop_append_of_le_length front, o.buf]
  · rw [o.got, List.length_append, Nat.add_assoc]
  · rw [crc32Update_append, o.crc]

theorem Sound.receive (s : r.Sound) (receiving : r.e.state = .recv) (err : r.e.err = [])
    (b : Bytes) : Sound (r.round io b).1 := by
  obtain ⟨h, file⟩ := s.recv receiving err
  obtain ⟨body, m, o⟩ := s.opened h file
  have length : (b.take (min b.length (r.e.size - r.e.got))).length =
      min b.length (r.e.size - r.e.got) := by
    rw [List.length_take]
    omega
  rw [round]
  split
  · rename_i header
    cases receiving.symm.trans header
  · dsimp only
    split
    · refine sound_fail ?_ ?_ ?_ (by simp [str])
      · exact s.clean
      · exact s.counted
      · exact s.published
    · generalize hw : (if min b.length (r.e.size - r.e.got) ≠ 0 then
        { r.w with writes := r.w.writes + 1 } else r.w) = w
      have same : w.fs = r.w.fs := by
        rw [← hw]
        split
        · rfl
        · rfl
      have next := o.received (b.take (min b.length (r.e.size - r.e.got))) w same
      rw [length] at next
      refine next.sound_complete ?_ receiving s.clean s.counted s.published
      simp only [file, Option.map_some]
  · rename_i done
    cases receiving.symm.trans done

theorem Sound.round (s : r.Sound) (err : r.e.err = []) (b : Bytes) : Sound (r.round io b).1 := by
  cases state : r.e.state with
  | header =>
      have idle : ∀ hdr, Sound { r with e := { r.e with hdr := hdr } } := fun hdr =>
        ⟨s.clean, s.header, s.recv, fun h open_ => (by cases (s.header state).symm.trans open_),
          s.counted, s.published⟩
      rw [round_header io state]
      cases GetFileEnd.scanHeader r.e.hdr b with
      | more hdr => exact idle hdr
      | line line rest => exact (idle []).handleHeader state line
      | long hdr =>
          have said : str "not a SHARE_FILE pipe (no header)" ≠ [] := by simp [str]
          refine sound_fail ?_ ?_ ?_ said
          · exact s.clean
          · exact s.counted
          · exact s.published
  | recv => exact s.receive state err b
  | done =>
      rw [Receiver.round, state]
      exact s

theorem Sound.rounds (s : r.Sound) (fuel : Nat) (b : Bytes) : Sound (rounds io fuel r b) := by
  induction fuel generalizing r b with
  | zero => exact s
  | succ fuel ih =>
      rw [Receiver.rounds]
      split
      · exact s
      · rename_i go
        simp only [not_or, not_not] at go
        exact ih (s.round go.2.2 b) _

theorem Sound.onTunnelClosed (s : r.Sound) : Sound (r.onTunnelClosed io) := by
  have said : str "incomplete (the connection closed early)" ≠ [] := by simp [str]
  rw [Receiver.onTunnelClosed]
  split
  · exact s
  · rw [closeFile]
    split
    · rename_i file
      exact ⟨s.clean, s.header, fun _ err => absurd err said,
        fun h open_ => (by cases file.symm.trans open_), s.counted, s.published⟩
    · exact ⟨s.clean, fun _ => rfl, fun _ err => absurd err said,
        fun h open_ => (by cases open_), s.counted, s.published⟩

theorem Sound.flush (s : r.Sound) (n : Nat) : Sound (r.flush n) := by
  cases file : r.e.file with
  | none =>
      rw [Receiver.flush, file]
      exact s
  | some h =>
      obtain ⟨body, m, o⟩ := s.opened h file
      have next := o.flush file n
      rw [Receiver.flush, file] at next ⊢
      refine ⟨s.clean, fun header => ?_, fun _ _ => ⟨_, rfl⟩, fun h' open_ => ?_, s.counted,
        s.published⟩
      · cases (s.header header).symm.trans file
      · cases open_
        exact ⟨body, _, next⟩

theorem Sound.run (s : r.Sound) (as : List GetFileEnd.Event) : Sound (r.run io as) := by
  induction as generalizing r with
  | nil => exact s
  | cons a as ih =>
      cases a with
      | data b => exact ih (s.rounds _ b)
      | closed => exact ih s.onTunnelClosed
      | flush n => exact ih (s.flush n)

/-- Every file that a new end ever counts is what was announced just when no unseen failure
made a difference to it: whatever arrives, however it is cut, whatever is on the disk, and
whichever calls fail. -/
theorem published_whole_iff (io : Stdio) (w : Files) (target : Bytes) (overwrite : Bool)
    (clean : 0 ∉ target) (as : List GetFileEnd.Event) :
    let r := Receiver.run io { e := { target, overwrite }, w } as
    r.e.files = r.published.length ∧ ∀ p ∈ r.published, p.Whole ↔ p.Faultless := by
  have fresh : Sound { e := { target, overwrite }, w } :=
    ⟨clean, fun _ => rfl, fun state => (by cases state), fun h open_ => (by cases open_), rfl,
      fun p hp => (by cases hp)⟩
  exact ⟨(fresh.run as).counted, (fresh.run as).published⟩

/-- A file of one byte, received as `/a`. -/
def oneByte (io : Stdio) : Receiver :=
  Receiver.run io { e := { target := str "/a", overwrite := false }, w := { fs := empty } }
    [.data (str "SPLF2 1 e8b7be43 a\na")]

theorem oneByte_whole :
    (oneByte {}).e.files = 1 ∧ ∀ p ∈ (oneByte {}).published, p.Whole := by
  refine ⟨by decide +kernel, fun p hp => ?_⟩
  have counted := published_whole_iff {} { fs := empty } (str "/a") false (by decide)
    [.data (str "SPLF2 1 e8b7be43 a\na")]
  have only : ∀ p ∈ (oneByte {}).published, p.buffered ≤ p.handed ∧ p.begun.sought = true ∧
      crc32Update 0 p.begun.checked = crc32Update 0 p.begun.kept := by
    decide +kernel
  obtain ⟨handed, sought, checked⟩ := only p hp
  exact (counted.2 p hp).mpr ⟨handed, .inl sought, checked⟩

/-- A disk that is full when the part is closed: an empty file is counted as received. -/
theorem close_unread :
    ¬ ∀ (io : Stdio) (w : Files) (target : Bytes) (overwrite : Bool),
      0 ∉ target → ∀ as : List GetFileEnd.Event,
        ∀ p ∈ (Receiver.run io { e := { target, overwrite }, w } as).published, p.Whole := by
  intro whole
  have all := whole { handed := fun _ _ => 0 } { fs := empty } (str "/a") false (by decide)
    [.data (str "SPLF2 1 e8b7be43 a\na")]
  have lost : ∃ p ∈ (oneByte { handed := fun _ _ => 0 }).published, ¬ p.Whole := by
    decide +kernel
  obtain ⟨p, hp, not⟩ := lost
  exact not (all p hp)

end Receiver
end Splice.Peer
