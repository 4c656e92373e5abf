import Splice.Common.Bytes
import Splice.Lib.Text
import Splice.Lib.Stdio
import Splice.Lib.Crc32

/-!
GET_FILE: a stream of headers and bodies is written below a target directory, or to
one target file. A body goes to `<dest>.part`, next to `<dest>.part.meta` with the
header it belongs to, and is renamed once its checksum is right; a matching pair found
later is resumed. Any call that changes the disk may be refused.
-/

namespace Splice.Peer
open Lib

/-! ## The disk, call by call -/

structure Files where
  fs : FileSystem
  /-- is the n-th call refused, writes apart? -/
  refuse : Nat → Bool := fun _ => false
  calls : Nat := 0
  /-- is the n-th write refused? -/
  full : Nat → Bool := fun _ => false
  writes : Nat := 0
  /-- every path created, opened for writing, renamed or removed; no code reads it -/
  touched : List Bytes := []

namespace Files

/-- One call on the given paths: its result, or `none` when it fails. -/
def call {α : Type} (w : Files) (paths : List Bytes)
    (op : FileSystem → Option (FileSystem × α)) : Option α × Files :=
  match if w.refuse w.calls then none else op w.fs with
  | none => (none, { w with calls := w.calls + 1 })
  | some (fs, a) =>
      (some a, { w with fs := fs, calls := w.calls + 1, touched := w.touched ++ paths })

def mkdir (w : Files) (path : Bytes) : Files :=
  (w.call [cstr path] fun fs =>
    match fs.mkdir (cstr path) with
    | .ok fs' => some (fs', ())
    | .error _ => none).2

/-- `fopen(path, "wb")` -/
def openTrunc (w : Files) (path : Bytes) : Option Handle × Files :=
  w.call [cstr path] fun fs => (fs.openTrunc (cstr path)).map fun (fs', i) => (fs', ⟨i, 0, []⟩)

/-- `fopen(path, "r+b")` and a seek. -/
def openUpdate (w : Files) (path : Bytes) (off : Nat) : Option Handle × Files :=
  w.call [cstr path] fun fs => (fs.openUpdate (cstr path)).map fun i => (fs, ⟨i, off, []⟩)

/-- `fopen(path, "w")`, a text and `fclose`. -/
def writeText (w : Files) (path text : Bytes) : Files :=
  (w.call [cstr path] fun fs => (fs.openTrunc (cstr path)).map fun (fs', i) =>
    (fs'.setData i text, ())).2

def remove (w : Files) (path : Bytes) : Files :=
  (w.call [cstr path] fun fs => (fs.remove (cstr path)).map (·, ())).2

def rename (w : Files) (old new : Bytes) : Bool × Files :=
  match w.call [cstr old, cstr new] fun fs => (fs.rename (cstr old) (cstr new)).map (·, ()) with
  | (some _, w') => (true, w')
  | (none, w') => (false, w')

def fclose (w : Files) (h : Handle) : Files := { w with fs := h.fclose w.fs }

/-- Make every directory on the way to a path: one for each cut before a slash and one for
the whole; `cur` is what was cut off so far. -/
def mkdirs (w : Files) (cur : Bytes) : Bytes → Files
  | [] => if cur = [] ∨ cur = dot then w else w.mkdir cur
  | b :: rest =>
      if b = slash then
        (if cur = [] ∨ cur = dot then w else w.mkdir cur).mkdirs (cur ++ [b]) rest
      else w.mkdirs (cur ++ [b]) rest

end Files

/-! ## Names and texts -/

/-- A received path with its empty components, "." and ".." left out. -/
def safeRelpath (rel : Bytes) : Bytes :=
  let kept := (comps rel).filter fun c => !(c = [] || c = dot || c = dotdot)
  if kept = [] then str "received.file" else List.intercalate [slash] kept

/-- What stands before the last slash. -/
def dirnameOf (s : Bytes) : Bytes := (s.reverse.dropWhile (· ≠ slash)).tail.reverse

def crc32File (fs : FileSystem) (path : Bytes) (upto : Nat) : UInt32 :=
  crc32Update 0 (((fs.read (cstr path)).getD []).take upto)

def hex8 (v : UInt32) : Bytes := hex 8 v.toNat

/-- `SPLF2 <size> <crc8hex> <relpath>` -/
def parseHeader (line : Bytes) : Option (Nat × UInt32 × Bytes) :=
  let p := cstr (line.drop 6)
  let (size, rest) := strtoul 10 p
  if rest = p ∨ rest.head? ≠ some 32 then none
  else
    let (crc, rest) := strtoul 16 rest.tail
    if rest.head? ≠ some 32 ∨ rest.tail = [] then none
    else some (size, UInt32.ofNat crc, rest.tail)

/-- A number that `sscanf` reads; it needs a digit. -/
def scanNumber (base : Nat) (s : Bytes) : Option (Nat × Bytes) :=
  if startsWithDigit base (numeralStart base s).2 then some (strtoul base s) else none

/-- `fgets` and `sscanf "%llu %x %767[^\n]"` -/
def scanMeta (text : Bytes) : Option (Nat × UInt32 × Bytes) :=
  (scanNumber 10 (cstr (firstLine (text.take 1023)))).bind fun (size, rest) =>
    (scanNumber 16 rest).bind fun (crc, rest) =>
      let rel := (rest.dropWhile isSpace).take 767
      if rel = [] then none else some (size, UInt32.ofNat crc, rel)

def metaText (size : Nat) (crc : UInt32) (rel : Bytes) : Bytes :=
  decimal size ++ [32] ++ hex8 crc ++ [32] ++ rel ++ [newline]

/-! ## The receiving end -/

inductive RecvState
  | header
  | recv
  | done
  deriving DecidableEq

structure GetFileEnd where
  target : Bytes
  overwrite : Bool
  state : RecvState := .header
  hdr : Bytes := []
  size : Nat := 0
  wantCrc : UInt32 := 0
  relpath : Bytes := []
  dest : Bytes := []
  file : Option Handle := none
  crc : UInt32 := 0
  got : Nat := 0
  files : Nat := 0
  done : Bool := false
  err : Bytes := []
  /-- what went into the tunnel -/
  sent : Bytes := []
  /-- has it asked the daemon to close the instance? -/
  shut : Bool := false

namespace GetFileEnd

def maxHeader : Nat := 8192

def part (e : GetFileEnd) : Bytes := e.dest ++ str ".part"

def meta_ (e : GetFileEnd) : Bytes := e.dest ++ str ".part.meta"

/-- The directory files are placed in by their relative paths, if it is one. -/
def dir (e : GetFileEnd) : Bytes := if e.target = [] then dot else e.target

def closeFile (e : GetFileEnd) (w : Files) : GetFileEnd × Files :=
  match e.file with
  | none => (e, w)
  | some h => ({ e with file := none }, w.fclose h)

def fail (e : GetFileEnd) (w : Files) (why : Bytes) : GetFileEnd × Files :=
  let (e, w) := e.closeFile w
  ({ e with err := why, shut := true }, w)

def finishEntry (e : GetFileEnd) (w : Files) : GetFileEnd × Files :=
  let (e, w) := e.closeFile w
  if e.crc ≠ e.wantCrc then
    e.fail ((w.remove e.part).remove e.meta_)
      (str "checksum mismatch for '" ++ e.dest ++ str "'")
  else
    match w.rename e.part e.dest with
    | (false, w) => e.fail w (str "rename failed for '" ++ e.dest ++ str "'")
    | (true, w) => ({ e with files := e.files + 1, state := .header }, w.remove e.meta_)

/-- Where the file goes. Directories on the way are made. -/
def destination (e : GetFileEnd) (w : Files) : Bytes × Files :=
  if w.fs.isDir (cstr e.dir) then
    let dest := e.dir ++ [slash] ++ safeRelpath e.relpath
    (dest, w.mkdirs [] (dirnameOf dest))
  else (e.target, w)

/-- How much of a kept `.part` can be used, and the checksum of it. -/
def resumeAt (e : GetFileEnd) (fs : FileSystem) : Nat × UInt32 :=
  if fs.exist (cstr e.part) ∧ fs.exist (cstr e.meta_) ∧
      scanMeta ((fs.read (cstr e.meta_)).getD []) = some (e.size, e.wantCrc, e.relpath) then
    let size := ((fs.stat (cstr e.part)).map fs.nodeSize).getD 0
    if size ≤ e.size then (size, crc32File fs e.part size) else (0, 0)
  else (0, 0)

/-- From here on data is expected; an entry may be complete at once. -/
def startRecv (e : GetFileEnd) (w : Files) (h : Handle) (off : Nat) (crc : UInt32) :
    GetFileEnd × Files :=
  let e := { e with
    file := some h, crc := crc, got := off, state := .recv,
    sent := e.sent ++ str "RESUME " ++ decimal off ++ [newline] }
  if e.got = e.size then e.finishEntry w else (e, w)

def openPart (e : GetFileEnd) (w : Files) : GetFileEnd × Files :=
  let (off, crc) := e.resumeAt w.fs
  let (file, w) :=
    if off > 0 then w.openUpdate e.part off
    else
      let (file, w) := w.openTrunc e.part
      (file, w.writeText e.meta_ (metaText e.size e.wantCrc e.relpath))
  match file with
  | none => e.fail w (str "cannot write '" ++ e.part ++ str "'")
  | some h => e.startRecv w h off crc

/-- A header has been read: the file it names is refused or received. -/
def placeEntry (e : GetFileEnd) (w : Files) : GetFileEnd × Files :=
  let (dest, w) := e.destination w
  let e := { e with dest := dest }
  if !e.overwrite && w.fs.exist (cstr e.dest) then
    e.fail w (str "'" ++ e.dest ++ str "' exists (use -f)")
  else e.openPart w

def handleHeader (e : GetFileEnd) (w : Files) (line : Bytes) : GetFileEnd × Files :=
  if line = str "SPLF2-END" then ({ e with done := true, state := .done, shut := true }, w)
  else if ¬ str "SPLF2 " <+: line then e.fail w (str "not a SHARE_FILE pipe (bad header)")
  else match parseHeader line with
    | none => e.fail w (str "bad header")
    | some (size, crc, rel) =>
        { e with size := size, wantCrc := crc, relpath := rel }.placeEntry w

/-- Header bytes up to a newline. -/
inductive Scan
  | more (hdr : Bytes)
  | line (line rest : Bytes)
  | long (hdr : Bytes)

def scanHeader (hdr : Bytes) : Bytes → Scan
  | [] => .more hdr
  | c :: rest =>
      if c = newline then .line hdr rest
      else if maxHeader < (hdr ++ [c]).length then .long (hdr ++ [c])
      else scanHeader (hdr ++ [c]) rest

/-- One round of the loop in `on_tunnel_data`, and the bytes left. -/
def round (e : GetFileEnd) (w : Files) (b : Bytes) : (GetFileEnd × Files) × Bytes :=
  match e.state with
  | .header =>
      match scanHeader e.hdr b with
      | .more hdr => (({ e with hdr := hdr }, w), [])
      | .line line rest => (({ e with hdr := [] }).handleHeader w line, rest)
      | .long hdr => (({ e with hdr := hdr }).fail w
          (str "not a SHARE_FILE pipe (no header)"), [])
  | .recv =>
      let keep := min b.length (e.size - e.got)
      if keep ≠ 0 ∧ w.full w.writes then
        (e.fail { w with writes := w.writes + 1 } (str "write failed"), [])
      else
        let w := if keep ≠ 0 then { w with writes := w.writes + 1 } else w
        let e := { e with
          file := e.file.map (·.fwrite (b.take keep)),
          crc := crc32Update e.crc (b.take keep), got := e.got + keep }
        (if e.got = e.size then e.finishEntry w else (e, w), b.drop keep)
  | .done => ((e, w), [])

/-- Every round takes bytes or leaves `recv`, so twice as many rounds as bytes are enough. -/
def rounds : Nat → GetFileEnd → Files → Bytes → GetFileEnd × Files
  | 0, e, w, _ => (e, w)
  | fuel + 1, e, w, b =>
      if b = [] ∨ e.done ∨ e.err ≠ [] then (e, w)
      else
        let ((e, w), b) := e.round w b
        rounds fuel e w b

def onTunnelData (e : GetFileEnd) (w : Files) (b : Bytes) : GetFileEnd × Files :=
  rounds (2 * b.length + 1) e w b

/-- A `.part` and its `.part.meta` stay for a later run. -/
def onTunnelClosed (e : GetFileEnd) (w : Files) : GetFileEnd × Files :=
  if e.done ∨ e.err ≠ [] then (e, w)
  else
    let (e, w) := e.closeFile w
    ({ e with err := str "incomplete (the connection closed early)" }, w)

/-- The C library hands buffered bytes on when it likes. -/
def flush (e : GetFileEnd) (w : Files) (n : Nat) : GetFileEnd × Files :=
  match e.file with
  | none => (e, w)
  | some h => ({ e with file := some (h.flush n w.fs).1 }, { w with fs := (h.flush n w.fs).2 })

/-! ## Runs -/

inductive Event
  | data (b : Bytes)
  | closed
  | flush (n : Nat)

def on (e : GetFileEnd) (w : Files) : Event → GetFileEnd × Files
  | .data b => e.onTunnelData w b
  | .closed => e.onTunnelClosed w
  | .flush n => e.flush w n

def run (e : GetFileEnd) (w : Files) : List Event → GetFileEnd × Files
  | [] => (e, w)
  | a :: as => (e.on w a).1.run (e.on w a).2 as

end GetFileEnd
end Splice.Peer
