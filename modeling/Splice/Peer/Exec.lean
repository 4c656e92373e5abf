import Splice.Common.Bytes
import Splice.Lib.Frames
import Splice.Lib.Run

/-!
A program that is offered, and the client that runs it. `ExecEnd` and `run_exec_client` talk
in frames over the tunnel; between them and the program, the terminal and the client's own
standard streams are reads and writes, whose results are inputs here.
-/

namespace Splice.Peer
open Lib

/-! ## The protocol -/

def kData : UInt8 := 0
def kWinsz : UInt8 := 1
def kEof : UInt8 := 2
def kOut : UInt8 := 16
def kErr : UInt8 := 17
def kExit : UInt8 := 18
def kExited : UInt8 := 0
def kSignaled : UInt8 := 1

/-- bytes per frame read -/
def kExecChunk : Nat := 4096

/-- What a `write` of something comes to. -/
inductive WriteResult
  | some (n : Nat)
  /-- `EINTR` -/
  | interrupted
  /-- `EAGAIN` -/
  | full
  | failed
  deriving DecidableEq

/-- What a `read` comes to: bytes, `EAGAIN` or `EINTR`, or the end. -/
inductive ReadResult
  | some (b : Bytes)
  | nothing
  | ended
  deriving DecidableEq

/-- What `waitpid` says. -/
inductive WaitResult
  | running
  | exited (code : UInt8)
  | signaled (sig : UInt8)
  /-- it can't be learned how it ended -/
  | unknown
  deriving DecidableEq

/-! ## The program's side -/

structure ExecEnd where
  pty : Bool
  /-- `in_`, `out_` and `err_`: is the descriptor open? -/
  input : Bool := true
  out : Bool := true
  err : Bool
  /-- incoming frames not yet complete -/
  ibuf : Bytes := []
  /-- for the program's input, not yet written -/
  inbuf : Bytes := []
  /-- trailing bytes of `inbuf` that are ours -/
  synthetic : Nat := 0
  eof : Bool := false
  reaped : Bool := false
  /-- `shutdown()` was called -/
  shut : Bool := false
  /-- the size of the terminal -/
  winsz : Bytes := [0, 24, 0, 80]
  /-- passed to `consumed` so far -/
  consumed : Nat := 0

namespace ExecEnd
variable (h : ExecEnd)

def account (n : Nat) : ExecEnd :=
  let real := h.inbuf.length - h.synthetic
  let k := min n real
  { h with synthetic := h.synthetic - min h.synthetic (n - k), consumed := h.consumed + k }

def dropInput : ExecEnd := { h.account h.inbuf.length with inbuf := [], input := false }

/-- The program sees the end of its input. -/
def closeAtEof : ExecEnd :=
  if h.input && h.inbuf.isEmpty && h.eof && !h.pty then { h with input := false } else h

/-- `flush_input`, with the results of its writes, and what it wrote. -/
def flushInput : List WriteResult → ExecEnd → Option (ExecEnd × Bytes)
  | [], h => if h.input && !h.inbuf.isEmpty then none else some (h.closeAtEof, [])
  | w :: ws, h =>
      if h.input && !h.inbuf.isEmpty then
        match w with
        | .some n =>
            if 0 < n ∧ n ≤ h.inbuf.length then
              (flushInput ws { h.account n with inbuf := h.inbuf.drop n }).map fun r =>
                (r.1, h.inbuf.take n ++ r.2)
            else none
        | .interrupted | .full => if ws = [] then some (h, []) else none
        | .failed => if ws = [] then some (h.dropInput, []) else none
      else none

/-- One frame from the client; `veof` is what ends input on the terminal. -/
def onFrame (veof : UInt8) (h : ExecEnd) (f : Frame) : ExecEnd :=
  if f.type = kData ∧ h.input = true ∧ h.eof = false then
    { h with inbuf := h.inbuf ++ f.payload, consumed := h.consumed + 3 }
  else
    have h := { h with consumed := h.consumed + (3 + f.payload.length) }
    if f.type = kWinsz ∧ f.payload.length = 4 ∧ h.pty = true ∧ h.out = true then
      { h with winsz := f.payload }
    else if f.type = kEof ∧ h.eof = false then
      if h.pty && h.input then
        { h with eof := true, inbuf := h.inbuf ++ [veof], synthetic := h.synthetic + 1 }
      else { h with eof := true }
    else h

def onTunnelData (veof : UInt8) (ws : List WriteResult) (b : Bytes) : Option (ExecEnd × Bytes) :=
  let r := Frame.drain (h.ibuf ++ b)
  flushInput ws { r.1.foldl (onFrame veof) h with ibuf := r.2 }

def finish (how code : UInt8) : ExecEnd × List Frame :=
  ({ { h with reaped := true }.dropInput with shut := true }, [⟨kExit, [how, code]⟩])

def maybeFinish (w : WaitResult) : ExecEnd × List Frame :=
  if h.reaped || h.out || h.err then (h, [])
  else match w with
    | .running => (h, [])
    | .unknown => ({ h with reaped := true, shut := true }, [])
    | .signaled sig => h.finish kSignaled sig
    | .exited code => h.finish kExited code

/-- `on_fd_ready(in_)` -/
def onWritable (ws : List WriteResult) (w : WaitResult) : Option (ExecEnd × Bytes × List Frame) :=
  (h.flushInput ws).map fun r => ((r.1.maybeFinish w).1, r.2, (r.1.maybeFinish w).2)

/-- `close_fd` of the program's errors or its output, and no more input for a terminal. -/
def outputEnded (isErr : Bool) : ExecEnd :=
  let h := if isErr then { h with err := false } else { h with out := false }
  if h.pty then h.dropInput else h

/-- `on_fd_ready` of the program's errors or its output. -/
def onReadable (isErr : Bool) (r : ReadResult) (w : WaitResult) : Option (ExecEnd × List Frame) :=
  if (if isErr then h.err else h.out) then
    match r with
    | .some b =>
        if b ≠ [] ∧ b.length ≤ kExecChunk then
          some ((h.maybeFinish w).1, ⟨if isErr then kErr else kOut, b⟩ :: (h.maybeFinish w).2)
        else none
    | .nothing => some (h.maybeFinish w)
    | .ended => some ((h.outputEnded isErr).maybeFinish w)
  else none

end ExecEnd

/-! ## The client's side -/

/-- `write_full`, with the results of its writes: what was written, whether that is all, and
the results that are left. -/
def writeFull : List WriteResult → Bytes → Option (Bytes × Bool × List WriteResult)
  | ws, [] => some ([], true, ws)
  | [], _ :: _ => none
  | .some n :: ws, b =>
      if 0 < n ∧ n ≤ b.length then
        (writeFull ws (b.drop n)).map fun r => (b.take n ++ r.1, r.2)
      else none
  | .interrupted :: ws, b => writeFull ws b
  | .full :: ws, _ | .failed :: ws, _ => some ([], false, ws)

structure ExecClient where
  /-- our terminal is handed over -/
  onTerm : Bool
  buf : Bytes := []
  stdinOpen : Bool := true
  status : Option Nat := none
  /-- the connection ended before the program -/
  lost : Bool := false
  /-- written to our standard output and error -/
  out : Bytes := []
  err : Bytes := []

/-- What happens around one turn of the loop. -/
structure ExecRound where
  /-- `SIGWINCH`: rows and columns -/
  winch : Option (Nat × Nat) := none
  /-- how much is read from the connection -/
  net : Option Nat := none
  /-- what is read from standard input; nothing is its end -/
  stdin : Option Bytes := none
  toOut : List WriteResult := []
  toErr : List WriteResult := []

namespace ExecClient
variable (c : ExecClient)

def sigpipe : Nat := 13

/-- One frame from the program, with what is left of the results of writes. -/
def onFrame (o e : List WriteResult) (f : Frame) :
    Option (ExecClient × List WriteResult × List WriteResult) :=
  if f.type = kErr then
    (writeFull e f.payload).map fun r => ({ c with err := c.err ++ r.1 }, o, r.2.2)
  else if f.type = kOut then
    (writeFull o f.payload).map fun r =>
      ({ c with
          out := c.out ++ r.1
          status := if r.2.1 then c.status else some (128 + sigpipe) }, r.2.2, e)
  else match f.payload with
    | [how, code] =>
        if f.type = kExit then
          some ({ c with
            status := some (if how = kSignaled then 128 + code.toNat else code.toNat) }, o, e)
        else some (c, o, e)
    | _ => some (c, o, e)

/-- The frames in order, until there is a status. -/
def onFrames (c : ExecClient) (o e : List WriteResult) :
    List Frame → Option (ExecClient × List WriteResult × List WriteResult)
  | [] => some (c, o, e)
  | f :: fs => (c.onFrame o e f).bind fun r =>
      if r.1.status.isSome then some r else onFrames r.1 r.2.1 r.2.2 fs

/-- Bytes of the connection; `buf` is not read again once there is a status. -/
def receive (o e : List WriteResult) (b : Bytes) : Option ExecClient :=
  let r := Frame.drain (c.buf ++ b)
  (c.onFrames o e r.1).bind fun p =>
    if p.2.1 = [] ∧ p.2.2 = [] then some { p.1 with buf := r.2 } else none

def winchFrames : Option (Nat × Nat) → List Frame
  | some (rows, cols) => if c.onTerm then [⟨kWinsz, bigEndian 2 rows ++ bigEndian 2 cols⟩] else []
  | none => []

/-- What was read from standard input is sent. -/
def onStdin : Option Bytes → Option (ExecClient × List Frame)
  | none => some (c, [])
  | some b =>
      if c.stdinOpen && b.length ≤ kExecChunk then
        if b = [] then some ({ c with stdinOpen := false }, [⟨kEof, []⟩])
        else some (c, [⟨kData, b⟩])
      else none

/-- One turn of the loop, with what was read from the connection, and what is sent. -/
def round (r : ExecRound) (net : Option Bytes) : Option (ExecClient × List Frame) :=
  if c.status.isSome || c.lost then none
  else match net with
    | some [] =>
        if r.stdin = none then some ({ c with lost := true }, c.winchFrames r.winch) else none
    | some (x :: b) =>
        (c.receive r.toOut r.toErr (x :: b)).bind fun c' =>
          (c'.onStdin r.stdin).map fun p => (p.1, c.winchFrames r.winch ++ p.2)
    | none => (c.onStdin r.stdin).map fun p => (p.1, c.winchFrames r.winch ++ p.2)

end ExecClient

/-! ## Both, and what is between them -/

structure ExecRun where
  host : ExecEnd
  client : ExecClient
  toHost : Bytes := []
  toClient : Bytes := []
  /-- what the program has written: the reads of its output and its errors -/
  stdout : List Bytes := []
  stderr : List Bytes := []
  /-- how it ended -/
  exit : Option (UInt8 × UInt8) := none
  /-- what was written to its input -/
  stdin : Bytes := []
  /-- what the client has read from its own -/
  typed : Bytes := []

inductive ExecAction
  | writable (ws : List WriteResult) (w : WaitResult)
  | readable (isErr : Bool) (r : ReadResult) (w : WaitResult)
  | tick (w : WaitResult)
  /-- `n` bytes arrive at the program's side -/
  | arrive (n : Nat) (veof : UInt8) (ws : List WriteResult)
  | round (r : ExecRound)

def WaitResult.exit : WaitResult → Option (UInt8 × UInt8)
  | .exited code => some (kExited, code)
  | .signaled sig => some (kSignaled, sig)
  | .running | .unknown => none

def ReadResult.chunk : ReadResult → List Bytes
  | .some b => [b]
  | .nothing | .ended => []

namespace ExecRun

/-- The program's side after a step that may have ended the run. -/
def hosted (t : ExecRun) (h : ExecEnd) (fs : List Frame) (w : WaitResult) : ExecRun :=
  { t with
    host := h
    toClient := t.toClient ++ Frame.encodeAll fs
    exit := if h.reaped && !t.host.reaped then w.exit else t.exit }

/-- What a turn of the client reads from the connection: nothing only at its end. -/
def arriving (t : ExecRun) : Option Nat → Option (Option Bytes)
  | none => some none
  | some 0 => if t.host.shut && t.toClient.isEmpty then some (some []) else none
  | some n =>
      if n ≤ t.toClient.length ∧ n ≤ kExecChunk + 3 then some (some (t.toClient.take n)) else none

def step (t : ExecRun) : ExecAction → Option ExecRun
  | .writable ws w => (t.host.onWritable ws w).map fun r =>
      { t.hosted r.1 r.2.2 w with stdin := t.stdin ++ r.2.1 }
  | .readable isErr r w => (t.host.onReadable isErr r w).map fun p =>
      { t.hosted p.1 p.2 w with
        stdout := if isErr then t.stdout else t.stdout ++ r.chunk
        stderr := if isErr then t.stderr ++ r.chunk else t.stderr }
  | .tick w => some (t.hosted (t.host.maybeFinish w).1 (t.host.maybeFinish w).2 w)
  | .arrive n veof ws =>
      if 0 < n ∧ n ≤ t.toHost.length then
        (t.host.onTunnelData veof ws (t.toHost.take n)).map fun r =>
          { t with host := r.1, toHost := t.toHost.drop n, stdin := t.stdin ++ r.2 }
      else none
  | .round r => (t.arriving r.net).bind fun net => (t.client.round r net).map fun p =>
      { t with
        client := p.1
        toHost := t.toHost ++ Frame.encodeAll p.2
        toClient := t.toClient.drop (r.net.getD 0)
        typed := t.typed ++ r.stdin.getD [] }

/-- The program was started, on a terminal or not; `dup` of the terminal may have failed. -/
def begin (pty dup term : Bool) : ExecRun where
  host := { pty, input := !pty || dup, err := !pty }
  client := { onTerm := pty && term }

end ExecRun
end Splice.Peer
