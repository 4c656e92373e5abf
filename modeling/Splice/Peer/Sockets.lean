import Splice.Peer.Everywhere

/-!
The daemon with its clients' sockets: what it polls and closes while sessions end. A
descriptor is a number the kernel hands out again once it is closed, so `clients` also has
which connection it is. A session is named by its key where the source keeps a pointer to it.
Every call is noted in `calls`, and every instance closed in `ended`; no code reads them. A `Desk`
is one session with the disk and the sockets, a `Hub` is the daemon with them.
-/

namespace Splice.Peer
open Lib

def kGiveUpMs : Nat := 30000

/-- A client's connection as the kernel has it. -/
structure Client where
  /-- which connection it is -/
  no : Nat

/-- The registration an owner's socket was handed over for. -/
structure PausedOwner where
  key : Bytes
  name : Bytes
  serial : Nat

/-- What is called when a descriptor is readable. -/
inductive Reader
  | owner (po : PausedOwner)
  | client (key : Bytes) (id : Nat)

structure Chunk where
  /-- `none` once the session is gone -/
  key : Option Bytes
  id : Nat
  data : Bytes
  accounted : Bool

/-- Output queued for one client. -/
structure ClientOut where
  q : List Chunk := []
  /-- written of the first chunk -/
  off : Nat := 0
  /-- close the descriptor once drained -/
  closing : Bool := false
  /-- or at this time -/
  giveUpAt : Nat := 0

inductive Doing
  /-- `close_client` -/
  | leave (now : Nat)
  /-- with what was still queued -/
  | close (left : List Chunk) (now : Nat)

structure Call where
  fd : Int
  /-- the connection it reached -/
  no : Option Nat
  doing : Doing

structure Sockets where
  /-- the descriptors that are open -/
  clients : Std.ExtTreeMap Int Client := ∅
  /-- the poller: readable -/
  readers : Std.ExtTreeMap Int Reader := ∅
  /-- the poller: writable, which is always `flush_client` -/
  writers : Std.ExtTreeMap Int Unit := ∅
  out : Std.ExtTreeMap Int ClientOut := ∅
  paused : Std.ExtTreeMap Int PausedOwner := ∅
  /-- instances closed -/
  ended : List (Bytes × Nat) := []
  calls : List Call := []

/-- What a step finds. -/
structure Moment where
  now : Nat := 0

/-- Does the session still need the descriptor? -/
def Session.uses (s : Session) (fd : Int) : Bool :=
  s.regs.toList.any (fun e => e.2.ownerFd = fd) || s.insts.toList.any fun e => e.2.cfd = fd

/-! ## Calls -/

namespace Sockets
variable (k : Sockets)

def call (fd : Int) (doing : Doing) : Sockets :=
  { k with calls := k.calls ++ [⟨fd, (k.clients[fd]?).map (·.no), doing⟩] }

/-- `poller_.remove(fd, false)` -/
def unwatch (fd : Int) : Sockets := { k with readers := k.readers.erase fd }

/-- `poller_.remove(fd)` -/
def remove (fd : Int) : Sockets :=
  { k with readers := k.readers.erase fd, writers := k.writers.erase fd }

def close (fd : Int) (left : List Chunk) (now : Nat) : Sockets :=
  { k.call fd (.close left now) with clients := k.clients.erase fd }

/-! ## Letting a descriptor go -/

def closeClient (now : Nat) (fd : Int) : Sockets :=
  let k := { k.call fd (.leave now) with paused := k.paused.erase fd }
  match k.out[fd]? with
  | none => (k.remove fd).close fd [] now
  | some o =>
      if o.q = [] then ({ k with out := k.out.erase fd }.remove fd).close fd [] now
      else
        { k.unwatch fd with
          out := k.out.insert fd { o with closing := true, giveUpAt := now + kGiveUpMs } }

def releaseOwnerFd (now : Nat) (s : Session) (fd : Int) : Sockets :=
  if s.uses fd then k else (k.unwatch fd).closeClient now fd

/-- `close_instance` on the descriptors; `s` still has the instance. -/
def closeInstance (now : Nat) (key : Bytes) (s : Session) (id : Nat) : Sockets :=
  match s.insts[id]? with
  | none => k
  | some i =>
      let k := { k with ended := k.ended ++ [(key, id)] }
      if i.cfd < 0 then k
      else if i.cfdOwned then (k.unwatch i.cfd).closeClient now i.cfd
      else k.releaseOwnerFd now (s.closeInstance id) i.cfd

end Sockets

/-! ## A session, and the daemon -/

structure Desk where
  disk : Disk
  session : Session
  net : Sockets

namespace Desk
variable (e : Moment) (key : Bytes)

def closeInstance (w : Desk) (id : Nat) : Desk :=
  { w with
    session := w.session.closeInstance id
    net := w.net.closeInstance e.now key w.session id }

def closeAll (w : Desk) (ids : List Nat) : Desk := ids.foldl (closeInstance e key) w

/-- Why an answer is no use. -/
def refusal (s : Session) (i : Instance) (line : Bytes) : Bytes :=
  if line = str "OK" ∨ str "OK " <+: line then
    let kind := printable (line.drop 3)
    let use := kindUsage kind s.name i.want
    str "'" ++ i.want ++ str "' on " ++ s.name ++ 32 :: kindLabel kind ++
      if use = [] then [] else str "; use: " ++ use
  else
    str "'" ++ i.want ++ str "' isn't offered by " ++ s.name ++ str " (see: spl ls " ++ s.name ++
      str ")"

/-- `drop_session` up to the point where the session is taken out of the table. -/
def drop (w : Desk) : Desk :=
  let w := w.closeAll e key w.session.insts.keys
  let net := w.session.regs.toList.foldl (fun net p =>
    if p.2.ownerFd < 0 then net else (net.unwatch p.2.ownerFd).closeClient e.now p.2.ownerFd) w.net
  let unlink (c : Chunk) : Chunk := if c.key = some key then { c with key := none } else c
  { w with
    session := { w.session with regs := ∅ }
    net := { net with
      out := net.out.map fun _ o => { o with q := o.q.map unlink }
      paused := net.paused.filter fun _ po => po.key ≠ key } }

end Desk

structure Hub where
  daemon : Daemon
  net : Sockets := {}

namespace Hub

def dropSession (h : Hub) (e : Moment) (key : Bytes) : Option Hub :=
  match h.daemon.sessions[key]? with
  | none => some h
  | some s =>
      if s.pm.isSome then
        some {
          daemon := { h.daemon with sessions := h.daemon.sessions.erase key }
          net := (Desk.drop e key ⟨h.daemon.disk, s, h.net⟩).net }
      else none

end Hub
end Splice.Peer
