import Splice.Peer.Handshake

/-!
The TCP connections below the sessions. lwIP keeps a pcb for each and calls back into the
instance it was told; `in.conn` is the daemon's pointer the other way. A FIN is a callback
that leaves the pcb, an error one that comes after it is gone. Closing is asked for and done
later, by `check_timeouts`. A session that is started over its own entry gets a new netstack,
and its instances then point at connections that are gone: to close one of those touches no
connection here, while in the source it is undefined.
-/

namespace Splice.Peer
open Lib Proto

structure TcpConn where
  pcb : Bool := true
  /-- it was established once -/
  connected : Bool := false
  wantClose : Bool := false
  /-- the instance `on_recv`, `on_closed` and `on_error` are for -/
  owner : Option Nat := none
  /-- the instance `connect_cb` and `fail_cb` are for -/
  dialer : Option Nat := none
  /-- the peer's FIN has come -/
  fin : Bool := false
  /-- all that has come over it, which no code reads -/
  heard : Bytes := []

structure Netstack where
  conns : Std.ExtTreeMap Nat TcpConn := ∅
  /-- connections made so far -/
  made : Nat := 0
  /-- `in.conn`, by instance -/
  conn : Std.ExtTreeMap Nat Nat := ∅

namespace Netstack
variable (k : Netstack)

def change (n : Nat) (f : TcpConn → TcpConn) : Netstack :=
  { k with conns := k.conns.alter n (Option.map f) }

def add (c : TcpConn) : Netstack :=
  { k with conns := k.conns.insert k.made c, made := k.made + 1 }

/-- `accept_inbound` -/
def accept (id : Nat) : Netstack :=
  { k.add { connected := true, owner := some id } with conn := k.conn.insert id k.made }

def connect (id : Nat) : Netstack := k.add { dialer := some id }

/-- `in.conn` is dropped without a word to the connection. -/
def forget (id : Nat) : Netstack := { k with conn := k.conn.erase id }

/-- The callbacks are taken off `in.conn`, it is to be closed, and the pointer is dropped. -/
def release (id : Nat) : Netstack :=
  match k.conn[id]? with
  | none => k
  | some n => (k.change n fun c => { c with owner := none, wantClose := true }).forget id

/-- `check_timeouts`: what was asked for is done once nothing is left to send, and what has no
pcb any more is reaped. -/
def checkTimeouts (drained : Nat → Bool) : Netstack :=
  { k with conns := k.conns.filter fun n c => c.pcb && !(c.wantClose && drained n) }

end Netstack

/-- A session at work with the disk and its connections. -/
structure Line where
  disk : Disk
  session : Session
  stack : Netstack

namespace Line

/-! ## The daemon's side -/

def closeInstance (w : Line) (id : Nat) : Line :=
  { w with session := w.session.closeInstance id, stack := w.stack.release id }

def closeAll (w : Line) (ids : List Nat) : Line := ids.foldl closeInstance w

def acceptInbound (w : Line) : Line :=
  { w with session := w.session.acceptInbound, stack := w.stack.accept w.session.nextId }

def onTunnelData (src : SourceFs) (id : Nat) (b : Bytes) (now : Nat) (w : Line) : Option Line :=
  match w.session.insts[id]? with
  | none => some w
  | some i =>
      let s := (w.session.onTunnelData src id b now).1
      match s.insts[id]? with
      | none => some { w with session := s, stack := w.stack.release id }
      | some i' =>
          -- `bind_end` would follow a null pointer
          if i'.isOpen && !i.isOpen && !w.stack.conn.contains id then none
          else if i.conn && !i'.conn then
            some { w with session := s, stack := w.stack.release id }
          else some { w with session := s }

def onTunnelGone (w : Line) (id : Nat) : Line :=
  { w with session := w.session.onTunnelGone id, stack := w.stack.forget id }

/-- Is the instance dialed again now? -/
def dials (i : Instance) (now : Nat) : Bool :=
  Session.unconnected i && !Session.expired i now && !i.dialing && i.nextDial ≤ now

def dialAll (w : Line) (now : Nat) : Line :=
  let late := (w.session.insts.toList.filter fun e => Session.expired e.2 now).map (·.1)
  let due := (w.session.insts.toList.filter fun e => dials e.2 now).map (·.1)
  { w with
    session := { w.session with insts := w.session.insts.map fun _ i => Session.redial i now }
    stack := due.foldl Netstack.connect w.stack }.closeAll late

def tick (w : Line) (now : Nat) (drained : Nat → Bool) : Line :=
  let s := if w.session.busy then { w.session with lastActive := now } else w.session
  if s.busy || (s.lastActive ≠ 0 && now - s.lastActive < kWarmMs) then
    let w := { w with session := s, stack := w.stack.checkTimeouts drained }.closeAll s.wantClose
    let r := { w.session with wantClose := [] }.drainRetire w.disk
    { w with disk := r.1, session := r.2 }.dialAll now
  else { w with session := s }

/-- What a command does to the connections; `s` is the session after it. -/
def commandStack (w : Line) (s : Session) : SessionCmd → Netstack
  | .close text => w.stack.release (strtoul 10 (Session.instanceId text)).1
  | .openPipe _ _ _ _ | .query _ =>
      if s.insts.contains w.session.nextId then w.stack.connect w.session.nextId else w.stack
  | .forceRelay | .register _ _ | .unregister _ => w.stack

def command (src : SourceFs) (fd now : Nat) (cmd : SessionCmd) (w : Line) : Option Line :=
  (cmd.run src fd now w.disk w.session).map fun r =>
    { disk := r.1, session := r.2.1, stack := w.commandStack r.2.1 cmd }

def reset (w : Line) : Line :=
  let r := w.session.regs.keys.foldl
    (fun (acc : Disk × Session × List Nat) name =>
      let r := Session.unregister acc.1 acc.2.1 name
      (r.1, r.2.1, acc.2.2 ++ r.2.2)) (w.disk, w.session, [])
  { w with disk := r.1, session := r.2.1 }.closeAll r.2.2

def ownerGone (name : Bytes) (serial : Nat) (fd : Int) (w : Line) : Line :=
  let users := (w.session.insts.toList.filter fun e => e.2.inbound && e.2.cfd = fd).map (·.1)
  let w := match w.session.regs[name]? with
    | none => w
    | some r =>
        if r.serial = serial then
          let r := Session.unregister w.disk w.session name
          { w with disk := r.1, session := r.2.1 }
        else w
  w.closeAll users

/-! ## Callbacks of lwIP -/

/-- `on_lwip_connected` and the callback of `dial`. -/
def connected (n : Nat) (w : Line) : Option Line :=
  match w.stack.conns[n]? with
  | none => none
  | some c =>
      match c.dialer with
      | none => none
      | some id =>
          if !c.pcb || c.connected then none
          else if w.session.insts.contains id then
            let k := w.stack.change n fun c => { c with connected := true, owner := some id }
            some { w with
              session := w.session.connected id
              stack := { k with conn := k.conn.insert id n } }
          else
            some { w with stack := w.stack.change n fun c =>
              { c with connected := true, wantClose := true } }

/-- `on_lwip_recv` with bytes. -/
def data (src : SourceFs) (n : Nat) (b : Bytes) (now : Nat) (w : Line) : Option Line :=
  match w.stack.conns[n]? with
  | none => none
  | some c =>
      if c.pcb && c.connected && !c.fin then
        let w := { w with stack := w.stack.change n fun c => { c with heard := c.heard ++ b } }
        match c.owner with
        | none => some w
        | some id => w.onTunnelData src id b now
      else none

/-- `on_lwip_recv` without: the peer has closed its side. -/
def fin (n : Nat) (w : Line) : Option Line :=
  match w.stack.conns[n]? with
  | none => none
  | some c =>
      if c.pcb && c.connected && !c.fin then
        let w := { w with stack := w.stack.change n fun c => { c with fin := true } }
        match c.owner with
        | none => some w
        | some id => some (w.onTunnelGone id)
      else none

/-- `on_lwip_err`: a connect failed, or an established connection is gone. -/
def lost (n : Nat) (w : Line) : Option Line :=
  match w.stack.conns[n]? with
  | none => none
  | some c =>
      if c.pcb then
        let w := { w with stack := w.stack.change n fun c => { c with pcb := false } }
        if c.connected then
          match c.owner with
          | none => some w
          | some id => some (w.onTunnelGone id)
        else
          match c.dialer with
          | none => some w
          | some id => some { w with
              session := w.session.connectFailed id, stack := w.stack.forget id }
      else none

end Line

/-! ## The daemon -/

structure Tunnels where
  daemon : Daemon
  nets : Std.ExtTreeMap Bytes Netstack := ∅

inductive TunnelAction
  | start (a : Answers) (record : ConnRecord)
  | drop (key : Bytes)
  | command (key : Bytes) (cmd : SessionCmd) (fd now : Nat)
  | reset
  | ownerGone (key name : Bytes) (serial : Nat) (fd : Int)
  | requestClose (key : Bytes) (id : Nat)
  | tick (now : Nat) (drained : Bytes → Nat → Bool)
  | accept (key : Bytes)
  | connected (key : Bytes) (n : Nat)
  | data (key : Bytes) (n : Nat) (b : Bytes) (now : Nat)
  | fin (key : Bytes) (n : Nat)
  | lost (key : Bytes) (n : Nat)

namespace Tunnels

/-- One session with its connections. -/
def line (t : Tunnels) (key : Bytes) : Option Line :=
  (t.daemon.sessions[key]?).map fun s => ⟨t.daemon.disk, s, (t.nets[key]?).getD {}⟩

def work (t : Tunnels) (key : Bytes) (f : Line → Option Line) : Option Tunnels :=
  ((t.line key).bind f).map fun w =>
    { daemon := { t.daemon with disk := w.disk }.putSession key w.session
      nets := t.nets.insert key w.stack }

/-- Go through the sessions by name. -/
def each (t : Tunnels) (f : Bytes → Line → Option Line) : Option Tunnels :=
  t.daemon.sessions.keys.foldlM (fun t key => t.work key (f key)) t

/-- The netstack of a session that is started is a new one. -/
def start (t : Tunnels) (a : Answers) (record : ConnRecord) : Tunnels :=
  { daemon := (t.daemon.startSession a record).1
    nets := t.nets.insert record.name {} }

/-- The netstack goes with the session, and every pcb with the netstack. -/
def drop (t : Tunnels) (key : Bytes) : Option Tunnels :=
  (t.daemon.dropSession key).map fun daemon => { daemon, nets := t.nets.erase key }

def step (t : Tunnels) : TunnelAction → Option Tunnels
  | .start a record => some (t.start a record)
  | .drop key => t.drop key
  | .command key cmd fd now => t.work key fun w => w.command t.daemon.files fd now cmd
  | .reset => t.each fun _ w => some w.reset
  | .ownerGone key name serial fd => t.work key fun w => some (w.ownerGone name serial fd)
  | .requestClose key id =>
      t.work key fun w => some { w with session := w.session.requestClose id }
  | .tick now drained => t.each fun key w =>
      if w.session.pm.isSome && w.session.ns.isSome then some (w.tick now (drained key)) else none
  | .accept key => t.work key fun w => some w.acceptInbound
  | .connected key n => t.work key fun w => w.connected n
  | .data key n b now => t.work key fun w => w.data t.daemon.files n b now
  | .fin key n => t.work key fun w => w.fin n
  | .lost key n => t.work key fun w => w.lost n

end Tunnels
end Splice.Peer
