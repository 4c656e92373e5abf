import Splice.Peer.Ends
import Splice.Peer.Store

/-!
One peer's session in the daemon: the registrations it offers, the instances spliced
through it, the pipe handshake and the part of `tick` that looks after them. What a
local end does with its bytes stays outside; its request to be closed is
`requestClose`. Path manager and netstack are known by the number they were made
under.
-/

namespace Splice.Peer
open Lib Proto

def kDialRetryMs : Nat := 500
def kDialDeadlineMs : Nat := 15000
def kWarmMs : Nat := 5 * 60 * 1000

structure Instance where
  /-- spawned by a registration of ours, not by OPEN -/
  inbound : Bool := false
  /-- inbound: the name the peer asked for and the serial of the registration behind it -/
  reg : Bytes := []
  regSerial : Nat := 0
  /-- outbound: the name to ask for -/
  want : Bytes := []
  kind : Bytes := []
  expect : Bytes := []
  type : Bytes := []
  args : List Bytes := []
  /-- it has a tunnel connection -/
  conn : Bool := false
  /-- the handshake is over -/
  isOpen : Bool := false
  lbuf : Bytes := []
  localEnd : Option LocalEnd := none
  cfd : Int := -1
  cfdOwned : Bool := false
  preacked : Nat := 0
  nextDial : Nat := 0
  /-- `none` is the end of time -/
  dialDeadline : Option Nat := some 0
  dialing : Bool := false
  wait : Bool := false
  isMeta : Bool := false
  followFd : Int := -1

/-- What an observer notes down about a REGISTER that stored a registration: its number,
the uid of the session it was issued to and its limit. No code reads it. -/
structure Birth where
  no : Nat
  uid : Uid
  limit : Nat
  deriving DecidableEq

structure Reg where
  serial : Nat := 0
  type : Bytes
  args : List Bytes := []
  /-- 0 = unlimited -/
  limit : Nat := 0
  started : Nat := 0
  active : Nat := 0
  finished : Nat := 0
  ownerFd : Int := -1
  persisted : Bool := false
  /-- of the REGISTER behind it; `none` if there was none -/
  birth : Option Birth := none

structure Session where
  name : Bytes := []
  record : ConnRecord := {}
  pm : Option Nat := none
  ns : Option Nat := none
  regs : Std.ExtTreeMap Bytes Reg := ∅
  insts : Std.ExtTreeMap Nat Instance := ∅
  nextId : Nat := 0
  nextRegSerial : Nat := 1
  lastActive : Nat := 0
  wantClose : List Nat := []
  wantRetire : List Nat := []

/-- The store's files, with the observer's note on every registration file by inode. -/
structure Disk where
  store : Store
  fs : FileSystem
  ledger : Nat → Option Birth := fun _ => none
  /-- every note made -/
  births : List Birth := []

namespace Disk

def birthAt (d : Disk) (path : Bytes) : Option Birth :=
  match d.fs.stat path with
  | some (.file i) => d.ledger i
  | some .dir | none => none

/-- The files after a registration was written to `path`, and the note on it. -/
def note (d : Disk) (fs : FileSystem) (path : Bytes) (b : Birth) : Disk :=
  { d with
    fs
    ledger := match fs.stat path with
      | some (.file i) => Function.update d.ledger i (some b)
      | some .dir | none => d.ledger
    births := d.births ++ [b] }

end Disk

namespace Session

def addReg (s : Session) (name : Bytes) (reg : Reg) : Session :=
  { s with
    regs := s.regs.insert name { reg with serial := s.nextRegSerial }
    nextRegSerial := s.nextRegSerial + 1 }

/-- What `start_session` does to the entry of `rec.name`, new or not, once it has its
socket: a new path manager and netstack, and every stored registration. -/
def start (d : Disk) (s : Session) (record : ConnRecord) (object : Nat) : Session :=
  (d.store.listPipes d.fs record.name).foldl
    (fun s r => s.addReg r.name
      { type := r.type, args := r.args, limit := r.limit, persisted := true
        birth := d.birthAt (d.store.pipePath record.name r.name) })
    { s with name := record.name, record, pm := some object, ns := some object }

/-! ## Instances -/

def putInst (s : Session) (id : Nat) (i : Instance) : Session :=
  { s with insts := s.insts.insert id i }

/-- The counters of the registration that spawned `i`, if it is still there. -/
def countFinished (regs : Std.ExtTreeMap Bytes Reg) (i : Instance) : Std.ExtTreeMap Bytes Reg :=
  if i.regSerial = 0 then regs
  else match regs[i.reg]? with
    | none => regs
    | some r =>
        if r.serial = i.regSerial then
          regs.insert i.reg { r with
            active := (r.active + (2 ^ 64 - 1)) % 2 ^ 64, finished := (r.finished + 1) % 2 ^ 64 }
        else regs

def closeInstance (s : Session) (id : Nat) : Session :=
  match s.insts[id]? with
  | none => s
  | some i => { s with regs := countFinished s.regs i, insts := s.insts.erase id }

def requestClose (s : Session) (id : Nat) : Session := { s with wantClose := s.wantClose ++ [id] }

def acceptInbound (s : Session) : Session :=
  { s.putInst s.nextId { inbound := true, conn := true } with nextId := s.nextId + 1 }

def dial (i : Instance) (now : Nat) : Instance :=
  { i with dialing := true, nextDial := now + kDialRetryMs }

/-- A connect came through: the name is sent, and a meta request starts at once. -/
def connected (s : Session) (id : Nat) : Session :=
  match s.insts[id]? with
  | none => s
  | some i =>
      s.putInst id { i with conn := true, dialing := false, isOpen := i.isOpen || i.isMeta }

def connectFailed (s : Session) (id : Nat) : Session :=
  match s.insts[id]? with
  | none => s
  | some i => s.putInst id { i with conn := false, dialing := false }

def onTunnelGone (s : Session) (id : Nat) : Session :=
  match s.insts[id]? with
  | none => s
  | some i =>
      if !i.inbound && !i.isOpen then s.putInst id { i with conn := false }
      else s.closeInstance id

/-! ## The handshake -/

def listing (s : Session) : Bytes :=
  s.regs.toList.flatMap fun e => e.1 ++ 9 :: offerKind e.2.type e.2.args ++ [newline]

/-- The end of a new instance: the owner's socket of a PIPE, else one of the daemon's own
if it can still be made. -/
def bindReg (src : SourceFs) (i : Instance) (name : Bytes) (reg : Reg) : Instance :=
  { i with
    reg := name, regSerial := reg.serial, type := reg.type, args := reg.args
    cfd := if reg.type = str "PIPE" then reg.ownerFd else i.cfd
    localEnd := if reg.type = str "PIPE" then i.localEnd
      else (makeLocalEnd src reg.type reg.args).toOption
    kind := offerKind reg.type reg.args
    isOpen := true }

def spawnReg (reg : Reg) : Reg :=
  { reg with started := (reg.started + 1) % 2 ^ 32, active := (reg.active + 1) % 2 ^ 64 }

/-- N-shot quota reached. -/
def Exhausted (reg : Reg) : Prop := reg.limit ≠ 0 ∧ reg.limit ≤ reg.started

instance (reg : Reg) : Decidable (Exhausted reg) := inferInstanceAs (Decidable (_ ∧ _))

/-- The request line of an inbound instance, and what is sent back. -/
def inboundLine (src : SourceFs) (s : Session) (id : Nat) (i : Instance) (line : Bytes) :
    Session × Bytes :=
  if line = str "__PING__" then (s.closeInstance id, str "PONG\n")
  else if line = str "__LIST__" then (s.closeInstance id, s.listing)
  else match s.regs[line]? with
    | none => (s.closeInstance id, str "UNKNOWN\n")
    | some reg =>
        if Exhausted reg then (s.closeInstance id, str "UNKNOWN\n")
        else
          let reg' := spawnReg reg
          let i' := bindReg src i line reg'
          ({ s.putInst id i' with
              regs := s.regs.insert line reg'
              wantRetire := if Exhausted reg' then s.wantRetire ++ [reg.serial] else s.wantRetire },
            str "OK " ++ i'.kind ++ [newline])

/-- The reply line an outbound instance waits for. -/
def outboundLine (s : Session) (id : Nat) (i : Instance) (line : Bytes) (now : Nat) : Session :=
  let ok := line = str "OK" ∨ str "OK " <+: line
  let kind := printable (line.drop 3)
  if ok then
    if kindMatches kind i.expect then s.putInst id { i with kind, isOpen := true }
    else s.closeInstance id
  else if i.wait && i.conn then s.putInst id { i with conn := false, nextDial := now + 1000 }
  else s.closeInstance id

def handshakeLine (src : SourceFs) (s : Session) (id : Nat) (i : Instance) (line : Bytes)
    (now : Nat) : Session × Bytes :=
  if i.inbound then inboundLine src s id i line else (outboundLine s id i line now, [])

/-- Bytes that came with the handshake go to the end; they are acknowledged already. -/
def preack (s : Session) (id : Nat) (rest : Bytes) : Session :=
  match s.insts[id]? with
  | none => s
  | some i =>
      if i.isOpen ∧ rest ≠ [] then s.putInst id { i with preacked := rest.length } else s

/-- Bytes of the tunnel, and what is sent back during the handshake. Once it is over they go
to the instance's end, which is outside. -/
def onTunnelData (src : SourceFs) (s : Session) (id : Nat) (b : Bytes) (now : Nat) :
    Session × Bytes :=
  match s.insts[id]? with
  | none => (s, [])
  | some i =>
      if i.isOpen then (s, [])
      else
        let lbuf := i.lbuf ++ b
        if newline ∈ lbuf then
          let i := { i with lbuf := [] }
          let (s, reply) := handshakeLine src (s.putInst id i) id i
            (lbuf.takeWhile (· ≠ newline)) now
          (s.preack id ((lbuf.dropWhile (· ≠ newline)).drop 1), reply)
        else if 256 < lbuf.length then (s.closeInstance id, [])
        else (s.putInst id { i with lbuf }, [])

/-! ## Registrations -/

/-- `unregister`; the live instances of the registration are returned. -/
def unregister (d : Disk) (s : Session) (name : Bytes) : Disk × Session × List Nat :=
  match s.regs[name]? with
  | none => (d, s, [])
  | some reg =>
      let live := (s.insts.toList.filter fun e => e.2.regSerial = reg.serial).map (·.1)
      let d := if reg.persisted then
          { d with fs := (d.store.removePipe d.fs s.name name).getD d.fs }
        else d
      (d, { s with regs := s.regs.erase name }, live)

/-- The limit of a REGISTER and what follows it. -/
def parseLimit (toks : List Bytes) : Except Bytes (Nat × List Bytes) :=
  match toks with
  | [] => .ok (0, [])
  | t :: rest =>
      if t = str "LIMIT" then
        match rest with
        | [] => .error (str "ERR LIMIT needs a count\n")
        | n :: rest =>
            let limit := (strtoul 10 n).1 % 2 ^ 32
            if limit = 0 then .error (str "ERR LIMIT must be >= 1\n") else .ok (limit, rest)
      else .ok (0, toks)

def errLine (e : Bytes) : Bytes := str "ERR " ++ e ++ [newline]

/-- A daemon-owned registration: checked, stored, then offered. -/
def registerOwned (src : SourceFs) (d : Disk) (s : Session) (name : Bytes) (limit : Nat)
    (type : Bytes) (args : List Bytes) : Disk × Session × Bytes :=
  match makeLocalEnd src type args with
  | .error e => (d, s, errLine e)
  | .ok _ =>
      match d.store.savePipe d.fs { peer := s.name, name, type, limit, args } with
      | (fs, some e) => ({ d with fs }, s, errLine e)
      | (fs, none) =>
          let birth : Birth := { no := d.births.length, uid := s.record.uid, limit }
          (d.note fs (d.store.pipePath s.name name) birth,
            s.addReg name { type, args, limit, persisted := true, birth := some birth },
            str "OK\n")

/-- REGISTER of `name` with the tokens after it, from the client on `fd`. -/
def register (src : SourceFs) (d : Disk) (s : Session) (fd : Int) (name : Bytes)
    (toks : List Bytes) : Disk × Session × Bytes :=
  if s.regs.contains name then (d, s, errLine (str "pipe '" ++ name ++ str "' already exists"))
  else match parseLimit toks with
    | .error e => (d, s, e)
    | .ok (_, []) => (d, s, str "ERR REGISTER needs a TYPE\n")
    | .ok (limit, type :: args) =>
        if type = str "PIPE" then
          if args = [] then (d, s.addReg name { type, limit, ownerFd := fd }, str "OK\n")
          else (d, s, str "ERR PIPE takes no arguments\n")
        else registerOwned src d s name limit type args

/-! ## The session's part of a tick -/

def drainClose (s : Session) : Session :=
  { s.wantClose.foldl closeInstance s with wantClose := [] }

/-- The name of the registration with a serial. -/
def nameOfSerial (s : Session) (serial : Nat) : Option Bytes :=
  (s.regs.toList.find? fun e => e.2.serial = serial).map (·.1)

def retire (ds : Disk × Session) (serial : Nat) : Disk × Session :=
  match ds.2.nameOfSerial serial with
  | none => ds
  | some name =>
      let (d, s, _) := unregister ds.1 ds.2 name
      (d, s)

def drainRetire (d : Disk) (s : Session) : Disk × Session :=
  let (d, s) := s.wantRetire.foldl retire (d, s)
  (d, { s with wantRetire := [] })

/-- An OPEN still without a connection. -/
def unconnected (i : Instance) : Bool := !i.inbound && !i.isOpen && !i.conn

def expired (i : Instance) (now : Nat) : Bool :=
  unconnected i && match i.dialDeadline with
    | none => false
    | some t => t ≤ now

def redial (i : Instance) (now : Nat) : Instance :=
  if unconnected i ∧ expired i now = false ∧ i.dialing = false ∧ i.nextDial ≤ now then dial i now
  else i

def dialAll (s : Session) (now : Nat) : Session :=
  let late := (s.insts.toList.filter fun e => expired e.2 now).map (·.1)
  late.foldl closeInstance { s with insts := s.insts.map fun _ i => redial i now }

def busy (s : Session) : Bool := !s.regs.isEmpty || !s.insts.isEmpty

/-- A dormant session is not driven at all. -/
def tick (d : Disk) (s : Session) (now : Nat) : Disk × Session :=
  let s := if s.busy then { s with lastActive := now } else s
  if s.busy || (s.lastActive ≠ 0 && now - s.lastActive < kWarmMs) then
    let (d, s) := s.drainClose.drainRetire d
    (d, s.dialAll now)
  else (d, s)

end Session
end Splice.Peer
