import Splice.Lib.Run
import Splice.Peer.Session

/-!
The daemon: its session table, the control commands and RELOAD. Sessions are keyed by
the name they were started under; the store knows a peer by the form of its name and
RELOAD by its uid. Every socket a session needs is one question to `sock`, by the
number of the path manager it is for. A step that would follow a null pointer gives
`none`; the daemon that is started after such an end is a restart from the state before.
-/

namespace Splice.Peer
open Lib Proto

structure Daemon where
  disk : Disk
  /-- the user's own files -/
  files : SourceFs
  sessions : Std.ExtTreeMap Bytes Session := ∅
  /-- path managers and netstacks asked for so far -/
  objects : Nat := 0
  /-- every uid a pairing has used; no code reads it -/
  uids : List Uid := []

/-- What the world answers while one step runs: whether a UDP socket can be bound and what is
said if not, the order `readdir` returns names in, and the time. -/
structure Answers where
  sock : Nat → Bool := fun _ => true
  sockError : Bytes := []
  rank : Name → Nat := fun _ => 0
  now : Nat := 0

/-! ## Control lines -/

def splitWs (line : Bytes) : List Bytes := (line.splitOnP isSpace).filter (· ≠ [])

def hexValue (c : UInt8) : Option UInt8 :=
  if 48 ≤ c ∧ c ≤ 57 then some (c - 48)
  else if 65 ≤ c ∧ c ≤ 70 then some (c - 65 + 10)
  else if 97 ≤ c ∧ c ≤ 102 then some (c - 97 + 10)
  else none

def ctlDecode : Bytes → Bytes
  | [] => []
  | [a] => [a]
  | [a, b] => [a, b]
  | a :: b :: c :: rest =>
      match if a = 37 then hexValue b else none, hexValue c with
      | some hi, some lo => (hi * 16 + lo) :: ctlDecode rest
      | _, _ => a :: ctlDecode (b :: c :: rest)

def tokens (line : Bytes) : List Bytes := (splitWs line).map ctlDecode

namespace Daemon

/-! ## Sessions -/

def putSession (d : Daemon) (key : Bytes) (s : Session) : Daemon :=
  { d with sessions := d.sessions.insert key s }

/-- `false` when no socket could be bound; the entry is gone then, new or not. -/
def startSession (d : Daemon) (a : Answers) (record : ConnRecord) : Daemon × Bool :=
  if a.sock d.objects then
    ({ d with
      sessions := d.sessions.insert record.name
        (Session.start d.disk ((d.sessions[record.name]?).getD {}) record d.objects)
      objects := d.objects + 1 }, true)
  else
    ({ d with sessions := d.sessions.erase record.name, objects := d.objects + 1 }, false)

/-- The session a command is for, found under the string it was given, made from the store
under the name the record has, and then looked up under the string again. -/
def sessionFor (d : Daemon) (a : Answers) (peer : Bytes) : Daemon × Except Bytes Session :=
  match d.sessions[peer]? with
  | some s => (d, .ok s)
  | none =>
      match d.disk.store.load d.disk.fs peer with
      | none => (d, .error (str "no peer named '" ++ peer ++ str "'"))
      | some record =>
          match d.startSession a record with
          | (d, false) => (d, .error a.sockError)
          | (d, true) =>
              let s := (d.sessions[peer]?).getD {}
              (d.putSession peer s, .ok s)

/-- The store is not touched. -/
def dropSession (d : Daemon) (name : Bytes) : Option Daemon :=
  match d.sessions[name]? with
  | none => some d
  | some s => if s.pm.isSome then some { d with sessions := d.sessions.erase name } else none

/-! ## RELOAD -/

/-- The records by uid, the last one read if a uid is repeated. -/
def onDisk (d : Daemon) (a : Answers) : Std.ExtTreeMap Bytes ConnRecord :=
  (d.disk.store.loadAll d.disk.fs a.rank).foldl (fun m r => m.insert r.uid.toList r) ∅

/-- Sessions whose uid is gone. -/
def goneNames (d : Daemon) (disk : Std.ExtTreeMap Bytes ConnRecord) : List Bytes :=
  (d.sessions.toList.filter fun e => (disk[e.2.record.uid.toList]?).isNone).map (·.1)

/-- Sessions whose record has another name now. -/
def movedNames (d : Daemon) (disk : Std.ExtTreeMap Bytes ConnRecord) : List Bytes :=
  (d.sessions.toList.filter fun e =>
    (disk[e.2.record.uid.toList]?).any fun r => r.name ≠ e.1).map (·.1)

/-- Put a renamed session back; one that finds its name taken is lost. -/
def reinsert (disk : Std.ExtTreeMap Bytes ConnRecord) (m : Std.ExtTreeMap Bytes Session)
    (s : Session) : Std.ExtTreeMap Bytes Session :=
  match disk[s.record.uid.toList]? with
  | none => m
  | some r => if m.contains r.name then m else m.insert r.name { s with name := r.name }

/-- Take every renamed session out, then put each back under its new name. -/
def moveAll (d : Daemon) (disk : Std.ExtTreeMap Bytes ConnRecord) (moved : List Bytes) : Daemon :=
  let nodes := moved.filterMap fun name => d.sessions[name]?
  let left := moved.foldl (fun m name => m.erase name) d.sessions
  { d with sessions := nodes.foldl (reinsert disk) left }

/-- One record of the store against the sessions: those with its uid follow it, else a new
one is started. The number counts the sessions added. -/
def adopt (a : Answers) (da : Daemon × Nat) (record : ConnRecord) : Option (Daemon × Nat) :=
  let (d, added) := da
  let its := d.sessions.toList.filter fun e => e.2.record.uid = record.uid
  if its = [] then
    let (d, ok) := d.startSession a record
    some (d, if ok then added + 1 else added)
  else if its.all fun e => e.2.pm.isSome then
    some ({ d with sessions := d.sessions.map fun _ s =>
      if s.record.uid = record.uid then { s with record } else s }, added)
  else none

def reload (d : Daemon) (a : Answers) : Option (Daemon × Bytes) := do
  let disk := d.onDisk a
  let gone := d.goneNames disk
  let moved := d.movedNames disk
  let d ← gone.foldlM dropSession d
  let (d, added) ← (disk.toList.map (·.2)).foldlM (adopt a) (d.moveAll disk moved, 0)
  return (d, decimal d.sessions.size ++ str " peer(s): " ++ decimal added ++ str " added, " ++
    decimal gone.length ++ str " removed, " ++ decimal moved.length ++ str " renamed")

end Daemon

/-! ## Commands for one peer -/

namespace Session

/-- FORCE_RELAY: the path manager's own flag is outside. -/
def forceRelay (d : Disk) (s : Session) : Option (Disk × Session × Bytes) :=
  if s.pm.isSome then some (d, s, str "OK\n") else none

def liveNote (s : Session) (name : Bytes) (live : List Nat) : Bytes :=
  let one := live.length = 1
  let ids := List.intercalate (str ", ") (live.map fun id => 35 :: decimal id)
  let hint := List.intercalate (str "; ") (live.map fun id =>
    str "spl pipe close " ++ s.name ++ 32 :: decimal id)
  str "OK note: " ++ (if one then str "1 connection" else decimal live.length ++ str " connections")
    ++ str " via '" ++ name ++ str "' still active (" ++ ids ++ str "); " ++
    (if one then str "it keeps" else str "they keep") ++ str " running " ++ [0xe2, 0x80, 0x94, 32]
    ++ hint ++ str " to end " ++ (if one then str "it" else str "them") ++ [newline]

def unregisterCmd (name : Bytes) (d : Disk) (s : Session) : Disk × Session × Bytes :=
  if s.regs.contains name then
    let (d, s', live) := unregister d s name
    (d, s', if live = [] then str "OK\n" else liveNote s name live)
  else (d, s, errLine (str "no pipe '" ++ name ++ str "'"))

/-- The options of an OPEN. -/
structure OpenOpts where
  wait : Bool := false
  follow : Bool := false
  expect : Bytes := []

/-- The options before the type of an OPEN, and what follows them. -/
def openOpts : OpenOpts → List Bytes → OpenOpts × List Bytes
  | o, [] => (o, [])
  | o, t :: rest =>
      if t = str "WAIT" then openOpts { o with wait := true } rest
      else if t = str "FOLLOW" then openOpts { o with follow := true } rest
      else if t = str "EXPECT" then
        match rest with
        | [] => (o, [])
        | kind :: rest => openOpts { o with expect := kind } rest
      else (o, t :: rest)

/-- A new outbound instance and its first dial. -/
def launch (s : Session) (i : Instance) (now : Nat) : Option Session :=
  if s.ns.isSome then
    some { s.putInst s.nextId (dial { i with nextDial := now } now) with nextId := s.nextId + 1 }
  else none

/-- OPEN of `want`: the client's socket for a PIPE, else an end made here. -/
def openCmd (src : SourceFs) (fd : Nat) (now : Nat) (want : Bytes) (o : OpenOpts) (type : Bytes)
    (args : List Bytes) (d : Disk) (s : Session) : Option (Disk × Session × Bytes) :=
  let i : Instance := {
    want, type, args, wait := o.wait
    expect := if o.expect = [] then localExpects type else o.expect
    dialDeadline := if o.wait then none else some (now + kDialDeadlineMs) }
  let refused := { s with nextId := s.nextId + 1 }
  let ok := str "OK " ++ decimal s.nextId ++ [newline]
  if type = str "PIPE" then
    if args = [] then
      (s.launch { i with cfd := fd, cfdOwned := true } now).map fun s => (d, s, ok)
    else some (d, refused, str "ERR PIPE takes no arguments\n")
  else match makeLocalEnd src type args with
    | .error e => some (d, refused, errLine e)
    | .ok e =>
        (s.launch { i with localEnd := some e, followFd := if o.follow then fd else -1 } now).map
          fun s => (d, s, ok)

/-- LIST and REACH. -/
def queryCmd (fd : Nat) (now : Nat) (want : Bytes) (d : Disk) (s : Session) :
    Option (Disk × Session × Bytes) :=
  (s.launch { want, type := str "meta", isMeta := true, localEnd := some (.list fd),
              dialDeadline := some (now + 4000) } now).map fun s => (d, s, [])

/-- The number of an instance, with or without its '#'. -/
def instanceId (text : Bytes) : Bytes := if text.head? = some 35 then text.drop 1 else text

def closeCmd (text : Bytes) (d : Disk) (s : Session) : Disk × Session × Bytes :=
  let ids := instanceId text
  let id := (strtoul 10 ids).1
  if s.insts.contains id then (d, s.closeInstance id, str "OK\n")
  else (d, s, errLine (str "no instance #" ++ ids))

/-- RESET of one session: every registration, then what they spawned. -/
def reset (d : Disk) (s : Session) : Disk × Session :=
  let (d, s, live) := s.regs.keys.foldl
    (fun (acc : Disk × Session × List Nat) name =>
      let (d, s, ids) := unregister acc.1 acc.2.1 name
      (d, s, acc.2.2 ++ ids)) (d, s, [])
  (d, live.foldl closeInstance s)

/-- The owner of a PIPE went away: its registration and the instances on its socket. -/
def ownerGone (d : Disk) (s : Session) (name : Bytes) (serial : Nat) (fd : Int) :
    Disk × Session :=
  let users := (s.insts.toList.filter fun e => e.2.inbound && e.2.cfd = fd).map (·.1)
  let (d, s) := match s.regs[name]? with
    | none => (d, s)
    | some r => if r.serial = serial then let (d, s, _) := unregister d s name; (d, s) else (d, s)
  (d, users.foldl closeInstance s)

end Session

/-! ## The command line -/

/-- A command that runs on one peer's session. -/
inductive SessionCmd
  | forceRelay
  | register (name : Bytes) (toks : List Bytes)
  | unregister (name : Bytes)
  | openPipe (want : Bytes) (o : Session.OpenOpts) (type : Bytes) (args : List Bytes)
  /-- LIST and REACH -/
  | query (want : Bytes)
  | close (text : Bytes)

namespace SessionCmd

/-- The answer when there is no session: a query just ends. -/
def refused : SessionCmd → Bytes → Bytes
  | .query _, _ => []
  | .forceRelay, e | .register _ _, e | .unregister _, e | .openPipe _ _ _ _, e | .close _, e =>
      Session.errLine e

/-- From the client on `fd`; `none` when it runs into a null pointer. -/
def run (src : SourceFs) (fd now : Nat) (disk : Disk) (s : Session) :
    SessionCmd → Option (Disk × Session × Bytes)
  | .forceRelay => s.forceRelay disk
  | .register name toks => some (s.register src disk fd name toks)
  | .unregister name => some (s.unregisterCmd name disk)
  | .openPipe want o type args => s.openCmd src fd now want o type args disk
  | .query want => s.queryCmd fd now want disk
  | .close text => some (s.closeCmd text disk)

end SessionCmd

/-- What a line of tokens asks for. -/
inductive Command
  /-- nothing but an answer; the texts of STATUS and VERSION are left out -/
  | reply (text : Bytes)
  | reload
  | reset
  | forPeer (peer : Bytes) (cmd : SessionCmd)

def parseCmd : List Bytes → Command
  | [] => .reply (str "ERR empty command\n")
  | cmd :: t =>
      if cmd = str "PING" ∨ cmd = str "STOP" ∨ cmd = str "STICKY" ∨ cmd = str "VERSION" ∨
          cmd = str "STATUS" then .reply (str "OK\n")
      else if cmd = str "RELOAD" then .reload
      else if cmd = str "FORCE_RELAY" then
        match t with
        | [peer, _] => .forPeer peer .forceRelay
        | _ => .reply (str "ERR usage: FORCE_RELAY <peer> <0|1>\n")
      else if cmd = str "RESET" then .reset
      else if cmd = str "REGISTER" then
        match t with
        | peer :: name :: tok :: toks => .forPeer peer (.register name (tok :: toks))
        | _ => .reply (str "ERR usage: REGISTER <peer> <id> [LIMIT <n>] <TYPE> [args]\n")
      else if cmd = str "UNREGISTER" then
        match t with
        | [peer, name] => .forPeer peer (.unregister name)
        | _ => .reply (str "ERR usage: UNREGISTER <peer> <id>\n")
      else if cmd = str "OPEN" then
        match t.take 2, Session.openOpts {} (t.drop 2) with
        | [peer, want], (o, type :: args) => .forPeer peer (.openPipe want o type args)
        | _, _ => .reply (str
            "ERR usage: OPEN <peer> <pipe> [WAIT] [FOLLOW] [EXPECT <kind>] <TYPE> [args]\n")
      else if cmd = str "LIST" ∨ cmd = str "REACH" then
        match t with
        | [peer] => .forPeer peer (.query
            (if cmd = str "LIST" then str "__LIST__" else str "__PING__"))
        | _ => .reply (str "ERR usage: " ++ cmd ++ str " <peer>\n")
      else if cmd = str "CLOSE" then
        match t with
        | [peer, text] => .forPeer peer (.close text)
        | _ => .reply (str "ERR usage: CLOSE <peer> <id>\n")
      else .reply (str "ERR unknown command '" ++ cmd ++ str "'\n")

namespace Daemon

/-- Go through the sessions by name; `f` may change the files on the way. -/
def eachSession (d : Daemon) (f : Disk → Session → Option (Disk × Session)) : Option Daemon :=
  d.sessions.keys.foldlM (fun d name =>
    match d.sessions[name]? with
    | none => some d
    | some s => (f d.disk s).map fun r => { d with disk := r.1 }.putSession name r.2) d

def reset (d : Daemon) : Option Daemon := d.eachSession fun disk s => some (s.reset disk)

def tick (d : Daemon) (now : Nat) : Option Daemon :=
  d.eachSession fun disk s =>
    if s.pm.isSome && s.ns.isSome then some (s.tick disk now) else none

/-- A command for one peer. -/
def forPeer (d : Daemon) (a : Answers) (fd : Nat) (peer : Bytes) (cmd : SessionCmd) :
    Option (Daemon × Bytes) :=
  match d.sessionFor a peer with
  | (d, .error e) => some (d, cmd.refused e)
  | (d, .ok s) => (cmd.run d.files fd a.now d.disk s).map fun r =>
      ({ d with disk := r.1 }.putSession peer r.2.1, r.2.2)

/-- `handle_cmd`: the reply goes to the client on `fd`. -/
def handleCmd (d : Daemon) (a : Answers) (fd : Nat) (line : Bytes) : Option (Daemon × Bytes) :=
  match parseCmd (tokens line) with
  | .reply text => some (d, text)
  | .reload => (d.reload a).map fun r => (r.1, str "OK " ++ r.2 ++ [newline])
  | .reset => d.reset.map fun d => (d, str "OK\n")
  | .forPeer peer cmd => d.forPeer a fd peer cmd

/-- A daemon starts: a session for every record. -/
def run (d : Daemon) (a : Answers) : Daemon :=
  (d.disk.store.loadAll d.disk.fs a.rank).foldl (fun d r => (d.startSession a r).1)
    { d with sessions := ∅ }

end Daemon

/-- Every address of the record parses. -/
def ConnRecord.hinted (r : ConnRecord) : Bool :=
  r.addresses.all fun a => (parseAddressHint a).isSome

/-! ## Steps -/

inductive DaemonAction
  | command (a : Answers) (fd : Nat) (line : Bytes)
  | tick (now : Nat)
  | accept (key : Bytes)
  | data (key : Bytes) (id : Nat) (b : Bytes) (now : Nat)
  | gone (key : Bytes) (id : Nat)
  | connected (key : Bytes) (id : Nat)
  | connectFailed (key : Bytes) (id : Nat)
  | requestClose (key : Bytes) (id : Nat)
  | ownerGone (key name : Bytes) (serial : Nat) (fd : Int)
  | changeFiles (files : SourceFs)
  /-- the daemon ends in any way and a new one is started -/
  | restart (a : Answers)
  /-- a pairing is accepted under a name; the uid is a new one, and of the addresses learned
  only those that parse were kept -/
  | pair (record : ConnRecord)
  | removePeer (name : Bytes)
  | renamePeer (source target : Bytes)

namespace Daemon

def onSession (d : Daemon) (key : Bytes) (f : Disk → Session → Disk × Session) : Option Daemon :=
  (d.sessions[key]?).map fun s =>
    let r := f d.disk s
    { d with disk := r.1 }.putSession key r.2

/-- An event of a connection the session already has. -/
def onDialing (d : Daemon) (key : Bytes) (id : Nat) (f : Session → Session) : Option Daemon :=
  match (d.sessions[key]?).bind fun s => s.insts[id]? with
  | some i => if i.dialing then d.onSession key fun disk s => (disk, f s) else none
  | none => none

/-- Another process changed the store; the daemon hears of it with the next RELOAD. -/
def withFiles (d : Daemon) (fs : FileSystem) : Daemon := { d with disk := { d.disk with fs } }

def step (d : Daemon) : DaemonAction → Option Daemon
  | .command a fd line => (d.handleCmd a fd line).map (·.1)
  | .tick now => d.tick now
  | .accept key => d.onSession key fun disk s => (disk, s.acceptInbound)
  | .data key id b now => d.onSession key fun disk s => (disk, (s.onTunnelData d.files id b now).1)
  | .gone key id => d.onSession key fun disk s => (disk, s.onTunnelGone id)
  | .connected key id => d.onDialing key id fun s => s.connected id
  | .connectFailed key id => d.onDialing key id fun s => s.connectFailed id
  | .requestClose key id => d.onSession key fun disk s => (disk, s.requestClose id)
  | .ownerGone key name serial fd => d.onSession key fun disk s => s.ownerGone disk name serial fd
  | .changeFiles files => some { d with files }
  | .restart a => some (d.run a)
  | .pair record =>
      if record.uid ∈ d.uids ∨ record.hinted = false then none
      else some { d.withFiles (d.disk.store.save d.disk.fs record).1 with
        uids := record.uid :: d.uids }
  | .removePeer name => some (d.withFiles ((d.disk.store.remove d.disk.fs name).getD d.disk.fs))
  | .renamePeer source target => some (d.withFiles (d.disk.store.rename d.disk.fs source target).1)

end Daemon
end Splice.Peer
