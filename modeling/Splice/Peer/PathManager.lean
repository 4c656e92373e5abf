import Splice.Net.Endpoint
import Splice.Proto.Relay
import Splice.Peer.Record

/-!
The path manager of one session: probes of the peer's direct addresses, discovery on
the local network, the question for the peer's LAN port, and the choice of the path.
What a call sends and whom it tells is gathered in `out`. The WireGuard tunnel, the
random numbers and the interfaces are the world's: each call is given what they
answer. Byte counters and the loss simulation are left out.
-/

namespace Splice.Peer
open Proto

inductive PathKind
  | relay
  | direct
  deriving DecidableEq

abbrev Nonce := ByteArr 16

instance : LawfulBEq Nonce := inferInstance

/-! ## Messages -/

inductive Disco
  | callme (ext : Endpoint) (locals : List Endpoint)
  | ping (tx : UInt64)
  | pong (tx : UInt64)
  /-- answer to a query on the local network -/
  | here (nonce mac : Nonce)
  /-- which LAN port do you listen on? -/
  | portq (nonce mac : Nonce)
  | porta (nonce : Nonce) (port : UInt16) (mac : Nonce)
  deriving DecidableEq

def kMaxAdvertise : Nat := 8

def Disco.build : Disco → Bytes
  | callme ext locals =>
      let locals := locals.take kMaxAdvertise
      0x01 :: (ext.build ++ locals.length.toUInt8 :: locals.flatMap Endpoint.build)
  | ping tx => 0x02 :: bigEndian 8 tx.toNat
  | pong tx => 0x03 :: bigEndian 8 tx.toNat
  | here nonce mac => 0x04 :: (nonce.toList ++ mac.toList)
  | portq nonce mac => 0x05 :: (nonce.toList ++ mac.toList)
  | porta nonce port mac => 0x06 :: (nonce.toList ++ (bigEndian 2 port.toNat ++ mac.toList))

/-- A datagram between the peers: a channel byte and a body. -/
inductive Inner
  | wg (packet : Bytes)
  | disco (msg : Disco)
  deriving DecidableEq

def Inner.build : Inner → Bytes
  | wg packet => 0x00 :: packet
  | disco msg => 0x01 :: msg.build

def kLanMagic : Bytes := str "SPLQ"

/-- What a call hands to the network or to the owner of the session. -/
inductive Effect
  | direct (dst : Endpoint) (inner : Inner)
  | relay (inner : Inner)
  | register
  | whereami (token : UInt32)
  | lanQuery (dst : Endpoint) (nonce mac : Nonce)
  /-- `on_peer_lan_port` -/
  | peerLanPort (port : UInt16)
  /-- `on_inner` -/
  | deliver (packet : Bytes) (via : PathKind)
  /-- an answer was taken for this nonce; no code reads it -/
  | accepted (nonce : Nonce) (port : UInt16)
  /-- a PONG of this token changed a candidate's round trip by this sample; no code reads it -/
  | measured (ep : Endpoint) (tx : UInt64) (sample : Int)
  deriving DecidableEq

/-- The datagram of an effect and where it goes. -/
def Effect.datagram (uid : Uid) (server : Endpoint) : Effect → Option (Endpoint × Bytes)
  | direct dst inner => some (dst, inner.build)
  | relay inner => some (server, encodeRelayUp uid inner.build)
  | register => some (server, encodeRelayUp uid [])
  | whereami token => some (server, encodeWhereamiReq token)
  | lanQuery dst nonce mac => some (dst, kLanMagic ++ (nonce.toList ++ mac.toList))
  | peerLanPort _ | deliver _ _ | accepted _ _ | measured _ _ _ => none

/-! ## Times -/

/-- A periodic gate: `due` at most once an interval, at once after `rearm`. -/
structure Timer where
  last : Int := 0
  deriving DecidableEq

def Timer.due (t : Timer) (now interval : Int) : Bool := interval ≤ now - t.last

def Timer.rearm : Timer := ⟨0⟩

def kPortAskFastMs : Int := 5000
def kPortAskFastTries : Nat := 6
def kPortAskSlowMs : Int := 5 * 60000
def kPortAnswerMs : Int := 30000
def kLanFastMs : Int := 2000
def kLanFastQueries : Nat := 5
def kLanSlowMs : Int := 30000
def kLanRemember : Nat := 64
def kTickMs : Int := 250
def kRegisterMs : Int := 4000
def kWhereamiMs : Int := 1000
def kWhereamiRefreshMs : Int := 10000
def kCallmeMs : Int := 1000
def kCallmeDirectMs : Int := 30000
def kHousekeepMs : Int := 10000
def kCandStaleMs : Int := 120000
def kPingProbeMs : Int := 300
def kPingKeepaliveMs : Int := 1000
def kDirectDeadMs : Int := 3000
def kMaxCands : Nat := 16

/-! ## State -/

/-- A direct address that is probed. -/
structure DirectCand where
  ep : Endpoint
  lan : Bool := false
  /-- last sign of life, 0 for none -/
  lastRx : Int := 0
  /-- smoothed round trip, 0 while not measured -/
  srtt : Int := 0
  learned : Int := 0
  deriving DecidableEq

structure PortAsk where
  nonce : Nonce
  at_ : Int
  deriving DecidableEq

structure PathConfig where
  uid : Uid
  server : Endpoint := {}
  /-- where the peer listens for queries -/
  lanPort : UInt16 := 0
  lanTargets : List Endpoint := []
  /-- where this side listens -/
  ownLanPort : UInt16 := 0

structure PathManager where
  cfg : PathConfig
  txPath : PathKind := .relay
  external : Option Endpoint := none
  cands : List DirectCand := []
  chosen : Option Endpoint := none
  active : Bool := false
  directConfirmed : Bool := false
  forceRelay : Bool := false
  relayOn : Bool := true
  lanBroadcast : Bool := true
  localEps : List Endpoint := []
  tTick : Timer := {}
  tRegister : Timer := {}
  tWhereami : Timer := {}
  tCallme : Timer := {}
  tPing : Timer := {}
  tLan : Timer := {}
  tHousekeep : Timer := {}
  tPort : Timer := {}
  portFresh : Bool := false
  portTries : Nat := 0
  portAsked : List PortAsk := []
  portSeen : List Nonce := []
  lanHints : List Endpoint := []
  lanQueries : Nat := 0
  lanSent : List Nonce := []
  lanSeen : List Nonce := []
  whereamiToken : UInt32 := 0
  pingTxid : UInt64 := 0
  out : List Effect := []

/-- Successive answers of the tunnel to one datagram: packets to write, and what it delivers. -/
structure WgReply where
  network : List Bytes := []
  tunnel : Option Bytes := none

/-- What the world gives one tick. -/
structure Draw where
  wg : Option Bytes := none
  token : UInt32 := 0
  portNonce : Nonce := ByteArr.zero 16
  lanNonce : Nonce := ByteArr.zero 16
  locals : List Endpoint := []
  broadcasts : List Endpoint := []

/-- The bytes under a MAC: a label, the sender's side and the data. -/
def macInput (label : String) (side : Bool) (data : Bytes) : Bytes :=
  str label ++ (if side then 1 else 0) :: data

def portData (nonce : Nonce) (port : UInt16) : Bytes := nonce.toList ++ bigEndian 2 port.toNat

/-- `remember`: the last 64 of a list. -/
def remember {α : Type} (v : List α) (x : α) : List α :=
  (if kLanRemember ≤ v.length then v.drop 1 else v) ++ [x]

namespace PathManager

/-- The MAC of the pair's key, cut to 16 bytes. -/
abbrev MacFn := Bytes → Nonce

variable (mac : MacFn) (m : PathManager)

/-- The low bit of the uid. -/
def side : Bool := (m.cfg.uid.toList.getLast?.getD 0) &&& 1 ≠ 0

def start (cfg : PathConfig) (locals : List Endpoint) : PathManager where
  cfg := { cfg with lanPort := if cfg.lanPort = 0 then kLanDiscoPort else cfg.lanPort }
  localEps := locals

def relayOk : Bool := m.relayOn && m.cfg.server.valid

def emit (e : Effect) : PathManager := { m with out := m.out ++ [e] }

def lanMac (label : String) (side : Bool) (data : Bytes) : Nonce := mac (macInput label side data)

/-! ## Sending -/

def sendPayload (path : PathKind) (dst : Option Endpoint) (inner : Inner) : PathManager :=
  match path, dst with
  | .relay, _ => if m.relayOk then m.emit (.relay inner) else m
  | .direct, some ep => m.emit (.direct ep inner)
  | .direct, none => m

def sendWg (packet : Bytes) : PathManager :=
  if !m.forceRelay && m.txPath = .direct && m.chosen.isSome then
    m.sendPayload .direct m.chosen (.wg packet)
  else m.sendPayload .relay none (.wg packet)

/-- Back the way a message came, or out the given way. -/
def sendDiscoReply (msg : Disco) (via : PathKind) (src : Option Endpoint) : PathManager :=
  if via = .direct && src.isSome && !m.forceRelay then m.sendPayload .direct src (.disco msg)
  else m.sendPayload .relay none (.disco msg)

def sendRegister : PathManager := if m.relayOk then m.emit .register else m

def sendInner (wg : Option Bytes) : PathManager :=
  match wg with
  | some packet => m.sendWg packet
  | none => m

/-! ## Candidates -/

def findCand (ep : Endpoint) : Option DirectCand := m.cands.find? fun c => c.ep = ep

/-- Change the candidate at `ep`, the first one in the table. -/
def onCand (ep : Endpoint) (f : DirectCand → DirectCand) : List DirectCand → List DirectCand
  | [] => []
  | c :: cs => if c.ep = ep then f c :: cs else c :: onCand ep f cs

def addCand (ep : Endpoint) (lan : Bool) (now : Int) : PathManager :=
  if !ep.valid then m
  else if (m.findCand ep).isSome then
    { m with cands := onCand ep (fun c => { c with lan := c.lan || lan, learned := now }) m.cands }
  else
    let new : DirectCand := { ep, lan, learned := now }
    if kMaxCands ≤ m.cands.length then
      -- room is made by one that never answered
      let dead (c : DirectCand) : Bool := c.lastRx = 0 && m.chosen ≠ some c.ep
      if m.cands.any dead then { m with cands := m.cands.eraseP dead ++ [new] } else m
    else { m with cands := m.cands ++ [new] }

def pruneCands (now : Int) : PathManager :=
  { m with cands := m.cands.filter fun c =>
      m.chosen = some c.ep || !(kCandStaleMs < now - max c.lastRx c.learned) }

def touchCand (ep : Endpoint) (now : Int) : PathManager :=
  if (m.findCand ep).isSome then
    { m with cands := onCand ep (fun c => { c with lastRx := now }) m.cands }
  else if kMaxCands ≤ m.cands.length then m
  else { m with cands := m.cands ++ [{ ep, lastRx := now, learned := now }] }

def alive (now : Int) (c : DirectCand) : Bool := c.lastRx ≠ 0 && now - c.lastRx < kDirectDeadMs

def score (c : DirectCand) : Int := if c.srtt ≠ 0 then c.srtt else 1000000

/-- The alive candidate of the lowest score, the first of several. -/
def best (now : Int) : Option DirectCand :=
  m.cands.foldl (fun b c =>
    if alive now c && b.all (fun b => score c < score b) then some c else b) none

/-- The current one stays while it is alive and within a quarter of the best. -/
def chooseDirect (now : Int) : PathManager :=
  let b := m.best now
  let cur := m.chosen.bind m.findCand
  let b := match cur, b with
    | some c, some b => if alive now c && score c ≤ score b + (score b).tdiv 4 then some c else some b
    | _, b => b
  { m with chosen := b.map (·.ep), directConfirmed := b.isSome }

/-! ## Searches -/

def restartLanSearch : PathManager := { m with lanQueries := 0, tLan := .rearm }

def restartPortAsk : PathManager := { m with portFresh := false, portTries := 0, tPort := .rearm }

def updateTxPath (now : Int) : PathManager :=
  let was := m
  let m := m.chooseDirect now
  let m :=
    if was.directConfirmed && !m.directConfirmed then m.restartLanSearch.restartPortAsk
    else if m.directConfirmed && m.chosen ≠ was.chosen then m.restartPortAsk
    else m
  { m with txPath := if !m.forceRelay && m.directConfirmed then .direct else .relay }

def sendLanQuery (d : Draw) : PathManager :=
  let tag := lanMac mac "who" m.side d.lanNonce.toList
  let targets := if m.cfg.lanTargets = [] then d.broadcasts else m.cfg.lanTargets
  let dsts := (if m.lanBroadcast then targets else []) ++ m.lanHints
  { m with
    lanSent := remember m.lanSent d.lanNonce
    out := m.out ++ dsts.map fun ep => .lanQuery ep d.lanNonce tag
    lanQueries := m.lanQueries + 1 }

def isLanQuery (pkt : Bytes) : Bool := pkt.length = 36 && pkt.take 4 = kLanMagic

/-- The nonce and the MAC of a query. -/
def lanNonceOf (pkt : Bytes) : Nonce := (ByteReader.array 16 ⟨pkt.drop 4, false⟩).1

def lanQueryFromPeer (pkt : Bytes) : Bool :=
  isLanQuery pkt &&
    (lanMac mac "who" (!m.side) (lanNonceOf pkt).toList).toList = pkt.drop 20

def answerLanQuery (src : Endpoint) (pkt : Bytes) (now : Int) : PathManager :=
  if m.forceRelay then m
  else
    let nonce := lanNonceOf pkt
    if nonce ∈ m.lanSeen then m
    else
      let m := { m with lanSeen := remember m.lanSeen nonce }
      let m := m.addCand src true now
      let m := m.sendPayload .direct (some src)
        (.disco (.here nonce (lanMac mac "here" m.side nonce.toList)))
      { m with tPing := .rearm }

/-- The daemon hands a query to an active session whose peer sent it. -/
def onLanDiscovery (src : Endpoint) (pkt : Bytes) (now : Int) : PathManager :=
  if m.active && m.lanQueryFromPeer mac pkt then m.answerLanQuery mac src pkt now else m

def sendPortQuery (now : Int) (nonce : Nonce) : PathManager :=
  let asked := m.portAsked.filter fun a => !(kPortAnswerMs < now - a.at_)
  let m := { m with portAsked := asked ++ [{ nonce, at_ := now : PortAsk }] }
  let m := m.sendDiscoReply (.portq nonce (lanMac mac "portq" m.side nonce.toList)) m.txPath
    m.chosen
  { m with portTries := m.portTries + 1 }

/-! ## Datagrams -/

/-- LAN addresses of a CALLME: as many as it announces and holds. -/
def readLocals : Nat → ByteReader → List Endpoint
  | 0, _ => []
  | n + 1, r =>
      if !r.ok then []
      else
        let (ip, r) := r.array 16
        let (port, r) := r.u16
        if !r.ok then [] else { ip, port } :: readLocals n r

def onCallme (r : ByteReader) (via : PathKind) (now : Int) : PathManager :=
  if via ≠ .relay then m
  else
    let (ip, r) := r.array 16
    let (port, r) := r.u16
    if !r.ok then m
    else
      let (n, r) := r.u8
      (readLocals n.toNat r).foldl (fun m ep => m.addCand ep true now)
        (m.addCand { ip, port } false now)

def onHere (r : ByteReader) (via : PathKind) (src : Option Endpoint) (now : Int) : PathManager :=
  match via, src with
  | .direct, some ep =>
      let (nonce, r) := r.array 16
      let (tag, r) := r.array 16
      if !r.ok then m
      else if nonce ∉ m.lanSent then m
      else if lanMac mac "here" (!m.side) nonce.toList ≠ tag then m
      else { m.addCand ep true now with tPing := .rearm }
  | _, _ => m

def onPortQuery (r : ByteReader) (via : PathKind) (src : Option Endpoint) : PathManager :=
  let (nonce, r) := r.array 16
  let (tag, r) := r.array 16
  if !r.done || m.cfg.ownLanPort = 0 || !m.active then m
  else if lanMac mac "portq" (!m.side) nonce.toList ≠ tag then m
  else if nonce ∈ m.portSeen then m
  else
    let m := { m with portSeen := remember m.portSeen nonce }
    let port := m.cfg.ownLanPort
    m.sendDiscoReply (.porta nonce port (lanMac mac "porta" m.side (portData nonce port))) via src

def onPortAnswer (r : ByteReader) (now : Int) : PathManager :=
  let (nonce, r) := r.array 16
  let (port, r) := r.u16
  let (tag, r) := r.array 16
  if !r.done || port = 0 then m
  else
    match m.portAsked.find? fun a => a.nonce = nonce with
    | none => m
    | some asked =>
        if kPortAnswerMs < now - asked.at_ then m
        else if lanMac mac "porta" (!m.side) (portData nonce port) ≠ tag then m
        else
          let m := { m with
            portAsked := m.portAsked.eraseP fun a => a.nonce = nonce
            portFresh := true }.emit (.accepted nonce port)
          if port ≠ m.cfg.lanPort then m.emit (.peerLanPort port) else m

def onPing (r : ByteReader) (src : Option Endpoint) : PathManager :=
  let (tx, r) := r.u64
  if !r.ok || src.isNone then m else m.sendPayload .direct src (.disco (.pong tx))

/-- The round trip a PONG is taken to show. -/
def rtt (now : Int) : Int := max 1 (now - m.tPing.last)

def measure (rtt now : Int) (c : DirectCand) : DirectCand :=
  { c with lastRx := now, srtt := if c.srtt ≠ 0 then (c.srtt * 3 + rtt).tdiv 4 else rtt }

def onPong (r : ByteReader) (src : Option Endpoint) (now : Int) : PathManager :=
  let (tx, r) := r.u64
  match src with
  | none => m
  | some ep =>
      if !r.ok || tx ≠ m.pingTxid || (m.findCand ep).isNone then m
      else
        { m with cands := onCand ep (measure (m.rtt now) now) m.cands }.emit
          (.measured ep tx (m.rtt now))

def handleDisco (body : Bytes) (via : PathKind) (src : Option Endpoint) (now : Int) :
    PathManager :=
  let (dt, r) := ByteReader.u8 ⟨body, false⟩
  if !r.ok then m
  else if dt = 0x01 then m.onCallme r via now
  else if dt = 0x04 then m.onHere mac r via src now
  else if dt = 0x05 then m.onPortQuery mac r via src
  else if dt = 0x06 then m.onPortAnswer mac r now
  else if dt = 0x02 then m.onPing r src
  else if dt = 0x03 then m.onPong r src now
  else m

/-- Answers of the tunnel go back to where a direct datagram came from; what it delivers is
a sign of life. -/
def pumpWg (wg : WgReply) (via : PathKind) (src : Option Endpoint) (now : Int) : PathManager :=
  let back := via = .direct && src.isSome && !m.forceRelay
  let m := wg.network.foldl (fun m p =>
    if back then m.sendPayload .direct src (.wg p) else m.sendWg p) m
  match wg.tunnel with
  | none => m
  | some packet =>
      let m := match via, src with
        | .direct, some ep => m.touchCand ep now
        | _, _ => m
      m.emit (.deliver packet via)

def dispatchInner (inner : Bytes) (via : PathKind) (src : Option Endpoint) (now : Int)
    (wg : WgReply) : PathManager :=
  match inner with
  | [] => m
  | ch :: body =>
      if ch = 0x00 then m.pumpWg wg via src now
      else if ch = 0x01 then m.handleDisco mac body via src now
      else m

def onWhereami (rep : WhereamiReply) : PathManager :=
  if rep.token = m.whereamiToken then
    let ext : Endpoint := { ip := rep.ip, port := rep.port }
    let m := if m.external ≠ some ext then { m with tCallme := .rearm } else m
    { m with external := some ext }
  else m

def process (src : Endpoint) (raw : Bytes) (now : Int) (wg : WgReply) : PathManager :=
  if m.forceRelay && src ≠ m.cfg.server then m
  else if src = m.cfg.server then
    if !m.relayOn then m
    else
      match peekUdpType raw with
      | some .whereami => ((decodeWhereamiReply raw).map m.onWhereami).getD m
      | some .relay =>
          ((decodeRelayDown raw).map fun inner =>
            m.dispatchInner mac inner .relay none now wg).getD m
      | none => m
  else m.dispatchInner mac raw .direct (some src) now wg

/-! ## Ticks -/

def refreshLocalAddrs (locals : List Endpoint) : PathManager :=
  if locals = m.localEps then m
  else { m with localEps := locals, tCallme := .rearm }.restartLanSearch

def tickWg (now : Int) (d : Draw) : PathManager :=
  if m.tTick.due now kTickMs then { m with tTick := ⟨now⟩ }.sendInner d.wg else m

def tickRegister (now : Int) : PathManager :=
  if m.tRegister.due now kRegisterMs then { m with tRegister := ⟨now⟩ }.sendRegister else m

def tickWhereami (now : Int) (d : Draw) : PathManager :=
  let iv := if m.external.isSome then kWhereamiRefreshMs else kWhereamiMs
  if m.relayOk && m.tWhereami.due now iv then
    { m with tWhereami := ⟨now⟩, whereamiToken := d.token }.emit (.whereami d.token)
  else m

def tickHousekeep (now : Int) (d : Draw) : PathManager :=
  if m.tHousekeep.due now kHousekeepMs then
    ({ m with tHousekeep := ⟨now⟩ }.refreshLocalAddrs d.locals).pruneCands now
  else m

def tickCallme (now : Int) : PathManager :=
  match m.external with
  | none => m
  | some ext =>
      if m.relayOk && m.tCallme.due now (if m.directConfirmed then kCallmeDirectMs else kCallmeMs)
      then { m with tCallme := ⟨now⟩ }.sendPayload .relay none (.disco (.callme ext m.localEps))
      else m

def tickPort (now : Int) (d : Draw) : PathManager :=
  let fast := !m.portFresh && m.portTries < kPortAskFastTries
  if m.tPort.due now (if fast then kPortAskFastMs else kPortAskSlowMs) then
    { m with tPort := ⟨now⟩ }.sendPortQuery mac now d.portNonce
  else m

def tickLan (now : Int) (d : Draw) : PathManager :=
  let fast := !m.directConfirmed && m.lanQueries < kLanFastQueries
  if !m.forceRelay && m.tLan.due now (if fast then kLanFastMs else kLanSlowMs) then
    { m with tLan := ⟨now⟩ }.sendLanQuery mac d
  else m

def tickPing (now : Int) : PathManager :=
  let iv := if m.directConfirmed then kPingKeepaliveMs else kPingProbeMs
  if !m.forceRelay && m.cands ≠ [] && m.tPing.due now iv then
    let tx := m.pingTxid + 1
    { m with
      tPing := ⟨now⟩
      pingTxid := tx
      out := m.out ++ m.cands.map fun c => .direct c.ep (.disco (.ping tx)) }
  else m

def tick (now : Int) (d : Draw) : PathManager :=
  if !m.active then m
  else
    let m := m.tickWg now d
    let m := m.tickRegister now
    let m := m.tickWhereami now d
    let m := m.tickHousekeep now d
    let m := m.tickCallme now
    let m := m.tickPort mac now d
    let m := m.tickLan mac now d
    let m := m.tickPing now
    m.updateTxPath now

/-! ## Settings -/

def setActive (a : Bool) : PathManager :=
  let m :=
    if a && !m.active then
      { m with
        tRegister := .rearm, tWhereami := .rearm, tCallme := .rearm
        tPing := .rearm }.restartLanSearch.restartPortAsk
    else m
  { m with active := a }

def setServer (ep : Endpoint) : PathManager :=
  { m with cfg := { m.cfg with server := ep }, tRegister := .rearm, tWhereami := .rearm }

def setRelayEnabled (on : Bool) : PathManager :=
  let m :=
    if on && !m.relayOn then
      { m with tRegister := .rearm, tWhereami := .rearm, tCallme := .rearm }
    else m
  { m with relayOn := on }

def setLanBroadcast (on : Bool) : PathManager := { m with lanBroadcast := on }

def setLanPort (port : UInt16) : PathManager :=
  let port := if port = 0 then kLanDiscoPort else port
  if port = m.cfg.lanPort then m
  else { m with cfg := { m.cfg with lanPort := port } }.restartLanSearch

def setLanHints (hints : List Endpoint) : PathManager :=
  if hints = m.lanHints then m else { m with lanHints := hints }.restartLanSearch

def setForceRelay (f : Bool) : PathManager := { m with forceRelay := f }

/-! ## Runs -/

/-- A call of the session's owner, with what the world answers during it. -/
inductive Event
  | tick (now : Int) (d : Draw)
  | datagram (src : Endpoint) (raw : Bytes) (now : Int) (wg : WgReply)
  | lanQuery (src : Endpoint) (pkt : Bytes) (now : Int)
  | addCandidate (ep : Endpoint) (now : Int)
  | sendInner (wg : Option Bytes)
  | setActive (a : Bool)
  | setServer (ep : Endpoint)
  | setRelayEnabled (on : Bool)
  | setLanBroadcast (on : Bool)
  | setLanPort (port : UInt16)
  | setLanHints (hints : List Endpoint)
  | setForceRelay (f : Bool)

/-- The clock of a call that reads it. -/
def Event.time : Event → Option Int
  | tick now _ | datagram _ _ now _ | lanQuery _ _ now | addCandidate _ now => some now
  | _ => none

def on : Event → PathManager
  | .tick now d => m.tick mac now d
  | .datagram src raw now wg => m.process mac src raw now wg
  | .lanQuery src pkt now => m.onLanDiscovery mac src pkt now
  | .addCandidate ep now => m.addCand ep true now
  | .sendInner wg => m.sendInner wg
  | .setActive a => m.setActive a
  | .setServer ep => m.setServer ep
  | .setRelayEnabled on => m.setRelayEnabled on
  | .setLanBroadcast on => m.setLanBroadcast on
  | .setLanPort port => m.setLanPort port
  | .setLanHints hints => m.setLanHints hints
  | .setForceRelay f => m.setForceRelay f

/-- One call; `out` is what this one gave. -/
def step (e : Event) : PathManager := { m with out := [] }.on mac e

def run (m : PathManager) (es : List Event) : PathManager := es.foldl (step mac) m

end PathManager
end Splice.Peer
