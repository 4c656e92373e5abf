import Splice.Peer.RoundTrip

/-!
The table of direct addresses. Whatever a call does to it is a list of five operations,
read off the datagram or the clock by `tableOps`; the invariant of the table and the
times in it are about these.
-/

namespace Splice.Peer.PathManager
open Proto

/-- An operation on the table. -/
inductive TableOp
  | add (ep : Endpoint) (lan : Bool)
  | touch (ep : Endpoint)
  /-- the answer to a probe -/
  | pong (ep : Endpoint) (rtt : Int)
  | prune
  | update
  deriving DecidableEq

/-- The operation reports the address or is a sign of life from it. -/
def TableOp.About (ep : Endpoint) : TableOp → Prop
  | add ep' _ => ep' = ep ∧ ep.valid = true
  | touch ep' | pong ep' _ => ep' = ep
  | prune | update => False

def apply (now : Int) (m : PathManager) : TableOp → PathManager
  | .add ep lan => m.addCand ep lan now
  | .touch ep => m.touchCand ep now
  | .pong ep rtt => { m with cands := onCand ep (measure rtt now) m.cands }
  | .prune => m.pruneCands now
  | .update => m.updateTxPath now

def applyAll (now : Int) (m : PathManager) (ops : List TableOp) : PathManager :=
  ops.foldl (apply now) m

/-! ## The operations of a call -/

section Ops
variable (mac : MacFn) (m : PathManager)

/-- The addresses of a CALLME. -/
def callmeOps (r : ByteReader) (via : PathKind) : List TableOp :=
  if via ≠ .relay then []
  else
    let (ip, r) := r.array 16
    let (port, r) := r.u16
    if !r.ok then []
    else
      let (n, r) := r.u8
      .add { ip, port } false :: (readLocals n.toNat r).map fun ep => .add ep true

/-- The sender of a HERE for one of our queries. -/
def hereOps (r : ByteReader) (via : PathKind) (src : Option Endpoint) : List TableOp :=
  match via, src with
  | .direct, some ep =>
      let (nonce, r) := r.array 16
      let (tag, r) := r.array 16
      if !r.ok then []
      else if nonce ∉ m.lanSent then []
      else if lanMac mac "here" (!m.side) nonce.toList ≠ tag then []
      else [.add ep true]
  | _, _ => []

def pongOps (r : ByteReader) (src : Option Endpoint) (now : Int) : List TableOp :=
  let (tx, r) := r.u64
  match src with
  | none => []
  | some ep =>
      if !r.ok || tx ≠ m.pingTxid || (m.findCand ep).isNone then [] else [.pong ep (m.rtt now)]

def discoOps (body : Bytes) (via : PathKind) (src : Option Endpoint) (now : Int) :
    List TableOp :=
  let (dt, r) := ByteReader.u8 ⟨body, false⟩
  if !r.ok then []
  else if dt = 0x01 then callmeOps r via
  else if dt = 0x04 then m.hereOps mac r via src
  else if dt = 0x03 then m.pongOps r src now
  else []

/-- Whatever the tunnel delivers from a direct address. -/
def wgOps (wg : WgReply) (via : PathKind) (src : Option Endpoint) : List TableOp :=
  match wg.tunnel, via, src with
  | some _, .direct, some ep => [.touch ep]
  | _, _, _ => []

def innerOps (inner : Bytes) (via : PathKind) (src : Option Endpoint) (now : Int)
    (wg : WgReply) : List TableOp :=
  match inner with
  | [] => []
  | ch :: body =>
      if ch = 0x00 then wgOps wg via src
      else if ch = 0x01 then m.discoOps mac body via src now
      else []

def processOps (src : Endpoint) (raw : Bytes) (now : Int) (wg : WgReply) : List TableOp :=
  if m.forceRelay && src ≠ m.cfg.server then []
  else if src = m.cfg.server then
    if !m.relayOn then []
    else
      match peekUdpType raw with
      | some .relay =>
          ((decodeRelayDown raw).map fun inner => m.innerOps mac inner .relay none now wg).getD []
      | some .whereami | none => []
  else m.innerOps mac raw .direct (some src) now wg

/-- A query of the peer is answered. -/
def answers (pkt : Bytes) : Bool :=
  m.active && m.lanQueryFromPeer mac pkt && !m.forceRelay && lanNonceOf pkt ∉ m.lanSeen

def tableOps : Event → List TableOp
  | .tick now _ =>
      if !m.active then []
      else if m.tHousekeep.due now kHousekeepMs then [.prune, .update]
      else [.update]
  | .datagram src raw now wg => m.processOps mac src raw now wg
  | .lanQuery src pkt _ => if m.answers mac pkt then [.add src true] else []
  | .addCandidate ep _ => [.add ep true]
  | _ => []

end Ops

/-! ## Calls and their operations -/

/-- `m'` has the table of `m`. -/
structure Same (m m' : PathManager) : Prop where
  cands : m'.cands = m.cands
  chosen : m'.chosen = m.chosen
  confirmed : m'.directConfirmed = m.directConfirmed
  txPath : m'.txPath = m.txPath

namespace Same
variable {m m' m'' : PathManager}

theorem refl (m : PathManager) : Same m m := ⟨rfl, rfl, rfl, rfl⟩

theorem trans (h : Same m m') (h' : Same m' m'') : Same m m'' :=
  ⟨h'.cands.trans h.cands, h'.chosen.trans h.chosen, h'.confirmed.trans h.confirmed,
    h'.txPath.trans h.txPath⟩

theorem findCand (h : Same m m') (ep : Endpoint) : m'.findCand ep = m.findCand ep := by
  rw [PathManager.findCand, PathManager.findCand, h.cands]

theorem addCand (h : Same m m') (ep : Endpoint) (lan : Bool) (now : Int) :
    Same (m.addCand ep lan now) (m'.addCand ep lan now) := by
  simp only [PathManager.addCand, h.findCand, h.cands, h.chosen]
  split
  · exact h
  · split
    · exact ⟨rfl, rfl, h.confirmed, h.txPath⟩
    · split
      · split
        · exact ⟨rfl, rfl, h.confirmed, h.txPath⟩
        · exact h
      · exact ⟨rfl, rfl, h.confirmed, h.txPath⟩

theorem touchCand (h : Same m m') (ep : Endpoint) (now : Int) :
    Same (m.touchCand ep now) (m'.touchCand ep now) := by
  simp only [PathManager.touchCand, h.findCand, h.cands]
  split
  · exact ⟨rfl, h.chosen, h.confirmed, h.txPath⟩
  · split
    · exact h
    · exact ⟨rfl, h.chosen, h.confirmed, h.txPath⟩

theorem pruneCands (h : Same m m') (now : Int) : Same (m.pruneCands now) (m'.pruneCands now) := by
  simp only [PathManager.pruneCands, h.cands, h.chosen]
  exact ⟨rfl, rfl, h.confirmed, h.txPath⟩

theorem chooseDirect (h : Same m m') (now : Int) :
    (m'.chooseDirect now).chosen = (m.chooseDirect now).chosen ∧
    (m'.chooseDirect now).directConfirmed = (m.chooseDirect now).directConfirmed := by
  have hfind : m'.findCand = m.findCand := funext h.findCand
  simp only [PathManager.chooseDirect, best, h.cands, h.chosen, hfind, and_self]

end Same

section Calls
variable (mac : MacFn) (m : PathManager)

theorem updateTxPath_table (now : Int) :
    (m.updateTxPath now).cands = m.cands ∧
    (m.updateTxPath now).chosen = (m.chooseDirect now).chosen ∧
    (m.updateTxPath now).directConfirmed = (m.chooseDirect now).directConfirmed ∧
    (m.updateTxPath now).txPath =
      if !m.forceRelay && (m.chooseDirect now).directConfirmed then .direct else .relay := by
  simp only [updateTxPath]
  split
  · exact ⟨rfl, rfl, rfl, rfl⟩
  · split
    · exact ⟨rfl, rfl, rfl, rfl⟩
    · exact ⟨rfl, rfl, rfl, rfl⟩

theorem Same.updateTxPath {m m' : PathManager} (h : Same m m')
    (force : m'.forceRelay = m.forceRelay) (now : Int) :
    Same (m.updateTxPath now) (m'.updateTxPath now) := by
  obtain ⟨hcands, hchosen, hconf, htx⟩ := updateTxPath_table m now
  obtain ⟨hcands', hchosen', hconf', htx'⟩ := updateTxPath_table m' now
  obtain ⟨echosen, econf⟩ := h.chooseDirect now
  constructor
  · rw [hcands, hcands', h.cands]
  · rw [hchosen, hchosen', echosen]
  · rw [hconf, hconf', econf]
  · rw [htx, htx', econf, force]

theorem apply_forceRelay (now : Int) (op : TableOp) :
    (apply now m op).forceRelay = m.forceRelay := by
  cases op with
  | add ep lan =>
      simp only [apply, addCand]
      repeat (split; · rfl)
      split
      · split <;> rfl
      · rfl
  | touch ep =>
      simp only [apply, touchCand]
      repeat (split; · rfl)
      rfl
  | pong ep rtt => rfl
  | prune => rfl
  | update =>
      simp only [apply, updateTxPath]
      repeat (split; · rfl)
      rfl

/-- An operation sees the table and the setting for the relay only. -/
theorem Same.apply {m m' : PathManager} (h : Same m m') (force : m'.forceRelay = m.forceRelay)
    (now : Int) (op : TableOp) : Same (apply now m op) (apply now m' op) := by
  cases op with
  | add ep lan => exact h.addCand ep lan now
  | touch ep => exact h.touchCand ep now
  | pong ep rtt =>
      refine ⟨?_, h.chosen, h.confirmed, h.txPath⟩
      simp only [PathManager.apply, h.cands]
  | prune => exact h.pruneCands now
  | update => exact h.updateTxPath force now

theorem Same.applyAll {m m' : PathManager} (h : Same m m') (force : m'.forceRelay = m.forceRelay)
    (now : Int) (ops : List TableOp) : Same (applyAll now m ops) (applyAll now m' ops) := by
  induction ops generalizing m m' with
  | nil => exact h
  | cons op ops ih =>
      refine ih (h.apply force now op) ?_
      rw [apply_forceRelay, apply_forceRelay, force]

/-- Neither the table nor what decides about it changes. -/
structure Still (m m' : PathManager) : Prop extends Same m m' where
  force : m'.forceRelay = m.forceRelay
  housekeep : m'.tHousekeep = m.tHousekeep

namespace Still
variable {m m' m'' : PathManager}

theorem refl (m : PathManager) : Still m m := ⟨.refl m, rfl, rfl⟩

theorem trans (h : Still m m') (h' : Still m' m'') : Still m m'' :=
  ⟨h.toSame.trans h'.toSame, h'.force.trans h.force, h'.housekeep.trans h.housekeep⟩

theorem ite {b : Prop} [Decidable b] (h : b → Still m m') : Still m (if b then m' else m) := by
  by_cases hb : b
  · rw [if_pos hb]
    exact h hb
  · rw [if_neg hb]
    exact refl m

theorem foldl {α : Type} {f : PathManager → α → PathManager} (h : ∀ m a, Still m (f m a))
    (l : List α) (m : PathManager) : Still m (l.foldl f m) := by
  induction l generalizing m with
  | nil => exact refl m
  | cons a l ih => exact (h m a).trans (ih (f m a))

end Still

theorem still_emit (x : Effect) : Still m (m.emit x) := { Still.refl m with }

theorem still_sendPayload (path : PathKind) (dst : Option Endpoint) (inner : Inner) :
    Still m (m.sendPayload path dst inner) := by
  unfold sendPayload
  split
  · exact .ite fun _ => still_emit m _
  · exact still_emit m _
  · exact .refl m

theorem still_sendWg (packet : Bytes) : Still m (m.sendWg packet) := by
  unfold sendWg
  split
  · exact still_sendPayload m _ _ _
  · exact still_sendPayload m _ _ _

theorem still_sendDiscoReply (msg : Disco) (via : PathKind) (src : Option Endpoint) :
    Still m (m.sendDiscoReply msg via src) := by
  unfold sendDiscoReply
  split
  · exact still_sendPayload m _ _ _
  · exact still_sendPayload m _ _ _

theorem still_sendInner (wg : Option Bytes) : Still m (m.sendInner wg) := by
  cases wg with
  | none => exact .refl m
  | some packet => exact still_sendWg m packet

theorem still_tickWg (now : Int) (d : Draw) : Still m (m.tickWg now d) := by
  refine .ite fun _ => ?_
  have hstamp : Still m { m with tTick := ⟨now⟩ } := { Still.refl m with }
  exact hstamp.trans (still_sendInner _ _)

theorem still_tickRegister (now : Int) : Still m (m.tickRegister now) := by
  refine .ite fun _ => ?_
  have hstamp : Still m { m with tRegister := ⟨now⟩ } := { Still.refl m with }
  exact hstamp.trans (.ite fun _ => still_emit _ _)

theorem still_tickWhereami (now : Int) (d : Draw) : Still m (m.tickWhereami now d) :=
  .ite fun _ => { Still.refl m with }

theorem still_refreshLocalAddrs (locals : List Endpoint) :
    Still m (m.refreshLocalAddrs locals) := by
  unfold refreshLocalAddrs
  split
  · exact .refl m
  · exact { Still.refl m with }

theorem still_tickCallme (now : Int) : Still m (m.tickCallme now) := by
  unfold tickCallme
  split
  · exact .refl m
  · refine .ite fun _ => ?_
    have hstamp : Still m { m with tCallme := ⟨now⟩ } := { Still.refl m with }
    exact hstamp.trans (still_sendPayload _ _ _ _)

theorem still_tickPort (now : Int) (d : Draw) : Still m (m.tickPort mac now d) := by
  refine .ite fun _ => ?_
  simp only [sendPortQuery]
  have hasked : Still m { m with
      tPort := ⟨now⟩
      portAsked := (m.portAsked.filter fun a => !(kPortAnswerMs < now - a.at_)) ++
        [{ nonce := d.portNonce, at_ := now }] } := { Still.refl m with }
  have hsent := hasked.trans (still_sendDiscoReply _ (.portq d.portNonce
    (lanMac mac "portq" m.side d.portNonce.toList)) m.txPath m.chosen)
  exact { hsent with }

theorem still_tickLan (now : Int) (d : Draw) : Still m (m.tickLan mac now d) :=
  .ite fun _ => { Still.refl m with }

theorem still_tickPing (now : Int) : Still m (m.tickPing now) :=
  .ite fun _ => { Still.refl m with }

theorem still_onPortQuery (r : ByteReader) (via : PathKind) (src : Option Endpoint) :
    Still m (m.onPortQuery mac r via src) := by
  simp only [onPortQuery]
  split
  · exact .refl m
  split
  · exact .refl m
  split
  · exact .refl m
  · have hseen : Still m { m with portSeen := remember m.portSeen (r.array 16).1 } :=
      { Still.refl m with }
    exact hseen.trans (still_sendDiscoReply _ _ _ _)

theorem still_onPortAnswer (r : ByteReader) (now : Int) : Still m (m.onPortAnswer mac r now) := by
  simp only [onPortAnswer]
  split
  · exact .refl m
  split
  · exact .refl m
  split
  · exact .refl m
  split
  · exact .refl m
  split
  · exact { Still.refl m with }
  · exact { Still.refl m with }

theorem still_onWhereami (rep : WhereamiReply) : Still m (m.onWhereami rep) := by
  simp only [onWhereami]
  split
  · split
    · exact { Still.refl m with }
    · exact { Still.refl m with }
  · exact .refl m

/-! ## A call does its operations -/

theorem same_onCallme (r : ByteReader) (via : PathKind) (now : Int) :
    Same (applyAll now m (callmeOps r via)) (m.onCallme r via now) := by
  simp only [callmeOps, onCallme]
  split
  · exact .refl m
  split
  · exact .refl m
  · rw [applyAll, List.foldl_cons, List.foldl_map]
    exact .refl _

theorem same_onHere (r : ByteReader) (via : PathKind) (src : Option Endpoint) (now : Int) :
    Same (applyAll now m (m.hereOps mac r via src)) (m.onHere mac r via src now) := by
  cases via with
  | relay => exact .refl m
  | direct =>
      cases src with
      | none => exact .refl m
      | some ep =>
          simp only [hereOps, onHere]
          split
          · exact .refl m
          split
          · exact .refl m
          split
          · exact .refl m
          · exact ⟨rfl, rfl, rfl, rfl⟩

theorem same_onPong (r : ByteReader) (src : Option Endpoint) (now : Int) :
    Same (applyAll now m (m.pongOps r src now)) (m.onPong r src now) := by
  cases src with
  | none => exact .refl m
  | some ep =>
      simp only [pongOps, onPong]
      split
      · exact .refl m
      · exact ⟨rfl, rfl, rfl, rfl⟩

theorem same_handleDisco (body : Bytes) (via : PathKind) (src : Option Endpoint) (now : Int) :
    Same (applyAll now m (m.discoOps mac body via src now))
      (m.handleDisco mac body via src now) := by
  simp only [discoOps, handleDisco]
  generalize ByteReader.u8 ⟨body, false⟩ = x
  obtain ⟨dt, r⟩ := x
  dsimp only
  by_cases hok : (!r.ok) = true
  · rw [if_pos hok, if_pos hok]
    exact .refl m
  rw [if_neg hok, if_neg hok]
  by_cases h1 : dt = 0x01
  · rw [if_pos h1, if_pos h1]
    exact same_onCallme m r via now
  rw [if_neg h1, if_neg h1]
  by_cases h4 : dt = 0x04
  · rw [if_pos h4, if_pos h4]
    exact same_onHere mac m r via src now
  rw [if_neg h4, if_neg h4]
  by_cases h5 : dt = 0x05
  · rw [if_neg (h5 ▸ by decide), if_pos h5]
    exact (still_onPortQuery mac m r via src).toSame
  rw [if_neg h5]
  by_cases h6 : dt = 0x06
  · rw [if_neg (h6 ▸ by decide), if_pos h6]
    exact (still_onPortAnswer mac m r now).toSame
  rw [if_neg h6]
  by_cases h2 : dt = 0x02
  · rw [if_neg (h2 ▸ by decide), if_pos h2]
    simp only [onPing]
    split
    · exact .refl m
    · exact (still_sendPayload m _ _ _).toSame
  rw [if_neg h2]
  split
  · exact same_onPong m r src now
  · exact .refl m

theorem same_pumpWg (wg : WgReply) (via : PathKind) (src : Option Endpoint) (now : Int) :
    Same (applyAll now m (wgOps wg via src)) (m.pumpWg wg via src now) := by
  simp only [pumpWg, wgOps]
  generalize hm' : wg.network.foldl _ m = m'
  have hsent : Still m m' := by
    rw [← hm']
    refine Still.foldl (fun m p => ?_) _ m
    split
    · exact still_sendPayload m _ _ _
    · exact still_sendWg m p
  cases wg.tunnel with
  | none => exact hsent.toSame
  | some packet =>
      dsimp only
      cases via with
      | relay => exact { hsent.toSame with }
      | direct =>
          cases src with
          | none => exact { hsent.toSame with }
          | some ep => exact { hsent.toSame.touchCand ep now with }

theorem same_dispatchInner (inner : Bytes) (via : PathKind) (src : Option Endpoint) (now : Int)
    (wg : WgReply) : Same (applyAll now m (m.innerOps mac inner via src now wg))
      (m.dispatchInner mac inner via src now wg) := by
  cases inner with
  | nil => exact .refl m
  | cons ch body =>
      simp only [innerOps, dispatchInner]
      split
      · exact same_pumpWg m wg via src now
      split
      · exact same_handleDisco mac m body via src now
      · exact .refl m

theorem same_process (src : Endpoint) (raw : Bytes) (now : Int) (wg : WgReply) :
    Same (applyAll now m (m.processOps mac src raw now wg)) (m.process mac src raw now wg) := by
  simp only [processOps, process]
  split
  · exact .refl m
  split
  · split
    · exact .refl m
    cases peekUdpType raw with
    | none => exact .refl m
    | some k =>
        cases k with
        | whereami =>
            dsimp only
            cases decodeWhereamiReply raw with
            | none => exact .refl m
            | some rep => exact (still_onWhereami m rep).toSame
        | relay =>
            dsimp only
            cases decodeRelayDown raw with
            | none => exact .refl m
            | some inner => exact same_dispatchInner mac m inner .relay none now wg
  · exact same_dispatchInner mac m raw .direct (some src) now wg

theorem same_onLanDiscovery (src : Endpoint) (pkt : Bytes) (now : Int) :
    Same (applyAll now m (m.tableOps mac (.lanQuery src pkt now)))
      (m.onLanDiscovery mac src pkt now) := by
  simp only [tableOps, onLanDiscovery, answerLanQuery]
  by_cases hpeer : (m.active && m.lanQueryFromPeer mac pkt) = true
  · rw [if_pos hpeer]
    by_cases hforce : m.forceRelay = true
    · have hno : ¬ m.answers mac pkt = true := by simp [answers, hforce]
      rw [if_neg hno, if_pos hforce]
      exact .refl m
    · rw [if_neg hforce]
      by_cases hseen : lanNonceOf pkt ∈ m.lanSeen
      · have hno : ¬ m.answers mac pkt = true := by simp [answers, hseen]
        rw [if_neg hno, if_pos hseen]
        exact .refl m
      · have hyes : m.answers mac pkt = true := by simp [answers, hpeer, hforce, hseen]
        rw [if_pos hyes, if_neg hseen]
        have hnoted : Same m { m with lanSeen := remember m.lanSeen (lanNonceOf pkt) } :=
          ⟨rfl, rfl, rfl, rfl⟩
        have hsent := (hnoted.addCand src true now).trans
          (still_sendPayload _ .direct (some src) (.disco (.here (lanNonceOf pkt)
            (lanMac mac "here" m.side (lanNonceOf pkt).toList)))).toSame
        exact { hsent with }
  · have hno : ¬ m.answers mac pkt = true := by simp [answers, hpeer]
    rw [if_neg hno, if_neg hpeer]
    exact .refl m

theorem same_tick (now : Int) (d : Draw) :
    Same (applyAll now m (m.tableOps mac (.tick now d))) (m.tick mac now d) := by
  simp only [tableOps, tick_eq, tickFirst]
  split
  · exact .refl m
  have hbefore : Still m (((m.tickWg now d).tickRegister now).tickWhereami now d) :=
    ((still_tickWg m now d).trans (still_tickRegister _ now)).trans (still_tickWhereami _ now d)
  generalize ((m.tickWg now d).tickRegister now).tickWhereami now d = m₁ at hbefore
  have hafter : ∀ m' : PathManager, Still m' ((((m'.tickCallme now).tickPort mac now d).tickLan mac
      now d).tickPing now) := fun m' =>
    (((still_tickCallme m' now).trans (still_tickPort mac _ now d)).trans
      (still_tickLan mac _ now d)).trans (still_tickPing _ now)
  rw [tickHousekeep, hbefore.housekeep]
  split
  · have hstamp : Same m { m₁ with tHousekeep := ⟨now⟩ } := { hbefore.toSame with }
    have hlocal := still_refreshLocalAddrs { m₁ with tHousekeep := ⟨now⟩ } d.locals
    have hprune := (hstamp.trans hlocal.toSame).pruneCands now
    have hrest := hafter ((({ m₁ with tHousekeep := ⟨now⟩ }).refreshLocalAddrs d.locals).pruneCands
      now)
    refine (hprune.trans hrest.toSame).updateTxPath ?_ now
    exact hrest.force.trans (hlocal.force.trans hbefore.force)
  · have hrest := hbefore.trans (hafter m₁)
    exact hrest.toSame.updateTxPath hrest.force now

theorem same_on (e : Event) :
    Same (applyAll (e.time.getD 0) m (m.tableOps mac e)) (m.on mac e) := by
  cases e with
  | tick now d => exact same_tick mac m now d
  | datagram src raw now wg => exact same_process mac m src raw now wg
  | lanQuery src pkt now => exact same_onLanDiscovery mac m src pkt now
  | addCandidate ep now => exact .refl _
  | sendInner wg => exact (still_sendInner m wg).toSame
  | setActive a =>
      simp only [on, setActive]
      split
      · exact ⟨rfl, rfl, rfl, rfl⟩
      · exact ⟨rfl, rfl, rfl, rfl⟩
  | setServer ep => exact ⟨rfl, rfl, rfl, rfl⟩
  | setRelayEnabled b =>
      simp only [on, setRelayEnabled]
      split
      · exact ⟨rfl, rfl, rfl, rfl⟩
      · exact ⟨rfl, rfl, rfl, rfl⟩
  | setLanBroadcast b => exact ⟨rfl, rfl, rfl, rfl⟩
  | setLanPort port =>
      simp only [on, setLanPort]
      generalize (if port = 0 then kLanDiscoPort else port) = p
      split
      · exact .refl m
      · exact ⟨rfl, rfl, rfl, rfl⟩
  | setLanHints hints =>
      simp only [on, setLanHints]
      split
      · exact .refl m
      · exact ⟨rfl, rfl, rfl, rfl⟩
  | setForceRelay f => exact ⟨rfl, rfl, rfl, rfl⟩

/-- What a call does to the table are its operations. -/
theorem step_table (e : Event) :
    Same (applyAll (e.time.getD 0) m (m.tableOps mac e)) (m.step mac e) := by
  have hon := same_on mac { m with out := [] } e
  have hout : Same m { m with out := [] } := ⟨rfl, rfl, rfl, rfl⟩
  exact (hout.applyAll rfl _ (m.tableOps mac e)).trans hon

end Calls

/-! ## Where an operation comes from -/

section Origins
variable {mac : MacFn} {m : PathManager} {op : TableOp} {now : Int} {wg : WgReply}

/-- A PONG with the token of the last probe. -/
def IsPong (m : PathManager) (raw : Bytes) : Prop :=
  ∃ body, raw = 0x01 :: 0x03 :: body ∧ (ByteReader.u64 ⟨body, false⟩).1 = m.pingTxid ∧
    (ByteReader.u64 ⟨body, false⟩).2.ok = true

theorem op_of_callme {r : ByteReader} {via : PathKind} (h : op ∈ callmeOps r via) :
    via = .relay ∧ ∃ ep lan, op = .add ep lan := by
  simp only [callmeOps] at h
  split at h
  · cases h
  rename_i hvia
  refine ⟨not_not.mp hvia, ?_⟩
  split at h
  · cases h
  rcases List.mem_cons.mp h with rfl | h
  · exact ⟨_, _, rfl⟩
  · obtain ⟨ep, -, rfl⟩ := List.mem_map.mp h
    exact ⟨_, _, rfl⟩

theorem op_of_here {r : ByteReader} {via : PathKind} {src : Option Endpoint}
    (h : op ∈ m.hereOps mac r via src) : ∃ ep, via = .direct ∧ src = some ep ∧ op = .add ep true ∧
      (ByteReader.array 16 (r.array 16).2).2.ok = true ∧ (r.array 16).1 ∈ m.lanSent ∧
      lanMac mac "here" (!m.side) (r.array 16).1.toList = (ByteReader.array 16 (r.array 16).2).1 := by
  cases via with
  | relay => cases h
  | direct =>
      cases src with
      | none => cases h
      | some ep =>
          simp only [hereOps] at h
          split at h
          · cases h
          rename_i hok
          split at h
          · cases h
          rename_i hsent
          split at h
          · cases h
          rename_i hmac
          exact ⟨ep, rfl, rfl, List.mem_singleton.mp h, by simpa using hok, not_not.mp hsent,
            not_not.mp hmac⟩

theorem op_of_pong {r : ByteReader} {src : Option Endpoint} (h : op ∈ m.pongOps r src now) :
    ∃ ep, src = some ep ∧ op = .pong ep (m.rtt now) ∧ r.u64.2.ok = true ∧ r.u64.1 = m.pingTxid ∧
      (m.findCand ep).isSome = true := by
  cases src with
  | none => cases h
  | some ep =>
      simp only [pongOps] at h
      split at h
      · cases h
      rename_i hgo
      simp only [Bool.or_eq_true, Bool.not_eq_true', decide_eq_true_eq, not_or,
        Bool.not_eq_false, Option.isNone_iff_eq_none, ← ne_eq, Option.ne_none_iff_isSome] at hgo
      exact ⟨ep, rfl, List.mem_singleton.mp h, hgo.1.1, not_not.mp hgo.1.2, hgo.2⟩

/-- A datagram adds addresses, shows that its sender is alive, or answers a probe. -/
theorem op_of_inner {inner : Bytes} {via : PathKind} {src : Option Endpoint}
    (h : op ∈ m.innerOps mac inner via src now wg) :
    (∃ ep lan, op = .add ep lan) ∨
    (∃ ep, via = .direct ∧ src = some ep ∧ op = .touch ep ∧ wg.tunnel.isSome = true ∧
      inner.head? = some 0x00) ∨
    ∃ ep, src = some ep ∧ op = .pong ep (m.rtt now) ∧ IsPong m inner ∧
      (m.findCand ep).isSome = true := by
  cases inner with
  | nil => cases h
  | cons ch body =>
      simp only [innerOps] at h
      split at h
      · rename_i hch
        unfold wgOps at h
        split at h
        · rename_i htunnel
          exact .inr (.inl ⟨_, rfl, rfl, List.mem_singleton.mp h, by rw [htunnel]; rfl, by rw [hch]; rfl⟩)
        · cases h
      split at h
      · rename_i hch
        cases body with
        | nil => cases h
        | cons dt body =>
            simp only [discoOps, ByteReader.u8_cons] at h
            split at h
            · cases h
            split at h
            · exact .inl (op_of_callme h).2
            split at h
            · obtain ⟨ep, -, -, rfl, -⟩ := op_of_here h
              exact .inl ⟨_, _, rfl⟩
            split at h
            · rename_i hdt
              obtain ⟨ep, hsrc, rfl, hok, htx, hfind⟩ := op_of_pong h
              exact .inr (.inr ⟨ep, hsrc, rfl, ⟨body, by rw [hch, hdt], htx, hok⟩, hfind⟩)
            · cases h
      · cases h

theorem op_of_process {src : Endpoint} {raw : Bytes}
    (h : op ∈ m.processOps mac src raw now wg) :
    (∃ ep lan, op = .add ep lan) ∨
    (op = .touch src ∧ src ≠ m.cfg.server ∧ wg.tunnel.isSome = true ∧ raw.head? = some 0x00) ∨
    (op = .pong src (m.rtt now) ∧ src ≠ m.cfg.server ∧ IsPong m raw ∧
      (m.findCand src).isSome = true) := by
  simp only [processOps] at h
  split at h
  · cases h
  split at h
  · split at h
    · cases h
    split at h
    · cases hd : decodeRelayDown raw with
      | none =>
          rw [hd] at h
          cases h
      | some inner =>
          rw [hd] at h
          rcases op_of_inner h with hadd | ⟨ep, hvia, -⟩ | ⟨ep, hsrc, -⟩
          · exact .inl hadd
          · cases hvia
          · cases hsrc
    · cases h
    · cases h
  · rename_i hsrc
    rcases op_of_inner h with hadd | ⟨ep, -, hep, rfl, htunnel, hhead⟩ | ⟨ep, hep, rfl, hpong, hfind⟩
    · exact .inl hadd
    · cases hep
      exact .inr (.inl ⟨rfl, hsrc, htunnel, hhead⟩)
    · cases hep
      exact .inr (.inr ⟨rfl, hsrc, hpong, hfind⟩)

/-- Only the clock has entries dropped. -/
theorem prune_of_tableOps {e : Event} (h : .prune ∈ m.tableOps mac e) :
    ∃ now d, e = .tick now d ∧ m.tableOps mac e = [.prune, .update] := by
  cases e with
  | tick now d =>
      refine ⟨now, d, rfl, ?_⟩
      simp only [tableOps] at h ⊢
      split at h
      · cases h
      rw [if_neg ‹_›]
      split at h
      · rw [if_pos ‹_›]
      · cases List.mem_singleton.mp h
  | datagram src raw now wg =>
      rcases op_of_process h with ⟨_, _, hop⟩ | ⟨hop, -⟩ | ⟨hop, -⟩
      · cases hop
      · cases hop
      · cases hop
  | lanQuery src pkt now =>
      simp only [tableOps] at h
      split at h
      · cases List.mem_singleton.mp h
      · cases h
  | addCandidate ep now => cases List.mem_singleton.mp h
  | _ => cases h

end Origins
end Splice.Peer.PathManager
