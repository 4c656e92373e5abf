import Splice.Peer.CandTable

/-!
What one call does about discovery on the local network. Two calls matter: a tick may send a
query, and a query of the peer may be answered. All others keep the nonces that were sent
and seen and send neither queries nor answers.
-/

namespace Splice.Peer
open Proto

/-- A query or an answer of the discovery. -/
def Effect.lan : Effect → Bool
  | .lanQuery _ _ _ => true
  | .direct _ (.disco (.here _ _)) | .relay (.disco (.here _ _)) => true
  | _ => false

def Inner.lan : Inner → Bool
  | .disco (.here _ _) => true
  | _ => false

namespace PathManager

structure OffLan (m m' : PathManager) : Prop where
  uid : m'.cfg.uid = m.cfg.uid
  sent : m'.lanSent = m.lanSent
  seen : m'.lanSeen = m.lanSeen
  out : ∃ l, m'.out = m.out ++ l ∧ ∀ x ∈ l, x.lan = false

namespace OffLan
variable {m m' m'' : PathManager}

theorem refl (m : PathManager) : OffLan m m := ⟨rfl, rfl, rfl, [], by simp⟩

theorem trans (h : OffLan m m') (h' : OffLan m' m'') : OffLan m m'' := by
  refine ⟨h'.uid.trans h.uid, h'.sent.trans h.sent, h'.seen.trans h.seen, ?_⟩
  obtain ⟨l, hl, hoff⟩ := h.out
  obtain ⟨l', hl', hoff'⟩ := h'.out
  refine ⟨l ++ l', by rw [hl', hl, List.append_assoc], fun x hx => ?_⟩
  rcases List.mem_append.mp hx with hx | hx
  · exact hoff x hx
  · exact hoff' x hx

theorem ite {b : Prop} [Decidable b] (h : b → OffLan m m') : OffLan m (if b then m' else m) := by
  by_cases hb : b
  · rw [if_pos hb]
    exact h hb
  · rw [if_neg hb]
    exact refl m

theorem foldl {α : Type} {f : PathManager → α → PathManager} (h : ∀ m a, OffLan m (f m a))
    (l : List α) (m : PathManager) : OffLan m (l.foldl f m) := by
  induction l generalizing m with
  | nil => exact refl m
  | cons a l ih => exact (h m a).trans (ih (f m a))

end OffLan

section Calls
variable (mac : MacFn) (m : PathManager)

theorem off_emit {x : Effect} (hx : x.lan = false) : OffLan m (m.emit x) :=
  { OffLan.refl m with out := ⟨[x], rfl, by simp [hx]⟩ }

theorem off_sendPayload (path : PathKind) (dst : Option Endpoint) {inner : Inner}
    (hi : inner.lan = false) : OffLan m (m.sendPayload path dst inner) := by
  have hdirect : ∀ ep, (Effect.direct ep inner).lan = false := by
    intro ep
    unfold Effect.lan
    split
    · rename_i heq
      cases heq
    · rename_i heq
      cases heq
      cases hi
    · rename_i heq
      cases heq
    · rfl
  have hrelay : (Effect.relay inner).lan = false := by
    unfold Effect.lan
    split
    · rename_i heq
      cases heq
    · rename_i heq
      cases heq
    · rename_i heq
      cases heq
      cases hi
    · rfl
  unfold sendPayload
  split
  · exact .ite fun _ => off_emit m hrelay
  · exact off_emit m (hdirect _)
  · exact .refl m

theorem off_sendWg (packet : Bytes) : OffLan m (m.sendWg packet) := by
  unfold sendWg
  split
  · exact off_sendPayload m _ _ rfl
  · exact off_sendPayload m _ _ rfl

theorem off_sendDiscoReply {msg : Disco} (hmsg : (Inner.disco msg).lan = false) (via : PathKind)
    (src : Option Endpoint) : OffLan m (m.sendDiscoReply msg via src) := by
  unfold sendDiscoReply
  split
  · exact off_sendPayload m _ _ hmsg
  · exact off_sendPayload m _ _ hmsg

theorem off_sendInner (wg : Option Bytes) : OffLan m (m.sendInner wg) := by
  cases wg with
  | none => exact .refl m
  | some packet => exact off_sendWg m packet

theorem off_addCand (ep : Endpoint) (lan : Bool) (now : Int) : OffLan m (m.addCand ep lan now) := by
  simp only [addCand]
  repeat (split; · exact { OffLan.refl m with })
  split
  · split
    · exact { OffLan.refl m with }
    · exact .refl m
  · exact { OffLan.refl m with }

theorem off_touchCand (ep : Endpoint) (now : Int) : OffLan m (m.touchCand ep now) := by
  simp only [touchCand]
  repeat (split; · exact { OffLan.refl m with })
  exact { OffLan.refl m with }

theorem off_updateTxPath (now : Int) : OffLan m (m.updateTxPath now) := by
  simp only [updateTxPath]
  repeat (split; · exact { OffLan.refl m with })
  exact { OffLan.refl m with }

theorem off_tickWg (now : Int) (d : Draw) : OffLan m (m.tickWg now d) := by
  refine .ite fun _ => ?_
  have hstamp : OffLan m { m with tTick := ⟨now⟩ } := { OffLan.refl m with }
  exact hstamp.trans (off_sendInner _ _)

theorem off_tickRegister (now : Int) : OffLan m (m.tickRegister now) := by
  refine .ite fun _ => ?_
  have hstamp : OffLan m { m with tRegister := ⟨now⟩ } := { OffLan.refl m with }
  exact hstamp.trans (.ite fun _ => off_emit _ rfl)

theorem off_tickWhereami (now : Int) (d : Draw) : OffLan m (m.tickWhereami now d) := by
  refine .ite fun _ => ?_
  have hstamp : OffLan m { m with tWhereami := ⟨now⟩, whereamiToken := d.token } :=
    { OffLan.refl m with }
  exact hstamp.trans (off_emit _ rfl)

theorem off_tickHousekeep (now : Int) (d : Draw) : OffLan m (m.tickHousekeep now d) := by
  refine .ite fun _ => ?_
  unfold refreshLocalAddrs
  split
  · exact { OffLan.refl m with }
  · exact { OffLan.refl m with }

theorem off_tickCallme (now : Int) : OffLan m (m.tickCallme now) := by
  unfold tickCallme
  split
  · exact .refl m
  · refine .ite fun _ => ?_
    have hstamp : OffLan m { m with tCallme := ⟨now⟩ } := { OffLan.refl m with }
    exact hstamp.trans (off_sendPayload _ _ _ rfl)

theorem off_tickPort (now : Int) (d : Draw) : OffLan m (m.tickPort mac now d) := by
  refine .ite fun _ => ?_
  simp only [sendPortQuery]
  have hasked : OffLan m { m with
      tPort := ⟨now⟩
      portAsked := (m.portAsked.filter fun a => !(kPortAnswerMs < now - a.at_)) ++
        [{ nonce := d.portNonce, at_ := now }] } := { OffLan.refl m with }
  have question : (Inner.disco (.portq d.portNonce
      (lanMac mac "portq" m.side d.portNonce.toList))).lan = false := rfl
  have hsent := hasked.trans (off_sendDiscoReply _ question m.txPath m.chosen)
  exact { hsent with }

theorem off_tickPing (now : Int) : OffLan m (m.tickPing now) := by
  refine .ite fun _ => ?_
  refine { OffLan.refl m with out := ⟨_, rfl, fun x hx => ?_⟩ }
  obtain ⟨c, -, rfl⟩ := List.mem_map.mp hx
  rfl

/-! ## Datagrams -/

theorem off_onCallme (r : ByteReader) (via : PathKind) (now : Int) :
    OffLan m (m.onCallme r via now) := by
  simp only [onCallme]
  split
  · exact .refl m
  split
  · exact .refl m
  · exact (off_addCand m _ _ _).trans (OffLan.foldl (fun m ep => off_addCand m ep true now) _ _)

theorem off_onHere (r : ByteReader) (via : PathKind) (src : Option Endpoint) (now : Int) :
    OffLan m (m.onHere mac r via src now) := by
  cases via with
  | relay => exact .refl m
  | direct =>
      cases src with
      | none => exact .refl m
      | some ep =>
          simp only [onHere]
          split
          · exact .refl m
          split
          · exact .refl m
          split
          · exact .refl m
          · exact { off_addCand m ep true now with }

theorem off_onPortQuery (r : ByteReader) (via : PathKind) (src : Option Endpoint) :
    OffLan m (m.onPortQuery mac r via src) := by
  simp only [onPortQuery]
  split
  · exact .refl m
  split
  · exact .refl m
  split
  · exact .refl m
  · have hseen : OffLan m { m with portSeen := remember m.portSeen (r.array 16).1 } :=
      { OffLan.refl m with }
    exact hseen.trans (off_sendDiscoReply _ rfl _ _)

theorem off_onPortAnswer (r : ByteReader) (now : Int) : OffLan m (m.onPortAnswer mac r now) := by
  simp only [onPortAnswer]
  split
  · exact .refl m
  split
  · exact .refl m
  split
  · exact .refl m
  split
  · exact .refl m
  · have htaken : OffLan m { m with
        portAsked := m.portAsked.eraseP fun a => a.nonce = (r.array 16).1
        portFresh := true } := { OffLan.refl m with }
    have htold := htaken.trans (off_emit _ (x := .accepted (r.array 16).1 (r.array 16).2.u16.1) rfl)
    split
    · exact htold.trans (off_emit _ rfl)
    · exact htold

theorem off_handleDisco (body : Bytes) (via : PathKind) (src : Option Endpoint) (now : Int) :
    OffLan m (m.handleDisco mac body via src now) := by
  simp only [handleDisco]
  split
  · exact .refl m
  split
  · exact off_onCallme m _ via now
  split
  · exact off_onHere mac m _ via src now
  split
  · exact off_onPortQuery mac m _ via src
  split
  · exact off_onPortAnswer mac m _ now
  split
  · simp only [onPing]
    split
    · exact .refl m
    · exact off_sendPayload m _ _ rfl
  split
  · simp only [onPong]
    split
    · exact .refl m
    split
    · exact .refl m
    · exact { OffLan.refl m with out := ⟨[_], rfl, by simp [Effect.lan]⟩ }
  · exact .refl m

theorem off_pumpWg (wg : WgReply) (via : PathKind) (src : Option Endpoint) (now : Int) :
    OffLan m (m.pumpWg wg via src now) := by
  simp only [pumpWg]
  generalize hm' : wg.network.foldl _ m = m'
  have hsent : OffLan m m' := by
    rw [← hm']
    refine OffLan.foldl (fun m p => ?_) _ m
    split
    · exact off_sendPayload m _ _ rfl
    · exact off_sendWg m p
  split
  · exact hsent
  · refine .trans (hsent.trans ?_) (off_emit _ rfl)
    split
    · exact off_touchCand m' _ now
    · exact .refl m'

theorem off_dispatchInner (inner : Bytes) (via : PathKind) (src : Option Endpoint) (now : Int)
    (wg : WgReply) : OffLan m (m.dispatchInner mac inner via src now wg) := by
  cases inner with
  | nil => exact .refl m
  | cons ch body =>
      simp only [dispatchInner]
      split
      · exact off_pumpWg m wg via src now
      split
      · exact off_handleDisco mac m body via src now
      · exact .refl m

theorem off_process (src : Endpoint) (raw : Bytes) (now : Int) (wg : WgReply) :
    OffLan m (m.process mac src raw now wg) := by
  simp only [process]
  split
  · exact .refl m
  split
  · split
    · exact .refl m
    split
    · cases decodeWhereamiReply raw with
      | none => exact .refl m
      | some rep =>
          simp only [onWhereami, Option.map_some, Option.getD_some]
          split
          · split
            · exact { OffLan.refl m with }
            · exact { OffLan.refl m with }
          · exact .refl m
    · cases decodeRelayDown raw with
      | none => exact .refl m
      | some inner => exact off_dispatchInner mac m inner .relay none now wg
    · exact .refl m
  · exact off_dispatchInner mac m raw .direct (some src) now wg

/-! ## The two calls that matter -/

/-- It is time for a query. -/
def lanDue (now : Int) : Bool :=
  !m.forceRelay && m.tLan.due now
    (if !m.directConfirmed && m.lanQueries < kLanFastQueries then kLanFastMs else kLanSlowMs)

/-- The nonce of the query a call sends, to whatever targets there are. -/
def lanAsked : Event → Option Nonce
  | .tick now d =>
      if m.active && ((tickFirst { m with out := [] } now d).tickPort mac now d).lanDue now then
        some d.lanNonce
      else none
  | _ => none

theorem off_tickFirst (now : Int) (d : Draw) : OffLan m (m.tickFirst now d) :=
  ((((off_tickWg m now d).trans (off_tickRegister _ now)).trans (off_tickWhereami _ now d)).trans
    (off_tickHousekeep _ now d)).trans (off_tickCallme _ now)

theorem off_tickLast (now : Int) : OffLan m ((m.tickPing now).updateTxPath now) :=
  (off_tickPing m now).trans (off_updateTxPath _ now)

theorem tick_off (now : Int) (d : Draw) (h : m.lanAsked mac (.tick now d) = none) :
    OffLan { m with out := [] } (m.step mac (.tick now d)) := by
  rw [step, on, tick_eq]
  split
  · exact .refl _
  rename_i hactive
  rw [Bool.not_eq_true', Bool.not_eq_false] at hactive
  have hbefore := (off_tickFirst { m with out := [] } now d).trans (off_tickPort mac _ now d)
  simp only [lanAsked, ite_eq_right_iff, reduceCtorEq, imp_false, Bool.and_eq_true, not_and] at h
  replace h := h hactive
  generalize (tickFirst { m with out := [] } now d).tickPort mac now d = m₁ at hbefore h ⊢
  have hsame : m₁.tickLan mac now d = m₁ := if_neg h
  rw [hsame]
  exact hbefore.trans (off_tickLast m₁ now)

theorem tick_asks {now : Int} {d : Draw} {nonce : Nonce}
    (h : m.lanAsked mac (.tick now d) = some nonce) : nonce = d.lanNonce ∧
    (m.step mac (.tick now d)).cfg.uid = m.cfg.uid ∧
    (m.step mac (.tick now d)).lanSeen = m.lanSeen ∧
    (m.step mac (.tick now d)).lanSent = remember m.lanSent nonce ∧
    ∀ x ∈ (m.step mac (.tick now d)).out, x.lan = true →
      ∃ dst, x = .lanQuery dst nonce (lanMac mac "who" m.side nonce.toList) := by
  simp only [lanAsked, Option.ite_none_right_eq_some, Bool.and_eq_true, Option.some.injEq] at h
  obtain ⟨⟨hactive, hdue⟩, rfl⟩ := h
  have hgo : ¬ (!PathManager.active { m with out := [] }) = true := by
    rw [Bool.not_eq_true', Bool.not_eq_false]
    exact hactive
  rw [step, on, tick_eq, if_neg hgo]
  have hbefore := (off_tickFirst { m with out := [] } now d).trans (off_tickPort mac _ now d)
  generalize (tickFirst { m with out := [] } now d).tickPort mac now d = m₁ at hbefore hdue ⊢
  have hquery : m₁.tickLan mac now d = sendLanQuery mac { m₁ with tLan := ⟨now⟩ } d := if_pos hdue
  rw [hquery]
  have hside : m₁.side = m.side := by rw [side, side, hbefore.uid]
  obtain ⟨l, hout, hoff⟩ := hbefore.out
  have hrest := off_tickLast (sendLanQuery mac { m₁ with tLan := ⟨now⟩ } d) now
  obtain ⟨l', hout', hoff'⟩ := hrest.out
  refine ⟨rfl, hrest.uid.trans hbefore.uid, hrest.seen.trans hbefore.seen, ?_, ?_⟩
  · rw [hrest.sent, sendLanQuery, hbefore.sent]
  · intro x hx hlan
    rw [hout', sendLanQuery] at hx
    dsimp only at hx
    rw [hout, List.nil_append] at hx
    rcases List.mem_append.mp hx with hx | hx
    · rcases List.mem_append.mp hx with hx | hx
      · exact absurd hlan (by simp [hoff x hx])
      · obtain ⟨ep, -, rfl⟩ := List.mem_map.mp hx
        refine ⟨ep, ?_⟩
        rw [← hside]
        rfl
    · exact absurd hlan (by simp [hoff' x hx])

theorem addCand_out (ep : Endpoint) (lan : Bool) (now : Int) :
    (m.addCand ep lan now).out = m.out := by
  simp only [addCand]
  repeat (split; · rfl)
  split
  · split <;> rfl
  · rfl

/-- A query that is not answered has no effect. -/
theorem onLanDiscovery_ignored {src : Endpoint} {pkt : Bytes} {now : Int}
    (h : m.answers mac pkt = false) : m.onLanDiscovery mac src pkt now = m := by
  simp only [onLanDiscovery, answerLanQuery]
  split
  · rename_i hpeer
    split
    · rfl
    · rename_i hforce
      split
      · rfl
      · rename_i hseen
        simp [answers, hpeer, hforce, hseen] at h
  · rfl

theorem onLanDiscovery_answered {src : Endpoint} {pkt : Bytes} {now : Int}
    (h : m.answers mac pkt = true) :
    (m.onLanDiscovery mac src pkt now).cfg.uid = m.cfg.uid ∧
    (m.onLanDiscovery mac src pkt now).lanSent = m.lanSent ∧
    (m.onLanDiscovery mac src pkt now).lanSeen = remember m.lanSeen (lanNonceOf pkt) ∧
    (m.onLanDiscovery mac src pkt now).out = m.out ++ [.direct src (.disco (.here (lanNonceOf pkt)
      (lanMac mac "here" m.side (lanNonceOf pkt).toList)))] := by
  simp only [PathManager.answers, Bool.and_eq_true, Bool.not_eq_true', decide_eq_true_eq] at h
  obtain ⟨⟨hpeer, hforce⟩, hseen⟩ := h
  have hgo : (m.active && m.lanQueryFromPeer mac pkt) = true := by simp [hpeer]
  rw [onLanDiscovery, if_pos hgo, answerLanQuery, if_neg (by simp [hforce]), if_neg hseen]
  have hadd := off_addCand { m with lanSeen := remember m.lanSeen (lanNonceOf pkt) } src true now
  refine ⟨hadd.uid, hadd.sent, hadd.seen, ?_⟩
  have hside : (PathManager.addCand { m with lanSeen := remember m.lanSeen (lanNonceOf pkt) } src true
      now).side = m.side := by
    rw [side, side, hadd.uid]
  simp only [sendPayload, emit, addCand_out, hside]

/-- All other calls. -/
theorem off_on {e : Event} (ht : ∀ now d, e ≠ .tick now d)
    (hq : ∀ src pkt now, e ≠ .lanQuery src pkt now) : OffLan m (m.on mac e) := by
  cases e with
  | tick now d => exact absurd rfl (ht now d)
  | lanQuery src pkt now => exact absurd rfl (hq src pkt now)
  | datagram src raw now wg => exact off_process mac m src raw now wg
  | addCandidate ep now => exact off_addCand m ep true now
  | sendInner wg => exact off_sendInner m wg
  | setActive a =>
      simp only [on, setActive]
      split
      · exact { OffLan.refl m with }
      · exact { OffLan.refl m with }
  | setServer ep => exact { OffLan.refl m with }
  | setRelayEnabled b =>
      simp only [on, setRelayEnabled]
      split
      · exact { OffLan.refl m with }
      · exact { OffLan.refl m with }
  | setLanBroadcast b => exact { OffLan.refl m with }
  | setLanPort port =>
      simp only [on, setLanPort]
      generalize (if port = 0 then kLanDiscoPort else port) = p
      split
      · exact .refl m
      · exact { OffLan.refl m with }
  | setLanHints hints =>
      simp only [on, setLanHints]
      split
      · exact .refl m
      · exact { OffLan.refl m with }
  | setForceRelay f => exact { OffLan.refl m with }

end Calls
end PathManager
end Splice.Peer
