import Splice.Peer.CandTable

/-!
What the owner's settings keep a path manager from doing. Without the relay nothing goes to the
server, under a forced relay nothing goes anywhere else, without the LAN search only the addresses
given as hints are asked there, and a dormant session starts nothing of its own: it only passes on
what the tunnel has to say and answers pings.
-/

namespace Splice.Peer
open Proto

/-- A datagram that is sent on behalf of the tunnel or as the answer to a ping. -/
def Inner.passive : Inner → Bool
  | .wg _ | .disco (.pong _) => true
  | _ => false

/-- The settings that decide what may be sent. -/
structure Policy where
  active : Bool
  forceRelay : Bool
  relayOn : Bool
  server : Endpoint
  lanBroadcast : Bool
  lanHints : List Endpoint
  deriving DecidableEq

namespace Policy

def relayOk (p : Policy) : Bool := p.relayOn && p.server.valid

def permits (p : Policy) : Effect → Bool
  | .direct _ inner => !p.forceRelay && (p.active || inner.passive)
  | .relay inner => p.relayOk && (p.active || inner.passive)
  | .register | .whereami _ => p.relayOk && p.active
  | .lanQuery dst _ _ => !p.forceRelay && p.active && (p.lanBroadcast || decide (dst ∈ p.lanHints))
  | .peerLanPort _ | .deliver _ _ | .accepted _ _ | .measured _ _ _ => true

/-- A call that has no effect at all. -/
def ignores (p : Policy) : PathManager.Event → Bool
  | .tick _ _ => !p.active
  | .datagram src _ _ _ => if src = p.server then !p.relayOn else p.forceRelay
  | .lanQuery _ _ _ => !p.active || p.forceRelay
  | _ => false

def after (p : Policy) : PathManager.Event → Policy
  | .setActive a => { p with active := a }
  | .setForceRelay f => { p with forceRelay := f }
  | .setRelayEnabled on => { p with relayOn := on }
  | .setServer ep => { p with server := ep }
  | .setLanBroadcast on => { p with lanBroadcast := on }
  | .setLanHints hints => { p with lanHints := hints }
  | _ => p

end Policy

namespace PathManager

def policy (m : PathManager) : Policy :=
  ⟨m.active, m.forceRelay, m.relayOn, m.cfg.server, m.lanBroadcast, m.lanHints⟩

/-- A call that keeps the settings and sends what they permit. -/
structure Permitted (m m' : PathManager) : Prop where
  policy : m'.policy = m.policy
  uid : m'.cfg.uid = m.cfg.uid
  out : ∃ l, m'.out = m.out ++ l ∧ ∀ x ∈ l, m.policy.permits x = true

theorem Permitted.trans {m m' m'' : PathManager} (h : Permitted m m') (h' : Permitted m' m'') :
    Permitted m m'' := by
  refine ⟨h'.policy.trans h.policy, h'.uid.trans h.uid, ?_⟩
  obtain ⟨l, hl, permitted⟩ := h.out
  obtain ⟨l', hl', permitted'⟩ := h'.out
  refine ⟨l ++ l', by rw [hl', hl, List.append_assoc], fun x hx => ?_⟩
  cases List.mem_append.mp hx with
  | inl first => exact permitted x first
  | inr second => exact h.policy ▸ permitted' x second

theorem Permitted.active {m m' : PathManager} (h : Permitted m m') : m'.active = m.active :=
  congrArg Policy.active h.policy

/-- Nor does it have anything to do with registering. -/
structure Obeys (m m' : PathManager) : Prop extends Permitted m m' where
  timer : m'.tRegister = m.tRegister

namespace Obeys
variable {m m' m'' : PathManager}

theorem refl (m : PathManager) : Obeys m m := ⟨⟨rfl, rfl, [], by simp⟩, rfl⟩

theorem trans (h : Obeys m m') (h' : Obeys m' m'') : Obeys m m'' :=
  ⟨h.toPermitted.trans h'.toPermitted, h'.timer.trans h.timer⟩

theorem ite {b : Prop} [Decidable b] (h : b → Obeys m m') : Obeys m (if b then m' else m) := by
  by_cases hb : b
  · rw [if_pos hb]
    exact h hb
  · rw [if_neg hb]
    exact refl m

theorem foldl {α : Type} {f : PathManager → α → PathManager}
    (h : ∀ m', Obeys m m' → ∀ a, Obeys m' (f m' a)) (l : List α) (m' : PathManager)
    (begun : Obeys m m') : Obeys m' (l.foldl f m') := by
  induction l generalizing m' with
  | nil => exact refl m'
  | cons a l ih =>
      have one := h m' begun a
      exact one.trans (ih (f m' a) (begun.trans one))

end Obeys

section Calls
variable (mac : MacFn) (m : PathManager)

theorem obeys_emit {x : Effect} (permitted : m.policy.permits x = true) : Obeys m (m.emit x) :=
  { Obeys.refl m with out := ⟨[x], rfl, by simpa using permitted⟩ }

theorem obeys_direct (dst : Option Endpoint) {inner : Inner} (free : m.forceRelay = false)
    (may : m.active = true ∨ inner.passive = true) :
    Obeys m (m.sendPayload .direct dst inner) := by
  cases dst with
  | none => exact .refl m
  | some ep => exact obeys_emit m (by simpa [Policy.permits, policy, free] using may)

theorem obeys_relay (dst : Option Endpoint) {inner : Inner}
    (may : m.active = true ∨ inner.passive = true) :
    Obeys m (m.sendPayload .relay dst inner) := by
  have allowed : (m.active || inner.passive) = true := by simpa using may
  exact .ite fun ok => obeys_emit m (Bool.and_eq_true_iff.mpr ⟨ok, allowed⟩)

theorem obeys_sendWg (packet : Bytes) : Obeys m (m.sendWg packet) := by
  rw [sendWg]
  split
  · rename_i onDirect
    have free : m.forceRelay = false := by
      simp only [Bool.and_eq_true, Bool.not_eq_true'] at onDirect
      exact onDirect.1.1
    exact obeys_direct m _ free (.inr rfl)
  · exact obeys_relay m _ (.inr rfl)

theorem obeys_sendInner (wg : Option Bytes) : Obeys m (m.sendInner wg) := by
  cases wg with
  | none => exact .refl m
  | some packet => exact obeys_sendWg m packet

theorem obeys_sendDiscoReply (msg : Disco) (via : PathKind) (src : Option Endpoint)
    (up : m.active = true) : Obeys m (m.sendDiscoReply msg via src) := by
  rw [sendDiscoReply]
  split
  · rename_i back
    have free : m.forceRelay = false := by
      simp only [Bool.and_eq_true, Bool.not_eq_true'] at back
      exact back.2
    exact obeys_direct m _ free (.inl up)
  · exact obeys_relay m _ (.inl up)

theorem obeys_addCand (ep : Endpoint) (lan : Bool) (now : Int) :
    Obeys m (m.addCand ep lan now) := by
  simp only [addCand]
  repeat (split; · exact { Obeys.refl m with })
  split
  · split
    · exact { Obeys.refl m with }
    · exact .refl m
  · exact { Obeys.refl m with }

theorem obeys_touchCand (ep : Endpoint) (now : Int) : Obeys m (m.touchCand ep now) := by
  simp only [touchCand]
  repeat (split; · exact { Obeys.refl m with })
  exact { Obeys.refl m with }

theorem obeys_updateTxPath (now : Int) : Obeys m (m.updateTxPath now) := by
  simp only [updateTxPath]
  repeat (split; · exact { Obeys.refl m with })
  exact { Obeys.refl m with }

/-! ## Ticks -/

theorem obeys_tickWg (now : Int) (d : Draw) : Obeys m (m.tickWg now d) := by
  refine .ite fun _ => ?_
  have stamped : Obeys m { m with tTick := ⟨now⟩ } := { Obeys.refl m with }
  exact stamped.trans (obeys_sendInner _ _)

theorem permitted_tickRegister (now : Int) (up : m.active = true) :
    Permitted m (m.tickRegister now) := by
  rw [tickRegister]
  split
  · have stamped : Permitted m { m with tRegister := ⟨now⟩ } := ⟨rfl, rfl, [], by simp⟩
    refine stamped.trans (Obeys.toPermitted (.ite fun ok => obeys_emit _ ?_))
    exact Bool.and_eq_true_iff.mpr ⟨ok, up⟩
  · exact (Obeys.refl m).toPermitted

theorem obeys_tickWhereami (now : Int) (d : Draw) (up : m.active = true) :
    Obeys m (m.tickWhereami now d) := by
  refine .ite fun due => ?_
  have ok : m.relayOk = true := (Bool.and_eq_true _ _ ▸ due).1
  have stamped : Obeys m { m with tWhereami := ⟨now⟩, whereamiToken := d.token } :=
    { Obeys.refl m with }
  exact stamped.trans (obeys_emit _ (Bool.and_eq_true_iff.mpr ⟨ok, up⟩))

theorem obeys_tickHousekeep (now : Int) (d : Draw) : Obeys m (m.tickHousekeep now d) := by
  refine .ite fun _ => ?_
  unfold refreshLocalAddrs
  split
  · exact { Obeys.refl m with }
  · exact { Obeys.refl m with }

theorem obeys_tickCallme (now : Int) (up : m.active = true) : Obeys m (m.tickCallme now) := by
  unfold tickCallme
  split
  · exact .refl m
  · refine .ite fun _ => ?_
    have stamped : Obeys m { m with tCallme := ⟨now⟩ } := { Obeys.refl m with }
    exact stamped.trans (obeys_relay _ _ (.inl up))

theorem obeys_tickPort (now : Int) (d : Draw) (up : m.active = true) :
    Obeys m (m.tickPort mac now d) := by
  refine .ite fun _ => ?_
  simp only [sendPortQuery]
  have asked : Obeys m { m with
      tPort := ⟨now⟩
      portAsked := (m.portAsked.filter fun a => !(kPortAnswerMs < now - a.at_)) ++
        [{ nonce := d.portNonce, at_ := now }] } := { Obeys.refl m with }
  have sent := asked.trans (obeys_sendDiscoReply _
    (.portq d.portNonce (lanMac mac "portq" m.side d.portNonce.toList)) m.txPath m.chosen up)
  exact { sent with }

theorem obeys_tickLan (now : Int) (d : Draw) (up : m.active = true) :
    Obeys m (m.tickLan mac now d) := by
  refine .ite fun due => ?_
  have free : m.forceRelay = false := by
    simp only [Bool.and_eq_true, Bool.not_eq_true'] at due
    exact due.1
  refine { Obeys.refl m with out := ⟨_, rfl, fun x hx => ?_⟩ }
  obtain ⟨ep, asked, rfl⟩ := List.mem_map.mp hx
  have wanted : m.lanBroadcast = true ∨ ep ∈ m.lanHints := by
    cases List.mem_append.mp asked with
    | inl target => exact .inl (List.mem_ite_nil_right.mp target).1
    | inr hint => exact .inr hint
  simpa [Policy.permits, policy, free, up] using wanted

theorem obeys_tickPing (now : Int) (up : m.active = true) : Obeys m (m.tickPing now) := by
  refine .ite fun due => ?_
  have free : m.forceRelay = false := by
    simp only [Bool.and_eq_true, Bool.not_eq_true'] at due
    exact due.1.1
  refine { Obeys.refl m with out := ⟨_, rfl, fun x hx => ?_⟩ }
  obtain ⟨c, -, rfl⟩ := List.mem_map.mp hx
  simp only [Policy.permits, policy, free, up, Bool.not_false, Bool.true_or, Bool.and_self]

/-- The part of a tick that follows the registration. -/
theorem obeys_tickRest (now : Int) (d : Draw) (up : m.active = true) :
    Obeys m ((((((((m.tickWhereami now d).tickHousekeep now d).tickCallme now).tickPort mac now
      d).tickLan mac now d).tickPing now).updateTxPath now)) := by
  have h₁ := obeys_tickWhereami m now d up
  have h₂ := h₁.trans (obeys_tickHousekeep _ now d)
  have h₃ := h₂.trans (obeys_tickCallme _ now (h₂.active.trans up))
  have h₄ := h₃.trans (obeys_tickPort mac _ now d (h₃.active.trans up))
  have h₅ := h₄.trans (obeys_tickLan mac _ now d (h₄.active.trans up))
  have h₆ := h₅.trans (obeys_tickPing _ now (h₅.active.trans up))
  exact h₆.trans (obeys_updateTxPath _ now)

theorem permitted_tick (now : Int) (d : Draw) : Permitted m (m.tick mac now d) := by
  rw [tick]
  cases up : m.active with
  | false => exact (Obeys.refl m).toPermitted
  | true =>
      have h₁ := (obeys_tickWg m now d).toPermitted
      have h₂ := h₁.trans (permitted_tickRegister _ now (h₁.active.trans up))
      exact h₂.trans (obeys_tickRest mac _ now d (h₂.active.trans up)).toPermitted

/-- A tick registers every few seconds. -/
theorem tick_register (now : Int) (d : Draw) (up : m.active = true) (ok : m.relayOk = true) :
    (m.tick mac now d).tRegister = m.tRegister ∧ now - m.tRegister.last < kRegisterMs ∨
      (m.tick mac now d).tRegister = ⟨now⟩ ∧ ∃ l, .register ∈ l ∧
        (m.tick mac now d).out = m.out ++ l := by
  have h₁ := obeys_tickWg m now d
  have up₁ := h₁.active.trans up
  rw [tick, if_neg (by simp [up])]
  simp only
  generalize m.tickWg now d = m₁ at h₁ up₁
  have ok₁ : m₁.relayOk = true := (congrArg Policy.relayOk h₁.policy).trans ok
  have h₂ := permitted_tickRegister m₁ now up₁
  have h₃ := obeys_tickRest mac (m₁.tickRegister now) now d (h₂.active.trans up₁)
  cases due : m₁.tRegister.due now kRegisterMs with
  | false =>
      have same : m₁.tickRegister now = m₁ := by
        rw [tickRegister, due]
        rfl
      refine .inl ⟨h₃.timer.trans (by rw [same, h₁.timer]), ?_⟩
      rw [← h₁.timer]
      simp only [Timer.due, decide_eq_false_iff_not] at due
      omega
  | true =>
      have registered : m₁.tickRegister now = { m₁ with tRegister := ⟨now⟩ }.emit .register := by
        rw [tickRegister, due, sendRegister, if_pos rfl]
        exact if_pos ok₁
      obtain ⟨l₁, out₁, -⟩ := h₁.out
      obtain ⟨l₃, out₃, -⟩ := h₃.out
      refine .inr ⟨h₃.timer.trans (by rw [registered]; rfl), l₁ ++ .register :: l₃, by simp, ?_⟩
      rw [out₃, registered, emit, out₁]
      simp

/-! ## Datagrams -/

theorem obeys_onCallme (r : ByteReader) (via : PathKind) (now : Int) :
    Obeys m (m.onCallme r via now) := by
  simp only [onCallme]
  split
  · exact .refl m
  split
  · exact .refl m
  · have first := obeys_addCand m ⟨(r.array 16).1, (r.array 16).2.u16.1⟩ false now
    exact first.trans (Obeys.foldl (fun m _ ep => obeys_addCand m ep true now) _ _ (.refl _))

theorem obeys_onHere (r : ByteReader) (via : PathKind) (src : Option Endpoint) (now : Int) :
    Obeys m (m.onHere mac r via src now) := by
  cases via with
  | relay => exact .refl m
  | direct =>
      cases src with
      | none => exact .refl m
      | some ep =>
          simp only [onHere]
          split
          · exact .refl m
          split
          · exact .refl m
          split
          · exact .refl m
          · exact { obeys_addCand m ep true now with }

theorem obeys_onPortQuery (r : ByteReader) (via : PathKind) (src : Option Endpoint) :
    Obeys m (m.onPortQuery mac r via src) := by
  simp only [onPortQuery]
  split
  · exact .refl m
  rename_i unasked
  have up : m.active = true := by
    simp only [Bool.or_eq_true, Bool.not_eq_true', not_or] at unasked
    simpa using unasked.2
  split
  · exact .refl m
  split
  · exact .refl m
  · have seen : Obeys m { m with portSeen := remember m.portSeen (r.array 16).1 } :=
      { Obeys.refl m with }
    exact seen.trans (obeys_sendDiscoReply _ _ _ _ up)

theorem obeys_onPortAnswer (r : ByteReader) (now : Int) : Obeys m (m.onPortAnswer mac r now) := by
  simp only [onPortAnswer]
  split
  · exact .refl m
  split
  · exact .refl m
  split
  · exact .refl m
  split
  · exact .refl m
  · have taken : Obeys m { m with
        portAsked := m.portAsked.eraseP fun a => a.nonce = (r.array 16).1
        portFresh := true } := { Obeys.refl m with }
    have told := taken.trans
      (obeys_emit _ (x := .accepted (r.array 16).1 (r.array 16).2.u16.1) rfl)
    split
    · exact told.trans (obeys_emit _ rfl)
    · exact told

/-- A ping is answered whether the session is in use or not. -/
theorem obeys_onPing (r : ByteReader) (src : Option Endpoint)
    (free : src.isSome = true → m.forceRelay = false) : Obeys m (m.onPing r src) := by
  simp only [onPing]
  split
  · exact .refl m
  · rename_i heard
    simp only [Bool.or_eq_true, not_or, Option.isNone_iff_eq_none] at heard
    exact obeys_direct m _ (free (Option.isSome_iff_ne_none.mpr heard.2)) (.inr rfl)

theorem obeys_handleDisco (body : Bytes) (via : PathKind) (src : Option Endpoint) (now : Int)
    (free : src.isSome = true → m.forceRelay = false) :
    Obeys m (m.handleDisco mac body via src now) := by
  simp only [handleDisco]
  split
  · exact .refl m
  split
  · exact obeys_onCallme m _ via now
  split
  · exact obeys_onHere mac m _ via src now
  split
  · exact obeys_onPortQuery mac m _ via src
  split
  · exact obeys_onPortAnswer mac m _ now
  split
  · exact obeys_onPing m _ src free
  split
  · simp only [onPong]
    split
    · exact .refl m
    split
    · exact .refl m
    · exact { Obeys.refl m with out := ⟨[_], rfl, by simp [Policy.permits]⟩ }
  · exact .refl m

theorem obeys_pumpWg (wg : WgReply) (via : PathKind) (src : Option Endpoint) (now : Int)
    (free : src.isSome = true → m.forceRelay = false) : Obeys m (m.pumpWg wg via src now) := by
  simp only [pumpWg]
  generalize written : wg.network.foldl _ m = m'
  have sent : Obeys m m' := by
    rw [← written]
    refine Obeys.foldl (fun m' before p => ?_) _ m (.refl m)
    split
    · rename_i back
      have some_ : src.isSome = true := by
        simp only [Bool.and_eq_true] at back
        exact back.1.2
      have unforced : m'.forceRelay = m.forceRelay := congrArg Policy.forceRelay before.policy
      exact obeys_direct m' _ (unforced.trans (free some_)) (.inr rfl)
    · exact obeys_sendWg m' p
  split
  · exact sent
  · refine .trans (sent.trans ?_) (obeys_emit _ rfl)
    split
    · exact obeys_touchCand m' _ now
    · exact .refl m'

theorem obeys_dispatchInner (inner : Bytes) (via : PathKind) (src : Option Endpoint) (now : Int)
    (wg : WgReply) (free : src.isSome = true → m.forceRelay = false) :
    Obeys m (m.dispatchInner mac inner via src now wg) := by
  cases inner with
  | nil => exact .refl m
  | cons ch body =>
      simp only [dispatchInner]
      split
      · exact obeys_pumpWg m wg via src now free
      split
      · exact obeys_handleDisco mac m body via src now free
      · exact .refl m

theorem obeys_process (src : Endpoint) (raw : Bytes) (now : Int) (wg : WgReply) :
    Obeys m (m.process mac src raw now wg) := by
  simp only [process]
  split
  · exact .refl m
  rename_i heard
  split
  · split
    · exact .refl m
    cases peekUdpType raw with
    | none => exact .refl m
    | some kind =>
        cases kind with
        | whereami =>
            dsimp only
            cases decodeWhereamiReply raw with
            | none => exact .refl m
            | some rep =>
                simp only [onWhereami, Option.map_some, Option.getD_some]
                split
                · split
                  · exact { Obeys.refl m with }
                  · exact { Obeys.refl m with }
                · exact .refl m
        | relay =>
            dsimp only
            cases decodeRelayDown raw with
            | none => exact .refl m
            | some inner => exact obeys_dispatchInner mac m inner .relay none now wg (by simp)
  · rename_i elsewhere
    refine obeys_dispatchInner mac m raw .direct (some src) now wg fun _ => ?_
    simpa [elsewhere] using heard

theorem obeys_onLanDiscovery (src : Endpoint) (pkt : Bytes) (now : Int) :
    Obeys m (m.onLanDiscovery mac src pkt now) := by
  simp only [onLanDiscovery, answerLanQuery]
  split
  · rename_i asked
    have up : m.active = true := (Bool.and_eq_true_iff.mp asked).1
    split
    · exact .refl m
    · rename_i unforced
      split
      · exact .refl m
      · have seen : Obeys m { m with lanSeen := remember m.lanSeen (lanNonceOf pkt) } :=
          { Obeys.refl m with }
        have added := seen.trans (obeys_addCand _ src true now)
        have free := congrArg Policy.forceRelay added.policy
        have answered : ∀ msg, Obeys m
            ((PathManager.addCand { m with lanSeen := remember m.lanSeen (lanNonceOf pkt) } src
              true now).sendPayload .direct (some src) (.disco msg)) := fun msg =>
          added.trans (obeys_direct _ (some src) (free.trans (Bool.not_eq_true _ ▸ unforced))
            (.inl (added.active.trans up)))
        exact { answered _ with }
  · exact .refl m

/-! ## Runs -/

variable {mac m}

theorem on_policy (mac : MacFn) (m : PathManager) (e : Event) :
    (m.on mac e).policy = m.policy.after e ∧
    ∃ l, (m.on mac e).out = m.out ++ l ∧ ∀ x ∈ l, m.policy.permits x = true := by
  have kept : ∀ {m'}, Permitted m m' → (∀ p : Policy, p.after e = p) →
      m'.policy = m.policy.after e ∧
        ∃ l, m'.out = m.out ++ l ∧ ∀ x ∈ l, m.policy.permits x = true := fun obeys same =>
    ⟨obeys.policy.trans (same _).symm, obeys.out⟩
  have silent : ∀ {m' : PathManager}, m'.out = m.out → m'.policy = m.policy.after e →
      m'.policy = m.policy.after e ∧
        ∃ l, m'.out = m.out ++ l ∧ ∀ x ∈ l, m.policy.permits x = true := fun same policy =>
    ⟨policy, [], by rw [same, List.append_nil], by simp⟩
  cases e with
  | tick now d => exact kept (permitted_tick mac m now d) fun _ => rfl
  | datagram src raw now wg =>
      exact kept (obeys_process mac m src raw now wg).toPermitted fun _ => rfl
  | lanQuery src pkt now =>
      exact kept (obeys_onLanDiscovery mac m src pkt now).toPermitted fun _ => rfl
  | addCandidate ep now => exact kept (obeys_addCand m ep true now).toPermitted fun _ => rfl
  | sendInner wg => exact kept (obeys_sendInner m wg).toPermitted fun _ => rfl
  | setActive a => simp only [on, setActive]; split <;> exact silent rfl rfl
  | setServer ep => exact silent rfl rfl
  | setRelayEnabled b => simp only [on, setRelayEnabled]; split <;> exact silent rfl rfl
  | setLanBroadcast b => exact silent rfl rfl
  | setLanPort port =>
      simp only [on, setLanPort]
      generalize (if port = 0 then kLanDiscoPort else port) = q
      split <;> exact silent rfl rfl
  | setLanHints hints =>
      simp only [on, setLanHints]
      split
      · rename_i same
        exact silent rfl (by rw [policy, Policy.after, same])
      · exact silent rfl rfl
  | setForceRelay f => exact silent rfl rfl

theorem on_ignored {e : Event} (ignored : m.policy.ignores e = true) : m.on mac e = m := by
  cases e with
  | tick now d =>
      have dormant : (!m.active) = true := ignored
      rw [on, tick, if_pos dormant]
  | datagram src raw now wg =>
      rw [on, process]
      by_cases server : src = m.cfg.server
      · have off : (!m.relayOn) = true := by
          simpa [Policy.ignores, policy, server] using ignored
        rw [if_neg (by simp [server]), if_pos server, if_pos off]
      · have forced : m.forceRelay = true := by
          simpa [Policy.ignores, policy, server] using ignored
        rw [if_pos (by simp [forced, server])]
  | lanQuery src pkt now =>
      simp only [Policy.ignores, policy, Bool.or_eq_true, Bool.not_eq_true'] at ignored
      simp only [on, onLanDiscovery, answerLanQuery]
      cases ignored with
      | inl dormant => rw [dormant, Bool.false_and, if_neg Bool.false_ne_true]
      | inr forced => rw [if_pos forced, ite_self]
  | addCandidate | sendInner | setActive | setServer | setRelayEnabled | setLanBroadcast
    | setLanPort | setLanHints | setForceRelay => cases ignored

/-- The settings after some calls, as the owner made them. -/
def policyAfter (cfg : PathConfig) (es : List Event) : Policy :=
  es.foldl Policy.after ⟨false, false, true, cfg.server, true, []⟩

theorem policy_run (mac : MacFn) (cfg : PathConfig) (locals : List Endpoint) (es : List Event) :
    (run mac (start cfg locals) es).policy = policyAfter cfg es := by
  have steps : ∀ (m : PathManager) (es : List Event),
      (run mac m es).policy = es.foldl Policy.after m.policy := by
    intro m es
    induction es generalizing m with
    | nil => rfl
    | cons e es ih =>
        have first := (on_policy mac { m with out := [] } e).1
        exact (ih _).trans (congrArg (es.foldl Policy.after) first)
  exact steps _ es

end Calls

/-- In every run, what a call sends is what the settings made so far permit: with the LAN search
off, a query goes only to an address given as a hint. A call they rule out has no effect: no tick of a dormant session, no datagram of a relay that is off, and
nothing that comes another way under a forced relay. -/
theorem settings_obeyed (mac : MacFn) (cfg : PathConfig) (locals : List Endpoint)
    (es : List Event) (e : Event) :
    (∀ x ∈ ((run mac (start cfg locals) es).step mac e).out,
      (policyAfter cfg es).permits x = true) ∧
    ((policyAfter cfg es).ignores e = true →
      (run mac (start cfg locals) es).step mac e =
        { run mac (start cfg locals) es with out := [] }) := by
  rw [← policy_run mac cfg locals es]
  refine ⟨fun x hx => ?_, fun ignored => ?_⟩
  · obtain ⟨-, l, out, permitted⟩ :=
      on_policy mac { run mac (start cfg locals) es with out := [] } e
    rw [List.nil_append] at out
    exact permitted x (out ▸ hx)
  · exact on_ignored (m := { run mac (start cfg locals) es with out := [] }) ignored

end PathManager
end Splice.Peer
