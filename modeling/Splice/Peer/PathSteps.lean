import Mathlib.Logic.Relation
import Splice.Peer.PathManager

/-!
What one call of a path manager can do. Most of a call is calm: it sends things that
neither probe nor concern the LAN port, moves candidates about without measuring them,
and at most rearms the probe timer. The rest are five moves, and a call is a chain of
these.
-/

namespace Splice.Peer
open Proto

def Disco.calm : Disco → Bool
  | ping _ | portq _ _ | porta _ _ _ => false
  | _ => true

def Inner.calm : Inner → Bool
  | wg _ => true
  | disco msg => msg.calm

def Effect.calm : Effect → Bool
  | direct _ inner | relay inner => inner.calm
  | peerLanPort _ | accepted _ _ | measured _ _ _ => false
  | _ => true

/-- A datagram with this message, over either path. -/
def Effect.Carries (msg : Disco) (x : Effect) : Prop :=
  (∃ ep, x = .direct ep (.disco msg)) ∨ x = .relay (.disco msg)

namespace PathManager

/-- No probe, no measurement, nothing about the LAN port. -/
structure Calm (m m' : PathManager) : Prop where
  uid : m'.cfg.uid = m.cfg.uid
  own : m'.cfg.ownLanPort = m.cfg.ownLanPort
  txid : m'.pingTxid = m.pingTxid
  timer : m'.tPing = m.tPing ∨ m'.tPing.last = 0
  asked : m'.portAsked = m.portAsked
  seen : m'.portSeen = m.portSeen
  out : ∃ l, m'.out = m.out ++ l ∧ ∀ e ∈ l, e.calm = true
  srtt : ∀ c ∈ m'.cands, c.srtt = 0 ∨ ∃ c₀ ∈ m.cands, c₀.ep = c.ep ∧ c₀.srtt = c.srtt

namespace Calm
variable {m m' m'' : PathManager}

theorem refl (m : PathManager) : Calm m m where
  uid := rfl
  own := rfl
  txid := rfl
  timer := .inl rfl
  asked := rfl
  seen := rfl
  out := ⟨[], by simp⟩
  srtt c hc := .inr ⟨c, hc, rfl, rfl⟩

theorem trans (h : Calm m m') (h' : Calm m' m'') : Calm m m'' where
  uid := h'.uid.trans h.uid
  own := h'.own.trans h.own
  txid := h'.txid.trans h.txid
  timer := by
    rcases h'.timer with e | e
    · rw [e]
      exact h.timer
    · exact .inr e
  asked := h'.asked.trans h.asked
  seen := h'.seen.trans h.seen
  out := by
    obtain ⟨l, hl, hcalm⟩ := h.out
    obtain ⟨l', hl', hcalm'⟩ := h'.out
    refine ⟨l ++ l', by rw [hl', hl, List.append_assoc], fun e he => ?_⟩
    rcases List.mem_append.mp he with he | he
    · exact hcalm e he
    · exact hcalm' e he
  srtt c hc := by
    rcases h'.srtt c hc with h0 | ⟨c₁, hc₁, hep, hs⟩
    · exact .inl h0
    · rcases h.srtt c₁ hc₁ with h0 | ⟨c₀, hc₀, hep₀, hs₀⟩
      · exact .inl (hs.symm.trans h0)
      · exact .inr ⟨c₀, hc₀, hep₀.trans hep, hs₀.trans hs⟩

theorem ite {b : Prop} [Decidable b] (h : b → Calm m m') : Calm m (if b then m' else m) := by
  by_cases hb : b
  · rw [if_pos hb]
    exact h hb
  · rw [if_neg hb]
    exact refl m

/-- A fold of calm steps. -/
theorem foldl {α : Type} {f : PathManager → α → PathManager} (h : ∀ m a, Calm m (f m a))
    (l : List α) (m : PathManager) : Calm m (l.foldl f m) := by
  induction l generalizing m with
  | nil => exact .refl m
  | cons a l ih => exact (h m a).trans (ih (f m a))

end Calm

variable (mac : MacFn) (m : PathManager)

/-! ## Calm calls -/

section Calls

theorem calm_emit {e : Effect} (he : e.calm = true) : Calm m (m.emit e) :=
  { Calm.refl m with out := ⟨[e], rfl, by simp [he]⟩ }

theorem calm_sendPayload (path : PathKind) (dst : Option Endpoint) {inner : Inner}
    (hi : inner.calm = true) : Calm m (m.sendPayload path dst inner) := by
  unfold sendPayload
  split
  · split
    · exact calm_emit m hi
    · exact .refl m
  · exact calm_emit m hi
  · exact .refl m

theorem calm_sendWg (packet : Bytes) : Calm m (m.sendWg packet) := by
  unfold sendWg
  split
  · exact calm_sendPayload m _ _ rfl
  · exact calm_sendPayload m _ _ rfl

theorem calm_sendRegister : Calm m m.sendRegister := by
  unfold sendRegister
  split
  · exact calm_emit m rfl
  · exact .refl m

theorem calm_sendInner (wg : Option Bytes) : Calm m (m.sendInner wg) := by
  cases wg with
  | none => exact .refl m
  | some packet => exact calm_sendWg m packet

/-- Sent over one way, or over none. -/
theorem sendDiscoReply_eq (msg : Disco) (via : PathKind) (src : Option Endpoint) :
    ∃ l, m.sendDiscoReply msg via src = { m with out := m.out ++ l } ∧
      ∀ x ∈ l, Effect.Carries msg x := by
  have hsend : ∀ (path : PathKind) (dst : Option Endpoint), ∃ l,
      m.sendPayload path dst (.disco msg) = { m with out := m.out ++ l } ∧
        ∀ x ∈ l, Effect.Carries msg x := by
    intro path dst
    unfold sendPayload
    split
    · split
      · exact ⟨[.relay (.disco msg)], rfl, by simp [Effect.Carries]⟩
      · exact ⟨[], by simp, by simp⟩
    · exact ⟨[.direct _ (.disco msg)], rfl, by simp [Effect.Carries]⟩
    · exact ⟨[], by simp, by simp⟩
  unfold sendDiscoReply
  split
  · exact hsend _ _
  · exact hsend _ _

/-- New candidates are not measured, old ones keep what was measured. -/
theorem calm_cands {cs : List DirectCand}
    (h : ∀ c ∈ cs, c.srtt = 0 ∨ ∃ c₀ ∈ m.cands, c₀.ep = c.ep ∧ c₀.srtt = c.srtt) :
    Calm m { m with cands := cs } :=
  { Calm.refl m with srtt := h }

theorem mem_onCand {ep : Endpoint} {f : DirectCand → DirectCand} {cs : List DirectCand}
    {c : DirectCand} (h : c ∈ onCand ep f cs) : c ∈ cs ∨ ∃ c₀ ∈ cs, c₀.ep = ep ∧ c = f c₀ := by
  induction cs with
  | nil => cases h
  | cons a cs ih =>
      rw [onCand] at h
      split at h
      · rename_i hep
        rcases List.mem_cons.mp h with rfl | h
        · exact .inr ⟨a, List.mem_cons_self, hep, rfl⟩
        · exact .inl (List.mem_cons_of_mem a h)
      · rcases List.mem_cons.mp h with rfl | h
        · exact .inl List.mem_cons_self
        · rcases ih h with h | ⟨c₀, hc₀, hep, e⟩
          · exact .inl (List.mem_cons_of_mem a h)
          · exact .inr ⟨c₀, List.mem_cons_of_mem a hc₀, hep, e⟩

theorem calm_onCand (ep : Endpoint) {f : DirectCand → DirectCand}
    (hf : ∀ c, (f c).ep = c.ep ∧ (f c).srtt = c.srtt) :
    Calm m { m with cands := onCand ep f m.cands } := by
  refine calm_cands m fun c hc => .inr ?_
  rcases mem_onCand hc with hc | ⟨c₀, hc₀, -, rfl⟩
  · exact ⟨c, hc, rfl, rfl⟩
  · exact ⟨c₀, hc₀, (hf c₀).1.symm, (hf c₀).2.symm⟩

theorem calm_append {cs : List DirectCand} (hcs : cs ⊆ m.cands) {new : DirectCand}
    (hnew : new.srtt = 0) : Calm m { m with cands := cs ++ [new] } := by
  refine calm_cands m fun c hc => ?_
  rcases List.mem_append.mp hc with hc | hc
  · exact .inr ⟨c, hcs hc, rfl, rfl⟩
  · rw [List.mem_singleton.mp hc]
    exact .inl hnew

theorem calm_addCand (ep : Endpoint) (lan : Bool) (now : Int) : Calm m (m.addCand ep lan now) := by
  simp only [addCand]
  split
  · exact .refl m
  · split
    · exact calm_onCand m ep fun c => ⟨rfl, rfl⟩
    · split
      · split
        · exact calm_append m List.eraseP_subset rfl
        · exact .refl m
      · exact calm_append m (List.Subset.refl _) rfl

theorem calm_touchCand (ep : Endpoint) (now : Int) : Calm m (m.touchCand ep now) := by
  simp only [touchCand]
  split
  · exact calm_onCand m ep fun c => ⟨rfl, rfl⟩
  · split
    · exact .refl m
    · exact calm_append m (List.Subset.refl _) rfl

theorem calm_pruneCands (now : Int) : Calm m (m.pruneCands now) :=
  calm_cands m fun c hc => .inr ⟨c, (List.mem_filter.mp hc).1, rfl, rfl⟩

theorem calm_restartLanSearch : Calm m m.restartLanSearch := { Calm.refl m with }

theorem calm_restartPortAsk : Calm m m.restartPortAsk := { Calm.refl m with }

theorem calm_chooseDirect (now : Int) : Calm m (m.chooseDirect now) := { Calm.refl m with }

theorem calm_updateTxPath (now : Int) : Calm m (m.updateTxPath now) := by
  have hset : ∀ m' : PathManager, Calm m m' → ∀ k, Calm m { m' with txPath := k } :=
    fun m' h k => { h with }
  simp only [updateTxPath]
  refine hset _ ?_ _
  split
  · exact ((calm_chooseDirect m now).trans (calm_restartLanSearch _)).trans
      (calm_restartPortAsk _)
  · split
    · exact (calm_chooseDirect m now).trans (calm_restartPortAsk _)
    · exact calm_chooseDirect m now

theorem calm_sendLanQuery (d : Draw) : Calm m (m.sendLanQuery mac d) := by
  refine { Calm.refl m with out := ⟨_, rfl, fun e he => ?_⟩ }
  obtain ⟨ep, -, rfl⟩ := List.mem_map.mp he
  rfl

theorem calm_rearm : Calm m { m with tPing := .rearm } :=
  { Calm.refl m with timer := .inr rfl }

theorem calm_onLanDiscovery (src : Endpoint) (pkt : Bytes) (now : Int) :
    Calm m (m.onLanDiscovery mac src pkt now) := by
  simp only [onLanDiscovery, answerLanQuery]
  split
  · split
    · exact .refl m
    · split
      · exact .refl m
      · have hseen : Calm m { m with lanSeen := remember m.lanSeen (lanNonceOf pkt) } :=
          { Calm.refl m with }
        refine .trans ?_ (calm_rearm _)
        refine .trans ?_ (calm_sendPayload _ _ _ rfl)
        exact hseen.trans (calm_addCand _ src true now)
  · exact .refl m

theorem calm_onCallme (r : ByteReader) (via : PathKind) (now : Int) :
    Calm m (m.onCallme r via now) := by
  simp only [onCallme]
  split
  · exact .refl m
  · split
    · exact .refl m
    · exact (calm_addCand m _ _ _).trans
        (Calm.foldl (fun m ep => calm_addCand m ep true now) _ _)

theorem calm_onHere (r : ByteReader) (via : PathKind) (src : Option Endpoint) (now : Int) :
    Calm m (m.onHere mac r via src now) := by
  simp only [onHere]
  split
  · split
    · exact .refl m
    · split
      · exact .refl m
      · split
        · exact .refl m
        · exact (calm_addCand m _ _ _).trans (calm_rearm _)
  · exact .refl m

theorem calm_onPing (r : ByteReader) (src : Option Endpoint) : Calm m (m.onPing r src) := by
  simp only [onPing]
  split
  · exact .refl m
  · exact calm_sendPayload m _ _ rfl

theorem calm_pumpWg (wg : WgReply) (via : PathKind) (src : Option Endpoint) (now : Int) :
    Calm m (m.pumpWg wg via src now) := by
  simp only [pumpWg]
  generalize hm₁ : wg.network.foldl _ m = m₁
  have h₁ : Calm m m₁ := by
    rw [← hm₁]
    refine Calm.foldl (fun m p => ?_) _ m
    split
    · exact calm_sendPayload m _ _ rfl
    · exact calm_sendWg m p
  split
  · exact h₁
  · refine .trans (h₁.trans ?_) (calm_emit _ rfl)
    split
    · exact calm_touchCand m₁ _ now
    · exact .refl m₁

theorem calm_onWhereami (rep : WhereamiReply) : Calm m (m.onWhereami rep) := by
  simp only [onWhereami]
  split
  · split
    · exact { Calm.refl m with }
    · exact { Calm.refl m with }
  · exact .refl m

theorem calm_refreshLocalAddrs (locals : List Endpoint) : Calm m (m.refreshLocalAddrs locals) := by
  simp only [refreshLocalAddrs]
  split
  · exact .refl m
  · exact { Calm.refl m with }

theorem calm_tickWg (now : Int) (d : Draw) : Calm m (m.tickWg now d) := by
  refine .ite fun _ => ?_
  have hstamp : Calm m { m with tTick := ⟨now⟩ } := { Calm.refl m with }
  exact hstamp.trans (calm_sendInner _ _)

theorem calm_tickRegister (now : Int) : Calm m (m.tickRegister now) := by
  refine .ite fun _ => ?_
  have hstamp : Calm m { m with tRegister := ⟨now⟩ } := { Calm.refl m with }
  exact hstamp.trans (calm_sendRegister _)

theorem calm_tickWhereami (now : Int) (d : Draw) : Calm m (m.tickWhereami now d) := by
  refine .ite fun _ => ?_
  have hstamp : Calm m { m with tWhereami := ⟨now⟩, whereamiToken := d.token } :=
    { Calm.refl m with }
  exact hstamp.trans (calm_emit _ rfl)

theorem calm_tickHousekeep (now : Int) (d : Draw) : Calm m (m.tickHousekeep now d) := by
  refine .ite fun _ => ?_
  have hstamp : Calm m { m with tHousekeep := ⟨now⟩ } := { Calm.refl m with }
  exact (hstamp.trans (calm_refreshLocalAddrs _ _)).trans (calm_pruneCands _ _)

theorem calm_tickCallme (now : Int) : Calm m (m.tickCallme now) := by
  unfold tickCallme
  split
  · exact .refl m
  · refine .ite fun _ => ?_
    have hstamp : Calm m { m with tCallme := ⟨now⟩ } := { Calm.refl m with }
    exact hstamp.trans (calm_sendPayload _ _ _ rfl)

theorem calm_tickLan (now : Int) (d : Draw) : Calm m (m.tickLan mac now d) := by
  refine .ite fun _ => ?_
  have hstamp : Calm m { m with tLan := ⟨now⟩ } := { Calm.refl m with }
  exact hstamp.trans (calm_sendLanQuery mac _ _)

theorem calm_setActive (a : Bool) : Calm m (m.setActive a) := by
  simp only [setActive]
  split
  · exact { Calm.refl m with timer := .inr rfl }
  · exact { Calm.refl m with }

theorem calm_setRelayEnabled (on : Bool) : Calm m (m.setRelayEnabled on) := by
  simp only [setRelayEnabled]
  split
  · exact { Calm.refl m with }
  · exact { Calm.refl m with }

theorem calm_setLanPort (port : UInt16) : Calm m (m.setLanPort port) := by
  simp only [setLanPort]
  generalize (if port = 0 then kLanDiscoPort else port) = p
  split
  · exact .refl m
  · exact { Calm.refl m with }

theorem calm_setLanHints (hints : List Endpoint) : Calm m (m.setLanHints hints) := by
  simp only [setLanHints]
  split
  · exact .refl m
  · exact { Calm.refl m with }

end Calls

/-! ## Moves -/

/-- The bytes hold some data and behind it the MAC of that data under a label and a side. -/
def Shows (mac : MacFn) (raw : Bytes) (label : String) (side : Bool) (data : Bytes) : Prop :=
  data ++ (lanMac mac label side data).toList <:+: raw

/-- What a call does, one thing at a time. -/
inductive Move (mac : MacFn) (e : Event) : PathManager → PathManager → Prop
  | calm {m m' : PathManager} (h : Calm m m') : Move mac e m m'
  | ask {m : PathManager} {now : Int} {d : Draw} {sent : List Effect} (ticks : e = .tick now d)
      (sends : ∀ x ∈ sent, Effect.Carries
        (.portq d.portNonce (lanMac mac "portq" m.side d.portNonce.toList)) x) :
      Move mac e m { m with
        tPort := ⟨now⟩
        portAsked := (m.portAsked.filter fun a => !(kPortAnswerMs < now - a.at_)) ++
          [{ nonce := d.portNonce, at_ := now }]
        portTries := m.portTries + 1
        out := m.out ++ sent }
  | ping {m : PathManager} {now : Int} {d : Draw} (ticks : e = .tick now d)
      (probes : m.cands ≠ []) (due : kPingProbeMs ≤ now - m.tPing.last) :
      Move mac e m { m with
        tPing := ⟨now⟩
        pingTxid := m.pingTxid + 1
        out := m.out ++ m.cands.map fun c => .direct c.ep (.disco (.ping (m.pingTxid + 1))) }
  | answer {m : PathManager} {nonce : Nonce} {origin : Endpoint} {raw : Bytes} {now : Int}
      {wg : WgReply} {sent : List Effect}
      (arrives : e = .datagram origin raw now wg) (listens : m.cfg.ownLanPort ≠ 0)
      (checked : Shows mac raw "portq" (!m.side) nonce.toList) (new : nonce ∉ m.portSeen)
      (sends : ∀ x ∈ sent, Effect.Carries (.porta nonce m.cfg.ownLanPort
        (lanMac mac "porta" m.side (portData nonce m.cfg.ownLanPort))) x) :
      Move mac e m { m with portSeen := remember m.portSeen nonce, out := m.out ++ sent }
  | accept {m : PathManager} {ask : PortAsk} {port : UInt16} {origin : Endpoint} {raw : Bytes}
      {now : Int} {wg : WgReply} (arrives : e = .datagram origin raw now wg)
      (pending : m.portAsked.find? (fun a => a.nonce = ask.nonce) = some ask)
      (fresh : now - ask.at_ ≤ kPortAnswerMs) (named : port ≠ 0)
      (checked : Shows mac raw "porta" (!m.side) (portData ask.nonce port)) :
      Move mac e m
        (let m' := { m with
          portAsked := m.portAsked.eraseP fun a => a.nonce = ask.nonce
          portFresh := true }.emit (.accepted ask.nonce port)
        if port ≠ m'.cfg.lanPort then m'.emit (.peerLanPort port) else m')
  | measure {m : PathManager} {src origin : Endpoint} {raw : Bytes} {now : Int} {wg : WgReply}
      (arrives : e = .datagram origin raw now wg) :
      Move mac e m ({ m with cands := onCand src (measure (m.rtt now) now) m.cands }.emit
        (.measured src m.pingTxid (m.rtt now)))

variable {mac} {m}

theorem Move.still (mac : MacFn) (e : Event) (m : PathManager) : Move mac e m m := .calm (.refl m)

/-! ## Datagrams -/

section Datagrams
variable {origin : Endpoint} {raw : Bytes} {now : Int} {wg : WgReply} {r : ByteReader}
  {via : PathKind} {src : Option Endpoint}

theorem done_iff {r : ByteReader} : r.done = true ↔ r.failed = false ∧ r.rest = [] := by
  simp [ByteReader.done]

theorem move_onPortQuery (hr : r.rest <:+ raw) :
    Move mac (.datagram origin raw now wg) m (m.onPortQuery mac r via src) := by
  simp only [onPortQuery]
  split
  · exact .still _ _ m
  · rename_i hgo
    simp only [Bool.or_eq_true, Bool.not_eq_true', decide_eq_true_eq, not_or,
      Bool.not_eq_false] at hgo
    obtain ⟨⟨hdone, hport⟩, -⟩ := hgo
    obtain ⟨hok₂, hend⟩ := done_iff.mp hdone
    obtain ⟨hok₁, hrest₁⟩ := ByteReader.array_ok (by decide) hok₂
    obtain ⟨-, hrest⟩ := ByteReader.array_ok (by decide) hok₁
    split
    · exact .still _ _ m
    · rename_i hmac
      split
      · exact .still _ _ m
      · rename_i hnew
        obtain ⟨l, heq, hl⟩ := sendDiscoReply_eq
          { m with portSeen := remember m.portSeen (r.array 16).1 } (.porta (r.array 16).1
            m.cfg.ownLanPort (lanMac mac "porta" m.side (portData (r.array 16).1 m.cfg.ownLanPort)))
          via src
        rw [show m.side = PathManager.side { m with
          portSeen := remember m.portSeen (r.array 16).1 } from rfl] at heq
        rw [heq]
        refine .answer rfl hport ?_ hnew hl
        rw [ne_eq, not_not] at hmac
        rw [Shows, hmac]
        rw [hrest₁, hend, List.append_nil] at hrest
        rw [← hrest]
        exact hr.isInfix

theorem move_onPortAnswer (hr : r.rest <:+ raw) :
    Move mac (.datagram origin raw now wg) m (m.onPortAnswer mac r now) := by
  simp only [onPortAnswer]
  split
  · exact .still _ _ m
  · rename_i hgo
    simp only [Bool.or_eq_true, Bool.not_eq_true', decide_eq_true_eq, not_or,
      Bool.not_eq_false] at hgo
    obtain ⟨hdone, hport⟩ := hgo
    obtain ⟨hok₃, hend⟩ := done_iff.mp hdone
    obtain ⟨hok₂, hrest₂⟩ := ByteReader.array_ok (by decide) hok₃
    obtain ⟨hok₁, hrest₁⟩ := ByteReader.u16_ok hok₂
    obtain ⟨-, hrest⟩ := ByteReader.array_ok (by decide) hok₁
    split
    · exact .still _ _ m
    · rename_i ask hask
      have hnonce : ask.nonce = (r.array 16).1 := by
        simpa using List.find?_some hask
      split
      · exact .still _ _ m
      · rename_i hfresh
        split
        · exact .still _ _ m
        · rename_i hmac
          rw [← hnonce] at hask hmac hrest ⊢
          refine .accept rfl hask (by omega) hport ?_
          rw [ne_eq, not_not] at hmac
          rw [Shows, hmac, portData]
          rw [hrest₁, hrest₂, hend, List.append_nil, ← List.append_assoc] at hrest
          rw [← hrest]
          exact hr.isInfix

theorem move_onPong :
    Move mac (.datagram origin raw now wg) m (m.onPong r src now) := by
  simp only [onPong]
  split
  · exact .still _ _ m
  · split
    · exact .still _ _ m
    · rename_i hgo
      simp only [Bool.or_eq_true, Bool.not_eq_true', decide_eq_true_eq, not_or] at hgo
      rw [not_not.mp hgo.1.2]
      exact .measure rfl

theorem move_handleDisco {body : Bytes} (hb : body <:+ raw) :
    Move mac (.datagram origin raw now wg) m (m.handleDisco mac body via src now) := by
  simp only [handleDisco]
  split
  · exact .still _ _ m
  · rename_i hok
    have hr : (ByteReader.u8 ⟨body, false⟩).2.rest <:+ raw := by
      cases body with
      | nil => exact absurd rfl hok
      | cons b body =>
          rw [ByteReader.u8_cons]
          exact (List.suffix_cons b body).trans hb
    split
    · exact .calm (calm_onCallme m _ via now)
    split
    · exact .calm (calm_onHere mac m _ via src now)
    split
    · exact move_onPortQuery hr
    split
    · exact move_onPortAnswer hr
    split
    · exact .calm (calm_onPing m _ src)
    split
    · exact move_onPong
    · exact .still _ _ m

theorem move_dispatchInner {inner : Bytes} (hi : inner <:+ raw) :
    Move mac (.datagram origin raw now wg) m (m.dispatchInner mac inner via src now wg) := by
  cases inner with
  | nil => exact .still _ _ m
  | cons ch body =>
      simp only [dispatchInner]
      split
      · exact .calm (calm_pumpWg m wg via src now)
      split
      · exact move_handleDisco ((List.suffix_cons ch body).trans hi)
      · exact .still _ _ m

theorem decodeRelayDown_suffix {pkt inner : Bytes} (h : decodeRelayDown pkt = some inner) :
    inner <:+ pkt := by
  cases pkt with
  | nil => cases h
  | cons b pkt =>
      rw [decodeRelayDown, ByteReader.u8_cons] at h
      simp only [ByteReader.takeRest_ok, Option.ite_none_left_eq_some, Option.some.injEq] at h
      rw [← h.2]
      exact List.suffix_cons b pkt

/-- A datagram makes one move. -/
theorem move_process :
    Move mac (.datagram origin raw now wg) m (m.process mac origin raw now wg) := by
  simp only [process]
  split
  · exact .still _ _ m
  split
  · split
    · exact .still _ _ m
    split
    · cases decodeWhereamiReply raw with
      | none => exact .still _ _ m
      | some rep => exact .calm (calm_onWhereami m rep)
    · cases hd : decodeRelayDown raw with
      | none => exact .still _ _ m
      | some inner => exact move_dispatchInner (decodeRelayDown_suffix hd)
    · exact .still _ _ m
  · exact move_dispatchInner (List.suffix_refl raw)

end Datagrams

/-! ## Calls -/

/-- A chain of moves. -/
abbrev Moves (mac : MacFn) (e : Event) : PathManager → PathManager → Prop :=
  Relation.ReflTransGen (Move mac e)

theorem Move.ite {e : Event} {b : Prop} [Decidable b] {m' : PathManager}
    (h : b → Move mac e m m') : Move mac e m (if b then m' else m) := by
  by_cases hb : b
  · rw [if_pos hb]
    exact h hb
  · rw [if_neg hb]
    exact .still _ _ m

theorem move_tickPort {now : Int} {d : Draw} :
    Move mac (.tick now d) m (m.tickPort mac now d) := by
  refine .ite fun _ => ?_
  obtain ⟨l, heq, hl⟩ := sendDiscoReply_eq
    { m with
      tPort := ⟨now⟩
      portAsked := (m.portAsked.filter fun a => !(kPortAnswerMs < now - a.at_)) ++
        [{ nonce := d.portNonce, at_ := now : PortAsk }] }
    (.portq d.portNonce (lanMac mac "portq" m.side d.portNonce.toList)) m.txPath m.chosen
  have hask : { m with tPort := ⟨now⟩ }.sendPortQuery mac now d.portNonce = { m with
      tPort := ⟨now⟩
      portAsked := (m.portAsked.filter fun a => !(kPortAnswerMs < now - a.at_)) ++
        [{ nonce := d.portNonce, at_ := now }]
      portTries := m.portTries + 1
      out := m.out ++ l } := by
    rw [sendPortQuery]
    dsimp only
    exact congrArg (fun m' : PathManager => { m' with portTries := m'.portTries + 1 }) heq
  rw [hask]
  exact .ask rfl hl

theorem move_tickPing {now : Int} {d : Draw} : Move mac (.tick now d) m (m.tickPing now) := by
  refine .ite fun hgo => ?_
  simp only [Bool.and_eq_true, decide_eq_true_eq, Timer.due] at hgo
  refine .ping rfl hgo.1.2 (le_trans ?_ hgo.2)
  split <;> decide

/-- All of a tick up to the question for the LAN port. -/
def tickFirst (m : PathManager) (now : Int) (d : Draw) : PathManager :=
  ((((m.tickWg now d).tickRegister now).tickWhereami now d).tickHousekeep now d).tickCallme now

theorem calm_tickFirst (m : PathManager) (now : Int) (d : Draw) : Calm m (m.tickFirst now d) :=
  ((((calm_tickWg m now d).trans (calm_tickRegister _ now)).trans
    (calm_tickWhereami _ now d)).trans (calm_tickHousekeep _ now d)).trans (calm_tickCallme _ now)

theorem tick_eq (m : PathManager) (now : Int) (d : Draw) : m.tick mac now d =
    if !m.active then m
    else ((((m.tickFirst now d).tickPort mac now d).tickLan mac now d).tickPing now).updateTxPath
      now := rfl

/-- Every call but a tick and a datagram is calm. -/
theorem calm_on {e : Event} (ht : ∀ now d, e ≠ .tick now d)
    (hd : ∀ src raw now wg, e ≠ .datagram src raw now wg) (m : PathManager) :
    Calm m (m.on mac e) := by
  cases e with
  | tick now d => exact absurd rfl (ht now d)
  | datagram src raw now wg => exact absurd rfl (hd src raw now wg)
  | lanQuery src pkt now => exact calm_onLanDiscovery mac m src pkt now
  | addCandidate ep now => exact calm_addCand m ep true now
  | sendInner wg => exact calm_sendInner m wg
  | setActive a => exact calm_setActive m a
  | setServer ep => exact { Calm.refl m with }
  | setRelayEnabled b => exact calm_setRelayEnabled m b
  | setLanBroadcast b => exact { Calm.refl m with }
  | setLanPort port => exact calm_setLanPort m port
  | setLanHints hints => exact calm_setLanHints m hints
  | setForceRelay f => exact { Calm.refl m with }

/-- Every call is a chain of moves. -/
theorem moves_on (e : Event) (m : PathManager) : Moves mac e m (m.on mac e) := by
  by_cases ht : ∃ now d, e = .tick now d
  · obtain ⟨now, d, rfl⟩ := ht
    rw [on, tick_eq]
    split
    · exact .refl
    · have h₁ : Moves mac (.tick now d) m (m.tickFirst now d) := .single (.calm (calm_tickFirst m now d))
      have h₂ := h₁.tail move_tickPort
      have h₃ := h₂.tail (.calm (calm_tickLan mac _ now d))
      have h₄ := h₃.tail move_tickPing
      exact h₄.tail (.calm (calm_updateTxPath _ now))
  by_cases hd : ∃ src raw now wg, e = .datagram src raw now wg
  · obtain ⟨src, raw, now, wg, rfl⟩ := hd
    exact .single move_process
  · refine .single (.calm (calm_on (fun now d h => ht ⟨now, d, h⟩) (fun src raw now wg h => ?_) m))
    exact hd ⟨src, raw, now, wg, h⟩

/-- What every move keeps and holds before a call, its output cleared, holds after it. -/
theorem step_invariant {I : PathManager → Prop} {e : Event}
    (keep : ∀ m m', I m → Move mac e m m' → I m') {m : PathManager} (init : I { m with out := [] }) :
    I (m.step mac e) := by
  have h : Moves mac e { m with out := [] } (m.step mac e) := moves_on e { m with out := [] }
  generalize m.step mac e = m' at h ⊢
  induction h with
  | refl => exact init
  | tail _ move ih => exact keep _ _ ih move

/-- Where an effect that is not calm comes from. -/
inductive Origin (mac : MacFn) (m : PathManager) : Event → Effect → Prop
  | ask {now : Int} {d : Draw} {x : Effect}
      (carries : Effect.Carries
        (.portq d.portNonce (lanMac mac "portq" m.side d.portNonce.toList)) x) :
      Origin mac m (.tick now d) x
  | ping {now : Int} {d : Draw} {ep : Endpoint} {tx : UInt64} :
      Origin mac m (.tick now d) (.direct ep (.disco (.ping tx)))
  | answer {nonce : Nonce} {src : Endpoint} {raw : Bytes} {now : Int} {wg : WgReply} {x : Effect}
      (checked : Shows mac raw "portq" (!m.side) nonce.toList)
      (carries : Effect.Carries (.porta nonce m.cfg.ownLanPort
        (lanMac mac "porta" m.side (portData nonce m.cfg.ownLanPort))) x) :
      Origin mac m (.datagram src raw now wg) x
  | accept {ask : PortAsk} {port : UInt16} {src : Endpoint} {raw : Bytes} {now : Int}
      {wg : WgReply} {x : Effect}
      (pending : m.portAsked.find? (fun a => a.nonce = ask.nonce) = some ask)
      (fresh : now - ask.at_ ≤ kPortAnswerMs) (named : port ≠ 0)
      (checked : Shows mac raw "porta" (!m.side) (portData ask.nonce port))
      (taken : Effect.accepted ask.nonce port ∈ (m.step mac (.datagram src raw now wg)).out)
      (tells : x = .accepted ask.nonce port ∨ x = .peerLanPort port) :
      Origin mac m (.datagram src raw now wg) x
  | measure {ep src : Endpoint} {raw : Bytes} {now : Int} {wg : WgReply} :
      Origin mac m (.datagram src raw now wg) (.measured ep m.pingTxid (m.rtt now))

theorem origin_of_datagram {src : Endpoint} {raw : Bytes} {now : Int} {wg : WgReply} {x : Effect}
    (h : x ∈ (m.step mac (.datagram src raw now wg)).out) (hx : x.calm = false) :
    Origin mac m (.datagram src raw now wg) x := by
  have hmove : Move mac (.datagram src raw now wg) { m with out := [] }
      (m.step mac (.datagram src raw now wg)) := move_process
  generalize hstep : m.step mac (.datagram src raw now wg) = m' at h hmove
  cases hmove with
  | calm hc =>
      obtain ⟨l, hout, hcalm⟩ := hc.out
      rw [hout] at h
      exact absurd (hcalm x h) (by simp [hx])
  | ask ticks => cases ticks
  | ping ticks => cases ticks
  | answer arrives listens checked new sends =>
      cases arrives
      exact .answer checked (sends x h)
  | accept arrives pending fresh named checked =>
      cases arrives
      dsimp only at h
      refine .accept pending fresh named checked ?_ ?_
      · rw [hstep]
        dsimp only
        split <;> simp [emit]
      · split at h
        · simpa [emit] using h
        · left
          simpa [emit] using h
  | measure arrives =>
      cases arrives
      rw [List.mem_singleton.mp h]
      exact .measure

theorem origin_of_step {e : Event} {x : Effect} (h : x ∈ (m.step mac e).out)
    (hx : x.calm = false) : Origin mac m e x := by
  by_cases hd : ∃ src raw now wg, e = .datagram src raw now wg
  · obtain ⟨src, raw, now, wg, rfl⟩ := hd
    exact origin_of_datagram h hx
  · -- other calls keep the side, and all they send comes from a tick
    have hall : (m.step mac e).side = m.side ∧
        ∀ x ∈ (m.step mac e).out, x.calm = false → Origin mac m e x := by
      refine step_invariant
        (I := fun m' => m'.side = m.side ∧ ∀ x ∈ m'.out, x.calm = false → Origin mac m e x)
        (fun m₁ m₂ hi hm => ?_) ⟨rfl, by simp⟩
      cases hm with
      | calm hc =>
          obtain ⟨l, hout, hcalm⟩ := hc.out
          refine ⟨?_, fun x hmem hx => ?_⟩
          · rw [← hi.1, side, side, hc.uid]
          · rw [hout, List.mem_append] at hmem
            rcases hmem with hmem | hmem
            · exact hi.2 x hmem hx
            · exact absurd (hcalm x hmem) (by simp [hx])
      | ask ticks sends =>
          cases ticks
          refine ⟨hi.1, fun x hmem hx => ?_⟩
          rcases List.mem_append.mp hmem with hmem | hmem
          · exact hi.2 x hmem hx
          · have hc := sends x hmem
            rw [hi.1] at hc
            exact .ask hc
      | ping ticks =>
          cases ticks
          refine ⟨hi.1, fun x hmem hx => ?_⟩
          rcases List.mem_append.mp hmem with hmem | hmem
          · exact hi.2 x hmem hx
          · obtain ⟨c, -, rfl⟩ := List.mem_map.mp hmem
            exact .ping
      | answer arrives => exact absurd ⟨_, _, _, _, arrives⟩ hd
      | accept arrives => exact absurd ⟨_, _, _, _, arrives⟩ hd
      | measure arrives => exact absurd ⟨_, _, _, _, arrives⟩ hd
    exact hall.2 x h hx

/-! ## Pending questions -/

theorem tickPort_portAsked (m : PathManager) (now : Int) (d : Draw) :
    (m.tickPort mac now d).portAsked = m.portAsked ∨
    (m.tickPort mac now d).portAsked =
      (m.portAsked.filter fun a => !(kPortAnswerMs < now - a.at_)) ++
        [{ nonce := d.portNonce, at_ := now }] := by
  unfold tickPort
  dsimp only
  by_cases hdue : m.tPort.due now (if (!m.portFresh && decide (m.portTries < kPortAskFastTries)) =
      true then kPortAskFastMs else kPortAskSlowMs) = true
  · right
    rw [if_pos hdue, sendPortQuery]
    dsimp only
    obtain ⟨l, heq, -⟩ := sendDiscoReply_eq { m with
      tPort := ⟨now⟩
      portAsked := (m.portAsked.filter fun a => !(kPortAnswerMs < now - a.at_)) ++
        [{ nonce := d.portNonce, at_ := now : PortAsk }] }
      (.portq d.portNonce (lanMac mac "portq" m.side d.portNonce.toList)) m.txPath m.chosen
    exact congrArg PathManager.portAsked heq
  · left
    rw [if_neg hdue]

theorem tickPing_portAsked (m : PathManager) (now : Int) :
    (m.tickPing now).portAsked = m.portAsked :=
  (apply_ite PathManager.portAsked _ _ _).trans (ite_self _)

/-- How the list of pending questions changes in a call. -/
theorem step_portAsked (e : Event) (m : PathManager) :
    (m.step mac e).portAsked = m.portAsked ∨
    (∃ now d, e = .tick now d ∧ (m.step mac e).portAsked =
      (m.portAsked.filter fun a => !(kPortAnswerMs < now - a.at_)) ++
        [{ nonce := d.portNonce, at_ := now }]) ∨
    ∃ nonce port, .accepted nonce port ∈ (m.step mac e).out ∧
      (m.step mac e).portAsked = m.portAsked.eraseP fun a => a.nonce = nonce := by
  by_cases ht : ∃ now d, e = .tick now d
  · obtain ⟨now, d, rfl⟩ := ht
    rw [step, on, tick_eq]
    split
    · exact .inl rfl
    · have hfirst := (calm_tickFirst { m with out := [] } now d).asked
      have hrest : ∀ m' : PathManager,
          (((m'.tickLan mac now d).tickPing now).updateTxPath now).portAsked = m'.portAsked := by
        intro m'
        rw [(calm_updateTxPath _ now).asked, tickPing_portAsked, (calm_tickLan mac m' now d).asked]
      rw [hrest]
      rcases tickPort_portAsked ({ m with out := [] }.tickFirst now d) now d with h | h
      · left
        rw [h, hfirst]
      · right
        left
        refine ⟨now, d, rfl, ?_⟩
        rw [h, hfirst]
  by_cases hd : ∃ src raw now wg, e = .datagram src raw now wg
  · obtain ⟨src, raw, now, wg, rfl⟩ := hd
    have hmove : Move mac (.datagram src raw now wg) { m with out := [] }
        (m.step mac (.datagram src raw now wg)) := move_process
    generalize m.step mac (.datagram src raw now wg) = m' at hmove ⊢
    cases hmove with
    | calm hc => exact .inl hc.asked
    | ask ticks => cases ticks
    | ping ticks => cases ticks
    | answer => exact .inl rfl
    | accept =>
        right
        right
        dsimp only
        split
        · exact ⟨_, _, List.mem_append_left _ (List.mem_append_right _ List.mem_cons_self), rfl⟩
        · exact ⟨_, _, List.mem_append_right _ List.mem_cons_self, rfl⟩
    | measure => exact .inl rfl
  · left
    have hcalm : Calm { m with out := [] } (m.step mac e) :=
      calm_on (fun now d h => ht ⟨now, d, h⟩)
        (fun src raw now wg h => hd ⟨src, raw, now, wg, h⟩) { m with out := [] }
    exact hcalm.asked

end PathManager
end Splice.Peer
