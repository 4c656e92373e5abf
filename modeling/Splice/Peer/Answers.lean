import Splice.Lib.Recent
import Splice.Peer.LanSteps

/-!
How often a query is answered. The nonces of the queries on the local network and of the
questions for the LAN port are kept, 64 of each; one that comes again is ignored while it
is among these, and answered again after that.
-/

namespace Splice.Peer.PathManager
open Proto Lib

def hereOf : Effect → Option Nonce
  | .direct _ (.disco (.here nonce _)) | .relay (.disco (.here nonce _)) => some nonce
  | _ => none

def portaOf : Effect → Option Nonce
  | .direct _ (.disco (.porta nonce _ _)) | .relay (.disco (.porta nonce _ _)) => some nonce
  | _ => none

section Queries
variable (mac : MacFn) (m : PathManager)

/-- The nonce of a query of the peer that reaches the active session. -/
def lanReceived : Event → Option Nonce
  | .lanQuery _ pkt _ =>
      if m.active && m.lanQueryFromPeer mac pkt then some (lanNonceOf pkt) else none
  | _ => none

/-- It is answered. -/
def lanAnswered : Event → Option Nonce
  | .lanQuery _ pkt _ => if m.answers mac pkt then some (lanNonceOf pkt) else none
  | _ => none

/-- The peers' datagram in one of the socket. -/
def innerOf (src : Endpoint) (raw : Bytes) : Option Bytes :=
  if m.forceRelay && src ≠ m.cfg.server then none
  else if src = m.cfg.server then
    if !m.relayOn then none
    else
      match peekUdpType raw with
      | some .relay => decodeRelayDown raw
      | some .whereami | none => none
  else some raw

/-- The nonce of a question for the LAN port that is the peer's, if there is a port to tell. -/
def portQuery (r : ByteReader) : Option Nonce :=
  let (nonce, r) := r.array 16
  let (tag, r) := r.array 16
  if !r.done || m.cfg.ownLanPort = 0 || !m.active then none
  else if lanMac mac "portq" (!m.side) nonce.toList ≠ tag then none
  else some nonce

def questionOf : Bytes → Option Nonce
  | 0x01 :: 0x05 :: body => m.portQuery mac ⟨body, false⟩
  | _ => none

def portReceived : Event → Option Nonce
  | .datagram src raw _ _ => (m.innerOf src raw).bind (m.questionOf mac)
  | _ => none

/-- It has not been asked before, as far as is remembered. -/
def portAnswered (e : Event) : Option Nonce :=
  (m.portReceived mac e).filter fun nonce => nonce ∉ m.portSeen

end Queries

/-! ## One call -/

section Calls
variable {mac : MacFn} {m m' : PathManager}

theorem hereOf_off {x : Effect} (h : x.lan = false) : hereOf x = none := by
  unfold hereOf
  split
  · cases h
  · cases h
  · rfl

theorem heres_off (h : OffLan m m') : m'.out.filterMap hereOf = m.out.filterMap hereOf := by
  obtain ⟨l, hout, hoff⟩ := h.out
  have hnone : l.filterMap hereOf = [] := by
    rw [List.filterMap_eq_nil_iff]
    exact fun x hx => hereOf_off (hoff x hx)
  rw [hout, List.filterMap_append, hnone, List.append_nil]

/-- A HERE goes out for each query that is answered, and its nonce is kept. -/
theorem step_here (mac : MacFn) (m : PathManager) (e : Event) :
    (m.step mac e).out.filterMap hereOf = (m.lanAnswered mac e).toList ∧
    (m.step mac e).lanSeen =
      (m.lanAnswered mac e).elim m.lanSeen (keepLast kLanRemember m.lanSeen) := by
  have off : ∀ m' : PathManager, OffLan { m with out := [] } m' →
      m'.out.filterMap hereOf = [] ∧ m'.lanSeen = m.lanSeen :=
    fun m' h => ⟨heres_off h, h.seen⟩
  by_cases hq : ∃ src pkt now, e = .lanQuery src pkt now
  · obtain ⟨src, pkt, now, rfl⟩ := hq
    rw [step, on, lanAnswered]
    cases hans : m.answers mac pkt with
    | false =>
        have heq : PathManager.onLanDiscovery mac { m with out := [] } src pkt now =
            { m with out := [] } := onLanDiscovery_ignored mac _ hans
        rw [heq]
        exact ⟨rfl, rfl⟩
    | true =>
        obtain ⟨-, -, hseen, hout⟩ := onLanDiscovery_answered mac { m with out := [] }
          hans
        rw [hout, hseen]
        exact ⟨rfl, rfl⟩
  have hnone : m.lanAnswered mac e = none := by
    cases e with
    | lanQuery src pkt now => exact absurd ⟨src, pkt, now, rfl⟩ hq
    | _ => rfl
  rw [hnone]
  by_cases ht : ∃ now d, e = .tick now d
  · obtain ⟨now, d, rfl⟩ := ht
    cases hasked : m.lanAsked mac (.tick now d) with
    | none => exact off _ (tick_off mac m now d hasked)
    | some nonce =>
        obtain ⟨-, -, hseen, -, hout⟩ := tick_asks mac m hasked
        refine ⟨?_, hseen⟩
        rw [Option.toList_none, List.filterMap_eq_nil_iff]
        intro x hx
        cases hx' : x.lan with
        | false => exact hereOf_off hx'
        | true =>
            obtain ⟨dst, rfl⟩ := hout x hx hx'
            rfl
  · exact off _ (off_on mac _ (fun now d h => ht ⟨now, d, h⟩) fun src pkt now h =>
      hq ⟨src, pkt, now, h⟩)

/-- No PORTA and no question. -/
structure NoPorta (m m' : PathManager) : Prop where
  seen : m'.portSeen = m.portSeen
  out : m'.out.filterMap portaOf = m.out.filterMap portaOf

theorem NoPorta.refl (m : PathManager) : NoPorta m m := ⟨rfl, rfl⟩

theorem portaOf_of_calm {x : Effect} (h : x.calm = true) : portaOf x = none := by
  unfold portaOf
  split
  · exact absurd h (by simp [Effect.calm, Inner.calm, Disco.calm])
  · exact absurd h (by simp [Effect.calm, Inner.calm, Disco.calm])
  · rfl

theorem portaOf_of_portq {nonce tag : Nonce} {x : Effect}
    (h : Effect.Carries (.portq nonce tag) x) : portaOf x = none := by
  rcases h with ⟨ep, rfl⟩ | rfl
  · rfl
  · rfl

theorem portas_append {out l : List Effect} (h : ∀ x ∈ l, portaOf x = none) :
    (out ++ l).filterMap portaOf = out.filterMap portaOf := by
  rw [List.filterMap_append, List.filterMap_eq_nil_iff.mpr h, List.append_nil]

theorem noPorta_of_calm (h : Calm m m') : NoPorta m m' := by
  refine ⟨h.seen, ?_⟩
  obtain ⟨l, hout, hcalm⟩ := h.out
  rw [hout, portas_append fun x hx => portaOf_of_calm (hcalm x hx)]

theorem noPorta_onPortAnswer (r : ByteReader) (now : Int) :
    NoPorta m (m.onPortAnswer mac r now) := by
  simp only [onPortAnswer]
  repeat (split; · exact .refl m)
  split
  · exact ⟨rfl, by simp [emit, portaOf]⟩
  · exact ⟨rfl, by simp [emit, portaOf]⟩

theorem noPorta_onPong (r : ByteReader) (src : Option Endpoint) (now : Int) :
    NoPorta m (m.onPong r src now) := by
  simp only [onPong]
  repeat (split; · exact .refl m)
  exact ⟨rfl, by simp [emit, portaOf]⟩

/-- At most one message goes out. -/
theorem sendDiscoReply_one (m : PathManager) (msg : Disco) (via : PathKind)
    (src : Option Endpoint) : (m.sendDiscoReply msg via src).portSeen = m.portSeen ∧
      ∃ l, (m.sendDiscoReply msg via src).out = m.out ++ l ∧
        (l = [] ∨ ∃ x, l = [x] ∧ Effect.Carries msg x) := by
  have hsend : ∀ (path : PathKind) (dst : Option Endpoint),
      (m.sendPayload path dst (.disco msg)).portSeen = m.portSeen ∧
      ∃ l, (m.sendPayload path dst (.disco msg)).out = m.out ++ l ∧
        (l = [] ∨ ∃ x, l = [x] ∧ Effect.Carries msg x) := by
    intro path dst
    unfold sendPayload
    split
    · split
      · exact ⟨rfl, _, rfl, .inr ⟨_, rfl, .inr rfl⟩⟩
      · exact ⟨rfl, [], by simp, .inl rfl⟩
    · exact ⟨rfl, _, rfl, .inr ⟨_, rfl, .inl ⟨_, rfl⟩⟩⟩
    · exact ⟨rfl, [], by simp, .inl rfl⟩
  unfold sendDiscoReply
  split
  · exact hsend _ _
  · exact hsend _ _

/-- A question that is not repeated is answered once, and its nonce is kept. -/
structure OneAnswer (m m' : PathManager) (nonce : Option Nonce) : Prop where
  seen : m'.portSeen = nonce.elim m.portSeen (keepLast kLanRemember m.portSeen)
  out : ∃ l, m'.out.filterMap portaOf = m.out.filterMap portaOf ++ l ∧ l.Sublist nonce.toList

theorem NoPorta.oneAnswer (h : NoPorta m m') : OneAnswer m m' none :=
  ⟨h.seen, [], by rw [h.out, List.append_nil], by simp⟩

theorem oneAnswer_onPortQuery (mac : MacFn) (m : PathManager) (r : ByteReader) (via : PathKind)
    (src : Option Endpoint) : OneAnswer m (m.onPortQuery mac r via src)
      ((m.portQuery mac r).filter fun nonce => nonce ∉ m.portSeen) := by
  simp only [onPortQuery, portQuery]
  split
  · exact (NoPorta.refl m).oneAnswer
  split
  · exact (NoPorta.refl m).oneAnswer
  split
  · rename_i hseen
    have hnone : Option.filter (fun nonce => decide (nonce ∉ m.portSeen)) (some (r.array 16).1) =
        none := by simp [hseen]
    rw [hnone]
    exact (NoPorta.refl m).oneAnswer
  · rename_i hseen
    have hsome : Option.filter (fun nonce => decide (nonce ∉ m.portSeen)) (some (r.array 16).1) =
        some (r.array 16).1 := by simp [hseen]
    rw [hsome]
    obtain ⟨hkept, l, hout, hl⟩ := sendDiscoReply_one
      { m with portSeen := remember m.portSeen (r.array 16).1 } (.porta (r.array 16).1
        m.cfg.ownLanPort (lanMac mac "porta" m.side (portData (r.array 16).1 m.cfg.ownLanPort)))
      via src
    refine ⟨hkept, l.filterMap portaOf, ?_, ?_⟩
    · have hout' := congrArg (List.filterMap portaOf) hout
      rwa [List.filterMap_append] at hout'
    · rcases hl with rfl | ⟨x, rfl, ⟨ep, rfl⟩ | rfl⟩
      · simp
      · exact List.Sublist.refl _
      · exact List.Sublist.refl _

theorem oneAnswer_handleDisco (mac : MacFn) (m : PathManager) (dt : UInt8) (body : Bytes)
    (via : PathKind) (src : Option Endpoint) (now : Int) :
    OneAnswer m (m.handleDisco mac (dt :: body) via src now)
      ((if dt = 0x05 then m.portQuery mac ⟨body, false⟩ else none).filter
        fun nonce => nonce ∉ m.portSeen) := by
  simp only [handleDisco, ByteReader.u8_cons]
  rw [if_neg (by simp [ByteReader.ok])]
  by_cases h5 : dt = 0x05
  · rw [if_neg (h5 ▸ by decide), if_neg (h5 ▸ by decide), if_pos h5, if_pos h5]
    exact oneAnswer_onPortQuery mac m _ via src
  rw [if_neg h5, if_neg h5, Option.filter_none]
  refine NoPorta.oneAnswer ?_
  split
  · exact noPorta_of_calm (calm_onCallme m _ via now)
  split
  · exact noPorta_of_calm (calm_onHere mac m _ via src now)
  split
  · exact noPorta_onPortAnswer _ now
  split
  · exact noPorta_of_calm (calm_onPing m _ src)
  split
  · exact noPorta_onPong _ src now
  · exact .refl m

theorem oneAnswer_dispatchInner (mac : MacFn) (m : PathManager) (inner : Bytes) (via : PathKind)
    (src : Option Endpoint) (now : Int) (wg : WgReply) :
    OneAnswer m (m.dispatchInner mac inner via src now wg)
      ((m.questionOf mac inner).filter fun nonce => nonce ∉ m.portSeen) := by
  unfold questionOf
  match inner with
  | [] => exact (NoPorta.refl m).oneAnswer
  | [ch] =>
      simp only [dispatchInner, Option.filter_none]
      split
      · exact (noPorta_of_calm (calm_pumpWg m wg via src now)).oneAnswer
      split
      · exact (NoPorta.refl m).oneAnswer
      · exact (NoPorta.refl m).oneAnswer
  | ch :: dt :: body =>
      rw [dispatchInner]
      by_cases h0 : ch = 0x00
      · rw [if_pos h0, h0]
        exact (noPorta_of_calm (calm_pumpWg m wg via src now)).oneAnswer
      rw [if_neg h0]
      by_cases h1 : ch = 0x01
      · rw [if_pos h1, h1]
        have htold := oneAnswer_handleDisco mac m dt body via src now
        by_cases h5 : dt = 0x05
        · rw [if_pos h5] at htold
          rw [h5] at htold ⊢
          exact htold
        · rw [if_neg h5] at htold
          split
          · rename_i heq
            simp only [List.cons.injEq] at heq
            exact absurd heq.2.1 h5
          · exact htold
      · rw [if_neg h1]
        split
        · rename_i heq
          simp only [List.cons.injEq] at heq
          exact absurd heq.1 h1
        · exact (NoPorta.refl m).oneAnswer

theorem oneAnswer_process (mac : MacFn) (m : PathManager) (src : Endpoint) (raw : Bytes) (now : Int)
    (wg : WgReply) : OneAnswer m (m.process mac src raw now wg)
      (m.portAnswered mac (.datagram src raw now wg)) := by
  simp only [portAnswered, portReceived, innerOf, process]
  split
  · exact (NoPorta.refl m).oneAnswer
  split
  · split
    · exact (NoPorta.refl m).oneAnswer
    cases peekUdpType raw with
    | none => exact (NoPorta.refl m).oneAnswer
    | some k =>
        cases k with
        | whereami =>
            dsimp only
            cases decodeWhereamiReply raw with
            | none => exact (NoPorta.refl m).oneAnswer
            | some rep => exact (noPorta_of_calm (calm_onWhereami m rep)).oneAnswer
        | relay =>
            dsimp only
            cases decodeRelayDown raw with
            | none => exact (NoPorta.refl m).oneAnswer
            | some inner => exact oneAnswer_dispatchInner mac m inner .relay none now wg
  · exact oneAnswer_dispatchInner mac m raw .direct (some src) now wg

/-- At most one PORTA goes out for each question that is answered, and its nonce is kept. -/
theorem step_porta (mac : MacFn) (m : PathManager) (e : Event) :
    ((m.step mac e).out.filterMap portaOf).Sublist (m.portAnswered mac e).toList ∧
    (m.step mac e).portSeen =
      (m.portAnswered mac e).elim m.portSeen (keepLast kLanRemember m.portSeen) := by
  have told : ∀ {m' : PathManager} {nonce : Option Nonce}, OneAnswer { m with out := [] } m' nonce →
      (m'.out.filterMap portaOf).Sublist nonce.toList ∧
      m'.portSeen = nonce.elim m.portSeen (keepLast kLanRemember m.portSeen) := by
    intro m' nonce h
    obtain ⟨l, hout, hl⟩ := h.out
    refine ⟨?_, h.seen⟩
    rw [hout]
    exact hl
  by_cases hd : ∃ src raw now wg, e = .datagram src raw now wg
  · obtain ⟨src, raw, now, wg, rfl⟩ := hd
    exact told (oneAnswer_process mac { m with out := [] } src raw now wg)
  have hnone : m.portAnswered mac e = none := by
    cases e with
    | datagram src raw now wg => exact absurd ⟨src, raw, now, wg, rfl⟩ hd
    | _ => rfl
  rw [hnone]
  refine told (NoPorta.oneAnswer ?_)
  refine step_invariant (I := NoPorta { m with out := [] }) (fun m₁ m₂ hi hm => ?_) (.refl _)
  have hnext : NoPorta m₁ m₂ := by
    cases hm with
    | calm hc => exact noPorta_of_calm hc
    | ask ticks sends => exact ⟨rfl, portas_append fun x hx => portaOf_of_portq (sends x hx)⟩
    | ping ticks =>
        refine ⟨rfl, portas_append fun x hx => ?_⟩
        obtain ⟨c, -, rfl⟩ := List.mem_map.mp hx
        rfl
    | answer arrives => exact absurd ⟨_, _, _, _, arrives⟩ hd
    | accept arrives => exact absurd ⟨_, _, _, _, arrives⟩ hd
    | measure arrives => exact absurd ⟨_, _, _, _, arrives⟩ hd
  exact ⟨hnext.seen.trans hi.seen, hnext.out.trans hi.out⟩

end Calls

/-! ## Runs -/

/-- Each nonce is answered at most once, and a query that comes again adds nobody. -/
structure AnsweredOnce (mac : MacFn) (m₀ : PathManager) (es : List Event) : Prop where
  here : ((log mac m₀ es).filterMap fun x => hereOf x.2).Nodup
  porta : ((log mac m₀ es).filterMap fun x => portaOf x.2).Nodup
  replay : ∀ pre src pkt now post, es = pre ++ .lanQuery src pkt now :: post →
    lanNonceOf pkt ∈ collect (step mac) (lanReceived mac) m₀ pre →
      (run mac m₀ pre).tableOps mac (.lanQuery src pkt now) = []

/-- A nonce that comes again is among the last 64 answered. For a query on the local network
that is asked only while direct paths are allowed. -/
structure Remembered (mac : MacFn) (m₀ : PathManager) (pre : List Event) (e : Event) : Prop where
  lan : ∀ nonce, (run mac m₀ pre).lanReceived mac e = some nonce →
    (run mac m₀ pre).forceRelay = false → nonce ∈ collect (step mac) (lanReceived mac) m₀ pre →
      nonce ∈ (collect (step mac) (lanAnswered mac) m₀ pre).rtake kLanRemember
  port : ∀ nonce, (run mac m₀ pre).portReceived mac e = some nonce →
    nonce ∈ collect (step mac) (portReceived mac) m₀ pre →
      nonce ∈ (collect (step mac) (portAnswered mac) m₀ pre).rtake kLanRemember

section Runs
variable {mac : MacFn} {m m₀ : PathManager} {e : Event} {nonce : Nonce}

theorem lanAnswered_iff : m.lanAnswered mac e = some nonce ↔
    m.lanReceived mac e = some nonce ∧ m.forceRelay = false ∧ nonce ∉ m.lanSeen := by
  cases e with
  | lanQuery src pkt now =>
      simp only [lanAnswered, lanReceived, answers, Bool.and_eq_true, Bool.not_eq_true',
        decide_eq_true_eq, Option.ite_none_right_eq_some, Option.some.injEq]
      constructor
      · rintro ⟨⟨⟨hpeer, hforce⟩, hseen⟩, rfl⟩
        exact ⟨⟨hpeer, rfl⟩, hforce, hseen⟩
      · rintro ⟨⟨hpeer, rfl⟩, hforce, hseen⟩
        exact ⟨⟨⟨hpeer, hforce⟩, hseen⟩, rfl⟩
  | _ => simp [lanAnswered, lanReceived]

theorem portAnswered_iff : m.portAnswered mac e = some nonce ↔
    m.portReceived mac e = some nonce ∧ nonce ∉ m.portSeen := by
  simp [portAnswered, Option.filter_eq_some_iff]

theorem heres_log (mac : MacFn) (m : PathManager) (es : List Event) :
    (log mac m es).filterMap (fun x => hereOf x.2) =
      collect (step mac) (lanAnswered mac) m es := by
  induction es generalizing m with
  | nil => rfl
  | cons e es ih =>
      rw [log, List.filterMap_append, ih, List.filterMap_map, collect, ← (step_here mac m e).1]
      rfl

theorem portas_log (mac : MacFn) (m : PathManager) (es : List Event) :
    ((log mac m es).filterMap fun x => portaOf x.2).Sublist
      (collect (step mac) (portAnswered mac) m es) := by
  induction es generalizing m with
  | nil => exact .refl _
  | cons e es ih =>
      rw [log, List.filterMap_append, List.filterMap_map, collect]
      exact (step_porta mac m e).1.append (ih _)

theorem lanSeen_run (mac : MacFn) (cfg : PathConfig) (locals : List Endpoint) (es : List Event) :
    (run mac (start cfg locals) es).lanSeen =
      (collect (step mac) (lanAnswered mac) (start cfg locals) es).rtake kLanRemember :=
  seen_eq_rtake (by decide) rfl (fun m e => (step_here mac m e).2) es

end Runs

/-- In every run whose repeated nonces are all still remembered, each is answered once. -/
theorem answered_once (mac : MacFn) (cfg : PathConfig) (locals : List Endpoint)
    (es : List Event) (remembered : ∀ pre e post, es = pre ++ e :: post →
      Remembered mac (start cfg locals) pre e) :
    AnsweredOnce mac (start cfg locals) es where
  here := by
    rw [heres_log]
    refine collect_nodup (by decide) rfl (fun m e => (step_here mac m e).2)
      (fun m e nonce h => (lanAnswered_iff.mp h).2.2) fun pre e post hes nonce h hmem => ?_
    obtain ⟨hreceived, hforce, -⟩ := lanAnswered_iff.mp h
    exact (remembered pre e post hes).lan nonce hreceived hforce
      (mem_collect_imp (fun m e nonce h => (lanAnswered_iff.mp h).1) hmem)
  porta := by
    refine List.Nodup.sublist (portas_log mac _ es) ?_
    refine collect_nodup (by decide) rfl (fun m e => (step_porta mac m e).2)
      (fun m e nonce h => (portAnswered_iff.mp h).2) fun pre e post hes nonce h hmem => ?_
    exact (remembered pre e post hes).port nonce (portAnswered_iff.mp h).1
      (mem_collect_imp (fun m e nonce h => (portAnswered_iff.mp h).1) hmem)
  replay := by
    rintro pre src pkt now post hes hcame
    rw [tableOps]
    refine if_neg fun hans => ?_
    have hanswered : (run mac (start cfg locals) pre).lanAnswered mac (.lanQuery src pkt now) =
        some (lanNonceOf pkt) := if_pos hans
    obtain ⟨hreceived, hforce, hnew⟩ := lanAnswered_iff.mp hanswered
    have hrecent := (remembered pre _ post hes).lan _ hreceived hforce hcame
    rw [← lanSeen_run] at hrecent
    exact hnew hrecent

/-! ## Queries that come again -/

def numberedNonce (n : Nat) : Nonce := ⟨List.replicate 15 0 ++ [n.toUInt8], rfl⟩

/-- A query under the MAC that is always zero. -/
def numberedQuery (src : Endpoint) (n : Nat) : Event :=
  .lanQuery src (kLanMagic ++ (numberedNonce n).toList ++ List.replicate 16 0) 1000

def queriedRun (n : Nat) : List Event := .setActive true :: (List.range n).map (numberedQuery peerAt)

/-- Another address. -/
def elsewhere : Endpoint := { port := 4009 }

theorem remembered_repeat (pre : List Event) (e : Event) (post : List Event)
    (h : queriedRun 1 ++ [numberedQuery elsewhere 0] = pre ++ e :: post) :
    Remembered zeroMac (start plainConfig []) pre e := by
  have first : ∀ {nonce : Nonce}, nonce ∉ collect (step zeroMac) (lanReceived zeroMac)
      (start plainConfig []) [.setActive true] := by
    intro nonce hmem
    cases hmem
  match pre, h with
  | [], h =>
      cases h
      exact ⟨fun nonce hn => (by cases hn), fun nonce hn => (by cases hn)⟩
  | [_], h =>
      cases h
      exact ⟨fun nonce _ _ hmem => absurd hmem first, fun nonce hn => by cases hn⟩
  | [_, _], h =>
      cases h
      refine ⟨fun nonce hn _ _ => ?_, fun nonce hn => by cases hn⟩
      have heq : numberedNonce 0 = nonce := by
        have hsome : (run zeroMac (start plainConfig []) (queriedRun 1)).lanReceived zeroMac
            (numberedQuery elsewhere 0) = some (numberedNonce 0) := by decide +kernel
        exact Option.some.inj (hsome.symm.trans hn)
      rw [← heq]
      decide +kernel
  | _ :: _ :: _ :: pre, h =>
      have hlen := congrArg List.length h
      simp only [queriedRun, List.range_one, List.map_cons, List.map_nil, List.cons_append,
        List.nil_append, List.length_cons, List.length_append, List.length_nil] at hlen
      omega

/-- A query that comes again at once is not answered again. -/
theorem answered_once_repeat : AnsweredOnce zeroMac (start plainConfig [])
    (queriedRun 1 ++ [numberedQuery elsewhere 0]) :=
  answered_once zeroMac plainConfig [] _ remembered_repeat

/-- The first query again, after 64 others and from somebody else, is answered and adds him. -/
theorem query_answered_again : ¬ AnsweredOnce zeroMac (start plainConfig [])
    (queriedRun 65 ++ [numberedQuery elsewhere 0]) := by
  intro h
  have hadds : (run zeroMac (start plainConfig []) (queriedRun 65)).tableOps zeroMac
      (numberedQuery elsewhere 0) ≠ [] := by decide +kernel
  refine hadds (h.replay (queriedRun 65) elsewhere _ 1000 [] rfl ?_)
  decide +kernel

end Splice.Peer.PathManager
