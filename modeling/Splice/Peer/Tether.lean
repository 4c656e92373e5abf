import Splice.Peer.PathSettings
import Splice.Server.RelayServer

/-!
A session and the relay. The relay forgets an address nobody has sent from for some time; a
session that is in use registers every few seconds. As long as its owner's ticks come in time,
and so do its datagrams, the relay knows where the session is.
-/

namespace Splice.Peer
open Proto Lib Server

/-! ## Registering -/

namespace PathManager
variable {mac : MacFn} {m : PathManager}

theorem on_uid (e : Event) : (m.on mac e).cfg.uid = m.cfg.uid := by
  cases e with
  | tick now d => exact (permitted_tick mac m now d).uid
  | datagram src raw now wg => exact (obeys_process mac m src raw now wg).uid
  | lanQuery src pkt now => exact (obeys_onLanDiscovery mac m src pkt now).uid
  | addCandidate ep now => exact (obeys_addCand m ep true now).uid
  | sendInner wg => exact (obeys_sendInner m wg).uid
  | setActive a => simp only [on, setActive]; split <;> rfl
  | setServer ep => rfl
  | setRelayEnabled b => simp only [on, setRelayEnabled]; split <;> rfl
  | setLanBroadcast b => rfl
  | setLanPort port =>
      simp only [on, setLanPort]
      generalize (if port = 0 then kLanDiscoPort else port) = q
      split <;> rfl
  | setLanHints hints => simp only [on, setLanHints]; split <;> rfl
  | setForceRelay f => rfl

def Event.isTick : Event → Bool
  | .tick _ _ => true
  | _ => false

/-- Only a tick registers; the settings can make the next one do it at once. -/
theorem on_timer (mac : MacFn) (m : PathManager) {e : Event} (other : e.isTick = false) :
    (m.on mac e).tRegister = m.tRegister ∨ (m.on mac e).tRegister = .rearm := by
  cases e with
  | tick now d => cases other
  | datagram src raw now wg => exact .inl (obeys_process mac m src raw now wg).timer
  | lanQuery src pkt now => exact .inl (obeys_onLanDiscovery mac m src pkt now).timer
  | addCandidate ep now => exact .inl (obeys_addCand m ep true now).timer
  | sendInner wg => exact .inl (obeys_sendInner m wg).timer
  | setActive a =>
      simp only [on, setActive]
      split
      · exact .inr rfl
      · exact .inl rfl
  | setServer ep => exact .inr rfl
  | setRelayEnabled b =>
      simp only [on, setRelayEnabled]
      split
      · exact .inr rfl
      · exact .inl rfl
  | setLanBroadcast b => exact .inl rfl
  | setLanPort port =>
      simp only [on, setLanPort]
      generalize (if port = 0 then kLanDiscoPort else port) = q
      split <;> exact .inl rfl
  | setLanHints hints => simp only [on, setLanHints]; split <;> exact .inl rfl
  | setForceRelay f => exact .inl rfl

/-- What the last call sent to this address. -/
def sentTo (m : PathManager) (ep : Endpoint) : List Bytes :=
  m.out.filterMap fun x => (x.datagram m.cfg.uid m.cfg.server).bind fun d =>
    if d.1 = ep then some d.2 else none

def sentUp (m : PathManager) : List Bytes := m.sentTo m.cfg.server

theorem register_sentUp (registered : .register ∈ m.out) :
    encodeRelayUp m.cfg.uid [] ∈ m.sentUp :=
  List.mem_filterMap.mpr ⟨.register, registered, by simp [Effect.datagram]⟩

end PathManager

/-! ## The two of them -/

structure Tether where
  m : PathManager
  served : Served
  /-- datagrams on their way from the session to the relay, and when they were sent -/
  flight : List (Int × Bytes) := []
  lastTick : Int
  /-- when a registration was sent, the latest first -/
  regs : List Int := []
  now : Int

theorem mem_eraseIdx {α : Type*} {l : List α} {x y : α} {i : Nat} (hy : y ∈ l)
    (at_ : l[i]? = some x) (ne : x ≠ y) : y ∈ l.eraseIdx i := by
  obtain ⟨j, there⟩ := List.mem_iff_getElem?.mp hy
  have other : j ≠ i := by
    intro eq
    rw [eq, at_] at there
    exact ne (Option.some.inj there)
  exact List.mem_eraseIdx_iff_getElem?.mpr ⟨j, other, there⟩

namespace Tether
open PathManager

inductive Act
  | call (e : Event)
  /-- a datagram of the session reaches the relay, from whatever address the session has now -/
  | deliver (i : Nat) (src : Endpoint)
  /-- a turn of the relay with datagrams from anybody -/
  | others (ds : List Datagram)

def call (mac : MacFn) (s : Tether) (e : Event) : Tether :=
  let m := s.m.step mac e
  { s with
    m
    flight := s.flight ++ m.sentUp.map (s.now, ·)
    lastTick := if e.isTick then s.now else s.lastTick
    regs := if e.isTick && m.out.contains .register then s.now :: s.regs else s.regs }

def act (mac : MacFn) (s : Tether) : Act → Option Tether
  | .call e => if e.time.getD s.now = s.now then some (s.call mac e) else none
  | .deliver i src =>
      s.flight[i]?.bind fun x => (s.served.step (s.now, [(src, x.2)])).map fun served =>
        { s with served, flight := s.flight.eraseIdx i }
  | .others ds => (s.served.step (s.now, ds)).map fun served => { s with served }

def step (mac : MacFn) (s : Tether) : Int × Act → Option Tether
  | (t, a) => if t < s.now then none else { s with now := t }.act mac a

/-- Ticks are at most `gap` apart, datagrams take less than `delay` and the relay's limits let
them in, and the session stays in use with this relay. -/
structure InTime (gap delay : Int) (s : Tether) (a : Int × Act) : Prop where
  ticks : a.1 ≤ s.lastTick + gap
  delivered : ∀ x ∈ s.flight, a.1 < x.1 + delay
  admitted : ∀ i src, a.2 = .deliver i src → (s.served.server.limiter.allow src.ip a.1).1 = true
  stays : ∀ e, a.2 = .call e → (s.m.policy.after e).active = true ∧
    (s.m.policy.after e).relayOk = true ∧ (s.m.policy.after e).server = s.m.cfg.server

/-! ## What the relay has heard -/

/-- The relay has heard from the session at that time or later. -/
def Heard (w : Served) (uid : Uid) (t : Int) : Prop :=
  ∃ p, Relayed.latest (Arrival.packets w.log) uid = some p ∧ t ≤ p.time

theorem Heard.arrive {w : Served} {uid : Uid} {t : Int} (h : Heard w uid t) (past : t ≤ w.now)
    (d : Datagram) : Heard (w.arrive d) uid t := by
  obtain ⟨p, last, later⟩ := h
  simp only [Heard, Served.arrive, Arrival.packets]
  cases shows : (w.arrival d).packet with
  | none =>
      rw [List.filterMap_cons_none shows]
      exact ⟨p, last, later⟩
  | some p' =>
      have time : p'.time = w.now := by
        obtain ⟨-, packed⟩ := Option.ite_none_right_eq_some.mp shows
        obtain ⟨m, -, rfl⟩ := Option.map_eq_some_iff.mp packed
        rfl
      rw [List.filterMap_cons_some shows, Relayed.latest, List.find?_cons]
      split
      · exact ⟨p', rfl, time ▸ past⟩
      · exact ⟨p, last, later⟩

/-- A registration that is let in. -/
theorem heard_register {w : Served} {uid : Uid} {src : Endpoint}
    (admitted : (w.server.limiter.allow src.ip w.now).1 = true) :
    Heard (w.arrive (src, encodeRelayUp uid [])) uid w.now := by
  have read : decodeRelayUp ((encodeRelayUp uid []).take 2048) = some (uid, []) := by
    rw [List.take_of_length_le (by simp [encodeRelayUp])]
    exact relayUp_exact.1 (uid, []) trivial
  have shows : (w.arrival (src, encodeRelayUp uid [])).packet = some ⟨uid, src, w.now⟩ := by
    simp [Arrival.packet, Served.arrival, admitted, read]
  refine ⟨⟨uid, src, w.now⟩, ?_, le_rfl⟩
  simp only [Served.arrive, Arrival.packets]
  rw [List.filterMap_cons_some shows, Relayed.latest, List.find?_cons_of_pos (by simp)]

theorem Heard.earlier {w : Served} {uid : Uid} {t t' : Int} (h : Heard w uid t) (le : t' ≤ t) :
    Heard w uid t' := by
  obtain ⟨p, last, later⟩ := h
  exact ⟨p, last, le.trans later⟩

theorem Heard.tidy {w : Served} {uid : Uid} {t : Int} (h : Heard w uid t) :
    Heard w.tidy uid t := h

theorem Heard.turn {w w' : Served} {uid : Uid} {t now : Int} {ds : List Datagram}
    (h : Heard w uid t) (past : t ≤ now) (turned : w.step (now, ds) = some w') :
    Heard w' uid t := by
  obtain ⟨-, turned⟩ := Option.ite_none_left_eq_some.mp turned
  cases turned
  refine Heard.tidy (And.left (foldl_invariant (I := fun w => Heard w uid t ∧ t ≤ w.now)
    (fun w d kept _ => ⟨kept.1.arrive kept.2 d, kept.2⟩) ⟨?_, past⟩))
  exact h

/-! ## What the two keep -/

structure Registering (cfg : RelayConfig) (uid : Uid) (t₀ gap delay : Int) (s : Tether) : Prop where
  up : s.m.active = true
  ok : s.m.relayOk = true
  own : s.m.cfg.uid = uid
  logged : Served.Logged cfg s.served
  clock : s.served.now ≤ s.now ∧ s.lastTick ≤ s.now ∧ s.now ≤ s.lastTick + gap ∧ t₀ ≤ s.lastTick
  /-- nothing is overdue -/
  prompt : ∀ x ∈ s.flight, s.now < x.1 + delay
  /-- before the first tick -/
  first : s.regs = [] → s.lastTick = t₀ ∧ s.m.tRegister.last + kRegisterMs ≤ t₀
  last : ∀ τ ∈ s.regs.head?, s.m.tRegister.last ≤ τ ∧ τ ≤ s.lastTick ∧
    s.lastTick < τ + kRegisterMs
  past : ∀ τ ∈ s.regs, 0 ≤ τ ∧ τ ≤ s.now
  /-- at any time a registration was sent not long before -/
  cover : ∀ x, t₀ + gap < x → x ≤ s.lastTick + gap →
    ∃ τ ∈ s.regs, τ ≤ x ∧ x < τ + kRegisterMs + gap
  /-- every registration has been heard or is on its way -/
  heard : ∀ τ ∈ s.regs, (τ, encodeRelayUp uid []) ∈ s.flight ∨ Heard s.served uid τ

variable {mac : MacFn} {cfg : RelayConfig} {uid : Uid} {t₀ gap delay : Int} {s s' : Tether}

/-- Time passes, in which nothing became overdue. -/
theorem Registering.later (h : Registering cfg uid t₀ gap delay s) {t : Int} {a : Act} (le : s.now ≤ t)
    (intime : InTime gap delay s (t, a)) : Registering cfg uid t₀ gap delay { s with now := t } :=
  { h with
    clock := ⟨h.clock.1.trans le, h.clock.2.1.trans le, intime.ticks, h.clock.2.2.2⟩
    prompt := intime.delivered
    past := fun τ hτ => ⟨(h.past τ hτ).1, (h.past τ hτ).2.trans le⟩ }

/-- A turn of the relay in which the session's datagrams may arrive. -/
theorem Registering.turn (h : Registering cfg uid t₀ gap delay s) {ds : List Datagram} {served : Served}
    (turned : s.served.step (s.now, ds) = some served) {flight : List (Int × Bytes)}
    (fewer : flight ⊆ s.flight)
    (heard : ∀ τ ∈ s.regs, (τ, encodeRelayUp uid []) ∈ flight ∨ Heard served uid τ) :
    Registering cfg uid t₀ gap delay { s with served, flight } := by
  have now_ : served.now = s.now := by
    obtain ⟨-, turned⟩ := Option.ite_none_left_eq_some.mp turned
    cases turned
    have drained : (ds.foldl Served.arrive { s.served with now := s.now }).now = s.now :=
      foldl_invariant (I := fun w : Served => w.now = s.now) (f := Served.arrive)
        (fun _ _ kept _ => kept) rfl
    exact drained
  exact
    { h with
      logged := h.logged.step turned
      clock := ⟨now_.le, h.clock.2⟩
      prompt := fun x hx => h.prompt x (fewer hx)
      heard }

theorem Registering.others (h : Registering cfg uid t₀ gap delay s) {ds : List Datagram} {served : Served}
    (turned : s.served.step (s.now, ds) = some served) :
    Registering cfg uid t₀ gap delay { s with served } :=
  h.turn turned (List.Subset.refl _) fun τ hτ =>
    (h.heard τ hτ).imp_right fun heard => heard.turn (h.past τ hτ).2 turned

theorem Registering.deliver (h : Registering cfg uid t₀ gap delay s) {i : Nat} {x : Int × Bytes}
    (at_ : s.flight[i]? = some x) {src : Endpoint} {served : Served}
    (turned : s.served.step (s.now, [(src, x.2)]) = some served)
    (admitted : (s.served.server.limiter.allow src.ip s.now).1 = true) :
    Registering cfg uid t₀ gap delay { s with served, flight := s.flight.eraseIdx i } := by
  refine h.turn turned (List.eraseIdx_subset ..) fun τ hτ => ?_
  cases h.heard τ hτ with
  | inr heard => exact .inr (heard.turn (h.past τ hτ).2 turned)
  | inl flies =>
      by_cases here : x = (τ, encodeRelayUp uid [])
      · obtain ⟨-, turned⟩ := Option.ite_none_left_eq_some.mp turned
        cases turned
        subst here
        refine .inr (Heard.tidy ?_)
        refine (heard_register (w := { s.served with now := s.now }) admitted).earlier ?_
        exact (h.past τ hτ).2
      · exact .inl (mem_eraseIdx flies at_ here)

/-- Every few seconds a tick registers. -/
theorem registers_of_tick (mac : MacFn) {m : PathManager} {e : Event} {now : Int}
    (tick : e.isTick = true) (time : e.time.getD now = now) (up : m.active = true)
    (ok : m.relayOk = true) :
    (m.step mac e).tRegister = m.tRegister ∧ now - m.tRegister.last < kRegisterMs ∨
      (m.step mac e).tRegister = ⟨now⟩ ∧ .register ∈ (m.step mac e).out := by
  cases e with
  | tick now' d =>
      have now_ : now' = now := time
      subst now_
      refine (tick_register mac { m with out := [] } now' d up ok).imp_right fun due => ?_
      obtain ⟨timer, l, mem, out⟩ := due
      exact ⟨timer, by rw [PathManager.step, on, out]; exact mem⟩
  | datagram | lanQuery | addCandidate | sendInner | setActive | setServer | setRelayEnabled
    | setLanBroadcast | setLanPort | setLanHints | setForceRelay => cases tick

/-- A tick, after which the last registration is recent. -/
theorem Registering.ticked (h : Registering cfg uid t₀ gap delay s) {m : PathManager}
    (up : m.active = true) (ok : m.relayOk = true) (own : m.cfg.uid = uid)
    {flight : List (Int × Bytes)} (prompt : ∀ x ∈ flight, s.now < x.1 + delay) {regs : List Int}
    {τ₀ : Int} (head : regs.head? = some τ₀) (gap_pos : 0 ≤ gap)
    (last : m.tRegister.last ≤ τ₀ ∧ τ₀ ≤ s.now ∧ s.now < τ₀ + kRegisterMs)
    (more : s.regs ⊆ regs) (past : ∀ τ ∈ regs, 0 ≤ τ ∧ τ ≤ s.now)
    (heard : ∀ τ ∈ regs, (τ, encodeRelayUp uid []) ∈ flight ∨ Heard s.served uid τ) :
    Registering cfg uid t₀ gap delay { s with m, flight, lastTick := s.now, regs } := by
  refine ⟨up, ok, own, h.logged, ?_, prompt, fun none_ => ?_, fun τ hτ => ?_, past,
    fun x lo hi => ?_, heard⟩
  · exact ⟨h.clock.1, le_rfl, by simp only; omega, h.clock.2.2.2.trans h.clock.2.1⟩
  · have none_ : regs = [] := none_
    rw [none_] at head
    cases head
  · cases head.symm.trans hτ
    exact last
  · by_cases before : x ≤ s.lastTick + gap
    · obtain ⟨τ, hτ, within⟩ := h.cover x lo before
      exact ⟨τ, more hτ, within⟩
    · have soon := h.clock.2.2.1
      simp only at hi
      exact ⟨τ₀, List.mem_of_mem_head? head, by omega, by omega⟩

/-- What a call of the owner does to the registrations. -/
theorem Registering.call (h : Registering cfg uid t₀ gap delay s) {e : Event} (t₀_late : kRegisterMs ≤ t₀)
    (gap_pos : 0 ≤ gap) (delay_pos : 0 < delay) (time : e.time.getD s.now = s.now)
    (up : (s.m.policy.after e).active = true) (ok : (s.m.policy.after e).relayOk = true) :
    Registering cfg uid t₀ gap delay (s.call mac e) := by
  have policy : (s.m.step mac e).policy = s.m.policy.after e :=
    (on_policy mac { s.m with out := [] } e).1
  have up : (s.m.step mac e).active = true := (congrArg Policy.active policy).trans up
  have ok : (s.m.step mac e).relayOk = true := (congrArg Policy.relayOk policy).trans ok
  have own : (s.m.step mac e).cfg.uid = uid := (on_uid e).trans h.own
  have more : s.flight ⊆ s.flight ++ (s.m.step mac e).sentUp.map (s.now, ·) :=
    List.subset_append_left ..
  have prompt : ∀ x ∈ s.flight ++ (s.m.step mac e).sentUp.map (s.now, ·),
      s.now < x.1 + delay := by
    intro x hx
    cases List.mem_append.mp hx with
    | inl before => exact h.prompt x before
    | inr new =>
        obtain ⟨b, -, rfl⟩ := List.mem_map.mp new
        simp only
        omega
  have heard : ∀ τ ∈ s.regs, (τ, encodeRelayUp uid []) ∈
      s.flight ++ (s.m.step mac e).sentUp.map (s.now, ·) ∨ Heard s.served uid τ :=
    fun τ hτ => (h.heard τ hτ).imp_left fun flies => more flies
  cases tick : e.isTick with
  | false =>
      have same : s.call mac e = { s with
          m := s.m.step mac e
          flight := s.flight ++ (s.m.step mac e).sentUp.map (s.now, ·) } := by
        simp [Tether.call, tick]
      rw [same]
      have timer := on_timer mac { s.m with out := [] } tick
      refine { h with up, ok, own, prompt, heard, first := fun none_ => ?_, last := fun τ hτ => ?_ }
      · obtain ⟨untouched, due⟩ := h.first none_
        refine ⟨untouched, ?_⟩
        cases timer with
        | inl same => exact same ▸ due
        | inr rearmed =>
            have zero : (s.m.step mac e).tRegister = .rearm := rearmed
            rw [zero]
            exact t₀_late
      · obtain ⟨before, rest⟩ := h.last τ hτ
        refine ⟨?_, rest⟩
        cases timer with
        | inl same => exact same ▸ before
        | inr rearmed =>
            have zero : (s.m.step mac e).tRegister = .rearm := rearmed
            rw [zero]
            exact (h.past τ (List.mem_of_mem_head? hτ)).1
  | true =>
      have old : s.m.tRegister.last ≤ s.now := by
        cases regs : s.regs with
        | nil =>
            have due := (h.first regs).2
            have begun := h.clock.2.2.2
            have ticked := h.clock.2.1
            simp only [kRegisterMs] at due
            omega
        | cons τ rest =>
            have last := h.last τ (by rw [regs]; rfl)
            exact last.1.trans (last.2.1.trans h.clock.2.1)
      have registers := registers_of_tick mac tick time h.up h.ok
      cases sent : (s.m.step mac e).out.contains .register with
      | true =>
          have mem : .register ∈ (s.m.step mac e).out := List.contains_iff_mem.mp sent
          have flies : (s.now, encodeRelayUp uid []) ∈
              s.flight ++ (s.m.step mac e).sentUp.map (s.now, ·) :=
            List.mem_append_right _ (List.mem_map_of_mem (own ▸ register_sentUp mem))
          have ticked : Registering _ _ _ _ _ ⟨_, _, _, _, s.now :: s.regs, _⟩ :=
            h.ticked up ok own prompt rfl gap_pos
            ⟨?_, le_rfl, by simp [kRegisterMs]⟩ (List.subset_cons_self ..)
            (List.forall_mem_cons.mpr ⟨⟨?_, le_rfl⟩, h.past⟩)
            (List.forall_mem_cons.mpr ⟨.inl flies, heard⟩)
          · simpa [Tether.call, tick, mem] using ticked
          · cases registers with
            | inl idle => exact idle.1 ▸ old
            | inr due => exact due.1 ▸ le_rfl
          · have begun := h.clock.2.2.2
            have ticked := h.clock.2.1
            simp only [kRegisterMs] at t₀_late
            omega
      | false =>
          have unsent : .register ∉ (s.m.step mac e).out := fun mem => by
            rw [List.contains_iff_mem.mpr mem] at sent
            cases sent
          obtain ⟨same, recent⟩ := registers.resolve_right fun due => unsent due.2
          cases regs : s.regs with
          | nil =>
              have due := (h.first regs).2
              have begun := h.clock.2.2.2
              have ticked := h.clock.2.1
              omega
          | cons τ rest =>
              have head : s.regs.head? = some τ := by
                rw [regs]
                rfl
              obtain ⟨before, past, -⟩ := h.last τ head
              have ticked := h.ticked up ok own prompt head gap_pos
                ⟨same ▸ before, past.trans h.clock.2.1, by omega⟩ (List.Subset.refl _) h.past heard
              simpa [Tether.call, tick, unsent] using ticked

theorem Registering.step (h : Registering cfg uid t₀ gap delay s) (t₀_late : kRegisterMs ≤ t₀)
    (gap_pos : 0 ≤ gap) (delay_pos : 0 < delay) {a : Int × Act} (intime : InTime gap delay s a)
    (stepped : s.step mac a = some s') : Registering cfg uid t₀ gap delay s' := by
  obtain ⟨t, a⟩ := a
  obtain ⟨le, acted⟩ := Option.ite_none_left_eq_some.mp stepped
  have late := h.later (Int.not_lt.mp le) intime
  cases a with
  | call e =>
      obtain ⟨time, acted⟩ := Option.ite_none_right_eq_some.mp acted
      cases acted
      obtain ⟨up, ok, -⟩ := intime.stays e rfl
      exact late.call t₀_late gap_pos delay_pos time up ok
  | deliver i src =>
      obtain ⟨x, at_, acted⟩ := Option.bind_eq_some_iff.mp acted
      obtain ⟨served, turned, acted⟩ := Option.map_eq_some_iff.mp acted
      cases acted
      exact late.deliver at_ turned (intime.admitted i src rfl)
  | others ds =>
      obtain ⟨served, turned, acted⟩ := Option.map_eq_some_iff.mp acted
      cases acted
      exact late.others turned

/-- A session that has just come into use, next to a relay that has been running. -/
def start (m : PathManager) (served : Served) (t₀ : Int) : Tether where
  m := m
  served := served
  lastTick := t₀
  now := t₀

/-- A session of side 0 in use, and its first second. -/
def first : PathManager :=
  let cfg : PathConfig := { uid := ByteArr.zero 32, server := ⟨ByteArr.zero 16, 3478⟩ }
  (PathManager.start cfg []).setActive true

end Tether
end Splice.Peer
