import Splice.Peer.PathChoice
import Splice.Peer.Tether

/-!
Two sessions that can reach each other directly. One asks every address it lists, the other
answers whoever asks; an answer makes the address a path, and the path lasts as long as the
answers come. Between two sessions whose datagrams arrive in time a direct path comes up within
a few seconds of the address becoming known, and stays.
-/

namespace Splice.Peer
open Proto Lib

namespace PathManager
variable {mac : MacFn} {m m' : PathManager} {e : Event} {ep : Endpoint} {t now : Int}

/-! ## An answer keeps its address in the table -/

/-- The address is listed, with a sign of life at that time or later. -/
def HeardFrom (m : PathManager) (ep : Endpoint) (t : Int) : Prop :=
  ∃ c ∈ m.cands, c.ep = ep ∧ t ≤ c.lastRx

theorem HeardFrom.earlier (h : m.HeardFrom ep now) (le : t ≤ now) : m.HeardFrom ep t := by
  obtain ⟨c, hc, here, later⟩ := h
  exact ⟨c, hc, here, le.trans later⟩

theorem HeardFrom.listed (h : m.HeardFrom ep t) : ep ∈ m.cands.map (·.ep) := by
  obtain ⟨c, hc, rfl, -⟩ := h
  exact List.mem_map_of_mem hc

theorem HeardFrom.of_cands (h : m.HeardFrom ep t) (same : m'.cands = m.cands) :
    m'.HeardFrom ep t := by
  obtain ⟨c, hc, rest⟩ := h
  exact ⟨c, same ▸ hc, rest⟩

/-- Others are listed, and dropped, around it. -/
theorem HeardFrom.apply (h : m.HeardFrom ep t) (inv : TableInv m) (began : 0 < t) (past : t ≤ now)
    (recent : now - t ≤ kCandStaleMs) (op : TableOp) : (apply now m op).HeardFrom ep t := by
  obtain ⟨c, hc, rfl, later⟩ := h
  have kept : ∀ cs : List DirectCand, c ∈ cs → ∃ c' ∈ cs, c'.ep = c.ep ∧ t ≤ c'.lastRx :=
    fun cs hcs => ⟨c, hcs, rfl, later⟩
  have changed : ∀ (ep : Endpoint) (f : DirectCand → DirectCand), (∀ c, (f c).ep = c.ep) →
      t ≤ (f c).lastRx → ∃ c' ∈ onCand ep f m.cands, c'.ep = c.ep ∧ t ≤ c'.lastRx := by
    intro ep f hf hrx
    refine ⟨_, mem_onCand_of_mem inv.distinct hc, ?_⟩
    split
    · exact ⟨hf c, hrx⟩
    · exact ⟨rfl, later⟩
  cases op with
  | add ep lan =>
      simp only [PathManager.apply, addCand]
      split
      · exact kept _ hc
      split
      · exact changed ep _ (fun _ => rfl) later
      split
      · split
        · apply kept
          apply List.mem_append_left
          rw [List.mem_eraseP_of_neg]
          · exact hc
          · have answered : c.lastRx ≠ 0 := by omega
            simp [answered]
        · exact kept _ hc
      · exact kept _ (List.mem_append_left _ hc)
  | touch ep =>
      simp only [PathManager.apply, touchCand]
      split
      · exact changed ep _ (fun _ => rfl) past
      split
      · exact kept _ hc
      · exact kept _ (List.mem_append_left _ hc)
  | pong ep rtt => exact changed ep (measure rtt now) (fun _ => rfl) past
  | prune =>
      apply kept
      have young : ¬ kCandStaleMs < now - max c.lastRx c.learned := by omega
      exact List.mem_filter.mpr ⟨hc, by simp [young]⟩
  | update =>
      rw [PathManager.apply, HeardFrom, (updateTxPath_table m now).1]
      exact kept _ hc

theorem HeardFrom.applyAll (h : m.HeardFrom ep t) (inv : TableInv m) (began : 0 < t)
    (past : t ≤ now) (recent : now - t ≤ kCandStaleMs) (ops : List TableOp) :
    (applyAll now m ops).HeardFrom ep t := by
  induction ops generalizing m with
  | nil => exact h
  | cons op ops ih => exact ih (h.apply inv began past recent op) (inv.apply now op)

theorem HeardFrom.step (h : m.HeardFrom ep t) (inv : TableInv m) (began : 0 < t) (past : t ≤ now)
    (recent : now - t ≤ kCandStaleMs) (time : e.time.getD now = now) :
    (m.step mac e).HeardFrom ep t := by
  cases timed : e.time with
  | none => exact h.of_cands (step_timeless timed)
  | some now' =>
      have table := step_table mac m e
      rw [timed, Option.getD_some] at time table
      subst time
      exact (h.applyAll inv began past recent _).of_cands table.cands

/-! ## A PING and its PONG -/

/-- Whoever asks is answered, also by a session that is not in use. -/
theorem answers_ping (free : m.forceRelay = false) (other : ep ≠ m.cfg.server) (tx : UInt64)
    (wg : WgReply) : m.step mac (.datagram ep (Inner.disco (.ping tx)).build now wg) =
      { m with out := [.direct ep (.disco (.pong tx))] } := by
  have read := ByteReader.u64_append tx []
  rw [List.append_nil] at read
  simp [step, on, process, free, other, Inner.build, Disco.build, dispatchInner, handleDisco,
    ByteReader.ok, onPing, read, sendPayload, emit]

/-- The answer to the last question is a sign of life. -/
theorem heard_of_pong (mac : MacFn) (now : Int) (inv : TableInv m) (free : m.forceRelay = false)
    (other : ep ≠ m.cfg.server) (listed : ep ∈ m.cands.map (·.ep)) (wg : WgReply) :
    (m.step mac (.datagram ep (Inner.disco (.pong m.pingTxid)).build now wg)).HeardFrom ep now := by
  have read := ByteReader.u64_append m.pingTxid []
  rw [List.append_nil] at read
  have found := Option.isSome_iff_ne_none.mp (findCand_isSome.mpr listed)
  have ops : m.tableOps mac (.datagram ep (Inner.disco (.pong m.pingTxid)).build now wg) =
      [.pong ep (m.rtt now)] := by
    simp [tableOps, processOps, free, other, Inner.build, Disco.build, innerOps, discoOps,
      ByteReader.ok, pongOps, read, found]
  have table := step_table mac m (.datagram ep (Inner.disco (.pong m.pingTxid)).build now wg)
  rw [ops] at table
  refine HeardFrom.of_cands ?_ table.cands
  obtain ⟨c, hc, here⟩ := List.mem_map.mp listed
  have changed : (if c.ep = ep then measure (m.rtt now) now c else c) ∈
      onCand ep (measure (m.rtt now) now) m.cands := mem_onCand_of_mem inv.distinct hc
  rw [if_pos here] at changed
  exact ⟨_, changed, here, le_rfl⟩

/-! ## What a tick asks and chooses -/

theorem field_ite {α : Type} (f : PathManager → α) {b : Prop} [Decidable b]
    (h : b → f m' = f m) : f (if b then m' else m) = f m := by
  by_cases hb : b
  · rw [if_pos hb]
    exact h hb
  · rw [if_neg hb]

theorem tPing_sendPayload (m : PathManager) (path : PathKind) (dst : Option Endpoint)
    (inner : Inner) : (m.sendPayload path dst inner).tPing = m.tPing := by
  cases path with
  | relay => exact field_ite tPing fun _ => rfl
  | direct => cases dst <;> rfl

theorem tPing_tickFirst (m : PathManager) (d : Draw) : (m.tickFirst now d).tPing = m.tPing := by
  have wg : ∀ m : PathManager, (m.tickWg now d).tPing = m.tPing := by
    intro m
    refine field_ite tPing fun _ => ?_
    cases d.wg with
    | none => rfl
    | some packet =>
        simp only [sendInner, sendWg]
        split <;> exact tPing_sendPayload ..
  have register : ∀ m : PathManager, (m.tickRegister now).tPing = m.tPing := fun m =>
    field_ite tPing fun _ => field_ite tPing fun _ => rfl
  have whereami : ∀ m : PathManager, (m.tickWhereami now d).tPing = m.tPing := fun m =>
    field_ite tPing fun _ => rfl
  have housekeep : ∀ m : PathManager, (m.tickHousekeep now d).tPing = m.tPing := by
    intro m
    refine field_ite tPing fun _ => ?_
    simp only [refreshLocalAddrs]
    split <;> rfl
  have callme : ∀ m : PathManager, (m.tickCallme now).tPing = m.tPing := by
    intro m
    rw [tickCallme]
    cases m.external with
    | none => rfl
    | some ext => exact field_ite tPing fun _ => tPing_sendPayload ..
  rw [tickFirst, callme, housekeep, whereami, register, wg]

theorem tPing_tickPort (m : PathManager) (d : Draw) :
    (m.tickPort mac now d).tPing = m.tPing := by
  refine field_ite tPing fun _ => ?_
  simp only [sendPortQuery, sendDiscoReply]
  split <;> exact tPing_sendPayload ..

theorem tPing_tickLan (m : PathManager) (d : Draw) : (m.tickLan mac now d).tPing = m.tPing :=
  field_ite tPing fun _ => rfl

theorem tPing_updateTxPath (m : PathManager) : (m.updateTxPath now).tPing = m.tPing := by
  simp only [updateTxPath]
  repeat (split; · rfl)
  rfl

/-- The last part of a tick, which asks and chooses, and what is as it was before. -/
theorem tick_probe (mac : MacFn) (d : Draw) (up : m.active = true) : ∃ m' : PathManager,
    m.step mac (.tick now d) = (m'.tickPing now).updateTxPath now ∧ m'.tPing = m.tPing ∧
      m'.pingTxid = m.pingTxid ∧ m'.pings = [] ∧ m'.forceRelay = m.forceRelay := by
  have first := calm_tickFirst { m with out := [] } now d
  generalize first_ : PathManager.tickFirst { m with out := [] } now d = m₁ at first
  have lan := calm_tickLan mac (m₁.tickPort mac now d) now d
  have ticked : m.step mac (.tick now d) =
      (((m₁.tickPort mac now d).tickLan mac now d).tickPing now).updateTxPath now := by
    rw [step, on, tick_eq, if_neg (by simp [up]), first_]
  refine ⟨_, ticked, ?_, ?_, ?_, ?_⟩
  · rw [tPing_tickLan, tPing_tickPort, ← first_, tPing_tickFirst]
  · rw [lan.txid, tickPort_txid, first.txid]
  · rw [pings_of_calm lan, pings_of_move move_tickPort (tickPort_txid ..), pings_of_calm first]
    rfl
  · have kept := (permitted_tick mac { m with out := [] } now d).policy
    have probed := (obeys_updateTxPath (((m₁.tickPort mac now d).tickLan mac now d).tickPing now)
      now).policy
    have asked : ∀ m : PathManager, (m.tickPing now).forceRelay = m.forceRelay := fun m =>
      field_ite forceRelay fun _ => rfl
    have same : (m.step mac (.tick now d)).forceRelay = m.forceRelay :=
      congrArg Policy.forceRelay kept
    rw [ticked] at same
    rw [← asked, ← same]
    exact (congrArg Policy.forceRelay probed).symm

/-- At most a second after the last time a tick asks everybody that is listed. -/
theorem tick_pings (d : Draw) (up : m.active = true) (free : m.forceRelay = false)
    (listed : ep ∈ (m.step mac (.tick now d)).cands.map (·.ep)) :
    ((m.step mac (.tick now d)).tPing = m.tPing ∧
      (m.step mac (.tick now d)).pingTxid = m.pingTxid ∧ (m.step mac (.tick now d)).pings = [] ∧
      now - m.tPing.last < kPingKeepaliveMs) ∨
    ((m.step mac (.tick now d)).tPing = ⟨now⟩ ∧ kPingProbeMs ≤ now - m.tPing.last ∧
      (ep, (m.step mac (.tick now d)).pingTxid) ∈ (m.step mac (.tick now d)).pings) := by
  obtain ⟨m', ticked, timer, txid, quiet, force⟩ := tick_probe mac d up
  have update := calm_updateTxPath (m'.tickPing now) now
  rw [ticked] at listed ⊢
  rw [tPing_updateTxPath, update.txid, pings_of_calm update]
  rw [(updateTxPath_table _ now).1, (tickPing_pings m' now).1] at listed
  have some_ : m'.cands ≠ [] := by
    intro none_
    rw [none_] at listed
    cases listed
  rw [← timer, ← txid, ← quiet]
  simp only [tickPing]
  by_cases due : m'.tPing.due now (if m'.directConfirmed then kPingKeepaliveMs else kPingProbeMs)
  · have go : (!m'.forceRelay && decide (m'.cands ≠ []) && m'.tPing.due now
        (if m'.directConfirmed = true then kPingKeepaliveMs else kPingProbeMs)) = true := by
      simp [force, free, some_, due]
    rw [if_pos go]
    refine .inr ⟨rfl, ?_, ?_⟩
    · have late : (if m'.directConfirmed = true then kPingKeepaliveMs else kPingProbeMs) ≤
          now - m'.tPing.last := of_decide_eq_true due
      split at late
      · exact le_trans (by decide) late
      · exact late
    · obtain ⟨c, hc, rfl⟩ := List.mem_map.mp listed
      rw [pings, List.filterMap_append]
      apply List.mem_append_right
      exact List.mem_filterMap.mpr ⟨_, List.mem_map_of_mem hc, rfl⟩
  · rw [if_neg (by simp [due])]
    refine .inl ⟨rfl, rfl, rfl, ?_⟩
    have early : ¬ (if m'.directConfirmed = true then kPingKeepaliveMs else kPingProbeMs) ≤
        now - m'.tPing.last := fun late => due (decide_eq_true late)
    split at early
    · exact not_le.mp early
    · exact (not_le.mp early).trans (by decide)

theorem updateTxPath_direct (free : m.forceRelay = false) (h : m.HeardFrom ep t) (began : 0 < t)
    (live : now - t < kDirectDeadMs) : (m.updateTxPath now).txPath = .direct := by
  obtain ⟨c, hc, -, later⟩ := h
  have lives : alive now c = true := by
    simp only [alive, Bool.and_eq_true, decide_eq_true_eq]
    exact ⟨by omega, by omega⟩
  have confirmed : (m.chooseDirect now).directConfirmed = true := by
    cases best : m.best now with
    | none => exact absurd (best_none.mp best c hc) (by simp [lives])
    | some b =>
        simp only [chooseDirect, best]
        cases m.chosen.bind m.findCand with
        | none => rfl
        | some cur => simp only; split <;> rfl
  rw [(updateTxPath_table m now).2.2.2, free, confirmed]
  rfl

/-- A tick finds a path where there was a sign of life not long ago. -/
theorem tick_direct (d : Draw) (up : m.active = true) (free : m.forceRelay = false)
    (h : (m.step mac (.tick now d)).HeardFrom ep t) (began : 0 < t)
    (live : now - t < kDirectDeadMs) : (m.step mac (.tick now d)).txPath = .direct := by
  obtain ⟨m', ticked, -, -, -, force⟩ := tick_probe mac d up
  have asked : (m'.tickPing now).forceRelay = m'.forceRelay :=
    field_ite forceRelay fun _ => rfl
  rw [ticked] at h ⊢
  have heard : (m'.tickPing now).HeardFrom ep t := h.of_cands (updateTxPath_table _ now).1.symm
  exact updateTxPath_direct (asked.trans (force.trans free)) heard began live

/-- Only a tick asks; another call can make the next one do it at once. -/
theorem step_quiet (mac : MacFn) (m : PathManager) {e : Event} (other : e.isTick = false) : (m.step mac e).pingTxid = m.pingTxid ∧
    (m.step mac e).pings = [] ∧
      ((m.step mac e).tPing = m.tPing ∨ (m.step mac e).tPing.last = 0) := by
  have ticks : ∀ now d, e ≠ .tick now d := fun now d tick => by
    rw [tick] at other
    cases other
  by_cases arrives : ∃ src raw now wg, e = .datagram src raw now wg
  · obtain ⟨src, raw, now, wg, rfl⟩ := arrives
    have move : Move mac (.datagram src raw now wg) { m with out := [] }
        (m.step mac (.datagram src raw now wg)) := move_process
    have kept : (m.step mac (.datagram src raw now wg)).pingTxid = m.pingTxid ∧
        ((m.step mac (.datagram src raw now wg)).tPing = m.tPing ∨
          (m.step mac (.datagram src raw now wg)).tPing.last = 0) := by
      generalize m.step mac (.datagram src raw now wg) = m' at move ⊢
      cases move with
      | calm calm => exact ⟨calm.txid, calm.timer⟩
      | ask ticks => cases ticks
      | ping ticks => cases ticks
      | answer => exact ⟨rfl, .inl rfl⟩
      | accept =>
          dsimp only
          split <;> exact ⟨rfl, .inl rfl⟩
      | measure => exact ⟨rfl, .inl rfl⟩
    exact ⟨kept.1, pings_of_move move kept.1, kept.2⟩
  · have calm : Calm _ (PathManager.on mac { m with out := [] } e) :=
      calm_on ticks (fun src raw now wg here => arrives ⟨src, raw, now, wg, here⟩) _
    exact ⟨calm.txid, pings_of_calm calm, calm.timer⟩

/-- And only a tick chooses. -/
theorem step_path (other : e.isTick = false) : (m.step mac e).txPath = m.txPath := by
  have kept : ∀ (m : PathManager) (op : TableOp), op ≠ .update →
      (PathManager.apply (e.time.getD 0) m op).txPath = m.txPath := by
    intro m op hop
    cases op with
    | add ep lan =>
        simp only [PathManager.apply, addCand]
        repeat (split; · rfl)
        split
        · split <;> rfl
        · rfl
    | touch ep =>
        simp only [PathManager.apply, touchCand]
        repeat (split; · rfl)
        rfl
    | pong | prune => rfl
    | update => exact absurd rfl hop
  have chooses : .update ∉ m.tableOps mac e := by
    intro update
    obtain ⟨now, d, rfl⟩ := update_of_mem_tableOps update
    cases other
  rw [(step_table mac m e).txPath]
  exact foldl_invariant (I := fun m' : PathManager => m'.txPath = m.txPath)
    (fun m' op same hop => (kept m' op fun update => chooses (update ▸ hop)).trans same) rfl

end PathManager

/-! ## The two of them -/

structure Linked where
  a : PathManager
  b : PathManager
  /-- datagrams on their way, and when they were sent -/
  there : List (Int × Bytes) := []
  back : List (Int × Bytes) := []
  lastTick : Int
  /-- when `a` last asked `b`'s address -/
  lastPing : Int
  /-- nothing has been heard from there since -/
  asked : Bool := false
  /-- when something was first heard from there -/
  first : Option Int := none
  now : Int

/-- Where the two see each other. -/
structure Places where
  a : Endpoint
  b : Endpoint

namespace Linked
open PathManager

inductive Act
  | callA (e : Event)
  | callB (e : Event)
  /-- the datagram of this index arrives -/
  | deliverA (i : Nat) (wg : WgReply)
  | deliverB (i : Nat) (wg : WgReply)

section
variable (mac : MacFn) (p : Places)

def callA (s : Linked) (e : Event) : Linked :=
  let a := s.a.step mac e
  let pinged := a.pings.any fun x => x.1 = p.b
  let heard := (a.findCand p.b).any fun c => s.now ≤ c.lastRx
  { s with
    a
    there := s.there ++ (a.sentTo p.b).map (s.now, ·)
    lastTick := if e.isTick then s.now else s.lastTick
    lastPing := if pinged then s.now else s.lastPing
    asked := pinged || (s.asked && !heard)
    first := if heard then s.first.or (some s.now) else s.first }

def callB (s : Linked) (e : Event) : Linked :=
  let b := s.b.step mac e
  { s with b, back := s.back ++ (b.sentTo p.a).map (s.now, ·) }

def act (s : Linked) : Act → Option Linked
  | .callA e => if e.time.getD s.now = s.now then some (s.callA mac p e) else none
  | .callB e => if e.time.getD s.now = s.now then some (s.callB mac p e) else none
  | .deliverA i wg => s.back[i]?.map fun x =>
      { s.callA mac p (.datagram p.b x.2 s.now wg) with back := s.back.eraseIdx i }
  | .deliverB i wg => s.there[i]?.map fun x =>
      { s.callB mac p (.datagram p.a x.2 s.now wg) with there := s.there.eraseIdx i }

def step (s : Linked) : Int × Act → Option Linked
  | (t, a) => if t < s.now then none else { s with now := t }.act mac p a

/-- Ticks are at most `gap` apart, datagrams take less than `delay`, and a question that is asked
out of turn leaves the one before it the time to be answered. The session stays in use, and
neither side is forced to the relay. Until something has been heard from it the address of the
other side is not driven out of the table. -/
structure InTime (gap delay : Int) (s : Linked) (a : Int × Act) : Prop where
  ticks : a.1 ≤ s.lastTick + gap
  delivered : (∀ x ∈ s.there, a.1 < x.1 + delay) ∧ ∀ x ∈ s.back, a.1 < x.1 + delay
  unhurried : ∀ e, a.2 = .callA e → e.isTick = true → s.asked = true → s.a.tPing.last = 0 →
    s.lastPing + 2 * delay ≤ a.1
  listed : ∀ s', s.step mac p a = some s' → s'.first = none → p.b ∈ s'.a.cands.map (·.ep)
  mine : ∀ e, a.2 = .callA e → (s.a.policy.after e).active = true ∧
    (s.a.policy.after e).forceRelay = false ∧ (s.a.policy.after e).server ≠ p.b
  theirs : ∀ e, a.2 = .callB e → (s.b.policy.after e).forceRelay = false ∧
    (s.b.policy.after e).server ≠ p.a

end
/-! ## What the two keep -/

/-- The last question is on its way, or its answer is. -/
def Due (delay : Int) (s : Linked) : Prop :=
  (s.lastPing, (Inner.disco (.ping s.a.pingTxid)).build) ∈ s.there ∨
    ∃ q < s.lastPing + delay, (q, (Inner.disco (.pong s.a.pingTxid)).build) ∈ s.back

/-- The address of the other side is asked in time, and answers. -/
structure Probed (p : Places) (t₀ gap delay : Int) (s : Linked) : Prop where
  table : TableInv s.a
  up : s.a.active = true
  free : s.a.forceRelay = false
  other : p.b ≠ s.a.cfg.server
  free_b : s.b.forceRelay = false
  other_b : p.a ≠ s.b.cfg.server
  clock : t₀ ≤ s.lastPing ∧ s.lastPing ≤ s.lastTick ∧ s.lastTick ≤ s.now ∧
    s.now ≤ s.lastTick + gap
  paced : s.lastTick < s.lastPing + kPingKeepaliveMs
  timer : s.a.tPing.last ≤ s.lastPing
  armed : s.asked = true → s.a.tPing.last = s.lastPing ∨ s.a.tPing.last = 0
  /-- nothing is overdue -/
  prompt : (∀ x ∈ s.there, s.now < x.1 + delay) ∧ ∀ x ∈ s.back, s.now < x.1 + delay
  due : s.asked = true → s.Due delay
  waiting : s.first = none → s.lastPing ≤ t₀ + kPingKeepaliveMs + gap ∧
    (s.asked = false → s.lastPing = t₀) ∧ p.b ∈ s.a.cands.map (·.ep)
  /-- the last question but one has been answered, and the last one too unless it is due -/
  proven : ∀ f ∈ s.first, f ≤ s.now ∧ f < t₀ + kPingKeepaliveMs + gap + 2 * delay ∧
    (f < s.lastTick → s.a.txPath = .direct) ∧ ∃ t, t₀ ≤ t ∧ s.a.HeardFrom p.b t ∧
      t ≤ s.lastPing ∧ s.lastPing ≤ t + kPingKeepaliveMs + gap ∧ (s.asked = false → t = s.lastPing)

/-- What the times have to do with each other. -/
structure Quick (t₀ gap delay : Int) : Prop where
  began : 0 < t₀
  ticks : 0 ≤ gap
  pos : 0 < delay
  answered : 2 * delay ≤ kPingProbeMs
  lasting : kPingKeepaliveMs + gap + 2 * delay ≤ kDirectDeadMs

variable {mac : MacFn} {p : Places} {t₀ gap delay : Int} {s s' : Linked} {e : Event}

theorem Probed.later (h : Probed p t₀ gap delay s) {t : Int} {a : Act} (le : s.now ≤ t)
    (intime : InTime mac p gap delay s (t, a)) : Probed p t₀ gap delay { s with now := t } :=
  { h with
    clock := ⟨h.clock.1, h.clock.2.1, h.clock.2.2.1.trans le, intime.ticks⟩
    prompt := intime.delivered
    proven := fun f hf => ⟨(h.proven f hf).1.trans le, (h.proven f hf).2⟩ }

/-- An answer takes a round trip at most. -/
theorem Probed.soon (h : Probed p t₀ gap delay s) (asked : s.asked = true) :
    s.now < s.lastPing + 2 * delay := by
  have later := h.clock
  cases h.due asked with
  | inl flies =>
      have prompt := h.prompt.1 _ flies
      simp only at prompt
      omega
  | inr returns =>
      obtain ⟨q, before, flies⟩ := returns
      have prompt := h.prompt.2 _ flies
      simp only at prompt
      omega

/-- The last sign of life is not too long ago. -/
theorem Probed.live (h : Probed p t₀ gap delay s) (quick : Quick t₀ gap delay) {f : Int}
    (hf : f ∈ s.first) :
    ∃ t, t₀ ≤ t ∧ t ≤ s.now ∧ s.now - t < kPingKeepaliveMs + gap + 2 * delay ∧
      s.a.HeardFrom p.b t ∧ t ≤ s.lastPing ∧ s.lastPing ≤ t + kPingKeepaliveMs + gap ∧
        (s.asked = false → t = s.lastPing) := by
  obtain ⟨-, -, -, t, began, heard, before, after, last⟩ := h.proven f hf
  have clock := h.clock
  have paced := h.paced
  have pos := quick.pos
  refine ⟨t, began, by omega, ?_, heard, before, after, last⟩
  cases asked : s.asked with
  | true =>
      have soon := h.soon asked
      omega
  | false =>
      have now_ := last asked
      omega

/-! ## The other side -/

theorem Probed.callB (h : Probed p t₀ gap delay s) (quick : Quick t₀ gap delay)
    (theirs : (s.b.policy.after e).forceRelay = false ∧ (s.b.policy.after e).server ≠ p.a)
    {there : List (Int × Bytes)} (fewer : there ⊆ s.there)
    (due : s.asked = true → Due delay { s.callB mac p e with there }) :
    Probed p t₀ gap delay { s.callB mac p e with there } := by
  have policy : (s.b.step mac e).policy = s.b.policy.after e :=
    (on_policy mac { s.b with out := [] } e).1
  refine { h with free_b := ?_, other_b := ?_, prompt := ⟨fun x hx => ?_, fun x hx => ?_⟩, due }
  · exact (congrArg Policy.forceRelay policy).trans theirs.1
  · exact fun same => theirs.2 ((congrArg Policy.server policy).symm.trans same.symm)
  · exact h.prompt.1 x (fewer hx)
  · cases List.mem_append.mp hx with
    | inl before => exact h.prompt.2 x before
    | inr new =>
        obtain ⟨raw, -, rfl⟩ := List.mem_map.mp new
        exact lt_add_of_pos_right _ quick.pos

theorem mem_sentTo {m : PathManager} {ep : Endpoint} {inner : Inner}
    (sent : .direct ep inner ∈ m.out) : inner.build ∈ m.sentTo ep :=
  List.mem_filterMap.mpr ⟨_, sent, by simp [Effect.datagram]⟩

/-- What reaches the other side is answered if it is the question. -/
theorem Probed.deliverB (h : Probed p t₀ gap delay s) (quick : Quick t₀ gap delay) {i : Nat}
    {x : Int × Bytes} (found : s.there[i]? = some x) (wg : WgReply) :
    Probed p t₀ gap delay { s.callB mac p (.datagram p.a x.2 s.now wg) with
      there := s.there.eraseIdx i } := by
  have theirs : s.b.policy.forceRelay = false ∧ s.b.policy.server ≠ p.a :=
    ⟨h.free_b, h.other_b.symm⟩
  refine h.callB (e := .datagram p.a x.2 s.now wg) quick theirs (List.eraseIdx_subset ..)
    fun asked => ?_
  cases h.due asked with
  | inr returns =>
      obtain ⟨q, before, flies⟩ := returns
      exact .inr ⟨q, before, List.mem_append_left _ flies⟩
  | inl flies =>
      by_cases here : x = (s.lastPing, (Inner.disco (.ping s.a.pingTxid)).build)
      · have prompt := h.prompt.1 _ flies
        refine .inr ⟨s.now, prompt, List.mem_append_right _ (List.mem_map_of_mem ?_)⟩
        rw [here, answers_ping h.free_b h.other_b]
        exact mem_sentTo List.mem_cons_self
      · exact .inl (mem_eraseIdx flies found here)

/-! ## This side -/

theorem callA_cases (mac : MacFn) (p : Places) (s : Linked) (e : Event) :
    (s.a.step mac e).HeardFrom p.b s.now ∨
    (s.callA mac p e).first = s.first ∧ (s.callA mac p e).asked =
      ((s.a.step mac e).pings.any (fun x => x.1 = p.b) || s.asked) := by
  cases found : (s.a.step mac e).findCand p.b with
  | none => exact .inr (by simp [Linked.callA, found])
  | some c =>
      by_cases heard : s.now ≤ c.lastRx
      · exact .inl ⟨c, (findCand_some found).1, (findCand_some found).2, heard⟩
      · exact .inr (by simp [Linked.callA, found, heard])

theorem first_callA : (∀ f ∈ (s.callA mac p e).first, f ∈ s.first ∨ f = s.now ∧ s.first = none) ∧
    ((s.callA mac p e).first = none → s.first = none ∧ (s.callA mac p e).asked =
      ((s.a.step mac e).pings.any (fun x => x.1 = p.b) || s.asked)) := by
  simp only [Linked.callA]
  cases (s.a.step mac e).findCand p.b with
  | none => simpa using fun f before => Or.inl before
  | some c =>
      by_cases heard : s.now ≤ c.lastRx
      · cases s.first <;> simp [heard]
      · simpa [heard] using fun f before => Or.inl before

theorem Probed.early (h : Probed p t₀ gap delay s) (quick : Quick t₀ gap delay)
    (none_ : s.first = none) :
    s.now < t₀ + kPingKeepaliveMs + gap + 2 * delay := by
  obtain ⟨before, last, -⟩ := h.waiting none_
  have clock := h.clock
  have paced := h.paced
  have pos := quick.pos
  cases asked : s.asked with
  | true =>
      have soon := h.soon asked
      omega
  | false =>
      have last := last asked
      omega

/-- The signs of life after a call. -/
theorem Probed.signs (h : Probed p t₀ gap delay s) (quick : Quick t₀ gap delay)
    (time : e.time.getD s.now = s.now) {f : Int} (hf : f ∈ (s.callA mac p e).first) :
    f ≤ s.now ∧ f < t₀ + kPingKeepaliveMs + gap + 2 * delay ∧
      (f < s.lastTick → s.a.txPath = .direct) ∧
      ∃ t, t₀ ≤ t ∧ t ≤ s.now ∧ s.now - t < kDirectDeadMs ∧ (s.a.step mac e).HeardFrom p.b t ∧
        (t = s.now ∨ t ≤ s.lastPing ∧ s.lastPing ≤ t + kPingKeepaliveMs + gap ∧
          (s.asked = false → t = s.lastPing) ∧
          ((s.callA mac p e).asked = false → s.asked = false)) := by
  have clock := h.clock
  have times : f ≤ s.now ∧ f < t₀ + kPingKeepaliveMs + gap + 2 * delay ∧
      (f < s.lastTick → s.a.txPath = .direct) := by
    cases first_callA.1 f hf with
    | inl before =>
        obtain ⟨past, early, direct, -⟩ := h.proven f before
        exact ⟨past, early, direct⟩
    | inr new =>
        obtain ⟨rfl, none_⟩ := new
        exact ⟨le_rfl, h.early quick none_, fun late => by omega⟩
  refine ⟨times.1, times.2.1, times.2.2, ?_⟩
  cases callA_cases mac p s e with
  | inl heard =>
      exact ⟨s.now, by omega, le_rfl, by simp [kDirectDeadMs], heard, .inl rfl⟩
  | inr same =>
      obtain ⟨first, asked⟩ := same
      obtain ⟨t, late, past, live, heard, before, after, last⟩ := h.live quick (first ▸ hf)
      refine ⟨t, late, past, live.trans_le quick.lasting, ?_, .inr ⟨before, after, last, ?_⟩⟩
      · have lasting := quick.lasting
        refine heard.step h.table (by have := quick.began; omega) past ?_ time
        simp only [kCandStaleMs, kDirectDeadMs] at lasting ⊢
        omega
      · intro none_
        rw [asked] at none_
        exact (Bool.or_eq_false_iff.mp none_).2

theorem Probed.listed_callA (h : Probed p t₀ gap delay s) (quick : Quick t₀ gap delay)
    (time : e.time.getD s.now = s.now)
    (listed : (s.callA mac p e).first = none → p.b ∈ (s.a.step mac e).cands.map (·.ep)) :
    p.b ∈ (s.a.step mac e).cands.map (·.ep) := by
  cases first : (s.callA mac p e).first with
  | none => exact listed first
  | some f =>
      obtain ⟨-, -, -, t, -, -, -, heard, -⟩ := h.signs quick time first
      exact heard.listed

theorem Probed.sent_callA (h : Probed p t₀ gap delay s) (quick : Quick t₀ gap delay) :
    ∀ x ∈ (s.callA mac p e).there, s.now < x.1 + delay := by
  intro x hx
  cases List.mem_append.mp hx with
  | inl before => exact h.prompt.1 x before
  | inr new =>
      obtain ⟨raw, -, rfl⟩ := List.mem_map.mp new
      exact lt_add_of_pos_right _ quick.pos

section Asking
variable (h : Probed p t₀ gap delay s) (quick : Quick t₀ gap delay)
  (time : e.time.getD s.now = s.now)
  (mine : (s.a.policy.after e).active = true ∧ (s.a.policy.after e).forceRelay = false ∧
    (s.a.policy.after e).server ≠ p.b)
  (listed : (s.callA mac p e).first = none → p.b ∈ (s.a.step mac e).cands.map (·.ep))
  (path : ∀ f ∈ (s.callA mac p e).first, f < (s.callA mac p e).lastTick →
    (s.a.step mac e).txPath = .direct)
include h quick time mine listed path

/-- A call that asks nobody. -/
theorem Probed.silent {back : List (Int × Bytes)} (fewer : back ⊆ s.back)
    (ticked : s.lastTick ≤ (s.callA mac p e).lastTick ∧ (s.callA mac p e).lastTick ≤ s.now ∧
      (s.callA mac p e).lastTick < s.lastPing + kPingKeepaliveMs)
    (silent : (s.a.step mac e).pings = []) (txid : (s.a.step mac e).pingTxid = s.a.pingTxid)
    (timer : (s.a.step mac e).tPing = s.a.tPing ∨ (s.a.step mac e).tPing.last = 0)
    (still : (s.callA mac p e).asked = true → s.asked = true → Due delay { s with back }) :
    Probed p t₀ gap delay { s.callA mac p e with back } := by
  have policy : (s.a.step mac e).policy = s.a.policy.after e :=
    (on_policy mac { s.a with out := [] } e).1
  have clock := h.clock
  have ticks := quick.ticks
  have ping : (s.callA mac p e).lastPing = s.lastPing := by simp [Linked.callA, silent]
  have asks : (s.callA mac p e).asked = true → s.asked = true := by
    intro asked
    simp only [Linked.callA, silent, List.any_nil, Bool.false_or, Bool.and_eq_true] at asked
    exact asked.1
  constructor
  all_goals simp only [ping]
  case table => exact tableInv_step mac h.table e
  case up => exact (congrArg Policy.active policy).trans mine.1
  case free => exact (congrArg Policy.forceRelay policy).trans mine.2.1
  case other => exact fun same => mine.2.2 ((congrArg Policy.server policy).symm.trans same.symm)
  case free_b => exact h.free_b
  case other_b => exact h.other_b
  case clock =>
    exact ⟨clock.1, clock.2.1.trans ticked.1, ticked.2.1,
      clock.2.2.2.trans (Int.add_le_add_right ticked.1 gap)⟩
  case paced => exact ticked.2.2
  case timer =>
    cases timer with
    | inl same => exact same ▸ h.timer
    | inr rearmed =>
        have began := quick.began
        have rearmed : (s.callA mac p e).a.tPing.last = 0 := rearmed
        omega
  case armed =>
    intro asked
    cases timer with
    | inl same => exact same ▸ h.armed (asks asked)
    | inr rearmed => exact .inr rearmed
  case prompt => exact ⟨h.sent_callA quick, fun x hx => h.prompt.2 x (fewer hx)⟩
  case due =>
    intro asked
    have due := still asked (asks asked)
    have same : (s.callA mac p e).a.pingTxid = s.a.pingTxid := txid
    simp only [Due, same] at due ⊢
    exact due.imp_left (List.mem_append_left _)
  case waiting =>
    intro none_
    obtain ⟨before, asked⟩ := first_callA.2 none_
    obtain ⟨early, only, -⟩ := h.waiting before
    refine ⟨early, fun idle => only ?_, h.listed_callA quick time listed⟩
    rw [asked, silent] at idle
    exact idle
  case proven =>
    intro f hf
    obtain ⟨past, early, -, t, late, before, -, heard, which⟩ := h.signs quick time hf
    refine ⟨past, early, path f hf, ?_⟩
    cases which with
    | inl now_ =>
        refine ⟨s.lastPing, clock.1, heard.earlier (by omega), le_rfl, ?_, fun _ => rfl⟩
        simp only [kPingKeepaliveMs]
        omega
    | inr older =>
        obtain ⟨older, enough, only, idle⟩ := older
        exact ⟨t, late, heard, older, enough, fun asked => only (idle asked)⟩

/-- A call that asks, which it does when nothing is due any more. -/
theorem Probed.asking (ticked : (s.callA mac p e).lastTick = s.now) (idle : s.asked = false)
    (timer : (s.a.step mac e).tPing = ⟨s.now⟩)
    (asks : (p.b, (s.a.step mac e).pingTxid) ∈ (s.a.step mac e).pings) :
    Probed p t₀ gap delay (s.callA mac p e) := by
  have policy : (s.a.step mac e).policy = s.a.policy.after e :=
    (on_policy mac { s.a with out := [] } e).1
  have clock := h.clock
  have paced := h.paced
  have ticks := quick.ticks
  have pinged : ((s.a.step mac e).pings.any fun x => x.1 = p.b) = true :=
    List.any_eq_true.mpr ⟨_, asks, by simp⟩
  have ping : (s.callA mac p e).lastPing = s.now := by simp [Linked.callA, pinged]
  have asked : (s.callA mac p e).asked = true := by simp [Linked.callA, pinged]
  constructor
  all_goals try simp only [ping, asked, ticked]
  case table => exact tableInv_step mac h.table e
  case up => exact (congrArg Policy.active policy).trans mine.1
  case free => exact (congrArg Policy.forceRelay policy).trans mine.2.1
  case other => exact fun same => mine.2.2 ((congrArg Policy.server policy).symm.trans same.symm)
  case free_b => exact h.free_b
  case other_b => exact h.other_b
  case clock =>
    have late : t₀ ≤ s.now := by omega
    exact ⟨late, le_rfl, le_rfl, le_add_of_nonneg_right ticks⟩
  case paced => simp [kPingKeepaliveMs]
  case timer => exact (congrArg Timer.last timer).le
  case armed => exact fun _ => .inl (congrArg Timer.last timer)
  case prompt => exact ⟨h.sent_callA quick, h.prompt.2⟩
  case due =>
    intro _
    obtain ⟨x, hx, here⟩ := List.mem_filterMap.mp asks
    have ping_ : x = .direct p.b (.disco (.ping (s.a.step mac e).pingTxid)) := by
      simp only [pingOf] at here
      split at here
      · obtain ⟨rfl, rfl⟩ := Prod.mk.inj (Option.some.inj here)
        rfl
      · cases here
    refine .inl (List.mem_append_right _ ?_)
    rw [ping]
    exact List.mem_map_of_mem (mem_sentTo (ping_ ▸ hx))
  case waiting =>
    intro none_
    obtain ⟨before, -⟩ := first_callA.2 none_
    obtain ⟨-, only, -⟩ := h.waiting before
    have only := only idle
    exact ⟨by omega, by simp, h.listed_callA quick time listed⟩
  case proven =>
    intro f hf
    obtain ⟨past, early, -, t, late, before, -, heard, which⟩ := h.signs quick time hf
    refine ⟨past, early, fun later => path f hf (ticked ▸ later), t, late, heard, before, ?_,
      by simp⟩
    cases which with
    | inl now_ =>
        rw [now_]
        simp only [kPingKeepaliveMs]
        omega
    | inr older =>
        have last := older.2.2.1 idle
        omega

end Asking

theorem Probed.tick (h : Probed p t₀ gap delay s) (quick : Quick t₀ gap delay) (d : Draw)
    (listed : (s.callA mac p (.tick s.now d)).first = none →
      p.b ∈ (s.a.step mac (.tick s.now d)).cands.map (·.ep))
    (unhurried : s.asked = true → s.a.tPing.last = 0 → s.lastPing + 2 * delay ≤ s.now) :
    Probed p t₀ gap delay (s.callA mac p (.tick s.now d)) := by
  have mine : s.a.policy.active = true ∧ s.a.policy.forceRelay = false ∧
      s.a.policy.server ≠ p.b := ⟨h.up, h.free, h.other.symm⟩
  have began := quick.began
  have path : ∀ f ∈ (s.callA mac p (.tick s.now d)).first,
      f < (s.callA mac p (.tick s.now d)).lastTick →
        (s.a.step mac (.tick s.now d)).txPath = .direct := by
    intro f hf _
    obtain ⟨-, -, -, t, late, -, live, heard, -⟩ := h.signs quick rfl hf
    exact tick_direct d h.up h.free heard (by omega) live
  have known := h.listed_callA quick rfl listed
  have clock := h.clock
  have timer := h.timer
  have fast := quick.answered
  cases tick_pings d h.up h.free known with
  | inl silent =>
      obtain ⟨same, txid, silent, early⟩ := silent
      refine h.silent (e := .tick s.now d) quick rfl mine listed path (List.Subset.refl _) ?_ silent
        txid (.inl same) fun _ asked => h.due asked
      exact ⟨clock.2.2.1, le_rfl, show s.now < _ by omega⟩
  | inr asks =>
      obtain ⟨now_, due, asks⟩ := asks
      refine h.asking (e := .tick s.now d) quick rfl mine listed path rfl ?_ now_ asks
      by_contra asked
      have asked : s.asked = true := Bool.not_eq_false _ ▸ asked
      have soon := h.soon asked
      cases h.armed asked with
      | inl same => omega
      | inr rearmed =>
          have late := unhurried asked rearmed
          omega

theorem Probed.callA (h : Probed p t₀ gap delay s) (quick : Quick t₀ gap delay)
    (time : e.time.getD s.now = s.now) (other : e.isTick = false)
    (mine : (s.a.policy.after e).active = true ∧ (s.a.policy.after e).forceRelay = false ∧
      (s.a.policy.after e).server ≠ p.b)
    (listed : (s.callA mac p e).first = none → p.b ∈ (s.a.step mac e).cands.map (·.ep))
    {back : List (Int × Bytes)} (fewer : back ⊆ s.back)
    (still : (s.callA mac p e).asked = true → s.asked = true → Due delay { s with back }) :
    Probed p t₀ gap delay { s.callA mac p e with back } := by
  have last : (s.callA mac p e).lastTick = s.lastTick := by simp [Linked.callA, other]
  obtain ⟨txid, silent, timer⟩ := step_quiet mac s.a other
  refine h.silent quick time mine listed (fun f hf later => ?_) fewer ?_ silent txid timer still
  · obtain ⟨-, -, direct, -⟩ := h.signs quick time hf
    exact (step_path other).trans (direct (last ▸ later))
  · rw [last]
    exact ⟨le_rfl, h.clock.2.2.1, h.paced⟩

theorem Probed.answered (h : Probed p t₀ gap delay s) (wg : WgReply) :
    (s.callA mac p (.datagram p.b (Inner.disco (.pong s.a.pingTxid)).build s.now wg)).asked =
      false := by
  have listed : p.b ∈ s.a.cands.map (·.ep) := by
    cases first : s.first with
    | none => exact (h.waiting first).2.2
    | some f =>
        obtain ⟨-, -, -, t, -, heard, -⟩ := h.proven f first
        exact heard.listed
  obtain ⟨c, hc, here, later⟩ := heard_of_pong mac s.now h.table h.free h.other listed wg
  have inv := tableInv_step mac h.table
    (.datagram p.b (Inner.disco (.pong s.a.pingTxid)).build s.now wg)
  have found := findCand_mem inv.distinct hc
  rw [here] at found
  obtain ⟨-, silent, -⟩ := step_quiet mac s.a
    (e := .datagram p.b (Inner.disco (.pong s.a.pingTxid)).build s.now wg) rfl
  simp [Linked.callA, silent, found, later]

/-- What comes back is a sign of life if it is the answer. -/
theorem Probed.deliverA (h : Probed p t₀ gap delay s) (quick : Quick t₀ gap delay) {i : Nat}
    {x : Int × Bytes} (found : s.back[i]? = some x) (wg : WgReply)
    (listed : (s.callA mac p (.datagram p.b x.2 s.now wg)).first = none →
      p.b ∈ (s.a.step mac (.datagram p.b x.2 s.now wg)).cands.map (·.ep)) :
    Probed p t₀ gap delay { s.callA mac p (.datagram p.b x.2 s.now wg) with
      back := s.back.eraseIdx i } := by
  have mine : s.a.policy.active = true ∧ s.a.policy.forceRelay = false ∧
      s.a.policy.server ≠ p.b := ⟨h.up, h.free, h.other.symm⟩
  refine h.callA (e := .datagram p.b x.2 s.now wg) quick rfl rfl mine listed
    (List.eraseIdx_subset ..) fun due asked => ?_
  cases h.due asked with
  | inl flies => exact .inl flies
  | inr returns =>
      obtain ⟨q, before, flies⟩ := returns
      by_cases here : x = (q, (Inner.disco (.pong s.a.pingTxid)).build)
      · have answered : (s.callA mac p (.datagram p.b x.2 s.now wg)).asked = false := by
          rw [here]
          exact h.answered wg
        rw [answered] at due
        cases due
      · exact .inr ⟨q, before, mem_eraseIdx flies found here⟩

theorem Probed.step (h : Probed p t₀ gap delay s) (quick : Quick t₀ gap delay) {a : Int × Act}
    (intime : InTime mac p gap delay s a) (stepped : s.step mac p a = some s') :
    Probed p t₀ gap delay s' := by
  obtain ⟨t, a⟩ := a
  have listed := intime.listed s' stepped
  obtain ⟨le, acted⟩ := Option.ite_none_left_eq_some.mp stepped
  have late := h.later (not_lt.mp le) intime
  cases a with
  | callA e =>
      obtain ⟨time, called⟩ := Option.ite_none_right_eq_some.mp acted
      cases called
      cases tick : e.isTick with
      | false =>
          exact late.callA quick time tick (intime.mine e rfl) listed (List.Subset.refl _)
            fun _ asked => late.due asked
      | true =>
          cases e with
          | tick now d =>
              have now_ : now = t := time
              subst now_
              exact late.tick quick d listed (intime.unhurried _ rfl rfl)
          | _ => cases tick
  | callB e =>
      obtain ⟨time, called⟩ := Option.ite_none_right_eq_some.mp acted
      cases called
      exact late.callB quick (intime.theirs e rfl) (List.Subset.refl _) fun asked =>
        (late.due asked).imp_right fun returns =>
          let ⟨q, before, flies⟩ := returns
          ⟨q, before, List.mem_append_left _ flies⟩
  | deliverA i wg =>
      obtain ⟨x, found, rfl⟩ := Option.map_eq_some_iff.mp acted
      exact late.deliverA quick found wg listed
  | deliverB i wg =>
      obtain ⟨x, found, rfl⟩ := Option.map_eq_some_iff.mp acted
      exact late.deliverB quick found wg

/-- Two sessions of which one has just come to know the other's address. -/
def start (a b : PathManager) (t₀ : Int) : Linked where
  a := a
  b := b
  lastTick := t₀
  lastPing := t₀
  now := t₀

end Linked
end Splice.Peer
