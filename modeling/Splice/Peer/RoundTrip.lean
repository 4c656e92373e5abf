import Mathlib.Data.List.Induction
import Splice.Peer.PathSteps

/-!
What a measured round trip measures. The time a probe went out is not kept with its
token but read from the probe timer, which discovery and re-activation set back to
zero: a PONG that comes in between is measured from the start of the clock.
-/

namespace Splice.Peer.PathManager
open Proto

/-! ## Logs -/

/-- What a run sent and whom it told, each with the clock of the call. -/
def log (mac : MacFn) (m : PathManager) : List Event → List (Option Int × Effect)
  | [] => []
  | e :: es => ((m.step mac e).out.map fun x => (e.time, x)) ++ log mac (m.step mac e) es

def isPing (tx : UInt64) : Effect → Bool
  | .direct _ (.disco (.ping t)) => t = tx
  | _ => false

/-- When the last PING of this token went out. -/
def sentAt (l : List (Option Int × Effect)) (tx : UInt64) : Option Int :=
  (l.reverse.find? fun x => isPing tx x.2).bind (·.1)

/-- The clock never goes back. -/
def Steady (es : List Event) : Prop := (es.filterMap Event.time).Pairwise (· ≤ ·)

instance (es : List Event) : Decidable (Steady es) := inferInstanceAs (Decidable (List.Pairwise _ _))

section Logs
variable {mac : MacFn} {m : PathManager} {es : List Event} {e : Event} {tx : UInt64}

theorem run_concat (mac : MacFn) (m : PathManager) (es : List Event) (e : Event) :
    run mac m (es ++ [e]) = (run mac m es).step mac e := by
  simp [run]

theorem log_append (mac : MacFn) (m : PathManager) (es es' : List Event) :
    log mac m (es ++ es') = log mac m es ++ log mac (run mac m es) es' := by
  induction es generalizing m with
  | nil => rfl
  | cons e es ih =>
      rw [List.cons_append, log, ih, log, List.append_assoc]
      rfl

theorem log_concat (mac : MacFn) (m : PathManager) (es : List Event) (e : Event) :
    log mac m (es ++ [e]) =
      log mac m es ++ ((run mac m es).step mac e).out.map fun x => (e.time, x) := by
  rw [log_append, log, log, List.append_nil]

/-- Every entry has the clock of some call of the run. -/
theorem mem_log {x : Option Int × Effect} (h : x ∈ log mac m es) :
    ∃ e ∈ es, x.1 = e.time := by
  induction es generalizing m with
  | nil => cases h
  | cons e es ih =>
      rcases List.mem_append.mp h with h | h
      · obtain ⟨y, -, rfl⟩ := List.mem_map.mp h
        exact ⟨e, List.mem_cons_self, rfl⟩
      · obtain ⟨e', he', hx⟩ := ih h
        exact ⟨e', List.mem_cons_of_mem e he', hx⟩

theorem sentAt_append_none {l l' : List (Option Int × Effect)}
    (h : ∀ x ∈ l', isPing tx x.2 = false) : sentAt (l ++ l') tx = sentAt l tx := by
  have hnone : l'.reverse.find? (fun x => isPing tx x.2) = none := by
    rw [List.find?_eq_none]
    intro x hx
    simp [h x (List.mem_reverse.mp hx)]
  rw [sentAt, List.reverse_append, List.find?_append, hnone]
  rfl

theorem sentAt_append_some {l l' : List (Option Int × Effect)} {t : Int}
    (hall : ∀ x ∈ l', x.1 = some t) (hex : ∃ x ∈ l', isPing tx x.2 = true) :
    sentAt (l ++ l') tx = some t := by
  obtain ⟨x, hx, hp⟩ := hex
  have hsome : (l'.reverse.find? fun x => isPing tx x.2).isSome = true := by
    rw [List.find?_isSome]
    exact ⟨x, List.mem_reverse.mpr hx, hp⟩
  obtain ⟨y, hy⟩ := Option.isSome_iff_exists.mp hsome
  have hy' := hall y (List.mem_reverse.mp (List.mem_of_find?_eq_some hy))
  rw [sentAt, List.reverse_append, List.find?_append, hy]
  exact hy'

theorem sentAt_mem {l : List (Option Int × Effect)} {t : Int} (h : sentAt l tx = some t) :
    ∃ x ∈ l, x.1 = some t ∧ isPing tx x.2 = true := by
  obtain ⟨x, hx, ht⟩ := Option.bind_eq_some_iff.mp h
  exact ⟨x, List.mem_reverse.mp (List.mem_of_find?_eq_some hx), ht, by simpa using List.find?_some hx⟩

end Logs

/-! ## Probes and measurements of a run -/

theorem isPing_of_calm {x : Effect} (h : x.calm = true) (tx : UInt64) : isPing tx x = false := by
  unfold isPing
  split
  · exact absurd h (by simp [Effect.calm, Inner.calm, Disco.calm])
  · rfl

/-- A manager in the middle of a call at `time`, with what the run logged before it. -/
structure Kept (l : List (Option Int × Effect)) (time : Option Int) (m : PathManager) : Prop where
  nonneg : 0 ≤ m.tPing.last
  /-- unless it was set back, the timer holds the time of the last probe -/
  timer : m.tPing.last ≠ 0 →
    sentAt (l ++ m.out.map fun x => (time, x)) m.pingTxid = some m.tPing.last
  late : ∀ x ∈ l ++ m.out.map fun x => (time, x), ∀ tx, isPing tx x.2 = true →
    ∃ t, x.1 = some t ∧ kPingProbeMs ≤ t
  bounded : ∀ c ∈ m.cands, c.srtt = 0 ∨ ∃ x ∈ l ++ m.out.map fun x => (time, x),
    ∃ tx s, x.2 = .measured c.ep tx s ∧ c.srtt ≤ s

namespace Kept
variable {l : List (Option Int × Effect)} {time : Option Int} {m m' : PathManager}

/-- No probe and no measurement. -/
theorem quiet (h : Kept l time m) {l' : List Effect} (hout : m'.out = m.out ++ l')
    (hping : ∀ x ∈ l', ∀ tx, isPing tx x = false) (htx : m'.pingTxid = m.pingTxid)
    (htimer : m'.tPing = m.tPing ∨ m'.tPing.last = 0)
    (hcands : ∀ c ∈ m'.cands, c.srtt = 0 ∨ ∃ c₀ ∈ m.cands, c₀.ep = c.ep ∧ c₀.srtt = c.srtt) :
    Kept l time m' := by
  have hsplit : (l ++ m'.out.map fun x => (time, x)) =
      (l ++ m.out.map fun x => (time, x)) ++ l'.map fun x => (time, x) := by
    rw [hout, List.map_append, List.append_assoc]
  have hnew : ∀ tx, ∀ x ∈ l'.map fun x => (time, x), isPing tx x.2 = false := by
    intro tx x hx
    obtain ⟨y, hy, rfl⟩ := List.mem_map.mp hx
    exact hping y hy tx
  constructor
  · rcases htimer with e | e
    · rw [e]
      exact h.nonneg
    · rw [e]
  · intro hne
    rcases htimer with e | e
    · rw [hsplit, sentAt_append_none (hnew _), htx, e]
      exact h.timer (e ▸ hne)
    · exact absurd e hne
  · intro x hx tx hp
    rw [hsplit] at hx
    rcases List.mem_append.mp hx with hx | hx
    · exact h.late x hx tx hp
    · rw [hnew tx x hx] at hp
      cases hp
  · intro c hc
    rcases hcands c hc with h0 | ⟨c₀, hc₀, hep, hs⟩
    · exact .inl h0
    · rcases h.bounded c₀ hc₀ with h0 | ⟨x, hx, tx, s, he, hle⟩
      · exact .inl (hs.symm.trans h0)
      · refine .inr ⟨x, ?_, tx, s, hep ▸ he, hs ▸ hle⟩
        rw [hsplit]
        exact List.mem_append_left _ hx

theorem probed (h : Kept l time m) {now : Int} (htime : time = some now) (hne : m.cands ≠ [])
    (due : kPingProbeMs ≤ now - m.tPing.last) :
    Kept l time { m with
      tPing := ⟨now⟩
      pingTxid := m.pingTxid + 1
      out := m.out ++ m.cands.map fun c => .direct c.ep (.disco (.ping (m.pingTxid + 1))) } := by
  have hnow : kPingProbeMs ≤ now := by
    have := h.nonneg
    omega
  generalize hnew : m.cands.map (fun c => Effect.direct c.ep (.disco (.ping (m.pingTxid + 1)))) = new
  have hsplit : (l ++ (m.out ++ new).map fun x => (time, x)) =
      (l ++ m.out.map fun x => (time, x)) ++ new.map fun x => (time, x) := by
    rw [List.map_append, List.append_assoc]
  constructor
  · exact le_trans (by decide) hnow
  · intro _
    rw [hsplit]
    refine sentAt_append_some (fun x hx => ?_) ?_
    · obtain ⟨y, -, rfl⟩ := List.mem_map.mp hx
      exact htime
    · obtain ⟨c, cs, hc⟩ := List.exists_cons_of_ne_nil hne
      refine ⟨_, List.mem_map_of_mem (a := .direct c.ep (.disco (.ping (m.pingTxid + 1)))) ?_, ?_⟩
      · rw [← hnew, hc]
        exact List.mem_cons_self
      · simp [isPing]
  · intro x hx tx hp
    rw [hsplit] at hx
    rcases List.mem_append.mp hx with hx | hx
    · exact h.late x hx tx hp
    · obtain ⟨y, -, rfl⟩ := List.mem_map.mp hx
      exact ⟨now, htime, hnow⟩
  · intro c hc
    rcases h.bounded c hc with h0 | ⟨x, hx, hs⟩
    · exact .inl h0
    · refine .inr ⟨x, ?_, hs⟩
      rw [hsplit]
      exact List.mem_append_left _ hx

/-- A smoothed round trip lies between the old one and the sample. -/
theorem measure_le (rtt now : Int) (c : DirectCand) :
    (measure rtt now c).srtt ≤ max c.srtt rtt := by
  simp only [measure]
  split
  · have h4 := Int.tdiv_le_tdiv (c := 4) (by decide)
      (show c.srtt * 3 + rtt ≤ max c.srtt rtt * 4 by omega)
    rwa [Int.mul_tdiv_cancel _ (by decide)] at h4
  · exact le_max_right _ _

theorem measured (h : Kept l time m) (src : Endpoint) (now : Int) :
    Kept l time ({ m with cands := onCand src (measure (m.rtt now) now) m.cands }.emit
      (.measured src m.pingTxid (m.rtt now))) := by
  have h' : Kept l time (m.emit (.measured src m.pingTxid (m.rtt now))) :=
    h.quiet rfl (by simp [isPing]) rfl (.inl rfl) fun c hc => .inr ⟨c, hc, rfl, rfl⟩
  refine { h' with bounded := fun c hc => ?_ }
  rcases mem_onCand hc with hc | ⟨c₀, hc₀, hep, rfl⟩
  · exact h'.bounded c hc
  · right
    have hle := measure_le (m.rtt now) now c₀
    rcases h'.bounded c₀ hc₀ with h0 | ⟨x, hx, tx, s, he, hs⟩
    · -- the first sample, or one below it
      refine ⟨(time, .measured src m.pingTxid (m.rtt now)), ?_, m.pingTxid, m.rtt now, ?_, ?_⟩
      · simp [emit]
      · rw [← hep]
        rfl
      · have hone : 1 ≤ m.rtt now := le_max_left _ _
        rw [h0] at hle
        omega
    · rcases le_total c₀.srtt (m.rtt now) with hcmp | hcmp
      · refine ⟨(time, .measured src m.pingTxid (m.rtt now)), ?_, m.pingTxid, m.rtt now, ?_, ?_⟩
        · simp [emit]
        · rw [← hep]
          rfl
        · omega
      · exact ⟨x, hx, tx, s, he, by omega⟩

theorem move {mac : MacFn} {e : Event} (h : Kept l e.time m) (hm : Move mac e m m') :
    Kept l e.time m' := by
  have same : ∀ m₁ : PathManager, m₁.cands = m.cands → ∀ c ∈ m₁.cands, c.srtt = 0 ∨
      ∃ c₀ ∈ m.cands, c₀.ep = c.ep ∧ c₀.srtt = c.srtt := fun m₁ he c hc =>
    .inr ⟨c, he ▸ hc, rfl, rfl⟩
  have reply : ∀ {msg : Disco} {l' : List Effect}, (∀ x ∈ l', Effect.Carries msg x) →
      (∀ tx, msg ≠ .ping tx) → ∀ x ∈ l', ∀ tx, isPing tx x = false := by
    intro msg l' hl hmsg x hx tx
    rcases hl x hx with ⟨ep, rfl⟩ | rfl
    · cases msg with
      | ping t => exact absurd rfl (hmsg t)
      | _ => rfl
    · rfl
  cases hm with
  | calm hc =>
      obtain ⟨l', hout, hcalm⟩ := hc.out
      exact h.quiet hout (fun x hx tx => isPing_of_calm (hcalm x hx) tx) hc.txid hc.timer hc.srtt
  | ask ticks sends => exact h.quiet rfl (reply sends (by simp)) rfl (.inl rfl) (same _ rfl)
  | ping ticks probes due => exact h.probed (by rw [ticks]; rfl) probes due
  | answer arrives listens checked new sends =>
      exact h.quiet rfl (reply sends (by simp)) rfl (.inl rfl) (same _ rfl)
  | accept arrives pending fresh named checked =>
      dsimp only
      split
      · refine h.quiet (List.append_assoc _ _ _) ?_ rfl (.inl rfl) (same _ rfl)
        simp [isPing]
      · exact h.quiet rfl (by simp [isPing]) rfl (.inl rfl) (same _ rfl)
  | measure arrives => exact h.measured _ _

end Kept

/-- A sample is taken from the probe timer, for the token of the last probe. -/
theorem measured_of_step {mac : MacFn} {m : PathManager} {e : Event} {ep : Endpoint} {tx : UInt64}
    {s : Int} (h : Effect.measured ep tx s ∈ (m.step mac e).out) :
    ∃ now, e.time = some now ∧ tx = m.pingTxid ∧ s = m.rtt now := by
  have ho := origin_of_step h rfl
  cases ho with
  | ask carries => rcases carries with ⟨_, he⟩ | he <;> cases he
  | answer checked carries => rcases carries with ⟨_, he⟩ | he <;> cases he
  | accept _ _ _ _ _ tells => rcases tells with he | he <;> cases he
  | measure => exact ⟨_, rfl, rfl, rfl⟩

theorem kept_run (mac : MacFn) (cfg : PathConfig) (locals : List Endpoint) (es : List Event) :
    Kept (log mac (start cfg locals) es) none { run mac (start cfg locals) es with out := [] } := by
  induction es using List.reverseRecOn with
  | nil =>
      refine ⟨le_refl _, fun h => absurd rfl h, ?_, ?_⟩
      · intro x hx
        simp [log] at hx
      · intro c hc
        cases hc
  | append_singleton es e ih =>
      have hstart : Kept (log mac (start cfg locals) es) e.time
          { run mac (start cfg locals) es with out := [] } := by
        refine ⟨ih.nonneg, ?_, ?_, ?_⟩
        · simpa using ih.timer
        · simpa using ih.late
        · simpa using ih.bounded
      have hstep : Kept (log mac (start cfg locals) es) e.time
          ((run mac (start cfg locals) es).step mac e) :=
        step_invariant (I := Kept _ e.time) (fun m m' hk hm => hk.move hm) hstart
      have hlog := log_concat mac (start cfg locals) es e
      rw [run_concat]
      refine ⟨hstep.nonneg, ?_, ?_, ?_⟩
      · simpa [hlog] using hstep.timer
      · simpa [hlog] using hstep.late
      · simpa [hlog] using hstep.bounded

/-! ## Samples -/

/-- The sample is the time since the tick that sent the PING of its token. -/
def Measures (l : List (Option Int × Effect)) (now : Int) (tx : UInt64) (s : Int) : Prop :=
  ∃ t, sentAt l tx = some t ∧ s = max 1 (now - t)

/-- The call at the end of `pre` takes the sample `s` of a PONG from `ep`. -/
def Samples (mac : MacFn) (m : PathManager) (pre : List Event) (e : Event) (ep : Endpoint)
    (tx : UInt64) (s : Int) : Prop :=
  .measured ep tx s ∈ ((run mac m pre).step mac e).out

theorem mem_log_split {mac : MacFn} {m : PathManager} {es : List Event} {x : Option Int × Effect}
    (h : x ∈ log mac m es) : ∃ pre e post, es = pre ++ e :: post ∧ x.1 = e.time ∧
      x.2 ∈ ((run mac m pre).step mac e).out := by
  induction es generalizing m with
  | nil => cases h
  | cons e es ih =>
      rcases List.mem_append.mp h with h | h
      · obtain ⟨y, hy, rfl⟩ := List.mem_map.mp h
        exact ⟨[], e, es, rfl, rfl, hy⟩
      · obtain ⟨pre, e', post, rfl, ht, hx⟩ := ih h
        exact ⟨e :: pre, e', post, rfl, ht, hx⟩

theorem steady_le {pre post : List Event} {e e' : Event} {t now : Int}
    (h : Steady (pre ++ e :: post)) (he' : e' ∈ pre) (ht : e'.time = some t)
    (hnow : e.time = some now) : t ≤ now := by
  rw [Steady, List.filterMap_append, List.pairwise_append] at h
  refine h.2.2 t (List.mem_filterMap.mpr ⟨e', he', ht⟩) now ?_
  exact List.mem_filterMap.mpr ⟨e, List.mem_cons_self, hnow⟩

/-- In every run: a sample measures the probe it answers if and only if the probe timer has not
been set back since that probe; and where none is taken otherwise, no candidate's smoothed
round trip exceeds all the delays measured for it. -/
theorem samples_measure_iff (mac : MacFn) (cfg : PathConfig) (locals : List Endpoint)
    (es : List Event) (steady : Steady es) :
    (∀ pre e post, es = pre ++ e :: post → ∀ ep tx s now,
      Samples mac (start cfg locals) pre e ep tx s → e.time = some now →
        (Measures (log mac (start cfg locals) pre) now tx s ↔
          (run mac (start cfg locals) pre).tPing.last ≠ 0)) ∧
    ((∀ pre e post, es = pre ++ e :: post → ∀ ep tx s,
      Samples mac (start cfg locals) pre e ep tx s →
        (run mac (start cfg locals) pre).tPing.last ≠ 0) →
      ∀ c ∈ (run mac (start cfg locals) es).cands, c.srtt = 0 ∨
        ∃ pre e post tx s now, es = pre ++ e :: post ∧ e.time = some now ∧
          Samples mac (start cfg locals) pre e c.ep tx s ∧
          Measures (log mac (start cfg locals) pre) now tx s ∧ c.srtt ≤ s) := by
  have first : ∀ pre e post, es = pre ++ e :: post → ∀ ep tx s now,
      Samples mac (start cfg locals) pre e ep tx s → e.time = some now →
        (Measures (log mac (start cfg locals) pre) now tx s ↔
          (run mac (start cfg locals) pre).tPing.last ≠ 0) := by
    rintro pre e post rfl ep tx s now hs hnow
    have hkept := kept_run mac cfg locals pre
    obtain ⟨now', hnow', rfl, rfl⟩ := measured_of_step hs
    cases hnow.symm.trans hnow'
    have htimer := hkept.timer
    have hlate := hkept.late
    simp only [List.map_nil, List.append_nil] at htimer hlate
    constructor
    · rintro ⟨t, hsent, hsample⟩ hzero
      obtain ⟨x, hx, hxt, hping⟩ := sentAt_mem hsent
      obtain ⟨t', ht', hlow⟩ := hlate x hx _ hping
      cases hxt.symm.trans ht'
      obtain ⟨e', he', hxe⟩ := mem_log hx
      have hle : t ≤ now := steady_le steady he' (hxe.symm.trans hxt) hnow
      rw [rtt, hzero] at hsample
      have hprobe : kPingProbeMs = 300 := rfl
      omega
    · intro hne
      exact ⟨_, htimer hne, rfl⟩
  refine ⟨first, fun hall c hc => ?_⟩
  have hkept := kept_run mac cfg locals es
  rcases hkept.bounded c hc with h0 | ⟨x, hx, tx, s, he, hle⟩
  · exact .inl h0
  · simp only [List.map_nil, List.append_nil] at hx
    obtain ⟨pre, e, post, hes, hxe, hmem⟩ := mem_log_split hx
    rw [he] at hmem
    obtain ⟨now, hnow, -⟩ := measured_of_step hmem
    exact .inr ⟨pre, e, post, tx, s, now, hes, hnow, hmem,
      (first pre e post hes _ _ _ now hmem hnow).mpr (hall pre e post hes _ _ _ hmem), hle⟩

/-! ## Two runs -/

/-- An address of the peer. -/
def peerAt : Endpoint := { port := 4000 }

/-- Active, with one candidate, and probed at 1000. -/
def probedRun : List Event :=
  [.setActive true, .addCandidate peerAt 900, .tick 1000 {}]

/-- The PONG to that probe. -/
def pongEvent : Event := .datagram peerAt (Inner.disco (.pong 1)).build 1010 {}

def zeroMac : MacFn := fun _ => ByteArr.zero 16

/-- A query of the peer on the local network, under that MAC. -/
def queryEvent : Event := .lanQuery { port := 4001 } (kLanMagic ++ List.replicate 32 0) 1005

def plainConfig : PathConfig where
  uid := ByteArr.zero 32

theorem sampled_at_1010 : Samples zeroMac (start plainConfig []) probedRun pongEvent peerAt 1 10 := by
  unfold Samples
  decide +kernel

theorem sample_measures_probe : Steady (probedRun ++ [pongEvent]) ∧
    Measures (log zeroMac (start plainConfig []) probedRun) 1010 1 10 :=
  ⟨by decide,
    ((samples_measure_iff zeroMac plainConfig [] (probedRun ++ [pongEvent]) (by decide)).1
      probedRun pongEvent [] rfl peerAt 1 10 1010 sampled_at_1010 rfl).mpr (by decide +kernel)⟩

/-- The query sets the timer back, and the PONG is measured from the start of the clock. -/
theorem query_spoils_sample : Steady (probedRun ++ [queryEvent, pongEvent]) ∧
    Samples zeroMac (start plainConfig []) (probedRun ++ [queryEvent]) pongEvent peerAt 1 1010 ∧
    sentAt (log zeroMac (start plainConfig []) (probedRun ++ [queryEvent])) 1 = some 1000 ∧
    ¬ Measures (log zeroMac (start plainConfig []) (probedRun ++ [queryEvent])) 1010 1 1010 := by
  have hsent : sentAt (log zeroMac (start plainConfig []) (probedRun ++ [queryEvent])) 1 =
      some 1000 := by
    decide +kernel
  refine ⟨by decide, by unfold Samples; decide +kernel, hsent, ?_⟩
  rintro ⟨t, ht, hs⟩
  rw [hsent, Option.some.injEq] at ht
  rw [← ht] at hs
  exact absurd hs (by decide)

end Splice.Peer.PathManager
