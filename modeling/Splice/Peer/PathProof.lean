import Splice.Peer.Candidates

/-!
What shows that a direct address works. Tunnel data from it does, and so does a PONG that
answers the last PING, which went to every address then listed. The code compares the
PONG with the counter alone: one that comes before any PING, or from an address listed
after the last one, is believed as well.
-/

namespace Splice.Peer.PathManager
open Proto

def pingOf : Effect → Option (Endpoint × UInt64)
  | .direct ep (.disco (.ping tx)) => some (ep, tx)
  | _ => none

/-- The PINGs of a call. -/
def pings (m : PathManager) : List (Endpoint × UInt64) := m.out.filterMap pingOf

/-- The PINGs of the last call that sent any. -/
def lastPings (mac : MacFn) (m : PathManager) (before : List (Endpoint × UInt64)) :
    List Event → List (Endpoint × UInt64)
  | [] => before
  | e :: es =>
      lastPings mac (m.step mac e)
        (if (m.step mac e).pings = [] then before else (m.step mac e).pings) es

/-- The addresses listed when the counter of the PINGs last moved. -/
def lastListed (mac : MacFn) (m : PathManager) (before : List Endpoint) :
    List Event → List Endpoint
  | [] => before
  | e :: es =>
      lastListed mac (m.step mac e)
        (if (m.step mac e).pingTxid = m.pingTxid then before
          else (m.step mac e).cands.map (·.ep)) es

/-! ## PINGs go to what is listed -/

section Pings
variable {mac : MacFn} {m m' : PathManager}

theorem pingOf_of_calm {x : Effect} (h : x.calm = true) : pingOf x = none := by
  unfold pingOf
  split
  · exact absurd h (by simp [Effect.calm, Inner.calm, Disco.calm])
  · rfl

theorem pings_of_calm (h : Calm m m') : m'.pings = m.pings := by
  obtain ⟨l, hout, hcalm⟩ := h.out
  have hnone : l.filterMap pingOf = [] := by
    rw [List.filterMap_eq_nil_iff]
    exact fun x hx => pingOf_of_calm (hcalm x hx)
  rw [pings, pings, hout, List.filterMap_append, hnone, List.append_nil]

theorem pings_of_carries {msg : Disco} (hmsg : ∀ tx, msg ≠ .ping tx) {l : List Effect}
    (h : ∀ x ∈ l, Effect.Carries msg x) : l.filterMap pingOf = [] := by
  rw [List.filterMap_eq_nil_iff]
  intro x hx
  rcases h x hx with ⟨ep, rfl⟩ | rfl
  · unfold pingOf
    split
    · rename_i heq
      cases heq
      exact absurd rfl (hmsg _)
    · rfl
  · rfl

/-- A move that does not probe. -/
theorem pings_of_move {e : Event} (h : Move mac e m m') (hp : m'.pingTxid = m.pingTxid) :
    m'.pings = m.pings := by
  cases h with
  | calm hc => exact pings_of_calm hc
  | ask ticks sends =>
      rw [pings, pings, List.filterMap_append, pings_of_carries (fun _ => by simp) sends,
        List.append_nil]
  | ping => exact absurd hp (by simp)
  | answer arrives listens checked new sends =>
      rw [pings, pings, List.filterMap_append, pings_of_carries (fun _ => by simp) sends,
        List.append_nil]
  | accept arrives pending fresh named checked =>
      dsimp only
      split
      · simp [pings, emit, pingOf]
      · simp [pings, emit, pingOf]
  | measure => simp [pings, emit, pingOf]

theorem sendPortQuery_txid (m : PathManager) (now : Int) (nonce : Nonce) :
    (m.sendPortQuery mac now nonce).pingTxid = m.pingTxid := by
  rw [sendPortQuery]
  dsimp only
  obtain ⟨l, heq, -⟩ := sendDiscoReply_eq { m with
    portAsked := (m.portAsked.filter fun a => !(kPortAnswerMs < now - a.at_)) ++
      [{ nonce, at_ := now : PortAsk }] }
    (.portq nonce (lanMac mac "portq" m.side nonce.toList)) m.txPath m.chosen
  exact (congrArg PathManager.pingTxid heq :)

theorem tickPort_txid (m : PathManager) (now : Int) (d : Draw) :
    (m.tickPort mac now d).pingTxid = m.pingTxid := by
  simp only [tickPort, apply_ite PathManager.pingTxid, sendPortQuery_txid, ite_self]

theorem tickPing_pings (m : PathManager) (now : Int) :
    (m.tickPing now).cands = m.cands ∧
    (m.tickPing now = m ∨
      (m.cands ≠ [] ∧ (m.tickPing now).pingTxid = m.pingTxid + 1 ∧
        (m.tickPing now).pings = m.pings ++ m.cands.map fun c => (c.ep, m.pingTxid + 1))) := by
  simp only [tickPing]
  by_cases hgo : (!m.forceRelay && decide (m.cands ≠ []) && m.tPing.due now
      (if m.directConfirmed = true then kPingKeepaliveMs else kPingProbeMs)) = true
  · rw [if_pos hgo]
    simp only [Bool.and_eq_true, decide_eq_true_eq] at hgo
    refine ⟨rfl, .inr ⟨hgo.1.2, rfl, ?_⟩⟩
    rw [pings, pings, List.filterMap_append, List.filterMap_map]
    simp only [Function.comp_def, pingOf, List.filterMap_eq_map']
  · rw [if_neg hgo]
    exact ⟨rfl, .inl rfl⟩

/-- A call moves the counter exactly when it sends PINGs, and these go to all that is listed. -/
theorem step_pings (mac : MacFn) (m : PathManager) (e : Event) :
    ((m.step mac e).pingTxid = m.pingTxid ∧ (m.step mac e).pings = []) ∨
    ((m.step mac e).cands ≠ [] ∧ (m.step mac e).pingTxid = m.pingTxid + 1 ∧
      (m.step mac e).pings = (m.step mac e).cands.map fun c => (c.ep, m.pingTxid + 1)) := by
  have quiet : ∀ m' : PathManager, Calm { m with out := [] } m' →
      m'.pingTxid = m.pingTxid ∧ m'.pings = [] := fun m' hc => ⟨hc.txid, pings_of_calm hc⟩
  by_cases ht : ∃ now d, e = .tick now d
  · obtain ⟨now, d, rfl⟩ := ht
    rw [step, on, tick_eq]
    split
    · exact .inl ⟨rfl, rfl⟩
    obtain ⟨htx₁, hp₁⟩ := quiet _ (calm_tickFirst { m with out := [] } now d)
    generalize PathManager.tickFirst { m with out := [] } now d = m₁ at htx₁ hp₁
    have htx₂ : (m₁.tickPort mac now d).pingTxid = m.pingTxid :=
      (tickPort_txid m₁ now d).trans htx₁
    have hp₂ : (m₁.tickPort mac now d).pings = [] :=
      (pings_of_move move_tickPort (tickPort_txid m₁ now d)).trans hp₁
    generalize m₁.tickPort mac now d = m₂ at htx₂ hp₂
    have hlan := calm_tickLan mac m₂ now d
    have htx₃ := hlan.txid.trans htx₂
    have hp₃ := (pings_of_calm hlan).trans hp₂
    generalize m₂.tickLan mac now d = m₃ at htx₃ hp₃
    have hupdate := calm_updateTxPath (m₃.tickPing now) now
    obtain ⟨hcands, hping⟩ := tickPing_pings m₃ now
    rw [hupdate.txid, pings_of_calm hupdate, (updateTxPath_table _ now).1, hcands]
    rcases hping with hsame | ⟨hne, htx, hp⟩
    · rw [hsame]
      exact .inl ⟨htx₃, hp₃⟩
    · rw [htx, hp, hp₃, htx₃]
      exact .inr ⟨hne, rfl, rfl⟩
  by_cases hd : ∃ src raw now wg, e = .datagram src raw now wg
  · obtain ⟨src, raw, now, wg, rfl⟩ := hd
    have hmove : Move mac (.datagram src raw now wg) { m with out := [] }
        (m.step mac (.datagram src raw now wg)) := move_process
    have htx : (m.step mac (.datagram src raw now wg)).pingTxid = m.pingTxid := by
      generalize m.step mac (.datagram src raw now wg) = m' at hmove ⊢
      cases hmove with
      | calm hc => exact hc.txid
      | ask ticks => cases ticks
      | ping ticks => cases ticks
      | answer => rfl
      | accept =>
          dsimp only
          split <;> rfl
      | measure => rfl
    exact .inl ⟨htx, pings_of_move hmove htx⟩
  · exact .inl (quiet _ (calm_on (fun now d h => ht ⟨now, d, h⟩)
      (fun src raw now wg h => hd ⟨src, raw, now, wg, h⟩) _))

/-- The last PINGs went to what was listed, with the number the counter has now. -/
theorem lastPings_eq (mac : MacFn) (es : List Event) (m : PathManager) (before : List Endpoint) :
    lastPings mac m (before.map fun ep => (ep, m.pingTxid)) es =
      (lastListed mac m before es).map fun ep => (ep, (run mac m es).pingTxid) := by
  induction es generalizing m before with
  | nil => rfl
  | cons e es ih =>
      rw [lastPings, lastListed, run, List.foldl_cons, ← run, ← ih]
      rcases step_pings mac m e with ⟨htx, hp⟩ | ⟨hne, htx, hp⟩
      · rw [if_pos hp, if_pos htx, htx]
      · have hsent : (m.step mac e).pings ≠ [] := by
          rw [hp, ne_eq, List.map_eq_nil_iff]
          exact hne
        have hmoved : (m.step mac e).pingTxid ≠ m.pingTxid := by
          rw [htx]
          simp
        rw [if_neg hsent, if_neg hmoved, hp, htx, List.map_map]
        rfl

end Pings

/-! ## Signs of life -/

/-- The call takes a datagram as a sign of life from the address. -/
def Believes (mac : MacFn) (m : PathManager) (e : Event) (ep : Endpoint) : Prop :=
  .touch ep ∈ m.tableOps mac e ∨ ∃ rtt, .pong ep rtt ∈ m.tableOps mac e

/-- It brought tunnel data straight from the address. -/
def ByData (m : PathManager) (e : Event) (ep : Endpoint) : Prop :=
  ∃ raw now wg, e = .datagram ep raw now wg ∧ ep ≠ m.cfg.server ∧ raw.head? = some 0x00 ∧
    wg.tunnel.isSome = true

/-- It is a PONG from the address to the last PING, which went there. -/
def ByReply (mac : MacFn) (m₀ : PathManager) (pre : List Event) (e : Event) (ep : Endpoint) :
    Prop :=
  ∃ raw now wg, e = .datagram ep raw now wg ∧ ep ≠ (run mac m₀ pre).cfg.server ∧
    IsPong (run mac m₀ pre) raw ∧ (ep, (run mac m₀ pre).pingTxid) ∈ lastPings mac m₀ [] pre

/-- A PONG with the counter's number that comes straight from a listed address comes from one
that was listed when the counter last moved. -/
def Probed (mac : MacFn) (m₀ : PathManager) (pre : List Event) (e : Event) : Prop :=
  ∀ ep raw now wg, e = .datagram ep raw now wg → ep ≠ (run mac m₀ pre).cfg.server →
    (run mac m₀ pre).forceRelay = false → IsPong (run mac m₀ pre) raw →
    ep ∈ (run mac m₀ pre).cands.map (·.ep) → ep ∈ lastListed mac m₀ [] pre

section Life
variable {mac : MacFn} {m m₀ : PathManager} {e : Event} {ep : Endpoint} {now : Int} {op : TableOp}
  {c : DirectCand}

theorem lastRx_apply (hc : c ∈ (apply now m op).cands) :
    c.lastRx = 0 ∨ (c.lastRx = now ∧ (op = .touch c.ep ∨ ∃ rtt, op = .pong c.ep rtt)) ∨
      ∃ c₀ ∈ m.cands, c₀.ep = c.ep ∧ c.lastRx = c₀.lastRx := by
  have old : c ∈ m.cands → c.lastRx = 0 ∨
      (c.lastRx = now ∧ (op = .touch c.ep ∨ ∃ rtt, op = .pong c.ep rtt)) ∨
      ∃ c₀ ∈ m.cands, c₀.ep = c.ep ∧ c.lastRx = c₀.lastRx :=
    fun hc => .inr (.inr ⟨c, hc, rfl, rfl⟩)
  cases op with
  | add ep lan =>
      simp only [apply, addCand] at hc
      split at hc
      · exact old hc
      split at hc
      · rcases mem_onCand hc with hc | ⟨c₀, hc₀, -, rfl⟩
        · exact old hc
        · exact .inr (.inr ⟨c₀, hc₀, rfl, rfl⟩)
      split at hc
      · split at hc
        · rcases List.mem_append.mp hc with hc | hc
          · exact old (List.mem_of_mem_eraseP hc)
          · rw [List.mem_singleton.mp hc]
            exact .inl rfl
        · exact old hc
      · rcases List.mem_append.mp hc with hc | hc
        · exact old hc
        · rw [List.mem_singleton.mp hc]
          exact .inl rfl
  | touch ep =>
      simp only [apply, touchCand] at hc
      split at hc
      · rcases mem_onCand hc with hc | ⟨c₀, hc₀, rfl, rfl⟩
        · exact old hc
        · exact .inr (.inl ⟨rfl, .inl rfl⟩)
      split at hc
      · exact old hc
      · rcases List.mem_append.mp hc with hc | hc
        · exact old hc
        · rw [List.mem_singleton.mp hc]
          exact .inr (.inl ⟨rfl, .inl rfl⟩)
  | pong ep rtt =>
      rcases mem_onCand hc with hc | ⟨c₀, hc₀, rfl, rfl⟩
      · exact old hc
      · exact .inr (.inl ⟨rfl, .inr ⟨rtt, rfl⟩⟩)
  | prune => exact old (List.mem_filter.mp hc).1
  | update =>
      rw [apply, (updateTxPath_table m now).1] at hc
      exact old hc

theorem lastRx_applyAll {ops : List TableOp} (hc : c ∈ (applyAll now m ops).cands) :
    c.lastRx = 0 ∨ (c.lastRx = now ∧ (.touch c.ep ∈ ops ∨ ∃ rtt, .pong c.ep rtt ∈ ops)) ∨
      ∃ c₀ ∈ m.cands, c₀.ep = c.ep ∧ c.lastRx = c₀.lastRx := by
  induction ops generalizing m with
  | nil => exact .inr (.inr ⟨c, hc, rfl, rfl⟩)
  | cons op ops ih =>
      rcases ih hc with h0 | ⟨hn, hop⟩ | ⟨c₁, hc₁, hep₁, hrx₁⟩
      · exact .inl h0
      · refine .inr (.inl ⟨hn, hop.imp (List.mem_cons_of_mem _) ?_⟩)
        exact fun ⟨rtt, h⟩ => ⟨rtt, List.mem_cons_of_mem _ h⟩
      · rw [← hep₁, hrx₁]
        rcases lastRx_apply hc₁ with h0 | ⟨hn, hop⟩ | ⟨c₀, hc₀, hep₀, hrx₀⟩
        · exact .inl h0
        · rcases hop with rfl | ⟨rtt, rfl⟩
          · exact .inr (.inl ⟨hn, .inl List.mem_cons_self⟩)
          · exact .inr (.inl ⟨hn, .inr ⟨rtt, List.mem_cons_self⟩⟩)
        · exact .inr (.inr ⟨c₀, hc₀, hep₀, hrx₀⟩)

theorem chosen_apply (hop : op ≠ .update) : (apply now m op).chosen = m.chosen := by
  cases op with
  | add ep' lan =>
      simp only [apply, addCand]
      repeat (split; · rfl)
      split
      · split <;> rfl
      · rfl
  | touch ep' =>
      simp only [apply, touchCand]
      repeat (split; · rfl)
      rfl
  | pong ep' rtt => rfl
  | prune => rfl
  | update => exact absurd rfl hop

theorem chosen_applyAll {ops : List TableOp} (hops : .update ∉ ops) :
    (applyAll now m ops).chosen = m.chosen := by
  induction ops generalizing m with
  | nil => rfl
  | cons op ops ih =>
      rw [List.mem_cons, not_or] at hops
      exact (ih hops.2).trans (chosen_apply (Ne.symm hops.1))

/-- A choice is the last thing a call does. -/
theorem update_of_tableOps (mac : MacFn) (m : PathManager) (e : Event) :
    .update ∉ m.tableOps mac e ∨ ∃ ops, m.tableOps mac e = ops ++ [.update] := by
  cases e with
  | tick now d =>
      simp only [tableOps]
      split
      · exact .inl (by simp)
      split
      · exact .inr ⟨[.prune], rfl⟩
      · exact .inr ⟨[], rfl⟩
  | datagram src raw now wg =>
      refine .inl fun h => ?_
      rcases op_of_process h with ⟨_, _, hop⟩ | ⟨hop, -⟩ | ⟨hop, -⟩
      · cases hop
      · cases hop
      · cases hop
  | lanQuery src pkt now =>
      left
      simp only [tableOps]
      split
      · simp
      · simp
  | addCandidate ep now => exact .inl (by simp [tableOps])
  | _ => exact .inl (by simp [tableOps])

/-- A call that chooses takes one that has answered. -/
theorem chosen_step (h : (m.step mac e).chosen = some ep) :
    m.chosen = some ep ∨ ∃ c ∈ (m.step mac e).cands, c.lastRx ≠ 0 := by
  have hsame := step_table mac m e
  rw [hsame.chosen] at h
  rw [hsame.cands]
  generalize e.time.getD 0 = now at h ⊢
  rcases update_of_tableOps mac m e with hno | ⟨ops, hops⟩
  · rw [chosen_applyAll hno] at h
    exact .inl h
  · rw [hops, applyAll, List.foldl_append, ← applyAll] at h ⊢
    obtain ⟨hcands, hchosen, -, -⟩ := updateTxPath_table (applyAll now m ops) now
    obtain ⟨c, hc, -, halive⟩ := TableInv.chooseDirect_alive (hchosen.symm.trans h)
    simp only [alive, Bool.and_eq_true, decide_eq_true_eq] at halive
    exact .inr ⟨c, hcands.symm ▸ hc, halive.1⟩

/-- Whatever is believed comes straight from the address. -/
theorem believes_cases (h : Believes mac m e ep) :
    ByData m e ep ∨ ∃ raw now wg, e = .datagram ep raw now wg ∧ ep ≠ m.cfg.server ∧
      m.forceRelay = false ∧ IsPong m raw ∧ ep ∈ m.cands.map (·.ep) := by
  cases e with
  | datagram src raw now wg =>
      have hforce : src ≠ m.cfg.server → m.tableOps mac (.datagram src raw now wg) ≠ [] →
          m.forceRelay = false := by
        intro hsrc hne
        by_contra hf
        rw [Bool.not_eq_false] at hf
        exact hne (by simp [tableOps, processOps, hf, hsrc])
      rcases h with h | ⟨rtt, h⟩
      · rcases op_of_process h with ⟨_, _, hop⟩ | ⟨hop, hsrc, htunnel, hhead⟩ | ⟨hop, -⟩
        · cases hop
        · cases hop
          exact .inl ⟨raw, now, wg, rfl, hsrc, hhead, htunnel⟩
        · cases hop
      · rcases op_of_process h with ⟨_, _, hop⟩ | ⟨hop, -⟩ | ⟨hop, hsrc, hpong, hfind⟩
        · cases hop
        · cases hop
        · cases hop
          exact .inr ⟨raw, now, wg, rfl, hsrc, hforce hsrc (List.ne_nil_of_mem h), hpong,
            findCand_isSome.mp hfind⟩
  | tick now d =>
      simp only [Believes, tableOps] at h
      split at h
      · simp at h
      split at h
      · simp at h
      · simp at h
  | lanQuery src pkt now =>
      simp only [Believes, tableOps] at h
      split at h
      · simp at h
      · simp at h
  | _ => simp [Believes, tableOps] at h

/-- A PONG with the counter's number, straight from a listed address, is believed. -/
theorem believes_pong {raw : Bytes} {wg : WgReply} (hsrc : ep ≠ m.cfg.server)
    (hforce : m.forceRelay = false) (hpong : IsPong m raw) (hlisted : ep ∈ m.cands.map (·.ep)) :
    Believes mac m (.datagram ep raw now wg) ep := by
  obtain ⟨body, rfl, htx, hok⟩ := hpong
  have hfind := findCand_isSome.mpr hlisted
  refine .inr ⟨m.rtt now, ?_⟩
  simp only [tableOps, processOps, hforce, Bool.false_and, Bool.false_eq_true, if_false, hsrc,
    innerOps, discoOps, ByteReader.u8_cons, pongOps]
  simp only [ByteReader.ok, htx] at hok ⊢
  simp [hok, Option.isSome_iff_ne_none.mp hfind]

end Life

section Runs
variable {mac : MacFn} {m₀ : PathManager} {es : List Event}

/-- Some call of the run, and what came before it. -/
def Believed (mac : MacFn) (m₀ : PathManager) (es : List Event) (ep : Endpoint) (t : Int) : Prop :=
  ∃ pre e post, es = pre ++ e :: post ∧ e.time = some t ∧ Believes mac (run mac m₀ pre) e ep

theorem Believed.concat {ep : Endpoint} {t : Int} (h : Believed mac m₀ es ep t) (e : Event) :
    Believed mac m₀ (es ++ [e]) ep t := by
  obtain ⟨pre, e', post, rfl, h⟩ := h
  exact ⟨pre, e', post ++ [e], by simp, h⟩

end Runs

/-- A time in the table is that of a call that believed the address. -/
theorem lastRx_believed (mac : MacFn) (cfg : PathConfig) (locals : List Endpoint)
    (es : List Event) {c : DirectCand} (hc : c ∈ (run mac (start cfg locals) es).cands)
    (hrx : c.lastRx ≠ 0) : Believed mac (start cfg locals) es c.ep c.lastRx := by
  induction es using List.reverseRecOn generalizing c with
  | nil => cases hc
  | append_singleton es e ih =>
      rw [run_concat, (step_table mac _ e).cands] at hc
      cases htime : e.time with
      | none =>
          rw [tableOps_timeless htime] at hc
          exact (ih hc hrx).concat e
      | some now =>
          rw [htime, Option.getD_some] at hc
          rcases lastRx_applyAll hc with h0 | ⟨hn, hop⟩ | ⟨c₀, hc₀, hep, heq⟩
          · exact absurd h0 hrx
          · exact ⟨es, e, [], rfl, hn ▸ htime, hop⟩
          · rw [← hep, heq]
            exact (ih hc₀ (heq ▸ hrx)).concat e

theorem chosen_believed (mac : MacFn) (cfg : PathConfig) (locals : List Endpoint)
    (es : List Event) {ep : Endpoint} (h : (run mac (start cfg locals) es).chosen = some ep) :
    ∃ ep' t, Believed mac (start cfg locals) es ep' t := by
  induction es using List.reverseRecOn with
  | nil => cases h
  | append_singleton es e ih =>
      rw [run_concat] at h
      rcases chosen_step h with h | ⟨c, hc, hrx⟩
      · obtain ⟨ep', t, hb⟩ := ih h
        exact ⟨ep', t, hb.concat e⟩
      · rw [← run_concat] at hc
        exact ⟨c.ep, c.lastRx, lastRx_believed mac cfg locals _ hc hrx⟩

/-- In every run: all that is believed is proven if and only if every PONG with the counter's
number from a listed address comes from one that was listed when the counter last moved. Times
in the table are those of calls that believed the address; and where the condition holds and
nothing is proven, nothing is chosen and the path is the relay. -/
theorem direct_path_proven_iff (mac : MacFn) (cfg : PathConfig) (locals : List Endpoint)
    (es : List Event) :
    ((∀ pre e post, es = pre ++ e :: post → ∀ ep,
        Believes mac (run mac (start cfg locals) pre) e ep →
          ByData (run mac (start cfg locals) pre) e ep ∨ ByReply mac (start cfg locals) pre e ep) ↔
      ∀ pre e post, es = pre ++ e :: post → Probed mac (start cfg locals) pre e) ∧
    (∀ c ∈ (run mac (start cfg locals) es).cands, c.lastRx ≠ 0 →
      Believed mac (start cfg locals) es c.ep c.lastRx) ∧
    ((∀ pre e post, es = pre ++ e :: post → Probed mac (start cfg locals) pre e) →
      (∀ pre e post, es = pre ++ e :: post → ∀ ep,
        ¬ ByData (run mac (start cfg locals) pre) e ep ∧
          ¬ ByReply mac (start cfg locals) pre e ep) →
      (run mac (start cfg locals) es).chosen = none ∧
        (run mac (start cfg locals) es).txPath = .relay) := by
  have hlast : ∀ pre ep, (ep, (run mac (start cfg locals) pre).pingTxid) ∈
      lastPings mac (start cfg locals) [] pre ↔ ep ∈ lastListed mac (start cfg locals) [] pre := by
    intro pre ep
    have heq := lastPings_eq mac pre (start cfg locals) []
    rw [List.map_nil] at heq
    rw [heq, List.mem_map]
    simp
  have hproven : (∀ pre e post, es = pre ++ e :: post → Probed mac (start cfg locals) pre e) →
      ∀ pre e post, es = pre ++ e :: post → ∀ ep,
        Believes mac (run mac (start cfg locals) pre) e ep →
          ByData (run mac (start cfg locals) pre) e ep ∨ ByReply mac (start cfg locals) pre e ep := by
    intro hprobed pre e post hes ep hb
    rcases believes_cases hb with hdata | ⟨raw, now, wg, rfl, hsrc, hforce, hpong, hlisted⟩
    · exact .inl hdata
    · refine .inr ⟨raw, now, wg, rfl, hsrc, hpong, (hlast pre ep).mpr ?_⟩
      exact hprobed pre _ post hes ep raw now wg rfl hsrc hforce hpong hlisted
  refine ⟨⟨fun hall => ?_, hproven⟩, fun c hc hrx => lastRx_believed mac cfg locals es hc hrx, ?_⟩
  · rintro pre e post hes ep raw now wg rfl hsrc hforce hpong hlisted
    rcases hall pre _ post hes ep (believes_pong hsrc hforce hpong hlisted) with hdata | hreply
    · obtain ⟨raw', now', wg', heq, -, hhead, -⟩ := hdata
      obtain ⟨body, hraw, -⟩ := hpong
      cases heq
      rw [hraw] at hhead
      cases hhead
    · obtain ⟨raw', now', wg', heq, -, -, hsent⟩ := hreply
      exact (hlast pre ep).mp hsent
  · intro hprobed hnone
    have hchosen : (run mac (start cfg locals) es).chosen = none := by
      by_contra hsome
      obtain ⟨ep, hep⟩ := Option.ne_none_iff_exists'.mp hsome
      obtain ⟨ep', t, pre, e, post, hes, -, hb⟩ := chosen_believed mac cfg locals es hep
      obtain ⟨hno, hno'⟩ := hnone pre e post hes ep'
      rcases hproven hprobed pre e post hes ep' hb with h | h
      · exact hno h
      · exact hno' h
    refine ⟨hchosen, ?_⟩
    by_contra htx
    have hinv := tableInv_run mac cfg locals es
    cases hpath : (run mac (start cfg locals) es).txPath with
    | relay => exact htx hpath
    | direct =>
        have hsome := hinv.direct hpath
        rw [hchosen] at hsome
        cases hsome

/-! ## A PONG to no PING -/

/-- The counter starts at 0, and so does a PONG to nothing. -/
def earlyPong : Event := .datagram peerAt (Inner.disco (.pong 0)).build 910 {}

/-- Active, with one candidate nobody has probed. -/
def unprobedRun : List Event := [.setActive true, .addCandidate peerAt 900]

/-- It is believed, and the next tick moves the traffic there. -/
theorem early_pong_believed :
    Believes zeroMac (run zeroMac (start plainConfig []) unprobedRun) earlyPong peerAt ∧
    ¬ ByData (run zeroMac (start plainConfig []) unprobedRun) earlyPong peerAt ∧
    ¬ ByReply zeroMac (start plainConfig []) unprobedRun earlyPong peerAt ∧
    (run zeroMac (start plainConfig []) (unprobedRun ++ [earlyPong, .tick 1000 {}])).chosen =
      some peerAt ∧
    (run zeroMac (start plainConfig []) (unprobedRun ++ [earlyPong, .tick 1000 {}])).txPath =
      .direct := by
  refine ⟨.inr ⟨910, by decide +kernel⟩, ?_, ?_, by decide +kernel, by decide +kernel⟩
  · rintro ⟨raw, now, wg, heq, -, hhead, -⟩
    cases heq
    revert hhead
    decide
  · rintro ⟨raw, now, wg, -, -, -, hsent⟩
    revert hsent
    decide +kernel

end Splice.Peer.PathManager
