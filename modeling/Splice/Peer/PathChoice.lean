import Mathlib
import Splice.Peer.PathProof

/-!
Which direct address carries the tunnel. The scan takes an alive candidate of the lowest
score; the current one stays while it is alive and at most a quarter above that. A choice
is only made on a tick, so over a run it moves away from a candidate only when this one
is dead or slower than that.
-/

namespace Splice.Peer.PathManager
open Proto

/-- The lowest score of the candidates that are alive. -/
def LowestScore (m : PathManager) (now b : Int) : Prop :=
  IsLeast {s | ∃ c ∈ m.cands, alive now c = true ∧ score c = s} b

/-- No smoothed round trip is negative. -/
def Timed (m : PathManager) : Prop := ∀ c ∈ m.cands, 0 ≤ c.srtt

/-- `m'` has chosen from the table of `m`. -/
structure Chose (now : Int) (m m' : PathManager) : Prop where
  table : m'.cands = m.cands
  absent : m'.chosen = none ↔ ∀ c ∈ m.cands, alive now c = false
  near : ∀ b, m.LowestScore now b → ∀ ep, m'.chosen = some ep →
    ∃ c ∈ m.cands, c.ep = ep ∧ alive now c = true ∧ score c ≤ b + b / 4
  stays : ∀ b, m.LowestScore now b → ∀ c ∈ m.cands, m.chosen = some c.ep →
    alive now c = true → score c ≤ b + b / 4 → m'.chosen = some c.ep
  moves : ∀ b, m.LowestScore now b →
    (¬ ∃ c ∈ m.cands, m.chosen = some c.ep ∧ alive now c = true ∧ score c ≤ b + b / 4) →
    ∃ c ∈ m.cands, m'.chosen = some c.ep ∧ alive now c = true ∧ score c = b
  direct : m'.txPath = .direct ↔ m'.chosen.isSome = true ∧ m.forceRelay = false

section Choice
variable {m : PathManager} {now b : Int} {c : DirectCand} {ep : Endpoint}

/-! ## The scan -/

theorem best_argmin (m : PathManager) (now : Int) :
    m.best now = (m.cands.filter (alive now)).argmin score := by
  rw [best, List.argmin, List.foldl_filter]
  congr 1
  funext b c
  cases halive : alive now c with
  | false => rw [Bool.false_and, if_neg (by simp), if_neg (by simp)]
  | true =>
      rw [Bool.true_and, if_pos rfl]
      cases b with
      | none => rfl
      | some b => simp [List.argAux]

theorem best_none : m.best now = none ↔ ∀ c ∈ m.cands, alive now c = false := by
  rw [best_argmin, List.argmin_eq_none, List.filter_eq_nil_iff]
  simp

theorem best_lowest (h : m.best now = some c) : m.LowestScore now (score c) := by
  obtain ⟨hc, halive⟩ := TableInv.best_alive h
  refine ⟨⟨c, hc, halive, rfl⟩, ?_⟩
  rintro s ⟨c', hc', halive', rfl⟩
  rw [best_argmin] at h
  exact List.le_of_mem_argmin (List.mem_filter.mpr ⟨hc', halive'⟩) h

theorem score_nonneg (h : 0 ≤ c.srtt) : 0 ≤ score c := by
  rw [score]
  split
  · exact h
  · decide

/-- An address that is listed once is found. -/
theorem findCand_mem (distinct : (m.cands.map (·.ep)).Nodup) (hc : c ∈ m.cands) :
    m.findCand c.ep = some c := by
  have hsome : (m.findCand c.ep).isSome = true := findCand_isSome.mpr (List.mem_map_of_mem hc)
  obtain ⟨c', hc'⟩ := Option.isSome_iff_exists.mp hsome
  obtain ⟨hmem, hep⟩ := findCand_some hc'
  rw [hc', List.inj_on_of_nodup_map distinct hmem hc hep]

/-! ## The choice -/

/-- The current one is good enough to stay. -/
def Good (m : PathManager) (now : Int) (b c : DirectCand) : Prop :=
  m.chosen.bind m.findCand = some c ∧ alive now c = true ∧
    score c ≤ score b + (score b).tdiv 4

theorem chooseDirect_none (h : m.best now = none) : (m.chooseDirect now).chosen = none := by
  simp only [chooseDirect, h]
  split
  · rename_i heq
    cases heq
  · rfl

theorem chooseDirect_good (h : m.best now = some c) {cur : DirectCand} (good : m.Good now c cur) :
    (m.chooseDirect now).chosen = some cur.ep := by
  obtain ⟨hcur, halive, hscore⟩ := good
  simp [chooseDirect, h, hcur, halive, hscore]

theorem chooseDirect_best (h : m.best now = some c) (bad : ∀ cur, ¬ m.Good now c cur) :
    (m.chooseDirect now).chosen = some c.ep := by
  simp only [chooseDirect, h]
  cases hcur : m.chosen.bind m.findCand with
  | none => rfl
  | some cur =>
      have hno : (alive now cur && decide (score cur ≤ score c + (score c).tdiv 4)) = false := by
        rw [Bool.and_eq_false_imp]
        intro halive
        exact decide_eq_false fun hscore => bad cur ⟨hcur, halive, hscore⟩
      simp only [hno, Bool.false_eq_true, if_false, Option.map_some]

/-- The candidates that may stay, by the lowest score. -/
theorem good_iff (distinct : (m.cands.map (·.ep)).Nodup) (timed : m.Timed)
    (h : m.best now = some c) (cur : DirectCand) :
    m.Good now c cur ↔ cur ∈ m.cands ∧ m.chosen = some cur.ep ∧ alive now cur = true ∧
      score cur ≤ score c + score c / 4 := by
  have hnonneg : 0 ≤ score c := score_nonneg (timed c (TableInv.best_alive h).1)
  rw [Good, Int.tdiv_eq_ediv_of_nonneg hnonneg]
  constructor
  · rintro ⟨hcur, hrest⟩
    obtain ⟨ep, hep, hfind⟩ := Option.bind_eq_some_iff.mp hcur
    obtain ⟨hmem, rfl⟩ := findCand_some hfind
    exact ⟨hmem, hep, hrest⟩
  · rintro ⟨hmem, hep, hrest⟩
    refine ⟨?_, hrest⟩
    rw [hep, Option.bind_some]
    exact findCand_mem distinct hmem

theorem chooseDirect_confirmed (m : PathManager) (now : Int) :
    (m.chooseDirect now).directConfirmed = (m.chooseDirect now).chosen.isSome := by
  simp only [chooseDirect, Option.isSome_map]

theorem updateTxPath_chose (distinct : (m.cands.map (·.ep)).Nodup) (timed : m.Timed) (now : Int) :
    Chose now m (m.updateTxPath now) := by
  obtain ⟨hcands, hchosen, -, htx⟩ := updateTxPath_table m now
  rw [chooseDirect_confirmed] at htx
  have hdirect : (m.updateTxPath now).txPath = .direct ↔
      (m.updateTxPath now).chosen.isSome = true ∧ m.forceRelay = false := by
    rw [htx, hchosen]
    cases (m.chooseDirect now).chosen.isSome <;> cases m.forceRelay <;> simp
  cases hbest : m.best now with
  | none =>
      have hdead := best_none.mp hbest
      have hnone := hchosen.trans (chooseDirect_none hbest)
      have hno : ∀ b, ¬ m.LowestScore now b := by
        rintro b ⟨⟨c, hc, halive, -⟩, -⟩
        rw [hdead c hc] at halive
        cases halive
      exact ⟨hcands, iff_of_true hnone hdead, fun b hb => absurd hb (hno b),
        fun b hb => absurd hb (hno b), fun b hb => absurd hb (hno b), hdirect⟩
  | some c =>
      obtain ⟨hc, halive⟩ := TableInv.best_alive hbest
      have hlow : ∀ b, m.LowestScore now b → b = score c :=
        fun b hb => hb.unique (best_lowest hbest)
      have hgood := good_iff distinct timed hbest
      have hnonneg : 0 ≤ score c := score_nonneg (timed c hc)
      -- the current one stays, or the best is taken
      have hcases : (∃ cur, m.Good now c cur ∧ (m.updateTxPath now).chosen = some cur.ep) ∨
          (∀ cur, ¬ m.Good now c cur) ∧ (m.updateTxPath now).chosen = some c.ep := by
        rw [hchosen]
        by_cases hex : ∃ cur, m.Good now c cur
        · obtain ⟨cur, hcur⟩ := hex
          exact .inl ⟨cur, hcur, chooseDirect_good hbest hcur⟩
        · exact .inr ⟨not_exists.mp hex, chooseDirect_best hbest (not_exists.mp hex)⟩
      refine ⟨hcands, iff_of_false ?_ ?_, ?_, ?_, ?_, hdirect⟩
      · rcases hcases with ⟨cur, -, heq⟩ | ⟨-, heq⟩
        · rw [heq]
          exact Option.some_ne_none _
        · rw [heq]
          exact Option.some_ne_none _
      · intro hdead
        rw [hdead c hc] at halive
        cases halive
      · intro b hb ep hep
        rw [hlow b hb]
        rcases hcases with ⟨cur, hcur, heq⟩ | ⟨-, heq⟩
        · obtain ⟨hmem, -, halive, hscore⟩ := (hgood cur).mp hcur
          rw [heq, Option.some.injEq] at hep
          exact ⟨cur, hmem, hep, halive, hscore⟩
        · rw [heq, Option.some.injEq] at hep
          exact ⟨c, hc, hep, halive, by omega⟩
      · intro b hb cur hmem hep halive hscore
        rw [hlow b hb] at hscore
        rcases hcases with ⟨cur', hcur', heq⟩ | ⟨hno, -⟩
        · have hep' := ((hgood cur').mp hcur').2.1
          rw [heq, ← hep', hep]
        · exact absurd ((hgood cur).mpr ⟨hmem, hep, halive, hscore⟩) (hno cur)
      · intro b hb hno
        rw [hlow b hb] at hno ⊢
        rcases hcases with ⟨cur, hcur, -⟩ | ⟨-, heq⟩
        · obtain ⟨hmem, hrest⟩ := (hgood cur).mp hcur
          exact absurd ⟨cur, hmem, hrest⟩ hno
        · exact ⟨c, hc, heq, halive, rfl⟩

end Choice

/-! ## Runs -/

section Runs
variable {mac : MacFn} {m : PathManager} {e : Event} {now : Int} {op : TableOp} {ep : Endpoint}

theorem Timed.apply (h : m.Timed) (hop : ∀ ep rtt, op = .pong ep rtt → 0 ≤ rtt) :
    (apply now m op).Timed := by
  intro c hc
  have changed : ∀ (ep : Endpoint) (f : DirectCand → DirectCand),
      (∀ c, 0 ≤ c.srtt → 0 ≤ (f c).srtt) → c ∈ onCand ep f m.cands → 0 ≤ c.srtt := by
    intro ep f hf hc
    rcases mem_onCand hc with hc | ⟨c₀, hc₀, -, rfl⟩
    · exact h c hc
    · exact hf c₀ (h c₀ hc₀)
  have added : ∀ (cs : List DirectCand) (new : DirectCand), (∀ c ∈ cs, c ∈ m.cands) →
      new.srtt = 0 → c ∈ cs ++ [new] → 0 ≤ c.srtt := by
    intro cs new sub hnew hc
    rcases List.mem_append.mp hc with hc | hc
    · exact h c (sub c hc)
    · rw [List.mem_singleton.mp hc, hnew]
  cases op with
  | add ep lan =>
      simp only [PathManager.apply, addCand] at hc
      split at hc
      · exact h c hc
      split at hc
      · exact changed ep (fun c => { c with lan := c.lan || lan, learned := now }) (fun _ h => h) hc
      split at hc
      · split at hc
        · exact added _ _ (fun _ => List.mem_of_mem_eraseP) rfl hc
        · exact h c hc
      · exact added _ _ (fun _ => id) rfl hc
  | touch ep =>
      simp only [PathManager.apply, touchCand] at hc
      split at hc
      · exact changed ep (fun c => { c with lastRx := now }) (fun _ h => h) hc
      split at hc
      · exact h c hc
      · exact added _ _ (fun _ => id) rfl hc
  | pong ep rtt =>
      refine changed ep (measure rtt now) (fun c hc => ?_) hc
      have hrtt := hop ep rtt rfl
      simp only [measure]
      split
      · exact Int.tdiv_nonneg (by omega) (by decide)
      · exact hrtt
  | prune => exact h c (List.mem_filter.mp hc).1
  | update =>
      rw [PathManager.apply, (updateTxPath_table m now).1] at hc
      exact h c hc

theorem Timed.applyAll (h : m.Timed) {ops : List TableOp}
    (hops : ∀ ep rtt, .pong ep rtt ∈ ops → 0 ≤ rtt) : (applyAll now m ops).Timed := by
  induction ops generalizing m with
  | nil => exact h
  | cons op ops ih =>
      exact ih (h.apply fun ep rtt heq => hops ep rtt (heq ▸ List.mem_cons_self))
        fun ep rtt hop => hops ep rtt (List.mem_cons_of_mem _ hop)

/-- A round trip counts as one millisecond at least. -/
theorem rtt_of_tableOps {rtt : Int} (h : .pong ep rtt ∈ m.tableOps mac e) : 0 ≤ rtt := by
  cases e with
  | tick now d =>
      simp only [tableOps] at h
      split at h
      · cases h
      split at h
      · simp at h
      · simp at h
  | datagram src raw now wg =>
      rcases op_of_process h with ⟨_, _, hop⟩ | ⟨hop, -⟩ | ⟨hop, -⟩
      · cases hop
      · cases hop
      · cases hop
        exact (Int.zero_le_ofNat 1).trans (le_max_left _ _)
  | lanQuery src pkt now =>
      simp only [tableOps] at h
      split at h
      · simp at h
      · cases h
  | addCandidate ep now => simp [tableOps] at h
  | _ => cases h

theorem Timed.step (h : m.Timed) : (m.step mac e).Timed := by
  have happ : (PathManager.applyAll (e.time.getD 0) m (m.tableOps mac e)).Timed :=
    h.applyAll fun ep rtt => rtt_of_tableOps
  intro c hc
  rw [(step_table mac m e).cands] at hc
  exact happ c hc

theorem timed_run (mac : MacFn) (cfg : PathConfig) (locals : List Endpoint) (es : List Event) :
    (run mac (start cfg locals) es).Timed := by
  induction es using List.reverseRecOn with
  | nil => exact fun c hc => by cases hc
  | append_singleton es e ih =>
      rw [run_concat]
      exact ih.step

theorem update_of_mem_tableOps (h : .update ∈ m.tableOps mac e) : ∃ now d, e = .tick now d := by
  cases e with
  | tick now d => exact ⟨now, d, rfl⟩
  | datagram src raw now wg =>
      rcases op_of_process h with ⟨_, _, hop⟩ | ⟨hop, -⟩ | ⟨hop, -⟩
      · cases hop
      · cases hop
      · cases hop
  | lanQuery src pkt now =>
      simp only [tableOps] at h
      split at h
      · simp at h
      · cases h
  | addCandidate ep now => simp [tableOps] at h
  | _ => cases h

/-- A choice that is not the one before was made by a tick, at its end. -/
theorem chosen_changed (h : (m.step mac e).chosen ≠ m.chosen) :
    ∃ now d m₁, e = .tick now d ∧ (m₁ = m ∨ m₁ = m.pruneCands now) ∧
      Same (m₁.updateTxPath now) (m.step mac e) := by
  have hsame := step_table mac m e
  by_cases hup : .update ∈ m.tableOps mac e
  · obtain ⟨now, d, rfl⟩ := update_of_mem_tableOps hup
    simp only [tableOps] at hsame hup
    split at hup
    · cases hup
    rename_i hactive
    rw [if_neg hactive] at hsame
    split at hsame
    · exact ⟨now, d, m.pruneCands now, rfl, .inr rfl, hsame⟩
    · exact ⟨now, d, m, rfl, .inl rfl, hsame⟩
  · rw [hsame.chosen, chosen_applyAll hup] at h
    exact absurd rfl h

/-- A candidate that an update leaves is dead, or more than a quarter above the lowest score. -/
theorem Chose.left {m' : PathManager} (h : Chose now m m') (inv : TableInv m)
    (hchosen : m.chosen = some ep) (hleft : m'.chosen ≠ some ep) :
    ∃ c ∈ m.cands, c.ep = ep ∧
      (alive now c = false ∨ ∃ b, m.LowestScore now b ∧ b + b / 4 < score c) := by
  obtain ⟨c, hc, rfl⟩ := inv.listed ep hchosen
  refine ⟨c, hc, rfl, ?_⟩
  cases halive : alive now c with
  | false => exact .inl rfl
  | true =>
      obtain ⟨b, hb⟩ : ∃ b, m.LowestScore now b := by
        cases hbest : m.best now with
        | none =>
            rw [best_none.mp hbest c hc] at halive
            cases halive
        | some b => exact ⟨score b, best_lowest hbest⟩
      refine .inr ⟨b, hb, ?_⟩
      by_contra hnear
      exact hleft (h.stays b hb c hc hchosen halive (by omega))

end Runs

/-- After an update the choice is the best alive candidate, or the one before while that is alive
and within a quarter of it; and over a run a choice is only left when it is dead or slower. -/
theorem path_choice (mac : MacFn) :
    (∀ (m : PathManager) (now : Int), (m.cands.map (·.ep)).Nodup → m.Timed →
      Chose now m (m.updateTxPath now)) ∧
    ∀ (cfg : PathConfig) (locals : List Endpoint) (es : List Event),
      ((run mac (start cfg locals) es).cands.map (·.ep)).Nodup ∧
      (run mac (start cfg locals) es).Timed ∧
      ∀ e ep, (run mac (start cfg locals) es).chosen = some ep →
        (run mac (start cfg locals) (es ++ [e])).chosen ≠ some ep →
        ∃ now d, e = .tick now d ∧
          ∃ c ∈ (run mac (start cfg locals) (es ++ [e])).cands, c.ep = ep ∧
            (alive now c = false ∨
              ∃ b, (run mac (start cfg locals) (es ++ [e])).LowestScore now b ∧
                b + b / 4 < score c) := by
  refine ⟨fun m now distinct timed => updateTxPath_chose distinct timed now,
    fun cfg locals es => ?_⟩
  have hinv := tableInv_run mac cfg locals es
  have htimed := timed_run mac cfg locals es
  refine ⟨hinv.distinct, htimed, fun e ep hchosen hleft => ?_⟩
  rw [run_concat] at hleft ⊢
  generalize run mac (start cfg locals) es = m at hinv htimed hchosen hleft ⊢
  obtain ⟨now, d, m₁, rfl, hm₁, hsame⟩ := chosen_changed (hchosen ▸ hleft)
  have hpruned : TableInv m₁ ∧ m₁.Timed ∧ m₁.chosen = some ep := by
    rcases hm₁ with rfl | rfl
    · exact ⟨hinv, htimed, hchosen⟩
    · have pruned : (apply now m .prune).Timed := htimed.apply (by simp)
      exact ⟨hinv.pruneCands now, pruned, hchosen⟩
  obtain ⟨hinv₁, htimed₁, hchosen₁⟩ := hpruned
  have hcands := hsame.cands.trans (updateTxPath_table m₁ now).1
  rw [hsame.chosen] at hleft
  obtain ⟨c, hc, hep, hwhy⟩ :=
    (updateTxPath_chose hinv₁.distinct htimed₁ now).left hinv₁ hchosen₁ hleft
  refine ⟨now, d, rfl, c, hcands ▸ hc, hep, ?_⟩
  simp only [LowestScore, hcands]
  exact hwhy

/-- The current candidate at 100 ms beside one at 85: not slow enough to be left. -/
def twoPaths : PathManager :=
  { start plainConfig [] with
    cands := [{ ep := peerAt, lastRx := 1000, srtt := 100 },
      { ep := { port := 4001 }, lastRx := 1000, srtt := 85 }]
    chosen := some peerAt, directConfirmed := true }

theorem path_choice_two : (twoPaths.cands.map (·.ep)).Nodup ∧ twoPaths.Timed ∧
    Chose 1500 twoPaths (twoPaths.updateTxPath 1500) ∧
    (twoPaths.updateTxPath 1500).chosen = some peerAt ∧
    ((run zeroMac (start plainConfig []) probedRun).cands.map (·.ep)).Nodup :=
  ⟨by decide, by unfold Timed; decide,
    (path_choice zeroMac).1 twoPaths 1500 (by decide) (by unfold Timed; decide), by decide,
    ((path_choice zeroMac).2 plainConfig [] probedRun).1⟩

end Splice.Peer.PathManager
