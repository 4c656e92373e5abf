import Splice.Peer.CandTable

/-!
The table of candidates over whole runs. Addresses are listed once and at most sixteen
of them, the chosen one is among them, and one that has ever answered is only dropped
by the housekeeping, after two minutes in which nobody named it and nothing came from
it.
-/

namespace Splice.Peer.PathManager
open Proto

structure TableInv (m : PathManager) : Prop where
  distinct : (m.cands.map (·.ep)).Nodup
  few : m.cands.length ≤ kMaxCands
  listed : ∀ ep, m.chosen = some ep → ∃ c ∈ m.cands, c.ep = ep
  confirmed : m.directConfirmed = true ↔ m.chosen.isSome = true
  direct : m.txPath = .direct → m.chosen.isSome = true

theorem TableInv.same {m m' : PathManager} (h : TableInv m) (same : Same m m') : TableInv m' := by
  constructor
  · rw [same.cands]
    exact h.distinct
  · rw [same.cands]
    exact h.few
  · rw [same.cands, same.chosen]
    exact h.listed
  · rw [same.confirmed, same.chosen]
    exact h.confirmed
  · rw [same.txPath, same.chosen]
    exact h.direct

/-! ## Changing one entry -/

section OnCand
variable {ep : Endpoint} {f : DirectCand → DirectCand} {cs : List DirectCand} {c : DirectCand}

theorem onCand_eps (hf : ∀ c, (f c).ep = c.ep) (cs : List DirectCand) :
    (onCand ep f cs).map (·.ep) = cs.map (·.ep) := by
  induction cs with
  | nil => rfl
  | cons a cs ih =>
      rw [onCand]
      split
      · rw [List.map_cons, List.map_cons, hf]
      · rw [List.map_cons, List.map_cons, ih]

theorem onCand_length (hf : ∀ c, (f c).ep = c.ep) (cs : List DirectCand) :
    (onCand ep f cs).length = cs.length := by
  rw [← List.length_map (f := (·.ep)), onCand_eps hf, List.length_map]

/-- An entry is changed if it is the one, and stays otherwise. -/
theorem mem_onCand_of_mem (distinct : (cs.map (·.ep)).Nodup) (hc : c ∈ cs) :
    (if c.ep = ep then f c else c) ∈ onCand ep f cs := by
  induction cs with
  | nil => cases hc
  | cons a cs ih =>
      rw [List.map_cons, List.nodup_cons] at distinct
      rw [onCand]
      rcases List.mem_cons.mp hc with rfl | hc
      · split
        · exact List.mem_cons_self
        · exact List.mem_cons_self
      · have hne : c.ep ≠ a.ep := fun h => distinct.1 (h ▸ List.mem_map_of_mem hc)
        by_cases ha : a.ep = ep
        · rw [if_pos ha, if_neg (ha ▸ hne)]
          exact List.mem_cons_of_mem _ hc
        · rw [if_neg ha]
          exact List.mem_cons_of_mem _ (ih distinct.2 hc)

/-- After it every entry is changed or another. -/
theorem of_mem_onCand (distinct : (cs.map (·.ep)).Nodup) (hc : c ∈ onCand ep f cs) :
    (c ∈ cs ∧ c.ep ≠ ep) ∨ ∃ c₀ ∈ cs, c₀.ep = ep ∧ c = f c₀ := by
  induction cs with
  | nil => cases hc
  | cons a cs ih =>
      rw [List.map_cons, List.nodup_cons] at distinct
      rw [onCand] at hc
      split at hc
      · rename_i ha
        rcases List.mem_cons.mp hc with rfl | hc
        · exact .inr ⟨a, List.mem_cons_self, ha, rfl⟩
        · refine .inl ⟨List.mem_cons_of_mem a hc, fun h => distinct.1 ?_⟩
          rw [ha, ← h]
          exact List.mem_map_of_mem hc
      · rename_i ha
        rcases List.mem_cons.mp hc with rfl | hc
        · exact .inl ⟨List.mem_cons_self, ha⟩
        · rcases ih distinct.2 hc with ⟨hc, hne⟩ | ⟨c₀, hc₀, hep, rfl⟩
          · exact .inl ⟨List.mem_cons_of_mem a hc, hne⟩
          · exact .inr ⟨c₀, List.mem_cons_of_mem a hc₀, hep, rfl⟩

end OnCand

section Ops
variable {m : PathManager} {now : Int} {ep : Endpoint} {c : DirectCand}

theorem findCand_isSome : (m.findCand ep).isSome = true ↔ ep ∈ m.cands.map (·.ep) := by
  rw [findCand, List.find?_isSome, List.mem_map]
  simp

theorem findCand_some (h : m.findCand ep = some c) : c ∈ m.cands ∧ c.ep = ep :=
  ⟨List.mem_of_find?_eq_some h, by simpa using List.find?_some h⟩

/-! ## Keeping the invariant -/

namespace TableInv

/-- An entry's times change. -/
theorem changed (h : TableInv m) {f : DirectCand → DirectCand} (hf : ∀ c, (f c).ep = c.ep)
    (ep : Endpoint) : TableInv { m with cands := onCand ep f m.cands } := by
  refine { h with distinct := ?_, few := ?_, listed := fun ep' hep => ?_ }
  · rw [onCand_eps hf]
    exact h.distinct
  · rw [onCand_length hf]
    exact h.few
  · obtain ⟨c, hc, rfl⟩ := h.listed ep' hep
    exact List.mem_map.mp ((onCand_eps hf m.cands).symm ▸ List.mem_map_of_mem hc)

/-- Entries go, but not the chosen one, and a new one comes. -/
theorem added (h : TableInv m) {cs : List DirectCand} (sub : cs.Sublist m.cands)
    (few : cs.length < kMaxCands) (kept : ∀ c ∈ m.cands, m.chosen = some c.ep → c ∈ cs)
    (new : c.ep ∉ m.cands.map (·.ep)) : TableInv { m with cands := cs ++ [c] } := by
  refine { h with distinct := ?_, few := ?_, listed := fun ep hep => ?_ }
  · rw [List.map_append, List.nodup_append]
    refine ⟨h.distinct.sublist (sub.map _), by simp, fun ep hep ep' hep' => ?_⟩
    rw [List.map_cons, List.map_nil, List.mem_singleton] at hep'
    rw [hep']
    exact fun heq => new (heq ▸ (sub.map _).subset hep)
  · rw [List.length_append, List.length_singleton]
    exact few
  · obtain ⟨c', hc', rfl⟩ := h.listed ep hep
    exact ⟨c', List.mem_append_left _ (kept c' hc' hep), rfl⟩

theorem addCand (h : TableInv m) (ep : Endpoint) (lan : Bool) (now : Int) :
    TableInv (m.addCand ep lan now) := by
  simp only [PathManager.addCand]
  split
  · exact h
  split
  · exact h.changed (f := fun c => { c with lan := c.lan || lan, learned := now }) (fun _ => rfl) ep
  · rename_i hnew
    rw [findCand_isSome] at hnew
    split
    · split
      · rename_i hdead
        refine h.added List.eraseP_sublist ?_ (fun c hc hch => ?_) hnew
        · have hlen := List.length_eraseP (p := fun c : DirectCand =>
            c.lastRx = 0 && m.chosen ≠ some c.ep) (l := m.cands)
          rw [if_pos hdead] at hlen
          have hpos : 0 < kMaxCands := by decide
          have := h.few
          omega
        · rw [List.mem_eraseP_of_neg]
          · exact hc
          · simp [hch]
      · exact h
    · rename_i hroom
      exact h.added (List.Sublist.refl _) (by omega) (fun c hc _ => hc) hnew

theorem touchCand (h : TableInv m) (ep : Endpoint) (now : Int) :
    TableInv (m.touchCand ep now) := by
  simp only [PathManager.touchCand]
  split
  · exact h.changed (f := fun c => { c with lastRx := now }) (fun _ => rfl) ep
  · rename_i hnew
    rw [findCand_isSome] at hnew
    split
    · exact h
    · rename_i hroom
      exact h.added (List.Sublist.refl _) (by omega) (fun c hc _ => hc) hnew

theorem pruneCands (h : TableInv m) (now : Int) : TableInv (m.pruneCands now) := by
  refine { h with distinct := ?_, few := ?_, listed := fun ep hep => ?_ }
  · exact h.distinct.sublist (List.filter_sublist.map _)
  · exact (List.length_filter_le _ _).trans h.few
  · obtain ⟨c, hc, rfl⟩ := h.listed ep hep
    have hchosen : m.chosen = some c.ep := hep
    exact ⟨c, List.mem_filter.mpr ⟨hc, by simp [hchosen]⟩, rfl⟩

/-- The best candidate is one that is alive. -/
theorem best_alive (h : m.best now = some c) : c ∈ m.cands ∧ alive now c = true := by
  have hfold : ∀ (cs : List DirectCand) (b : Option DirectCand),
      cs.foldl (fun b c => if alive now c && b.all (fun b => score c < score b) then some c
        else b) b = some c → (c ∈ cs ∧ alive now c = true) ∨ b = some c := by
    intro cs
    induction cs with
    | nil => exact fun b hb => .inr hb
    | cons a cs ih =>
        intro b hb
        rcases ih _ hb with ⟨hc, halive⟩ | hc
        · exact .inl ⟨List.mem_cons_of_mem a hc, halive⟩
        · dsimp only at hc
          split at hc
          · rename_i hgo
            rw [Bool.and_eq_true] at hgo
            rw [Option.some.injEq] at hc
            exact .inl (hc ▸ ⟨List.mem_cons_self, hgo.1⟩)
          · exact .inr hc
  rcases hfold m.cands none h with hc | hc
  · exact hc
  · cases hc

/-- So is the choice, which is the best or the current candidate. -/
theorem chooseDirect_alive (h : (m.chooseDirect now).chosen = some ep) :
    ∃ c ∈ m.cands, c.ep = ep ∧ alive now c = true := by
  simp only [chooseDirect, Option.map_eq_some_iff] at h
  obtain ⟨c, hc, rfl⟩ := h
  have hcur : ∀ c, m.chosen.bind m.findCand = some c → c ∈ m.cands := by
    intro c hc
    obtain ⟨ep, -, hep⟩ := Option.bind_eq_some_iff.mp hc
    exact (findCand_some hep).1
  cases hbest : m.best now with
  | none =>
      rw [hbest] at hc
      split at hc
      · rename_i heq
        cases heq
      · cases hc
  | some b =>
      obtain ⟨hb, halive⟩ := best_alive hbest
      rw [hbest] at hc
      split at hc
      · rename_i cur b' hcur' heq
        split at hc
        · rename_i hgo
          rw [Bool.and_eq_true] at hgo
          rw [← Option.some.inj hc]
          exact ⟨cur, hcur cur hcur', rfl, hgo.1⟩
        · rw [← Option.some.inj hc, ← Option.some.inj heq]
          exact ⟨b, hb, rfl, halive⟩
      · rw [← Option.some.inj hc]
        exact ⟨b, hb, rfl, halive⟩

theorem updateTxPath (h : TableInv m) (now : Int) : TableInv (m.updateTxPath now) := by
  obtain ⟨hcands, hchosen, hconf, htx⟩ := updateTxPath_table m now
  have hiff : (m.chooseDirect now).directConfirmed = (m.chooseDirect now).chosen.isSome := by
    simp only [chooseDirect, Option.isSome_map]
  constructor
  · rw [hcands]
    exact h.distinct
  · rw [hcands]
    exact h.few
  · rw [hcands, hchosen]
    intro ep hep
    obtain ⟨c, hc, hep, -⟩ := chooseDirect_alive hep
    exact ⟨c, hc, hep⟩
  · rw [hconf, hchosen, hiff]
  · rw [htx, hchosen, ← hiff]
    intro hdirect
    split at hdirect
    · rename_i hgo
      rw [Bool.and_eq_true] at hgo
      exact hgo.2
    · cases hdirect

theorem apply (h : TableInv m) (now : Int) (op : TableOp) : TableInv (apply now m op) := by
  cases op with
  | add ep lan => exact h.addCand ep lan now
  | touch ep => exact h.touchCand ep now
  | pong ep rtt => exact h.changed (f := measure rtt now) (fun _ => rfl) ep
  | prune => exact h.pruneCands now
  | update => exact h.updateTxPath now

theorem applyAll (h : TableInv m) (now : Int) (ops : List TableOp) :
    TableInv (applyAll now m ops) := by
  induction ops generalizing m with
  | nil => exact h
  | cons op ops ih => exact ih (h.apply now op)

end TableInv

theorem tableInv_start (cfg : PathConfig) (locals : List Endpoint) :
    TableInv (start cfg locals) where
  distinct := List.nodup_nil
  few := Nat.zero_le _
  listed _ h := by cases h
  confirmed := by simp [start]
  direct h := by cases h

theorem tableInv_step (mac : MacFn) (h : TableInv m) (e : Event) : TableInv (m.step mac e) :=
  (h.applyAll _ _).same (step_table mac m e)

theorem tableInv_run (mac : MacFn) (cfg : PathConfig) (locals : List Endpoint) (es : List Event) :
    TableInv (run mac (start cfg locals) es) := by
  induction es using List.reverseRecOn with
  | nil => exact tableInv_start cfg locals
  | append_singleton es e ih =>
      rw [run_concat]
      exact tableInv_step mac ih e

/-! ## The times of an entry -/

/-- What an operation leaves of an entry: a time of the call is put in, or it is as before. -/
structure Follows (now : Int) (m : PathManager) (c' : DirectCand) : Prop where
  lastRx : c'.lastRx = 0 ∨ c'.lastRx = now ∨ ∃ c ∈ m.cands, c.ep = c'.ep ∧ c'.lastRx = c.lastRx
  learned : c'.learned = now ∨ ∃ c ∈ m.cands, c.ep = c'.ep ∧ c'.learned = c.learned

theorem Follows.same (hc : c ∈ m.cands) : Follows now m c :=
  ⟨.inr (.inr ⟨c, hc, rfl, rfl⟩), .inr ⟨c, hc, rfl, rfl⟩⟩

/-- After an operation an entry it is about has the time of the call in it, and any other is
untouched. -/
theorem mem_apply (h : TableInv m) {op : TableOp} {c' : DirectCand}
    (hc : c' ∈ (apply now m op).cands) :
    Follows now m c' ∧ ((c' ∈ m.cands ∧ ¬ op.About c'.ep) ∨ c'.lastRx = now ∨ c'.learned = now) := by
  have old : c' ∈ m.cands → ¬ op.About c'.ep → Follows now m c' ∧
      ((c' ∈ m.cands ∧ ¬ op.About c'.ep) ∨ c'.lastRx = now ∨ c'.learned = now) :=
    fun hc hn => ⟨.same hc, .inl ⟨hc, hn⟩⟩
  cases op with
  | add ep lan =>
      simp only [apply, addCand] at hc
      split at hc
      · rename_i hinv
        refine old hc fun habout => ?_
        rw [← habout.1] at habout
        simp [habout.2] at hinv
      split at hc
      · rcases of_mem_onCand (f := fun c => { c with lan := c.lan || lan, learned := now })
          h.distinct hc with ⟨hc, hne⟩ | ⟨c, hmem, rfl, rfl⟩
        · exact old hc fun habout => hne habout.1.symm
        · exact ⟨⟨.inr (.inr ⟨c, hmem, rfl, rfl⟩), .inl rfl⟩, .inr (.inr rfl)⟩
      · rename_i hnew
        rw [findCand_isSome] at hnew
        have hold : ∀ {c : DirectCand}, c ∈ m.cands → ¬ TableOp.About c.ep (.add ep lan) := by
          rintro c hmem ⟨rfl, -⟩
          exact hnew (List.mem_map_of_mem hmem)
        split at hc
        · split at hc
          · rcases List.mem_append.mp hc with hc | hc
            · exact old (List.mem_of_mem_eraseP hc) (hold (List.mem_of_mem_eraseP hc))
            · rw [List.mem_singleton.mp hc]
              exact ⟨⟨.inl rfl, .inl rfl⟩, .inr (.inr rfl)⟩
          · exact old hc (hold hc)
        · rcases List.mem_append.mp hc with hc | hc
          · exact old hc (hold hc)
          · rw [List.mem_singleton.mp hc]
            exact ⟨⟨.inl rfl, .inl rfl⟩, .inr (.inr rfl)⟩
  | touch ep =>
      simp only [apply, touchCand] at hc
      split at hc
      · rcases of_mem_onCand (f := fun c => { c with lastRx := now }) h.distinct hc with
          ⟨hc, hne⟩ | ⟨c, hmem, rfl, rfl⟩
        · exact old hc fun habout => hne habout.symm
        · exact ⟨⟨.inr (.inl rfl), .inr ⟨c, hmem, rfl, rfl⟩⟩, .inr (.inl rfl)⟩
      · rename_i hnew
        rw [findCand_isSome] at hnew
        have hold : ∀ {c : DirectCand}, c ∈ m.cands → ¬ TableOp.About c.ep (.touch ep) := by
          rintro c hmem rfl
          exact hnew (List.mem_map_of_mem hmem)
        split at hc
        · exact old hc (hold hc)
        · rcases List.mem_append.mp hc with hc | hc
          · exact old hc (hold hc)
          · rw [List.mem_singleton.mp hc]
            exact ⟨⟨.inr (.inl rfl), .inl rfl⟩, .inr (.inr rfl)⟩
  | pong ep rtt =>
      rcases of_mem_onCand (f := measure rtt now) h.distinct hc with
        ⟨hc, hne⟩ | ⟨c, hmem, rfl, rfl⟩
      · exact old hc fun habout => hne habout.symm
      · exact ⟨⟨.inr (.inl rfl), .inr ⟨c, hmem, rfl, rfl⟩⟩, .inr (.inl rfl)⟩
  | prune => exact old (List.mem_filter.mp hc).1 id
  | update =>
      rw [apply, (updateTxPath_table m now).1] at hc
      exact old hc id

/-- Only the housekeeping drops an entry that has answered. -/
theorem apply_keeps (h : TableInv m) {op : TableOp} (hop : op ≠ .prune) (hc : c ∈ m.cands)
    (proven : c.lastRx ≠ 0) (hnow : now ≠ 0) :
    ∃ c' ∈ (apply now m op).cands, c'.ep = c.ep ∧ c'.lastRx ≠ 0 := by
  have changed : ∀ (ep : Endpoint) (f : DirectCand → DirectCand), (∀ c, (f c).ep = c.ep) →
      (∀ c, c.lastRx ≠ 0 → (f c).lastRx ≠ 0) →
      ∃ c' ∈ onCand ep f m.cands, c'.ep = c.ep ∧ c'.lastRx ≠ 0 := by
    intro ep f hf hrx
    refine ⟨_, mem_onCand_of_mem h.distinct hc, ?_⟩
    split
    · exact ⟨hf c, hrx c proven⟩
    · exact ⟨rfl, proven⟩
  have kept : ∀ cs : List DirectCand, c ∈ cs → ∃ c' ∈ cs, c'.ep = c.ep ∧ c'.lastRx ≠ 0 :=
    fun cs hcs => ⟨c, hcs, rfl, proven⟩
  cases op with
  | add ep lan =>
      simp only [apply, addCand]
      split
      · exact kept _ hc
      split
      · exact changed ep _ (fun _ => rfl) fun _ h => h
      split
      · split
        · refine kept _ (List.mem_append_left _ ?_)
          rw [List.mem_eraseP_of_neg]
          · exact hc
          · simp [proven]
        · exact kept _ hc
      · exact kept _ (List.mem_append_left _ hc)
  | touch ep =>
      simp only [apply, touchCand]
      split
      · exact changed ep _ (fun _ => rfl) fun _ _ => hnow
      split
      · exact kept _ hc
      · exact kept _ (List.mem_append_left _ hc)
  | pong ep rtt => exact changed ep (measure rtt now) (fun _ => rfl) fun _ _ => hnow
  | prune => exact absurd rfl hop
  | update =>
      rw [apply, (updateTxPath_table m now).1]
      exact kept _ hc

/-- All of a call's operations. -/
theorem mem_applyAll (h : TableInv m) {ops : List TableOp} {c' : DirectCand}
    (hc : c' ∈ (applyAll now m ops).cands) :
    Follows now m c' ∧ ((c' ∈ m.cands ∧ ∀ op ∈ ops, ¬ op.About c'.ep) ∨
      c'.lastRx = now ∨ c'.learned = now) := by
  induction ops generalizing m with
  | nil => exact ⟨.same hc, .inl ⟨hc, fun op hop => by cases hop⟩⟩
  | cons op ops ih =>
      obtain ⟨⟨hrx, hlearned⟩, hlast⟩ := ih (h.apply now op) hc
      constructor
      · constructor
        · rcases hrx with h0 | hn | ⟨c, hmem, hep, hr⟩
          · exact .inl h0
          · exact .inr (.inl hn)
          · rcases (mem_apply h hmem).1.lastRx with h0 | hn | ⟨c₀, hmem₀, hep₀, hr₀⟩
            · exact .inl (hr.trans h0)
            · exact .inr (.inl (hr.trans hn))
            · exact .inr (.inr ⟨c₀, hmem₀, hep₀.trans hep, hr.trans hr₀⟩)
        · rcases hlearned with hn | ⟨c, hmem, hep, hl⟩
          · exact .inl hn
          · rcases (mem_apply h hmem).1.learned with hn | ⟨c₀, hmem₀, hep₀, hl₀⟩
            · exact .inl (hl.trans hn)
            · exact .inr ⟨c₀, hmem₀, hep₀.trans hep, hl.trans hl₀⟩
      · rcases hlast with ⟨hmem, hnone⟩ | hstamp
        · rcases (mem_apply h hmem).2 with ⟨hmem₀, hnone₀⟩ | hstamp
          · refine .inl ⟨hmem₀, fun op' hop' => ?_⟩
            rcases List.mem_cons.mp hop' with rfl | hop'
            · exact hnone₀
            · exact hnone op' hop'
          · exact .inr hstamp
        · exact .inr hstamp

theorem applyAll_keeps (h : TableInv m) {ops : List TableOp} (hops : .prune ∉ ops)
    (hc : c ∈ m.cands) (proven : c.lastRx ≠ 0) (hnow : now ≠ 0) :
    ∃ c' ∈ (applyAll now m ops).cands, c'.ep = c.ep ∧ c'.lastRx ≠ 0 := by
  induction ops generalizing m c with
  | nil => exact ⟨c, hc, rfl, proven⟩
  | cons op ops ih =>
      rw [List.mem_cons, not_or] at hops
      obtain ⟨c₁, hc₁, hep₁, hrx₁⟩ := apply_keeps h (Ne.symm hops.1) hc proven hnow
      obtain ⟨c₂, hc₂, hep₂, hrx₂⟩ := ih (h.apply now op) hops.2 hc₁ hrx₁
      exact ⟨c₂, hc₂, hep₂.trans hep₁, hrx₂⟩

end Ops

/-! ## Runs -/

/-- The clock counts from the start of the machine. -/
def FromZero (es : List Event) : Prop := ∀ e ∈ es, ∀ t, e.time = some t → 0 ≤ t

/-- Some call of the run named the address or heard from it, at this time. -/
def NamedAt (mac : MacFn) (m : PathManager) (es : List Event) (ep : Endpoint) (t : Int) : Prop :=
  ∃ pre e post, es = pre ++ e :: post ∧ e.time = some t ∧
    ∃ op ∈ (run mac m pre).tableOps mac e, op.About ep

section Runs
variable {mac : MacFn} {m₀ m : PathManager} {es : List Event} {e : Event}

theorem namedAt_concat {ep : Endpoint} {t : Int} (h : NamedAt mac m₀ (es ++ [e]) ep t) :
    NamedAt mac m₀ es ep t ∨
      e.time = some t ∧ ∃ op ∈ (run mac m₀ es).tableOps mac e, op.About ep := by
  obtain ⟨pre, e', post, heq, ht, hop⟩ := h
  rcases List.eq_nil_or_concat post with rfl | ⟨post, a, rfl⟩
  · obtain ⟨rfl, hlast⟩ := List.append_inj' heq rfl
    rw [List.cons.injEq] at hlast
    rw [hlast.1]
    exact .inr ⟨ht, hop⟩
  · rw [List.concat_eq_append, ← List.cons_append, ← List.append_assoc] at heq
    obtain ⟨rfl, -⟩ := List.append_inj' heq rfl
    exact .inl ⟨pre, e', post, rfl, ht, hop⟩

theorem namedAt_mem {ep : Endpoint} {t : Int} (h : NamedAt mac m₀ es ep t) :
    ∃ e ∈ es, e.time = some t := by
  obtain ⟨pre, e, post, rfl, ht, -⟩ := h
  exact ⟨e, by simp, ht⟩

/-- The times in the table are times of the run, and the latest at which an entry was named. -/
structure Stamped (mac : MacFn) (m₀ : PathManager) (es : List Event) (m : PathManager) : Prop where
  nonneg : ∀ c ∈ m.cands, 0 ≤ c.lastRx
  past : ∀ now, 0 ≤ now → (∀ e ∈ es, ∀ t, e.time = some t → t ≤ now) →
    ∀ c ∈ m.cands, c.lastRx ≤ now ∧ c.learned ≤ now
  latest : ∀ c ∈ m.cands, ∀ t, NamedAt mac m₀ es c.ep t → t ≤ max c.lastRx c.learned

theorem tableOps_timeless (h : e.time = none) : m.tableOps mac e = [] := by
  cases e with
  | tick | datagram | lanQuery | addCandidate => cases h
  | _ => rfl

/-- A call that does not look at the clock leaves the table alone. -/
theorem step_timeless (h : e.time = none) : (m.step mac e).cands = m.cands := by
  rw [(step_table mac m e).cands, tableOps_timeless h]
  rfl

theorem Stamped.next (inv : TableInv (run mac m₀ es)) (h : Stamped mac m₀ es (run mac m₀ es))
    (steady : ∀ e' ∈ es, ∀ t now, e'.time = some t → e.time = some now → t ≤ now)
    (fromZero : ∀ t, e.time = some t → 0 ≤ t) :
    Stamped mac m₀ (es ++ [e]) ((run mac m₀ es).step mac e) := by
  cases htime : e.time with
  | none =>
      have hcands : ((run mac m₀ es).step mac e).cands = (run mac m₀ es).cands :=
        step_timeless htime
      constructor
      · rw [hcands]
        exact h.nonneg
      · rw [hcands]
        exact fun now hnow hpast => h.past now hnow fun e' he' =>
          hpast e' (List.mem_append_left _ he')
      · rw [hcands]
        intro c hc t hnamed
        rcases namedAt_concat hnamed with hnamed | ⟨ht, -⟩
        · exact h.latest c hc t hnamed
        · rw [htime] at ht
          cases ht
  | some now =>
      have hcands := (step_table mac (run mac m₀ es) e).cands
      rw [htime, Option.getD_some] at hcands
      have hnow := fromZero now htime
      have hbefore : ∀ e' ∈ es, ∀ t, e'.time = some t → t ≤ now :=
        fun e' he' t ht => steady e' he' t now ht htime
      have hmem := fun c' (hc' : c' ∈ ((run mac m₀ es).step mac e).cands) =>
        mem_applyAll inv (hcands ▸ hc')
      constructor
      · intro c' hc'
        rcases (hmem c' hc').1.lastRx with h0 | hn | ⟨c, hc, -, heq⟩
        · rw [h0]
        · rw [hn]
          exact hnow
        · rw [heq]
          exact h.nonneg c hc
      · intro now' hnow' hpast c' hc'
        have hle : now ≤ now' := hpast e (by simp) now htime
        have hold := h.past now' hnow' fun e' he' => hpast e' (List.mem_append_left _ he')
        constructor
        · rcases (hmem c' hc').1.lastRx with h0 | hn | ⟨c, hc, -, heq⟩
          · rw [h0]
            exact hnow'
          · rw [hn]
            exact hle
          · rw [heq]
            exact (hold c hc).1
        · rcases (hmem c' hc').1.learned with hn | ⟨c, hc, -, heq⟩
          · rw [hn]
            exact hle
          · rw [heq]
            exact (hold c hc).2
      · intro c' hc' t hnamed
        have hle : t ≤ now := by
          rcases namedAt_concat hnamed with hnamed | ⟨ht, -⟩
          · obtain ⟨e', he', ht⟩ := namedAt_mem hnamed
            exact hbefore e' he' t ht
          · rw [htime] at ht
            exact (Option.some.inj ht).ge
        rcases (hmem c' hc').2 with ⟨hc, hnone⟩ | hstamp | hstamp
        · rcases namedAt_concat hnamed with hnamed | ⟨-, op, hop, habout⟩
          · exact h.latest c' hc t hnamed
          · exact absurd habout (hnone op hop)
        · rw [hstamp]
          exact hle.trans (le_max_left _ _)
        · rw [hstamp]
          exact hle.trans (le_max_right _ _)

end Runs

theorem stamped_run (mac : MacFn) (cfg : PathConfig) (locals : List Endpoint) (es : List Event)
    (steady : Steady es) (fromZero : FromZero es) :
    Stamped mac (start cfg locals) es (run mac (start cfg locals) es) := by
  induction es using List.reverseRecOn with
  | nil =>
      constructor
      · exact fun c hc => by cases hc
      · exact fun now _ _ c hc => by cases hc
      · exact fun c hc => by cases hc
  | append_singleton es e ih =>
      rw [run_concat]
      refine .next (tableInv_run mac cfg locals es) (ih ?_ ?_) ?_ ?_
      · rw [Steady, List.filterMap_append, List.pairwise_append] at steady
        exact steady.1
      · exact fun e' he' => fromZero e' (List.mem_append_left _ he')
      · exact fun e' he' t now ht hnow => steady_le steady he' ht hnow
      · exact fromZero e (by simp)

/-- In every run the table keeps its invariant, and an entry that has ever answered stays unless
the housekeeping finds it not chosen and neither named nor heard from for two minutes. -/
theorem candidate_table (mac : MacFn) (cfg : PathConfig) (locals : List Endpoint)
    (es : List Event) (steady : Steady es) (fromZero : FromZero es) :
    TableInv (run mac (start cfg locals) es) ∧
    ∀ pre e post, es = pre ++ e :: post →
      ∀ c ∈ (run mac (start cfg locals) pre).cands, c.lastRx ≠ 0 →
        (∃ c' ∈ (run mac (start cfg locals) (pre ++ [e])).cands, c'.ep = c.ep ∧ c'.lastRx ≠ 0) ∨
        ∃ now d, e = .tick now d ∧ .prune ∈ (run mac (start cfg locals) pre).tableOps mac e ∧
          (run mac (start cfg locals) pre).chosen ≠ some c.ep ∧
          ∀ t, NamedAt mac (start cfg locals) pre c.ep t → kCandStaleMs < now - t := by
  refine ⟨tableInv_run mac cfg locals es, ?_⟩
  rintro pre e post rfl c hc proven
  have hinv := tableInv_run mac cfg locals pre
  have hstamped := stamped_run mac cfg locals pre
    (by
      rw [Steady, List.filterMap_append, List.pairwise_append] at steady
      exact steady.1)
    fun e' he' => fromZero e' (List.mem_append_left _ he')
  rw [run_concat]
  generalize hm : run mac (start cfg locals) pre = m at hc hinv hstamped ⊢
  have hcands := (step_table mac m e).cands
  cases htime : e.time with
  | none =>
      refine .inl ⟨c, ?_, rfl, proven⟩
      rw [step_timeless htime]
      exact hc
  | some now =>
      rw [htime, Option.getD_some] at hcands
      have hnow : now ≠ 0 := by
        have hle := hstamped.past now (fromZero e (by simp) now htime)
          (fun e' he' t ht => steady_le steady he' ht htime) c hc
        have hpos := hstamped.nonneg c hc
        omega
      by_cases hprune : .prune ∈ m.tableOps mac e
      · obtain ⟨now', d, rfl, hops⟩ := prune_of_tableOps hprune
        cases htime
        rw [hops] at hcands
        have hkept : ((m.step mac (.tick now d)).cands) = (m.pruneCands now).cands := by
          rw [hcands]
          exact (updateTxPath_table (m.pruneCands now) now).1
        by_cases hstays : c ∈ (m.pruneCands now).cands
        · exact .inl ⟨c, hkept ▸ hstays, rfl, proven⟩
        · simp only [pruneCands, List.mem_filter, hc, true_and, Bool.or_eq_true,
            decide_eq_true_eq, Bool.not_eq_true', decide_eq_false_iff_not, not_or,
            not_not] at hstays
          refine .inr ⟨now, d, rfl, hprune, hstays.1, fun t hnamed => ?_⟩
          have hle := hstamped.latest c hc t hnamed
          have hstale := hstays.2
          omega
      · rw [hcands]
        exact .inl (applyAll_keeps hinv hprune hc proven hnow)

theorem candidate_table_probed : Steady (probedRun ++ [pongEvent]) ∧
    FromZero (probedRun ++ [pongEvent]) ∧
    TableInv (run zeroMac (start plainConfig []) (probedRun ++ [pongEvent])) ∧
    (run zeroMac (start plainConfig []) (probedRun ++ [pongEvent])).cands.map (·.lastRx) = [1010] := by
  have fromZero : FromZero (probedRun ++ [pongEvent]) := by
    intro e he t ht
    simp only [probedRun, pongEvent, List.cons_append, List.nil_append, List.mem_cons,
      List.not_mem_nil, or_false] at he
    rcases he with rfl | rfl | rfl | rfl <;> cases ht <;> decide
  exact ⟨by decide, fromZero,
    (candidate_table zeroMac plainConfig [] (probedRun ++ [pongEvent]) (by decide) fromZero).1,
    by decide +kernel⟩

end Splice.Peer.PathManager
