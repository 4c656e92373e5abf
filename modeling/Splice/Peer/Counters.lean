import Mathlib.Data.Set.Card
import Mathlib.Logic.Relation
import Splice.Peer.LocalEnds
import Splice.Peer.Work

/-!
The counters of a registration against the instances it spawned. Whatever the daemon does
with a session is a sequence of small turns: nothing these look at, a registration offered
or dropped, an instance made, closed or bound to a registration. The counters count the
live instances with the registration's serial, and a serial stays with the registration
it was made for.
-/

namespace Splice.Peer
open Lib Relation

namespace Instance

/-- `i'` is the instance `i` later, spawned by the same registration if by any. -/
structure Kin (i i' : Instance) : Prop where
  reg : i'.reg = i.reg
  serial : i'.regSerial = i.regSerial
  waits : i'.isOpen = false → i.isOpen = false

theorem Kin.refl (i : Instance) : Kin i i := ⟨rfl, rfl, id⟩

end Instance

namespace Session

/-- The live instances that the registration with this serial spawned. -/
def users (s : Session) (serial : Nat) : Nat :=
  (s.insts.toList.filter fun e => e.2.regSerial = serial).length

/-- One small change of a session; `ok` is what holds of a registration that is taken up. -/
inductive Turn (ok : Reg → Prop) (s s' : Session) : Prop
  | quiet (regs : s'.regs = s.regs) (serial : s'.nextRegSerial = s.nextRegSerial)
      (next : s.nextId ≤ s'.nextId)
      (kin : ∀ id : Nat, Option.Rel Instance.Kin (s.insts[id]?) (s'.insts[id]?))
  | offered (name : Bytes) (reg : Reg)
      (unused : reg.started = 0 ∧ reg.active = 0 ∧ reg.finished = 0)
      (is : s' = s.addReg name reg)
  | dropped (name : Bytes) (is : s' = { s with regs := s.regs.erase name })
  | added (i : Instance) (unbound : i.regSerial = 0)
      (is : s' = { s.putInst s.nextId i with nextId := s.nextId + 1 })
  | closed (id : Nat) (is : s' = s.closeInstance id)
  | spawned (src : SourceFs) (id : Nat) (i : Instance) (line : Bytes) (reg : Reg)
      (retire : List Nat) (there : s.insts[id]? = some i) (waits : i.isOpen = false)
      (offer : s.regs[line]? = some reg) (quota : ¬ Exhausted reg) (taken : ok reg)
      (is : s' = { s.putInst id (bindReg src i line (spawnReg reg)) with
        regs := s.regs.insert line (spawnReg reg), wantRetire := retire })

/-- Any number of them. -/
abbrev Turns (ok : Reg → Prop) : Session → Session → Prop := ReflTransGen (Turn ok)

section Operations
variable {ok : Reg → Prop} {s s' : Session} {id : Nat} {i : Instance}

theorem turn_same (regs : s'.regs = s.regs) (serial : s'.nextRegSerial = s.nextRegSerial)
    (next : s.nextId ≤ s'.nextId) (insts : s'.insts = s.insts) : Turn ok s s' := by
  refine .quiet regs serial next fun id => ?_
  rw [insts]
  cases s.insts[id]? with
  | none => exact .none
  | some i => exact .some (.refl i)

/-- An instance changes that is there. -/
theorem turn_change (hi : s.insts[id]? = some i) {i' : Instance} (kin : Instance.Kin i i') :
    Turn ok s (s.putInst id i') := by
  refine .quiet rfl rfl le_rfl fun q => ?_
  simp only [putInst, lookup_insert]
  split
  · rename_i hq
    rw [← hq, hi]
    exact .some kin
  · cases s.insts[q]? with
    | none => exact .none
    | some j => exact .some (.refl j)

theorem turns_closeAll (s : Session) (ids : List Nat) :
    Turns ok s (ids.foldl closeInstance s) :=
  foldl_invariant (fun _ id hs _ => hs.tail (.closed id rfl)) .refl

theorem turns_unregister (d : Disk) (s : Session) (name : Bytes) :
    Turns ok s (unregister d s name).2.1 := by
  rw [unregister_regs]
  exact .single (.dropped name rfl)

theorem turns_start (d : Disk) (s : Session) (record : ConnRecord) (object : Nat) :
    Turns ok s (Session.start d s record object) := by
  simp only [Session.start]
  refine foldl_invariant (fun t r ht _ => ht.tail (.offered r.name _ ⟨rfl, rfl, rfl⟩ rfl)) ?_
  exact .single (turn_same rfl rfl le_rfl rfl)

theorem turns_register (src : SourceFs) (d : Disk) (s : Session) (fd : Int) (name : Bytes)
    (toks : List Bytes) : Turns ok s (register src d s fd name toks).2.1 := by
  simp only [register]
  split
  · exact .refl
  · split
    · exact .refl
    · exact .refl
    · split
      · split
        · exact .single (.offered name _ ⟨rfl, rfl, rfl⟩ rfl)
        · exact .refl
      · simp only [registerOwned]
        split
        · exact .refl
        · split
          · exact .refl
          · exact .single (.offered name _ ⟨rfl, rfl, rfl⟩ rfl)

theorem turns_launch {now : Nat} (unbound : i.regSerial = 0) (h : s.launch i now = some s') :
    Turns ok s s' := by
  simp only [launch] at h
  split at h
  · cases h
    exact .single (.added (dial { i with nextDial := now } now) unbound rfl)
  · cases h

theorem turns_run {src : SourceFs} {fd now : Nat} {disk : Disk} {cmd : SessionCmd}
    {r : Disk × Session × Bytes} (hr : SessionCmd.run src fd now disk s cmd = some r) :
    Turns ok s r.2.1 := by
  cases cmd with
  | forceRelay =>
      simp only [SessionCmd.run, forceRelay] at hr
      split at hr
      · cases hr
        exact .refl
      · cases hr
  | register name toks =>
      cases hr
      exact turns_register src disk s fd name toks
  | unregister name =>
      cases hr
      simp only [unregisterCmd]
      split
      · exact turns_unregister disk s name
      · exact .refl
  | openPipe want o type args =>
      simp only [SessionCmd.run, openCmd] at hr
      split at hr
      · split at hr
        · obtain ⟨s', hs', rfl⟩ := Option.map_eq_some_iff.mp hr
          exact turns_launch rfl hs'
        · cases hr
          exact .single (turn_same rfl rfl (Nat.le_succ s.nextId) rfl)
      · split at hr
        · cases hr
          exact .single (turn_same rfl rfl (Nat.le_succ s.nextId) rfl)
        · obtain ⟨s', hs', rfl⟩ := Option.map_eq_some_iff.mp hr
          exact turns_launch rfl hs'
  | query want =>
      obtain ⟨s', hs', rfl⟩ := Option.map_eq_some_iff.mp hr
      exact turns_launch rfl hs'
  | close text =>
      cases hr
      simp only [closeCmd]
      split
      · exact .single (.closed _ rfl)
      · exact .refl

theorem turns_reset (d : Disk) (s : Session) : Turns ok s (Session.reset d s).2 := by
  simp only [Session.reset]
  refine .trans ?_ (turns_closeAll _ _)
  refine foldl_invariant (I := fun e : Disk × Session × List Nat => Turns ok s e.2.1) ?_ .refl
  exact fun e name he _ => he.trans (turns_unregister e.1 e.2.1 name)

theorem turns_ownerGone (d : Disk) (s : Session) (name : Bytes) (serial : Nat) (fd : Int) :
    Turns ok s (Session.ownerGone d s name serial fd).2 := by
  simp only [Session.ownerGone]
  refine .trans ?_ (turns_closeAll _ _)
  split
  · exact .refl
  · split
    · exact turns_unregister d s name
    · exact .refl

theorem turns_tick (d : Disk) (s : Session) (now : Nat) : Turns ok s (Session.tick d s now).2 := by
  simp only [Session.tick]
  generalize hs : (if s.busy then { s with lastActive := now } else s) = s₁
  have h₁ : Turns ok s s₁ := by
    rw [← hs]
    split
    · exact .single (turn_same rfl rfl le_rfl rfl)
    · exact .refl
  split
  · have hclosed : Turns ok s s₁.drainClose :=
      (h₁.trans (turns_closeAll s₁ s₁.wantClose)).tail (turn_same rfl rfl le_rfl rfl)
    have hretire : Turns ok s (s₁.drainClose.wantRetire.foldl retire (d, s₁.drainClose)).2 := by
      refine foldl_invariant (I := fun e : Disk × Session => Turns ok s e.2) ?_ hclosed
      intro e serial he _
      simp only [retire]
      split
      · exact he
      · exact he.trans (turns_unregister e.1 e.2 _)
    refine .trans ?_ (turns_closeAll _ _)
    refine (hretire.tail (turn_same rfl rfl le_rfl rfl)).tail (.quiet rfl rfl le_rfl fun id => ?_)
    simp only [Std.ExtTreeMap.getElem?_map]
    change Option.Rel Instance.Kin ((s₁.drainClose.wantRetire.foldl retire
      (d, s₁.drainClose)).2.insts[id]?) (((s₁.drainClose.wantRetire.foldl retire
      (d, s₁.drainClose)).2.insts[id]?).map fun i => redial i now)
    generalize (s₁.drainClose.wantRetire.foldl retire (d, s₁.drainClose)).2.insts[id]? = o
    cases o with
    | none => exact .none
    | some i =>
        refine .some ?_
        simp only [redial]
        split
        · exact ⟨rfl, rfl, fun h => h⟩
        · exact .refl i
  · exact h₁

theorem turns_gone (s : Session) (id : Nat) : Turns ok s (s.onTunnelGone id) := by
  simp only [onTunnelGone]
  split
  · exact .refl
  · rename_i i hi
    split
    · exact .single (turn_change hi ⟨rfl, rfl, fun h => h⟩)
    · exact .single (.closed id rfl)

theorem turns_connected (s : Session) (id : Nat) : Turns ok s (s.connected id) := by
  simp only [connected]
  split
  · exact .refl
  · rename_i i hi
    exact .single (turn_change hi ⟨rfl, rfl, fun h => (Bool.or_eq_false_iff.mp h).1⟩)

theorem turns_connectFailed (s : Session) (id : Nat) : Turns ok s (s.connectFailed id) := by
  simp only [connectFailed]
  split
  · exact .refl
  · rename_i i hi
    exact .single (turn_change hi ⟨rfl, rfl, fun h => h⟩)

/-! ## Handshakes -/

theorem turns_outboundLine (hi : s.insts[id]? = some i) (waits : i.isOpen = false) (line : Bytes)
    (now : Nat) : Turns ok s (outboundLine s id i line now) := by
  simp only [outboundLine]
  split
  · split
    · exact .single (turn_change hi ⟨rfl, rfl, fun _ => waits⟩)
    · exact .single (.closed id rfl)
  · split
    · exact .single (turn_change hi ⟨rfl, rfl, fun h => h⟩)
    · exact .single (.closed id rfl)

theorem turns_inboundLine (hi : s.insts[id]? = some i) (waits : i.isOpen = false) {src : SourceFs}
    {line : Bytes} (hok : ∀ r, line ≠ str "__PING__" → line ≠ str "__LIST__" →
      s.regs[line]? = some r → ¬ Exhausted r → ok r) :
    Turns ok s (inboundLine src s id i line).1 := by
  simp only [inboundLine]
  split
  · exact .single (.closed id rfl)
  · rename_i hping
    split
    · exact .single (.closed id rfl)
    · rename_i hlist
      split
      · exact .single (.closed id rfl)
      · rename_i r hr
        split
        · exact .single (.closed id rfl)
        · rename_i hquota
          exact .single (.spawned src id i line r _ hi waits hr hquota
            (hok r hping hlist hr hquota) rfl)

theorem turns_preack (s : Session) (id : Nat) (rest : Bytes) : Turns ok s (s.preack id rest) := by
  simp only [preack]
  split
  · exact .refl
  · rename_i i hi
    split
    · exact .single (turn_change hi ⟨rfl, rfl, fun h => h⟩)
    · exact .refl

theorem turns_data {src : SourceFs} {b : Bytes} {now : Nat}
    (hok : ∀ r, s.resolved id b = some r → ok r) :
    Turns ok s (s.onTunnelData src id b now).1 := by
  simp only [onTunnelData]
  split
  · exact .refl
  · rename_i i hi
    split
    · exact .refl
    · rename_i hopen
      have waits : i.isOpen = false := Bool.eq_false_iff.mpr hopen
      split
      · rename_i hline
        refine .trans ?_ (turns_preack _ id _)
        have hfirst : Turn ok s (s.putInst id { i with lbuf := [] }) :=
          turn_change hi ⟨rfl, rfl, fun h => h⟩
        have hi' : (s.putInst id { i with lbuf := [] }).insts[id]? = some { i with lbuf := [] } := by
          simp [putInst]
        refine .head hfirst ?_
        simp only [handshakeLine]
        split
        · rename_i hin
          refine turns_inboundLine hi' waits fun r hping hlist hr hquota => hok r ?_
          have hr' : s.regs[(i.lbuf ++ b).takeWhile (· ≠ newline)]? = some r := hr
          have hbranch : i.inbound = true ∧ i.isOpen = false ∧ newline ∈ i.lbuf ++ b :=
            ⟨hin, waits, hline⟩
          simp only [resolved, requestLine, hi, Option.bind_some, if_pos hbranch, hping, hlist,
            or_self, if_false, hr', if_neg hquota]
        · exact turns_outboundLine hi' waits _ now
      · split
        · exact .single (.closed id rfl)
        · exact .single (turn_change hi ⟨rfl, rfl, fun h => h⟩)

end Operations

theorem pm_keeps (pm : Option Nat) : Keeps fun _ s => s.pm = pm where
  same _ _ _ h hface := (congrArg Face.pm hface).trans h
  spawned _ _ _ _ _ h _ hface := (congrArg Face.pm hface).trans h
  unregister d s name h := (congrArg Face.pm (face_unregister d s name)).trans h
  register src d s fd name toks h := by
    have hreg := register_cases src d s fd name toks
    generalize (register src d s fd name toks).1 = d' at hreg ⊢
    generalize (register src d s fd name toks).2.1 = s' at hreg ⊢
    cases hreg <;> exact h

/-- Work on a session is turns, and leaves it its path manager. -/
theorem works_of_turns {ok : Reg → Prop} {P : Session → Prop}
    (keep : ∀ s s', Turns ok s s' → s'.pm = s.pm → P s → P s') :
    Works (fun _ s id b _ => ∀ r, s.resolved id b = some r → ok r) P where
  run _ _ _ _ s _ _ h hr := keep s _ (turns_run hr) ((pm_keeps s.pm).run rfl hr) h
  reset disk s h := keep s _ (turns_reset disk s) ((pm_keeps s.pm).reset (d := disk) rfl) h
  tick disk s now h := keep s _ (turns_tick disk s now) ((pm_keeps s.pm).tick (d := disk) rfl now) h
  ownerGone disk s name serial fd h := keep s _ (turns_ownerGone disk s name serial fd)
    ((pm_keeps s.pm).ownerGone (d := disk) rfl name serial fd) h
  accept s h := keep s _ (.single (.added { inbound := true, conn := true } rfl rfl)) rfl h
  gone s id h := keep s _ (turns_gone s id) (congrArg Face.pm (face_onTunnelGone s id)) h
  connected s id h := keep s _ (turns_connected s id) (congrArg Face.pm (face_connected s id)) h
  connectFailed s id h :=
    keep s _ (turns_connectFailed s id) (congrArg Face.pm (face_connectFailed s id)) h
  requestClose s _ h := keep s _ (.single (turn_same rfl rfl le_rfl rfl)) rfl h
  data src s id b now heard h := by
    refine keep s _ (turns_data heard) ?_ h
    rcases onTunnelData_answered src s id b now with ⟨name, o, -, -, hface, -⟩ | ⟨hface, -⟩
    · exact congrArg Face.pm hface
    · exact congrArg Face.pm hface

/-- A property that small turns keep is kept by all work on a session. -/
theorem kept_of_turn {ok : Reg → Prop} {P : Session → Prop} (blank : P {})
    (keep : ∀ s s', Turn ok s s' → P s → P s') :
    Kept 0 (fun _ s id b _ => ∀ r, s.resolved id b = some r → ok r) P := by
  have keeps : ∀ {s s' : Session}, P s → Turns ok s s' → P s' := by
    intro s s' h turns
    induction turns with
    | refl => exact h
    | tail _ turn ih => exact keep _ _ turn ih
  exact {
    works_of_turns fun s s' turns _ h => keeps h turns with
    blank
    start := fun disk s record object _ h => keeps h (turns_start disk s record object)
    named := fun s _ h => keeps h (.single (turn_same rfl rfl le_rfl rfl))
    recorded := fun s _ h => keeps h (.single (turn_same rfl rfl le_rfl rfl)) }

/-! ## The users of a registration -/

section Users
variable {s s' : Session} {serial id : Nat} {i : Instance}

def usersOf (s : Session) (serial : Nat) : Set Nat :=
  {id | ∃ i : Instance, s.insts[id]? = some i ∧ i.regSerial = serial}

theorem users_eq_ncard (s : Session) (serial : Nat) :
    s.users serial = (s.usersOf serial).ncard ∧ (s.usersOf serial).Finite := by
  let ids := (s.insts.toList.filter fun e => e.2.regSerial = serial).map (·.1)
  have hset : (↑ids.toFinset : Set Nat) = s.usersOf serial := by
    ext id
    simp only [List.coe_toFinset, Set.mem_ofPred_eq, usersOf, ids, List.mem_map, List.mem_filter,
      decide_eq_true_eq, Prod.exists, exists_and_right, exists_eq_right,
      Std.ExtTreeMap.mem_toList_iff_getElem?_eq_some]
  have hnodup : ids.Nodup := by
    have hkeys := (s.insts.distinct_keys_toList).filter
      (fun e => decide (e.2.regSerial = serial))
    rw [List.Nodup, List.pairwise_map]
    refine hkeys.imp fun h e => h ?_
    rw [e]
    exact Std.ReflCmp.compare_self
  rw [← hset, Set.ncard_coe_finset, List.toFinset_card_of_nodup hnodup]
  exact ⟨(List.length_map _).symm, ids.toFinset.finite_toSet⟩

theorem users_congr (h : s'.usersOf serial = s.usersOf serial) :
    s'.users serial = s.users serial := by
  rw [(users_eq_ncard s' serial).1, (users_eq_ncard s serial).1, h]

theorem users_quiet (kin : ∀ id : Nat, Option.Rel Instance.Kin (s.insts[id]?) (s'.insts[id]?)) :
    s'.users serial = s.users serial := by
  refine users_congr (Set.ext fun id => ?_)
  have hrel := kin id
  simp only [usersOf, Set.mem_ofPred_eq]
  cases hi : s.insts[id]? with
  | none =>
      rw [hi] at hrel
      generalize s'.insts[id]? = o at hrel
      cases hrel
      simp
  | some i =>
      rw [hi] at hrel
      generalize s'.insts[id]? = o at hrel
      cases hrel with
      | some hkin => simp [hkin.serial]

/-- A new instance, or one that had no registration. -/
theorem users_putInst (h : ∀ j, s.insts[id]? = some j → j.regSerial ≠ serial) :
    (s.putInst id i).users serial = s.users serial + if i.regSerial = serial then 1 else 0 := by
  have hnot : id ∉ s.usersOf serial := fun ⟨j, hj, hs⟩ => h j hj hs
  have hmem : ∀ q, q ∈ (s.putInst id i).usersOf serial ↔
      (q = id ∧ i.regSerial = serial) ∨ q ∈ s.usersOf serial := by
    intro q
    simp only [usersOf, Set.mem_ofPred_eq, putInst, lookup_insert]
    by_cases hq : id = q
    · subst hq
      simpa using fun j hj hs => absurd hs (h j hj)
    · simp [hq, Ne.symm hq]
  rw [(users_eq_ncard s serial).1, (users_eq_ncard (s.putInst id i) serial).1]
  split
  · rename_i hserial
    rw [← Set.ncard_insert_of_notMem hnot (users_eq_ncard s serial).2]
    congr 1
    ext q
    rw [hmem, Set.mem_insert_iff, and_iff_left hserial]
  · rename_i hserial
    congr 1
    ext q
    rw [hmem, or_iff_right (fun hq => hserial hq.2)]

theorem users_closeInstance (hi : s.insts[id]? = some i) :
    s.users serial = (s.closeInstance id).users serial + if i.regSerial = serial then 1 else 0 := by
  have hset : (s.closeInstance id).usersOf serial = s.usersOf serial \ {id} := by
    ext q
    simp only [usersOf, Set.mem_ofPred_eq, closeInstance, hi, lookup_erase, Set.mem_sdiff,
      Set.mem_singleton_iff]
    by_cases hq : id = q
    · simp [hq]
    · simp [hq, Ne.symm hq]
  rw [(users_eq_ncard s serial).1, (users_eq_ncard (s.closeInstance id) serial).1, hset]
  split
  · rename_i hserial
    have hmem : id ∈ s.usersOf serial := ⟨i, hi, hserial⟩
    exact (Set.ncard_sdiff_singleton_add_one hmem (users_eq_ncard s serial).2).symm
  · rename_i hserial
    have hmem : id ∉ s.usersOf serial := by
      rintro ⟨j, hj, hs⟩
      rw [hi, Option.some.injEq] at hj
      exact hserial (hj ▸ hs)
    rw [Set.sdiff_singleton_eq_self hmem]
    rfl

end Users
/-! ## The invariant -/

/-- The counters are exact, and nothing has counted beyond `n`. -/
structure Tallied (n : Nat) (s : Session) : Prop where
  first : 0 < s.nextRegSerial
  serials : ∀ (name : Bytes) (r : Reg), s.regs[name]? = some r →
    0 < r.serial ∧ r.serial < s.nextRegSerial
  distinct : ∀ (name name' : Bytes) (r r' : Reg), s.regs[name]? = some r →
    s.regs[name']? = some r' → r.serial = r'.serial → name = name'
  ids : ∀ (id : Nat) (i : Instance), s.insts[id]? = some i →
    id < s.nextId ∧ i.regSerial < s.nextRegSerial ∧ (i.isOpen = false → i.regSerial = 0)
  home : ∀ (id : Nat) (i : Instance) (name : Bytes) (r : Reg), s.insts[id]? = some i →
    s.regs[name]? = some r → r.serial = i.regSerial → name = i.reg
  active : ∀ (name : Bytes) (r : Reg), s.regs[name]? = some r → r.active = s.users r.serial
  started : ∀ (name : Bytes) (r : Reg), s.regs[name]? = some r →
    r.started = r.active + r.finished ∧ r.started ≤ n
  limit : ∀ (name : Bytes) (r : Reg), s.regs[name]? = some r → r.limit ≠ 0 → r.started ≤ r.limit

theorem tallied_blank (n : Nat) : Tallied n {} where
  first := by decide
  serials _ _ h := by simp at h
  distinct _ _ _ _ h := by simp at h
  ids _ _ h := by simp at h
  home _ _ _ _ h := by simp at h
  active _ _ h := by simp at h
  started _ _ h := by simp at h
  limit _ _ h := by simp at h

theorem Tallied.mono {n n' : Nat} {s : Session} (h : Tallied n s) (hn : n ≤ n') : Tallied n' s :=
  { h with started := fun name r hr => ⟨(h.started name r hr).1, (h.started name r hr).2.trans hn⟩ }

/-- The registration of a name once an instance was counted as finished. -/
theorem countFinished_some {regs : Std.ExtTreeMap Bytes Reg} {i : Instance} {name : Bytes} {r' : Reg}
    (h : (countFinished regs i)[name]? = some r') :
    ∃ r, regs[name]? = some r ∧
      ((i.regSerial ≠ 0 ∧ i.reg = name ∧ r.serial = i.regSerial ∧
        r' = { r with active := (r.active + (2 ^ 64 - 1)) % 2 ^ 64
                      finished := (r.finished + 1) % 2 ^ 64 }) ∨
      (r' = r ∧ (i.regSerial ≠ 0 → i.reg = name → r.serial ≠ i.regSerial))) := by
  simp only [countFinished] at h
  split at h
  · rename_i h0
    exact ⟨r', h, .inr ⟨rfl, fun hne => absurd h0 hne⟩⟩
  rename_i h0
  split at h
  · rename_i hnone
    refine ⟨r', h, .inr ⟨rfl, fun _ hname => ?_⟩⟩
    rw [hname, h] at hnone
    cases hnone
  · rename_i r hr
    split at h
    · rename_i hserial
      rw [lookup_insert] at h
      split at h
      · rename_i hname
        exact ⟨r, hname ▸ hr, .inl ⟨h0, hname, hserial, (Option.some.inj h).symm⟩⟩
      · rename_i hname
        exact ⟨r', h, .inr ⟨rfl, fun _ e => absurd e hname⟩⟩
    · rename_i hserial
      refine ⟨r', h, .inr ⟨rfl, fun _ hname => ?_⟩⟩
      rw [hname, h, Option.some.injEq] at hr
      rwa [hr]

section Tally
variable {n : Nat} {s s' : Session}

theorem Tallied.offered (h : Tallied n s) (name : Bytes) {reg : Reg}
    (unused : reg.started = 0 ∧ reg.active = 0 ∧ reg.finished = 0) :
    Tallied n (s.addReg name reg) := by
  obtain ⟨hstarted, hactive, hfinished⟩ := unused
  -- an entry is the new one or was there before
  have lookup : ∀ {q r}, (s.addReg name reg).regs[q]? = some r →
      (q = name ∧ r = { reg with serial := s.nextRegSerial }) ∨ s.regs[q]? = some r := by
    intro q r hr
    simp only [addReg, lookup_insert] at hr
    split at hr
    · rename_i hq
      exact .inl ⟨hq.symm, (Option.some.inj hr).symm⟩
    · exact .inr hr
  have next : (s.addReg name reg).nextRegSerial = s.nextRegSerial + 1 := rfl
  have none_new : s.users s.nextRegSerial = 0 := by
    rw [(users_eq_ncard s _).1, Set.ncard_eq_zero (users_eq_ncard s _).2]
    refine Set.eq_empty_iff_forall_notMem.mpr ?_
    rintro id ⟨i, hi, hs⟩
    have hlt := (h.ids id i hi).2.1
    omega
  constructor
  · rw [next]
    omega
  · intro q r hr
    rw [next]
    rcases lookup hr with ⟨-, rfl⟩ | hr
    · exact ⟨h.first, Nat.lt_succ_self _⟩
    · have hlt := h.serials q r hr
      omega
  · intro q q' r r' hr hr' heq
    rcases lookup hr with ⟨hq, rfl⟩ | hold
    · rcases lookup hr' with ⟨hq', -⟩ | hold'
      · rw [hq, hq']
      · have hlt := (h.serials q' r' hold').2
        exact absurd heq (by dsimp only; omega)
    · rcases lookup hr' with ⟨-, rfl⟩ | hold'
      · have hlt := (h.serials q r hold).2
        exact absurd heq (by dsimp only; omega)
      · exact h.distinct q q' r r' hold hold' heq
  · intro id i hi
    have hid := h.ids id i hi
    rw [next]
    exact ⟨hid.1, by omega, hid.2.2⟩
  · intro id i q r hi hr heq
    rcases lookup hr with ⟨rfl, rfl⟩ | hr
    · have hlt := (h.ids id i hi).2.1
      exact absurd heq (by dsimp only; omega)
    · exact h.home id i q r hi hr heq
  · intro q r hr
    rcases lookup hr with ⟨-, rfl⟩ | hr
    · exact hactive.trans none_new.symm
    · exact h.active q r hr
  · intro q r hr
    rcases lookup hr with ⟨-, rfl⟩ | hr
    · dsimp only
      omega
    · exact h.started q r hr
  · intro q r hr hlimit
    rcases lookup hr with ⟨-, rfl⟩ | hr
    · dsimp only
      omega
    · exact h.limit q r hr hlimit

theorem Tallied.dropped (h : Tallied n s) (name : Bytes) :
    Tallied n { s with regs := s.regs.erase name } := by
  have lookup : ∀ {q : Bytes} {r : Reg}, (s.regs.erase name)[q]? = some r →
      s.regs[q]? = some r := by
    intro q r hr
    rw [lookup_erase] at hr
    split at hr
    · cases hr
    · exact hr
  exact {
    first := h.first
    serials := fun q r hr => h.serials q r (lookup hr)
    distinct := fun q q' r r' hr hr' => h.distinct q q' r r' (lookup hr) (lookup hr')
    ids := h.ids
    home := fun id i q r hi hr => h.home id i q r hi (lookup hr)
    active := fun q r hr => h.active q r (lookup hr)
    started := fun q r hr => h.started q r (lookup hr)
    limit := fun q r hr => h.limit q r (lookup hr) }

theorem Tallied.quiet (h : Tallied n s) (regs : s'.regs = s.regs)
    (serial : s'.nextRegSerial = s.nextRegSerial) (next : s.nextId ≤ s'.nextId)
    (kin : ∀ id : Nat, Option.Rel Instance.Kin (s.insts[id]?) (s'.insts[id]?)) : Tallied n s' := by
  have back : ∀ {id : Nat} {i' : Instance}, s'.insts[id]? = some i' →
      ∃ i, s.insts[id]? = some i ∧ i.Kin i' := by
    intro id i' hi'
    have hrel := kin id
    rw [hi'] at hrel
    generalize ho : s.insts[id]? = o at hrel
    cases hrel with
    | some hkin => exact ⟨_, rfl, hkin⟩
  constructor
  · rw [serial]
    exact h.first
  · rw [regs, serial]
    exact h.serials
  · rw [regs]
    exact h.distinct
  · intro id i' hi'
    obtain ⟨i, hi, hkin⟩ := back hi'
    obtain ⟨hid, hserial, hwaits⟩ := h.ids id i hi
    rw [serial, hkin.serial]
    exact ⟨hid.trans_le next, hserial, fun hopen => hwaits (hkin.waits hopen)⟩
  · intro id i' name r hi' hr heq
    obtain ⟨i, hi, hkin⟩ := back hi'
    rw [hkin.serial] at heq
    rw [regs] at hr
    rw [hkin.reg]
    exact h.home id i name r hi hr heq
  · rw [regs]
    intro name r hr
    rw [users_quiet kin]
    exact h.active name r hr
  · rw [regs]
    exact h.started
  · rw [regs]
    exact h.limit

theorem Tallied.added (h : Tallied n s) {i : Instance} (unbound : i.regSerial = 0) :
    Tallied n { s.putInst s.nextId i with nextId := s.nextId + 1 } := by
  have lookup : ∀ {id : Nat} {j : Instance}, (s.putInst s.nextId i).insts[id]? = some j →
      (id = s.nextId ∧ j = i) ∨ s.insts[id]? = some j := by
    intro id j hj
    simp only [putInst, lookup_insert] at hj
    split at hj
    · rename_i hid
      exact .inl ⟨hid.symm, (Option.some.inj hj).symm⟩
    · exact .inr hj
  refine { h with ids := ?_, home := ?_, active := ?_ }
  · intro id j hj
    dsimp only
    rcases lookup hj with ⟨rfl, rfl⟩ | hj
    · exact ⟨Nat.lt_succ_self _, unbound ▸ h.first, fun _ => unbound⟩
    · have hid := h.ids id j hj
      exact ⟨hid.1.trans (Nat.lt_succ_self _), hid.2⟩
  · intro id j name r hj hr heq
    rcases lookup hj with ⟨rfl, rfl⟩ | hj
    · have hpos := (h.serials name r hr).1
      omega
    · exact h.home id j name r hj hr heq
  · intro name r hr
    have hpos := (h.serials name r hr).1
    have hnew : ∀ j, s.insts[s.nextId]? = some j → j.regSerial ≠ r.serial :=
      fun j hj => absurd (h.ids _ j hj).1 (Nat.lt_irrefl _)
    have husers := users_putInst (i := i) hnew
    rw [if_neg (by omega)] at husers
    exact (h.active name r hr).trans husers.symm

/-- A close is counted for the registration that spawned the instance, if it is still there. -/
theorem Tallied.closed (h : Tallied n s) (few : n < 2 ^ 32) (id : Nat) :
    Tallied n (s.closeInstance id) := by
  cases hi : s.insts[id]? with
  | none =>
      simp only [closeInstance, hi]
      exact h
  | some i =>
      -- what became of an entry, by whether it spawned the instance
      have entry : ∀ {name : Bytes} {r' : Reg}, (s.closeInstance id).regs[name]? = some r' →
          ∃ r, s.regs[name]? = some r ∧ r'.serial = r.serial ∧ r'.started = r.started ∧
            r'.limit = r.limit ∧ r'.active + (if i.regSerial = r.serial then 1 else 0) = r.active ∧
            r'.finished = r.finished + if i.regSerial = r.serial then 1 else 0 := by
        intro name r' hr'
        simp only [closeInstance, hi] at hr'
        obtain ⟨r, hr, ⟨hne, hname, hserial, rfl⟩ | ⟨rfl, hother⟩⟩ := countFinished_some hr'
        · refine ⟨r, hr, rfl, rfl, rfl, ?_⟩
          rw [if_pos hserial.symm]
          have husers : s.users r.serial = _ := users_closeInstance hi
          rw [if_pos hserial.symm, ← h.active name r hr] at husers
          have hstarted := h.started name r hr
          dsimp only
          omega
        · refine ⟨r', hr, rfl, rfl, rfl, ?_⟩
          have hpos := (h.serials name r' hr).1
          have hne : i.regSerial ≠ r'.serial := by
            intro heq
            exact hother (by omega) (h.home id i name r' hi hr heq.symm).symm heq.symm
          rw [if_neg hne]
          exact ⟨rfl, rfl⟩
      have left : ∀ {q : Nat} {j : Instance}, (s.closeInstance id).insts[q]? = some j →
          s.insts[q]? = some j := by
        intro q j hj
        simp only [closeInstance, hi, lookup_erase] at hj
        split at hj
        · cases hj
        · exact hj
      have next : (s.closeInstance id).nextId = s.nextId ∧
          (s.closeInstance id).nextRegSerial = s.nextRegSerial := by
        simp only [closeInstance, hi, and_self]
      constructor
      · rw [next.2]
        exact h.first
      · intro name r' hr'
        obtain ⟨r, hr, hserial, -⟩ := entry hr'
        rw [hserial, next.2]
        exact h.serials name r hr
      · intro name name' r₁ r₂ hr₁ hr₂ heq
        obtain ⟨r, hr, hserial, -⟩ := entry hr₁
        obtain ⟨r', hr', hserial', -⟩ := entry hr₂
        exact h.distinct name name' r r' hr hr' (hserial.symm.trans (heq.trans hserial'))
      · intro q j hj
        rw [next.1, next.2]
        exact h.ids q j (left hj)
      · intro q j name r' hj hr' heq
        obtain ⟨r, hr, hserial, -⟩ := entry hr'
        exact h.home q j name r (left hj) hr (hserial.symm.trans heq)
      · intro name r' hr'
        obtain ⟨r, hr, hserial, -, -, hactive, -⟩ := entry hr'
        have husers : s.users r.serial = _ := users_closeInstance hi
        rw [← h.active name r hr] at husers
        rw [hserial]
        omega
      · intro name r' hr'
        obtain ⟨r, hr, -, hstarted, -, hactive, hfinished⟩ := entry hr'
        have hs := h.started name r hr
        omega
      · intro name r' hr' hlimit
        obtain ⟨r, hr, -, hstarted, hl, -⟩ := entry hr'
        rw [hstarted, hl]
        exact h.limit name r hr (hl ▸ hlimit)

/-- So is an instance that takes a registration up. -/
theorem Tallied.spawned (h : Tallied n s) (few : n < 2 ^ 32) (src : SourceFs) {id : Nat}
    {i : Instance} {line : Bytes} {reg : Reg} (retire : List Nat) (there : s.insts[id]? = some i)
    (waits : i.isOpen = false) (offer : s.regs[line]? = some reg) (quota : ¬ Exhausted reg)
    (taken : reg.started < n) :
    Tallied n { s.putInst id (bindReg src i line (spawnReg reg)) with
      regs := s.regs.insert line (spawnReg reg), wantRetire := retire } := by
  obtain ⟨hid, -, hunbound⟩ := h.ids id i there
  have hcount := h.started line reg offer
  have hspawn : (spawnReg reg).serial = reg.serial ∧ (spawnReg reg).limit = reg.limit ∧
      (spawnReg reg).started = reg.started + 1 ∧ (spawnReg reg).active = reg.active + 1 ∧
      (spawnReg reg).finished = reg.finished := by
    refine ⟨rfl, rfl, ?_, ?_, rfl⟩
    · simp only [spawnReg]
      omega
    · simp only [spawnReg]
      omega
  obtain ⟨hserial, hlimit, hstarted, hactive, hfinished⟩ := hspawn
  have entry : ∀ {q : Bytes} {r : Reg}, (s.regs.insert line (spawnReg reg))[q]? = some r →
      (q = line ∧ r = spawnReg reg) ∨ (q ≠ line ∧ s.regs[q]? = some r) := by
    intro q r hr
    rw [lookup_insert] at hr
    split at hr
    · rename_i hq
      exact .inl ⟨hq.symm, (Option.some.inj hr).symm⟩
    · rename_i hq
      exact .inr ⟨Ne.symm hq, hr⟩
  have lookup : ∀ {q : Nat} {j : Instance},
      (s.putInst id (bindReg src i line (spawnReg reg))).insts[q]? = some j →
      (q = id ∧ j = bindReg src i line (spawnReg reg)) ∨ s.insts[q]? = some j := by
    intro q j hj
    simp only [putInst, lookup_insert] at hj
    split at hj
    · rename_i hq
      exact .inl ⟨hq.symm, (Option.some.inj hj).symm⟩
    · exact .inr hj
  have husers : ∀ {r : Reg}, 0 < r.serial →
      (s.putInst id (bindReg src i line (spawnReg reg))).users r.serial =
        s.users r.serial + if reg.serial = r.serial then 1 else 0 := by
    intro r hpos
    refine users_putInst (i := bindReg src i line (spawnReg reg)) fun j hj => ?_
    rw [there, Option.some.injEq] at hj
    rw [← hj, hunbound waits]
    omega
  constructor
  · exact h.first
  · intro q r hr
    rcases entry hr with ⟨-, rfl⟩ | ⟨-, hold⟩
    · exact h.serials line reg offer
    · exact h.serials q r hold
  · intro q q' r r' hr hr' heq
    rcases entry hr with ⟨hq, rfl⟩ | ⟨-, hold⟩
    · rcases entry hr' with ⟨hq', -⟩ | ⟨-, hold'⟩
      · rw [hq, hq']
      · rw [hq]
        exact h.distinct line q' reg r' offer hold' heq
    · rcases entry hr' with ⟨hq', rfl⟩ | ⟨-, hold'⟩
      · rw [hq']
        exact h.distinct q line r reg hold offer heq
      · exact h.distinct q q' r r' hold hold' heq
  · intro q j hj
    rcases lookup hj with ⟨rfl, rfl⟩ | hold
    · exact ⟨hid, (h.serials line reg offer).2, fun hopen => by cases hopen⟩
    · exact h.ids q j hold
  · intro q j name r hj hr heq
    have hold : ∃ r₀, s.regs[name]? = some r₀ ∧ r₀.serial = r.serial := by
      rcases entry hr with ⟨rfl, rfl⟩ | ⟨-, hold⟩
      · exact ⟨reg, offer, rfl⟩
      · exact ⟨r, hold, rfl⟩
    obtain ⟨r₀, hr₀, hs₀⟩ := hold
    rcases lookup hj with ⟨-, rfl⟩ | hj
    · exact h.distinct name line r₀ reg hr₀ offer (hs₀.trans heq)
    · exact h.home q j name r₀ hj hr₀ (hs₀.trans heq)
  · intro q r hr
    rcases entry hr with ⟨rfl, rfl⟩ | ⟨hne, hold⟩
    · have hu := husers (r := reg) (h.serials q reg offer).1
      rw [if_pos rfl, ← h.active q reg offer] at hu
      exact hactive.trans hu.symm
    · have hu := husers (h.serials q r hold).1
      rw [if_neg fun heq => hne (h.distinct q line r reg hold offer heq.symm)] at hu
      exact (h.active q r hold).trans hu.symm
  · intro q r hr
    rcases entry hr with ⟨-, rfl⟩ | ⟨-, hold⟩
    · omega
    · exact h.started q r hold
  · intro q r hr hl
    rcases entry hr with ⟨-, rfl⟩ | ⟨-, hold⟩
    · rw [hlimit] at hl ⊢
      rw [hstarted]
      simp only [Exhausted, not_and, not_le] at quota
      exact quota hl
    · exact h.limit q r hold hl

theorem Tallied.turn (h : Tallied n s) (few : n < 2 ^ 32)
    (turn : Turn (fun r => r.started < n) s s') : Tallied n s' := by
  cases turn with
  | quiet regs serial next kin => exact h.quiet regs serial next kin
  | offered name reg unused is =>
      rw [is]
      exact h.offered name unused
  | dropped name is =>
      rw [is]
      exact h.dropped name
  | added i unbound is =>
      rw [is]
      exact h.added unbound
  | closed id is =>
      rw [is]
      exact h.closed few id
  | spawned src id i line reg retire there waits offer quota taken is =>
      rw [is]
      exact h.spawned few src retire there waits offer quota taken

end Tally

/-! ## Serials -/

/-- `s'` is `s` later: a serial that was given out is on the registration it was on, or on none. -/
structure Succeeds (s s' : Session) : Prop where
  next : s.nextRegSerial ≤ s'.nextRegSerial
  kept : ∀ (name : Bytes) (r' : Reg), s'.regs[name]? = some r' → r'.serial < s.nextRegSerial →
    ∃ r, s.regs[name]? = some r ∧ r.serial = r'.serial

theorem Succeeds.refl (s : Session) : Succeeds s s :=
  ⟨le_rfl, fun _ r hr _ => ⟨r, hr, rfl⟩⟩

theorem Succeeds.trans {s s' s'' : Session} (h : Succeeds s s') (h' : Succeeds s' s'') :
    Succeeds s s'' := by
  refine ⟨h.next.trans h'.next, fun name r'' hr'' hlt => ?_⟩
  obtain ⟨r', hr', heq'⟩ := h'.kept name r'' hr'' (hlt.trans_le h.next)
  obtain ⟨r, hr, heq⟩ := h.kept name r' hr' (heq' ▸ hlt)
  exact ⟨r, hr, heq.trans heq'⟩

theorem succeeds_turn {ok : Reg → Prop} {s s' : Session} (turn : Turn ok s s') : Succeeds s s' := by
  cases turn with
  | quiet regs serial next kin =>
      refine ⟨serial.ge, fun name r hr _ => ⟨r, ?_, rfl⟩⟩
      rwa [← regs]
  | offered name reg unused is =>
      rw [is]
      refine ⟨Nat.le_succ _, fun q r hr hlt => ?_⟩
      simp only [addReg, lookup_insert] at hr
      split at hr
      · cases hr
        exact absurd hlt (Nat.lt_irrefl _)
      · exact ⟨r, hr, rfl⟩
  | dropped name is =>
      rw [is]
      refine ⟨le_rfl, fun q r hr _ => ?_⟩
      simp only [lookup_erase] at hr
      split at hr
      · cases hr
      · exact ⟨r, hr, rfl⟩
  | added i unbound is =>
      rw [is]
      exact ⟨le_rfl, fun _ r hr _ => ⟨r, hr, rfl⟩⟩
  | closed id is =>
      rw [is]
      simp only [closeInstance]
      split
      · exact .refl s
      · refine ⟨le_rfl, fun name r' hr' _ => ?_⟩
        obtain ⟨r, hr, ⟨-, -, -, rfl⟩ | ⟨rfl, -⟩⟩ := countFinished_some hr'
        · exact ⟨r, hr, rfl⟩
        · exact ⟨r', hr, rfl⟩
  | spawned src id i line reg retire there waits offer quota taken is =>
      rw [is]
      refine ⟨le_rfl, fun q r hr _ => ?_⟩
      simp only [lookup_insert] at hr
      split at hr
      · rename_i hq
        cases hr
        exact ⟨reg, hq ▸ offer, rfl⟩
      · exact ⟨r, hr, rfl⟩

theorem succeeds_turns (ok : Reg → Prop) {s s' : Session} (turns : Turns ok s s') :
    Succeeds s s' := by
  induction turns with
  | refl => exact .refl s
  | tail _ turn ih => exact ih.trans (succeeds_turn turn)

/-! ## Exact counters -/

/-- The counters of every registration, and what closing an instance does to them. -/
structure Exact (s : Session) : Prop where
  active : ∀ (name : Bytes) (r : Reg), s.regs[name]? = some r → r.active = s.users r.serial
  started : ∀ (name : Bytes) (r : Reg), s.regs[name]? = some r → r.started = r.active + r.finished
  limit : ∀ (name : Bytes) (r : Reg), s.regs[name]? = some r → r.limit ≠ 0 → r.started ≤ r.limit
  serials : ∀ (name : Bytes) (r : Reg), s.regs[name]? = some r → r.serial < s.nextRegSerial
  distinct : ∀ (name name' : Bytes) (r r' : Reg), s.regs[name]? = some r →
    s.regs[name']? = some r' → r.serial = r'.serial → name = name'
  /-- an instance of another registration, gone or not, leaves this one alone -/
  others : ∀ (id : Nat) (i : Instance) (name : Bytes) (r : Reg), s.insts[id]? = some i →
    s.regs[name]? = some r → r.serial ≠ i.regSerial → (s.closeInstance id).regs[name]? = some r
  /-- one of its own is under its name and is counted -/
  own : ∀ (id : Nat) (i : Instance) (name : Bytes) (r : Reg), s.insts[id]? = some i →
    s.regs[name]? = some r → r.serial = i.regSerial → i.reg = name ∧ 0 < r.active

theorem Tallied.exact {n : Nat} {s : Session} (h : Tallied n s) : Exact s where
  active := h.active
  started name r hr := (h.started name r hr).1
  limit := h.limit
  serials name r hr := (h.serials name r hr).2
  distinct := h.distinct
  others id i name r hi hr hne := by
    simp only [closeInstance, hi, countFinished]
    split
    · exact hr
    · split
      · exact hr
      · rename_i r₀ hr₀
        split
        · rename_i hserial
          rw [lookup_insert, if_neg]
          · exact hr
          · intro hname
            rw [hname, hr, Option.some.injEq] at hr₀
            exact hne (hr₀ ▸ hserial)
        · exact hr
  own id i name r hi hr heq := by
    refine ⟨(h.home id i name r hi hr heq).symm, ?_⟩
    have husers : s.users r.serial = _ := users_closeInstance hi
    rw [if_pos heq.symm, ← h.active name r hr] at husers
    omega

end Session

namespace Daemon
open Session

/-- The instances that the registrations of the running daemon have started. -/
def startedBy (d : Daemon) (n : Nat) : DaemonAction → Nat
  | .restart _ => 0
  | .data key id b _ =>
      if ((d.sessions[key]?).bind fun s => s.resolved id b).isSome then n + 1 else n
  | .command _ _ _ | .tick _ | .accept _ | .gone _ _ | .connected _ _ | .connectFailed _ _
    | .requestClose _ _ | .ownerGone _ _ _ _ | .changeFiles _ | .pair _ | .removePeer _
    | .renamePeer _ _ => n

/-- A step, with the count. -/
def countedStep (dn : Daemon × Nat) (act : DaemonAction) : Option (Daemon × Nat) :=
  (dn.1.step act).map fun d => (d, dn.1.startedBy dn.2 act)

theorem tallied_counted {n : Nat} {d d' : Daemon} {act : DaemonAction}
    (h : n < 2 ^ 32 → d.Every (Tallied n)) (hd : d.step act = some d')
    (few : d.startedBy n act < 2 ^ 32) : d'.Every (Tallied (d.startedBy n act)) := by
  have kept : ∀ n', n' < 2 ^ 32 →
      Session.Kept 0 (fun _ s id b _ => ∀ r, s.resolved id b = some r → r.started < n')
        (Tallied n') :=
    fun n' few' => kept_of_turn (tallied_blank n') fun s s' turn hs => hs.turn few' turn
  have mono : ∀ n', n ≤ n' → n' < 2 ^ 32 → d.Every (Tallied n') :=
    fun n' hle few' key s hs => (h (hle.trans_lt few') key s hs).mono hle
  cases act with
  | restart a =>
      cases hd
      exact Every.run (kept 0 (by decide)) d a
  | data key id b now =>
      simp only [startedBy] at few ⊢
      split at few
      · rename_i hsome
        rw [if_pos hsome]
        refine (mono (n + 1) (Nat.le_succ n) few).step (kept _ few) ?_ hd
        intro s hs r hr
        obtain ⟨line, -, hres⟩ := Option.bind_eq_some_iff.mp hr
        split at hres
        · cases hres
        obtain ⟨r', hr', hquota⟩ := Option.bind_eq_some_iff.mp hres
        split at hquota
        · cases hquota
        · rw [Option.some.injEq] at hquota
          subst hquota
          have hle := ((h (by omega) key s hs).started line r' hr').2
          omega
      · rename_i hnone
        rw [if_neg hnone]
        refine (mono n le_rfl few).step (kept n few) ?_ hd
        intro s hs r hr
        exact absurd (by rw [hs, Option.bind_some, hr]; rfl) hnone
  | command _ _ _ | tick _ | accept _ | gone _ _ | connected _ _ | connectFailed _ _
    | requestClose _ _ | ownerGone _ _ _ _ | changeFiles _ | pair _ | removePeer _
    | renamePeer _ _ =>
      refine (mono n le_rfl few).step (kept n few) ?_ hd
      trivial

/-! ## Sessions that go on -/

/-- A session of `d`, later, unless it has no path manager or one made since. -/
def Line (d : Daemon) (s' : Session) : Prop :=
  (∃ (key : Bytes) (s : Session), d.sessions[key]? = some s ∧ s'.pm = s.pm ∧ Succeeds s s') ∨
    ∀ m, s'.pm = some m → d.objects ≤ m

theorem line_kept (d : Daemon) :
    Session.Kept d.objects (fun _ s id b _ => ∀ r, s.resolved id b = some r → True) d.Line := by
  have keep : ∀ s s' : Session, Turns (fun _ => True) s s' → s'.pm = s.pm → d.Line s →
      d.Line s' := by
    rintro s s' turns pm (⟨key, s₀, hs₀, hpm, hsucc⟩ | hnew)
    · exact .inl ⟨key, s₀, hs₀, pm.trans hpm, hsucc.trans (succeeds_turns _ turns)⟩
    · exact .inr (pm ▸ hnew)
  exact {
    works_of_turns keep with
    blank := .inr fun m hm => by cases hm
    start := fun disk s record object later _ => .inr fun m hm => by
      have hpm := congrArg Face.pm (face_start disk s record object)
      cases hpm.symm.trans hm
      exact later
    named := fun s _ h => keep s _ (.single (turn_same rfl rfl le_rfl rfl)) rfl h
    recorded := fun s _ h => keep s _ (.single (turn_same rfl rfl le_rfl rfl)) rfl h }

/-- Whatever the daemon did: the session with a path manager from before is the one that had it
then, later, under whatever name. -/
theorem line_reach {d d' : Daemon} (h : Reach Daemon.step anyStep d d') : d'.Every d.Line := by
  have start : d.Always d.objects d.Line :=
    ⟨le_rfl, fun key s hs => .inl ⟨key, s, hs, rfl, .refl s⟩⟩
  refine (h.invariant (P := fun d₂ : Daemon => d₂.Always d.objects d.Line) start
    fun d₁ act d₂ h₁ _ h₂ => h₁.step (line_kept d) ?_ h₂).every
  cases act with
  | data key id b now => exact fun _ _ _ _ => trivial
  | command _ _ _ | tick _ | accept _ | gone _ _ | connected _ _ | connectFailed _ _
    | requestClose _ _ | ownerGone _ _ _ _ | changeFiles _ | restart _ | pair _
    | removePeer _ | renamePeer _ _ => trivial

/-- Sessions that are there before and after, under one name. -/
def Stays (d d' : Daemon) : Prop :=
  ∀ (key : Bytes) (s s' : Session), d.sessions[key]? = some s → d'.sessions[key]? = some s' →
    Succeeds s s'

section Stays
variable {d d₁ d' : Daemon} {key : Bytes} {a : Answers}

theorem Stays.refl (d : Daemon) : Stays d d := by
  intro key s s' hs hs'
  cases hs.symm.trans hs'
  exact .refl s

theorem Stays.put (h : Stays d d₁) {s' : Session} {disk : Disk}
    (later : ∀ s, d.sessions[key]? = some s → Succeeds s s') :
    Stays d ({ d₁ with disk }.putSession key s') := by
  intro q s t hs ht
  simp only [Daemon.putSession, lookup_insert] at ht
  split at ht
  · rename_i hq
    cases ht
    exact later s (hq ▸ hs)
  · exact h q s t hs ht

theorem stays_sessionFor (d : Daemon) (a : Answers) (peer : Bytes) :
    Stays d (d.sessionFor a peer).1 ∧ ∀ s t, d.sessions[peer]? = some s →
      (d.sessionFor a peer).2 = .ok t → t = s := by
  simp only [Daemon.sessionFor]
  cases hpeer : d.sessions[peer]? with
  | some s =>
      refine ⟨.refl d, fun s' t hs ht => ?_⟩
      cases hs
      cases ht
      rfl
  | none =>
      refine ⟨?_, fun s t hs => by cases hs⟩
      cases d.disk.store.load d.disk.fs peer with
      | none => exact .refl d
      | some record =>
        have started : Stays d (d.startSession a record).1 := by
          simp only [Daemon.startSession]
          split
          · refine Stays.put (.refl d) fun s hs => ?_
            rw [hs, Option.getD_some]
            exact succeeds_turns (fun _ => True) (turns_start d.disk s record d.objects)
          · intro q s t hs ht
            simp only [lookup_erase] at ht
            split at ht
            · cases ht
            · exact Stays.refl d q s t hs ht
        dsimp only
        split
        · rename_i d₁ hd
          rw [hd] at started
          exact started
        · rename_i d₁ hd
          rw [hd] at started
          exact started.put fun s hs => absurd (hpeer.symm.trans hs) (by simp)

theorem stays_onSession {f : Disk → Session → Disk × Session} (hd : d.onSession key f = some d')
    (later : ∀ s, Succeeds s (f d.disk s).2) : Stays d d' := by
  obtain ⟨s, hs, rfl⟩ := Option.map_eq_some_iff.mp hd
  refine Stays.put (.refl d) fun t ht => ?_
  cases hs.symm.trans ht
  exact later s

theorem stays_eachSession {f : Disk → Session → Option (Disk × Session)}
    (hd : d.eachSession f = some d') (later : ∀ disk s r, f disk s = some r → Succeeds s r.2) :
    Stays d d' := by
  refine foldlM_invariant (fun d₁ name d₂ h₁ _ h₂ => ?_) (Stays.refl d) hd
  split at h₂
  · cases h₂
    exact h₁
  · rename_i s hs
    obtain ⟨r, hr, rfl⟩ := Option.map_eq_some_iff.mp h₂
    exact h₁.put fun t ht => (h₁ name t s ht hs).trans (later _ s r hr)

end Stays

/-- Steps after which the sessions have the names they had: all but RELOAD and a restart. -/
def InPlace : DaemonAction → Prop
  | .command _ _ line => parseCmd (tokens line) ≠ .reload
  | .restart _ => False
  | .tick _ | .accept _ | .data _ _ _ _ | .gone _ _ | .connected _ _ | .connectFailed _ _
    | .requestClose _ _ | .ownerGone _ _ _ _ | .changeFiles _ | .pair _ | .removePeer _
    | .renamePeer _ _ => True

theorem stays_step {d d' : Daemon} {act : DaemonAction} (inPlace : InPlace act)
    (hd : d.step act = some d') : Stays d d' := by
  have works : ∀ s₀ : Session, Session.Works
      (fun _ s id b _ => ∀ r, s.resolved id b = some r → True) fun s => Succeeds s₀ s := fun s₀ =>
    works_of_turns fun s s' turns _ hs => hs.trans (succeeds_turns _ turns)
  have dialing : ∀ {key id} {f : Session → Session}, d.onDialing key id f = some d' →
      (∀ s, Succeeds s (f s)) → Stays d d' := by
    intro key id f h later
    simp only [Daemon.onDialing] at h
    split at h
    · split at h
      · exact stays_onSession h later
      · cases h
    · cases h
  cases act with
  | command a fd line =>
      obtain ⟨r, hr, rfl⟩ := Option.map_eq_some_iff.mp hd
      simp only [Daemon.handleCmd] at hr
      split at hr
      · cases hr
        exact .refl d
      · rename_i hreload
        exact absurd hreload inPlace
      · obtain ⟨x, hx, rfl⟩ := Option.map_eq_some_iff.mp hr
        refine stays_eachSession hx fun disk s r hr => ?_
        cases hr
        exact (works s).reset disk s (.refl s)
      · rename_i peer cmd _
        obtain ⟨stays, same⟩ := stays_sessionFor d a peer
        simp only [Daemon.forPeer] at hr
        split at hr
        · rename_i d₁ e he
          rw [he] at stays
          cases hr
          exact stays
        · rename_i d₁ t he
          rw [he] at stays same
          obtain ⟨x, hx, rfl⟩ := Option.map_eq_some_iff.mp hr
          refine stays.put fun s hs => ?_
          cases same s t hs rfl
          exact (works t).run _ _ _ _ t cmd x (.refl t) hx
  | tick now =>
      simp only [Daemon.step, Daemon.tick] at hd
      refine stays_eachSession hd fun disk s r hr => ?_
      split at hr
      · cases hr
        exact (works s).tick disk s now (.refl s)
      · cases hr
  | accept key =>
      simp only [Daemon.step] at hd
      exact stays_onSession hd fun s => (works s).accept s (.refl s)
  | data key id b now =>
      simp only [Daemon.step] at hd
      exact stays_onSession hd fun s => (works s).data _ s id b now (fun _ _ => trivial) (.refl s)
  | gone key id =>
      simp only [Daemon.step] at hd
      exact stays_onSession hd fun s => (works s).gone s id (.refl s)
  | connected key id =>
      simp only [Daemon.step] at hd
      exact dialing hd fun s => (works s).connected s id (.refl s)
  | connectFailed key id =>
      simp only [Daemon.step] at hd
      exact dialing hd fun s => (works s).connectFailed s id (.refl s)
  | requestClose key id =>
      simp only [Daemon.step] at hd
      exact stays_onSession hd fun s => (works s).requestClose s id (.refl s)
  | ownerGone key name serial fd =>
      simp only [Daemon.step] at hd
      exact stays_onSession hd fun s => (works s).ownerGone _ s name serial fd (.refl s)
  | changeFiles files | removePeer name | renamePeer source target =>
      cases hd
      exact Stays.refl d
  | restart a => exact inPlace.elim
  | pair record =>
      simp only [Daemon.step] at hd
      split at hd
      · cases hd
      · cases hd
        exact Stays.refl d

/-- While a daemon has started fewer than 2^32 instances the counters of every registration of
every session are exact. No session gives a serial out again: not the one under a name in a
step that leaves the names, and not the one with a path manager in any number of steps. -/
theorem counters_exact {d₀ d : Daemon} {a : Answers} {n : Nat}
    (h : Reach countedStep anyStep (d₀.run a, 0) (d, n)) (few : n < 2 ^ 32) :
    d.Every Exact ∧
    (∀ act d', InPlace act → d.step act = some d' →
      ∀ (key : Bytes) (s s' : Session), d.sessions[key]? = some s → d'.sessions[key]? = some s' →
        Succeeds s s') ∧
    ∀ d', Reach Daemon.step anyStep d d' →
      ∀ (key' : Bytes) (s' : Session) (m : Nat), d'.sessions[key']? = some s' → s'.pm = some m →
        m < d.objects → ∃ (key : Bytes) (s : Session), d.sessions[key]? = some s ∧
          s.pm = some m ∧ Succeeds s s' := by
  have tallied : n < 2 ^ 32 → d.Every (Tallied n) := by
    refine h.invariant (P := fun dn => dn.2 < 2 ^ 32 → dn.1.Every (Tallied dn.2)) ?_ ?_
    · exact fun _ => Every.run (kept_of_turn (tallied_blank 0)
        fun s s' turn hs => hs.turn (by decide) turn) d₀ a
    · intro dn act dn' hdn _ hstep few'
      obtain ⟨d', hd', rfl⟩ := Option.map_eq_some_iff.mp hstep
      exact tallied_counted hdn hd' few'
  refine ⟨fun key s hs => (tallied few key s hs).exact,
    fun act d' inPlace hd => stays_step inPlace hd, fun d' hd key' s' m hs' hm old => ?_⟩
  rcases line_reach hd key' s' hs' with ⟨key, s, hs, hpm, hsucc⟩ | hnew
  · exact ⟨key, s, hs, hpm.symm.trans hm, hsucc⟩
  · exact absurd (hnew m hm) (Nat.not_le.mpr old)

/-- The registration "e" of a session, with the path manager of the session. -/
def entry (d : Daemon) (key : Bytes) : Option (Option Nat × Reg) :=
  (d.sessions[key]?).bind fun s => (s.regs[str "e"]?).map fun r => (s.pm, r)

theorem entry_some {d : Daemon} {key : Bytes} {pm : Option Nat} {r : Reg}
    (h : d.entry key = some (pm, r)) :
    ∃ s : Session, d.sessions[key]? = some s ∧ s.regs[str "e"]? = some r ∧ s.pm = pm := by
  obtain ⟨s, hs, h⟩ := Option.bind_eq_some_iff.mp h
  obtain ⟨r', hr, h⟩ := Option.map_eq_some_iff.mp h
  cases h
  exact ⟨s, hs, hr, rfl⟩

/-- A registration for three requests with one instance live and one ended; then it is taken
back, bob becomes carol, and her session registers the name again under a serial of its own. -/
theorem counters_exact_requests : ∃ (d d' : Daemon) (s s₀ s' : Session) (r r' : Reg) (key : Bytes),
    d.sessions[str "bob"]? = some s ∧ s.regs[str "e"]? = some r ∧
    (r.limit, r.started, r.active, r.finished) = (3, 2, 1, 1) ∧ r.active = s.users r.serial ∧
    d'.sessions[str "carol"]? = some s' ∧ s'.regs[str "e"]? = some r' ∧
    (r.serial, r'.serial) = (1, 2) ∧
    d.sessions[key]? = some s₀ ∧ s₀.pm = s'.pm ∧ Succeeds s₀ s' := by
  let later : List DaemonAction :=
    [.command {} 3 (str "UNREGISTER bob e"), .renamePeer (str "bob") (str "carol"),
      .command {} 3 (str "RELOAD"), .command {} 3 (str "REGISTER carol e ECHO")]
  obtain ⟨⟨d, n⟩, reached, seen⟩ := Reach.observed countedStep (Sample.daemon.run {}, 0)
    [.pair Sample.record, .command {} 3 (str "RELOAD"),
      .command {} 3 (str "REGISTER bob e LIMIT 3 ECHO"),
      .accept (str "bob"), .data (str "bob") 0 (str "e\n") 5,
      .accept (str "bob"), .data (str "bob") 1 (str "e\n") 6, .gone (str "bob") 0]
    (fun dn => (dn.2, dn.1.objects,
      (dn.1.entry (str "bob")).map fun e =>
        [e.2.serial, e.2.limit, e.2.started, e.2.active, e.2.finished],
      (execWhen Daemon.step (fun _ _ => true) dn.1 later).bind fun d' =>
        (d'.entry (str "carol")).bind fun e => e.1.map fun m => [m, e.2.serial]))
    (o := (2, 1, some [1, 3, 2, 1, 1], some [0, 2])) (by decide +kernel)
  simp only [Prod.mk.injEq] at seen
  obtain ⟨rfl, objects, seen, seen'⟩ := seen
  obtain ⟨⟨pm, r⟩, hentry, counts⟩ := Option.map_eq_some_iff.mp seen
  obtain ⟨d', hd', seen'⟩ := Option.bind_eq_some_iff.mp seen'
  obtain ⟨⟨pm', r'⟩, hentry', seen'⟩ := Option.bind_eq_some_iff.mp seen'
  obtain ⟨m, hm, serial⟩ := Option.map_eq_some_iff.mp seen'
  simp only [List.cons.injEq, and_true] at counts serial
  obtain ⟨s, hs, hr, -⟩ := entry_some hentry
  obtain ⟨s', hs', hr', hpm'⟩ := entry_some hentry'
  have goes : Reach Daemon.step anyStep d d' :=
    Reach.of_execWhen (fun _ _ _ => trivial) later .start hd'
  obtain ⟨exact, -, goesOn⟩ := counters_exact reached (by decide)
  obtain ⟨key, s₀, hs₀, hpm, hsucc⟩ :=
    goesOn d' goes (str "carol") s' m hs' (hpm'.trans hm) (by omega)
  refine ⟨d, d', s, s₀, s', r, r', key, hs, hr, ?_, (exact (str "bob") s hs).active (str "e") r hr,
    hs', hr', ?_, hs₀, hpm.trans (hpm'.trans hm).symm, hsucc⟩
  · simp [counts]
  · simp [counts, serial]

end Daemon
end Splice.Peer
