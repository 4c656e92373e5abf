import Splice.Peer.Everywhere

/-!
What every instance of every session has, whatever the daemon does. A property of single
instances that holds of new ones, does not look at what changes while a connection
lives, and is kept when a handshake ends, holds throughout.
-/

namespace Splice.Peer
open Lib Proto

namespace Instance

/-- The bytes of the tunnel have somewhere to go. -/
def HasEnd (i : Instance) : Prop := i.localEnd ≠ none ∨ 0 ≤ i.cfd

/-- The two agree on what decides whether bytes have somewhere to go. -/
structure Alike (i i' : Instance) : Prop where
  inbound : i'.inbound = i.inbound
  isOpen : i'.isOpen = i.isOpen
  isMeta : i'.isMeta = i.isMeta
  localEnd : i'.localEnd = i.localEnd
  cfd : i'.cfd = i.cfd

/-- A property of instances that every operation keeps; `backed` is what the registrations
that are taken up satisfy. -/
structure Kept (backed : SourceFs → Reg → Prop) (Q : Instance → Prop) : Prop where
  alike : ∀ i i', Alike i i' → Q i → Q i'
  inbound : Q { inbound := true, conn := true }
  launched : ∀ i, i.HasEnd → Q i
  connected : ∀ i, Q i →
    Q { i with conn := true, dialing := false, isOpen := i.isOpen || i.isMeta }
  bound : ∀ src i line r, backed src r → Q (Session.bindReg src i line (Session.spawnReg r))
  opened : ∀ i kind, i.inbound = false → Q i → Q { i with kind, isOpen := true }

end Instance

namespace Session

/-- Every instance has `Q` and a number that was given out. -/
def Instances (Q : Instance → Prop) (s : Session) : Prop :=
  ∀ (id : Nat) (i : Instance), s.insts[id]? = some i → id < s.nextId ∧ Q i

/-- The line of a request that the bytes complete. -/
def requestLine (s : Session) (id : Nat) (b : Bytes) : Option Bytes :=
  (s.insts[id]?).bind fun i =>
    if i.inbound = true ∧ i.isOpen = false ∧ newline ∈ i.lbuf ++ b then
      some ((i.lbuf ++ b).takeWhile (· ≠ newline))
    else none

/-- The registration a request takes up. -/
def resolved (s : Session) (id : Nat) (b : Bytes) : Option Reg :=
  (s.requestLine id b).bind fun line =>
    if line = str "__PING__" ∨ line = str "__LIST__" then none
    else (s.regs[line]?).bind fun r => if Exhausted r then none else some r

/-- What the peer sends takes up only registrations that are backed. -/
def Heard (backed : SourceFs → Reg → Prop) (src : SourceFs) (s : Session) (id : Nat) (b : Bytes)
    (_ : Nat) : Prop :=
  ∀ r, s.resolved id b = some r → backed src r

variable {Q : Instance → Prop} {backed : SourceFs → Reg → Prop} {s s' : Session} {id : Nat}
  {i : Instance}

namespace Instances

theorem of_insts (h : s.Instances Q) (e : s'.insts = s.insts) (next : s.nextId ≤ s'.nextId) :
    s'.Instances Q := by
  intro id i hi
  rw [e] at hi
  exact ⟨(h id i hi).1.trans_le next, (h id i hi).2⟩

theorem putInst (h : s.Instances Q) (hid : id < s.nextId) (hi : Q i) :
    (s.putInst id i).Instances Q := by
  intro q j hj
  simp only [Session.putInst, Std.ExtTreeMap.getElem?_insert,
    Std.LawfulEqCmp.compare_eq_iff_eq] at hj
  split at hj
  · rename_i hq
    cases hj
    exact ⟨hq ▸ hid, hi⟩
  · exact h q j hj

/-- A new instance takes the next number. -/
theorem add (h : s.Instances Q) (hi : Q i) :
    { s.putInst s.nextId i with nextId := s.nextId + 1 }.Instances Q := by
  have grown : { s with nextId := s.nextId + 1 }.Instances Q :=
    h.of_insts rfl (Nat.le_succ s.nextId)
  exact (grown.putInst (Nat.lt_succ_self s.nextId) hi).of_insts rfl le_rfl

theorem closeInstance (h : s.Instances Q) (id : Nat) : (s.closeInstance id).Instances Q := by
  simp only [Session.closeInstance]
  split
  · exact h
  · intro q j hj
    simp only [Std.ExtTreeMap.getElem?_erase, Std.LawfulEqCmp.compare_eq_iff_eq] at hj
    split at hj
    · cases hj
    · exact h q j hj

theorem closeAll (h : s.Instances Q) (ids : List Nat) :
    (ids.foldl Session.closeInstance s).Instances Q :=
  foldl_invariant (fun _ id hs _ => hs.closeInstance id) h

end Instances

/-! ## Operations that leave the instances alone -/

theorem insts_start (disk : Disk) (s : Session) (record : ConnRecord) (object : Nat) :
    (Session.start disk s record object).insts = s.insts ∧
      (Session.start disk s record object).nextId = s.nextId := by
  simp only [Session.start]
  refine foldl_invariant (I := fun t : Session => t.insts = s.insts ∧ t.nextId = s.nextId) ?_
    ⟨rfl, rfl⟩
  exact fun t r ht _ => ht

theorem insts_unregister (disk : Disk) (s : Session) (name : Bytes) :
    (unregister disk s name).2.1.insts = s.insts ∧
      (unregister disk s name).2.1.nextId = s.nextId := by
  simp only [unregister]
  split <;> exact ⟨rfl, rfl⟩

theorem insts_register (src : SourceFs) (disk : Disk) (s : Session) (fd : Int) (name : Bytes)
    (toks : List Bytes) : (register src disk s fd name toks).2.1.insts = s.insts ∧
      (register src disk s fd name toks).2.1.nextId = s.nextId := by
  simp only [register]
  split
  · exact ⟨rfl, rfl⟩
  · split
    · exact ⟨rfl, rfl⟩
    · exact ⟨rfl, rfl⟩
    · split
      · split <;> exact ⟨rfl, rfl⟩
      · simp only [registerOwned]
        split
        · exact ⟨rfl, rfl⟩
        · split <;> exact ⟨rfl, rfl⟩

theorem insts_retire (serials : List Nat) (ds : Disk × Session) :
    (serials.foldl retire ds).2.insts = ds.2.insts ∧
      (serials.foldl retire ds).2.nextId = ds.2.nextId := by
  refine foldl_invariant
    (I := fun e : Disk × Session => e.2.insts = ds.2.insts ∧ e.2.nextId = ds.2.nextId) ?_ ⟨rfl, rfl⟩
  intro e serial he _
  simp only [retire]
  split
  · exact he
  · rename_i name _
    have h := insts_unregister e.1 e.2 name
    exact ⟨h.1.trans he.1, h.2.trans he.2⟩

/-- An OPEN that was not dialed yet. -/
structure Fresh (i : Instance) : Prop where
  inbound : i.inbound = false
  isOpen : i.isOpen = false
  conn : i.conn = false
  lbuf : i.lbuf = []
  hasEnd : i.HasEnd

/-- What a command does to the instances. -/
inductive Ran (now : Nat) (s s' : Session) : Prop
  | same (insts : s'.insts = s.insts) (next : s.nextId ≤ s'.nextId)
  | closed (id : Nat) (is : s' = s.closeInstance id)
  | launched {i : Instance} (fresh : Fresh i)
      (is : s' = { s.putInst s.nextId (dial i now) with nextId := s.nextId + 1 })

theorem ran_launch {i : Instance} (fresh : Fresh i) {now : Nat} (h : s.launch i now = some s') :
    Ran now s s' := by
  simp only [launch] at h
  split at h
  · cases h
    exact .launched ⟨fresh.inbound, fresh.isOpen, fresh.conn, fresh.lbuf, fresh.hasEnd⟩ rfl
  · cases h

theorem ran_of_run {src : SourceFs} {fd now : Nat} {disk : Disk} {cmd : SessionCmd}
    {r : Disk × Session × Bytes} (hr : SessionCmd.run src fd now disk s cmd = some r) :
    Ran now s r.2.1 := by
  cases cmd with
  | forceRelay =>
      simp only [SessionCmd.run, forceRelay] at hr
      split at hr
      · cases hr
        exact .same rfl le_rfl
      · cases hr
  | register name toks =>
      cases hr
      have same := insts_register src disk s fd name toks
      exact .same same.1 same.2.ge
  | unregister name =>
      cases hr
      simp only [unregisterCmd]
      split
      · have same := insts_unregister disk s name
        exact .same same.1 same.2.ge
      · exact .same rfl le_rfl
  | openPipe want o type args =>
      simp only [SessionCmd.run, openCmd] at hr
      split at hr
      · split at hr
        · obtain ⟨s', hs', rfl⟩ := Option.map_eq_some_iff.mp hr
          exact ran_launch ⟨rfl, rfl, rfl, rfl, .inr (Int.natCast_nonneg fd)⟩ hs'
        · cases hr
          exact .same rfl (Nat.le_succ s.nextId)
      · split at hr
        · cases hr
          exact .same rfl (Nat.le_succ s.nextId)
        · obtain ⟨s', hs', rfl⟩ := Option.map_eq_some_iff.mp hr
          exact ran_launch ⟨rfl, rfl, rfl, rfl, .inl (by simp)⟩ hs'
  | query want =>
      obtain ⟨s', hs', rfl⟩ := Option.map_eq_some_iff.mp hr
      exact ran_launch ⟨rfl, rfl, rfl, rfl, .inl (by simp)⟩ hs'
  | close text =>
      cases hr
      simp only [closeCmd]
      split
      · exact .closed _ rfl
      · exact .same rfl le_rfl

namespace Instances

theorem unregister (h : s.Instances Q) (disk : Disk) (name : Bytes) :
    (Session.unregister disk s name).2.1.Instances Q :=
  h.of_insts (insts_unregister disk s name).1 (insts_unregister disk s name).2.ge

/-! ## Operations on instances -/

theorem run {src : SourceFs} {fd now : Nat} {disk : Disk} {cmd : SessionCmd}
    {r : Disk × Session × Bytes} (h : s.Instances Q) (kept : Instance.Kept backed Q)
    (hr : SessionCmd.run src fd now disk s cmd = some r) : r.2.1.Instances Q := by
  cases ran_of_run hr with
  | same insts next => exact h.of_insts insts next
  | closed id is =>
      rw [is]
      exact h.closeInstance id
  | @launched i fresh is =>
      rw [is]
      exact h.add (kept.launched (dial i now) fresh.hasEnd)

theorem dialAll (h : s.Instances Q) (kept : Instance.Kept backed Q) (now : Nat) :
    (s.dialAll now).Instances Q := by
  refine closeAll ?_ _
  intro id i hi
  simp only [Std.ExtTreeMap.getElem?_map] at hi
  obtain ⟨j, hj, rfl⟩ := Option.map_eq_some_iff.mp hi
  refine ⟨(h id j hj).1, ?_⟩
  simp only [redial]
  split
  · exact kept.alike j _ ⟨rfl, rfl, rfl, rfl, rfl⟩ (h id j hj).2
  · exact (h id j hj).2

theorem tick (h : s.Instances Q) (kept : Instance.Kept backed Q) (disk : Disk) (now : Nat) :
    (Session.tick disk s now).2.Instances Q := by
  simp only [Session.tick]
  generalize hs : (if s.busy then { s with lastActive := now } else s) = s₁
  have h₁ : s₁.Instances Q := by
    rw [← hs]
    split
    · exact h
    · exact h
  split
  · have hclosed : s₁.drainClose.Instances Q := (h₁.closeAll s₁.wantClose).of_insts rfl le_rfl
    have same := insts_retire s₁.drainClose.wantRetire (disk, s₁.drainClose)
    have hretired : (s₁.drainClose.drainRetire disk).2.Instances Q :=
      hclosed.of_insts same.1 same.2.ge
    exact hretired.dialAll kept now
  · exact h₁

theorem reset (h : s.Instances Q) (disk : Disk) : (Session.reset disk s).2.Instances Q := by
  simp only [Session.reset]
  refine closeAll ?_ _
  refine foldl_invariant (I := fun e : Disk × Session × List Nat => e.2.1.Instances Q) ?_ h
  exact fun e name he _ => he.unregister e.1 name

theorem ownerGone (h : s.Instances Q) (disk : Disk) (name : Bytes) (serial : Nat) (fd : Int) :
    (Session.ownerGone disk s name serial fd).2.Instances Q := by
  simp only [Session.ownerGone]
  refine closeAll ?_ _
  split
  · exact h
  · split
    · exact h.unregister disk name
    · exact h

/-- A change of an instance that is there. -/
theorem change (h : s.Instances Q) (hi : s.insts[id]? = some i) {i' : Instance} (hq : Q i') :
    (s.putInst id i').Instances Q :=
  h.putInst (h id i hi).1 hq

theorem gone (h : s.Instances Q) (kept : Instance.Kept backed Q) (id : Nat) :
    (s.onTunnelGone id).Instances Q := by
  simp only [onTunnelGone]
  split
  · exact h
  · rename_i i hi
    split
    · exact h.change hi (kept.alike i _ ⟨rfl, rfl, rfl, rfl, rfl⟩ (h id i hi).2)
    · exact h.closeInstance id

theorem connected (h : s.Instances Q) (kept : Instance.Kept backed Q) (id : Nat) :
    (s.connected id).Instances Q := by
  simp only [Session.connected]
  split
  · exact h
  · rename_i i hi
    exact h.change hi (kept.connected i (h id i hi).2)

theorem connectFailed (h : s.Instances Q) (kept : Instance.Kept backed Q) (id : Nat) :
    (s.connectFailed id).Instances Q := by
  simp only [Session.connectFailed]
  split
  · exact h
  · rename_i i hi
    exact h.change hi (kept.alike i _ ⟨rfl, rfl, rfl, rfl, rfl⟩ (h id i hi).2)

/-! ## Handshakes -/

theorem outboundLine (h : s.Instances Q) (kept : Instance.Kept backed Q)
    (there : id < s.nextId) (hi : Q i) (out : i.inbound = false) (line : Bytes) (now : Nat) :
    (Session.outboundLine s id i line now).Instances Q := by
  simp only [Session.outboundLine]
  split
  · split
    · exact h.putInst there (kept.opened i _ out hi)
    · exact h.closeInstance id
  · split
    · exact h.putInst there (kept.alike i _ ⟨rfl, rfl, rfl, rfl, rfl⟩ hi)
    · exact h.closeInstance id

theorem preack (h : s.Instances Q) (kept : Instance.Kept backed Q) (id : Nat) (rest : Bytes) :
    (s.preack id rest).Instances Q := by
  simp only [Session.preack]
  split
  · exact h
  · rename_i i hi
    split
    · exact h.change hi (kept.alike i _ ⟨rfl, rfl, rfl, rfl, rfl⟩ (h id i hi).2)
    · exact h

end Instances

/-- The answer to a request: OK only to one that leaves an open instance. -/
structure AnsweredWell (Q : Instance → Prop) (id : Nat) (line : Bytes) (r : Session × Bytes) :
    Prop where
  instances : r.1.Instances Q
  ok : line ≠ str "__LIST__" → str "OK " <+: r.2 →
    ∃ i : Instance, r.1.insts[id]? = some i ∧ i.isOpen = true

theorem inboundLine_answeredWell (h : s.Instances Q) (kept : Instance.Kept backed Q)
    (there : id < s.nextId) {src : SourceFs} {line : Bytes}
    (hbacked : ∀ r, line ≠ str "__PING__" → line ≠ str "__LIST__" → s.regs[line]? = some r →
      ¬ Exhausted r → backed src r) :
    AnsweredWell Q id line (inboundLine src s id i line) := by
  have refused : ∀ reply : Bytes, ¬ str "OK " <+: reply →
      AnsweredWell Q id line (s.closeInstance id, reply) :=
    fun reply hno => ⟨h.closeInstance id, fun _ hok => absurd hok hno⟩
  simp only [inboundLine]
  split
  · exact refused _ (by decide)
  · rename_i hping
    split
    · rename_i hlist
      exact ⟨h.closeInstance id, fun hne => absurd hlist hne⟩
    · rename_i hlist
      split
      · exact refused _ (by decide)
      · rename_i r hr
        split
        · exact refused _ (by decide)
        · rename_i hquota
          have hq : Q (bindReg src i line (spawnReg r)) :=
            kept.bound src i line r (hbacked r hping hlist hr hquota)
          refine ⟨(h.putInst there hq).of_insts rfl le_rfl, fun _ _ => ?_⟩
          exact ⟨bindReg src i line (spawnReg r), by simp [putInst], rfl⟩

theorem preack_open (s : Session) (id : Nat) (rest : Bytes)
    (h : ∃ i : Instance, s.insts[id]? = some i ∧ i.isOpen = true) :
    ∃ i : Instance, (s.preack id rest).insts[id]? = some i ∧ i.isOpen = true := by
  obtain ⟨i, hi, hopen⟩ := h
  simp only [Session.preack, hi]
  split
  · exact ⟨{ i with preacked := rest.length }, by simp [putInst], hopen⟩
  · exact ⟨i, hi, hopen⟩

theorem onTunnelData_instances (h : s.Instances Q) (kept : Instance.Kept backed Q)
    {src : SourceFs} {b : Bytes} {now : Nat} (heard : s.Heard backed src id b now) :
    (onTunnelData src s id b now).1.Instances Q ∧
      ∀ line, s.requestLine id b = some line → line ≠ str "__LIST__" →
        str "OK " <+: (onTunnelData src s id b now).2 →
        ∃ i : Instance, (onTunnelData src s id b now).1.insts[id]? = some i ∧
          i.isOpen = true := by
  have silent : ∀ {s' : Session}, s'.Instances Q → s'.Instances Q ∧
      ∀ line, s.requestLine id b = some line → line ≠ str "__LIST__" → str "OK " <+: [] →
        ∃ i : Instance, s'.insts[id]? = some i ∧ i.isOpen = true :=
    fun h' => ⟨h', fun _ _ _ hok => absurd hok (by decide)⟩
  simp only [onTunnelData]
  split
  · exact silent h
  · rename_i i hi
    obtain ⟨there, hq⟩ := h id i hi
    split
    · exact silent h
    · rename_i hopen
      split
      · rename_i hline
        have hq' : Q { i with lbuf := [] } := kept.alike i _ ⟨rfl, rfl, rfl, rfl, rfl⟩ hq
        have h' : (s.putInst id { i with lbuf := [] }).Instances Q := h.putInst there hq'
        simp only [handshakeLine]
        split
        · rename_i hin
          have hreq : s.requestLine id b = some ((i.lbuf ++ b).takeWhile (· ≠ newline)) := by
            have hbranch : i.inbound = true ∧ i.isOpen = false ∧ newline ∈ i.lbuf ++ b :=
              ⟨hin, Bool.eq_false_iff.mpr hopen, hline⟩
            simp only [requestLine, hi, Option.bind_some, if_pos hbranch]
          have answered := inboundLine_answeredWell (i := { i with lbuf := [] }) h' kept
            there (by
              intro r hping hlist hr hquota
              refine heard r ?_
              have hr' : s.regs[(i.lbuf ++ b).takeWhile (· ≠ newline)]? = some r := hr
              simp only [resolved, hreq, Option.bind_some, hping, hlist, or_self, if_false, hr',
                if_neg hquota])
          refine ⟨answered.instances.preack kept id _, fun line hl hne hok => ?_⟩
          cases hreq.symm.trans hl
          exact preack_open _ id _ (answered.ok hne hok)
        · rename_i hin
          exact silent
            ((h'.outboundLine kept there hq' (Bool.eq_false_iff.mpr hin) _ now).preack kept id _)
      · split
        · exact silent (h.closeInstance id)
        · exact silent (h.putInst there (kept.alike i _ ⟨rfl, rfl, rfl, rfl, rfl⟩ hq))

theorem instances_kept (kept : Instance.Kept backed Q) :
    Kept 0 (fun src s id b now => s.Heard backed src id b now) (Instances Q) where
  blank := by
    intro id i hi
    simp at hi
  start disk s record object _ h :=
    h.of_insts (insts_start disk s record object).1 (insts_start disk s record object).2.ge
  named _ _ h := h
  recorded _ _ h := h
  run _ _ _ _ _ _ _ h hr := h.run kept hr
  reset disk _ h := h.reset disk
  tick disk _ now h := h.tick kept disk now
  ownerGone disk _ name serial fd h := h.ownerGone disk name serial fd
  accept _ h := h.add kept.inbound
  gone _ id h := h.gone kept id
  connected _ id h := h.connected kept id
  connectFailed _ id h := h.connectFailed kept id
  requestClose _ _ h := h
  data _ _ _ _ _ heard h := (onTunnelData_instances h kept heard).1

end Session
end Splice.Peer
