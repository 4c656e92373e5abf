import Mathlib.Logic.Relation
import Splice.Peer.Netstack

/-!
What a step does to a session and its connections, found once for each operation. The
daemon's own work is a sequence of few kinds of moves; each callback of lwIP has the cases
its handler distinguishes.
-/

namespace Splice.Peer
open Lib Proto

namespace Line

/-! ## The daemon's own work -/

inductive Move (s : Session) (k : Netstack) : Session → Netstack → Prop
  | quiet {s' : Session} (insts : s'.insts = s.insts) (next : s.nextId ≤ s'.nextId) :
      Move s k s' k
  | close {s' : Session} (id : Nat) (insts : s'.insts = s.insts.erase id)
      (next : s'.nextId = s.nextId) : Move s k s' (k.release id)
  | launch {s' : Session} {i : Instance} {now : Nat} (fresh : Session.Fresh i)
      (insts : s'.insts = s.insts.insert s.nextId (Session.dial i now))
      (next : s'.nextId = s.nextId + 1) : Move s k s' (k.connect s.nextId)
  | dial {s' : Session} {id : Nat} {i : Instance} {now : Nat} (there : s.insts[id]? = some i)
      (due : dials i now = true) (insts : s'.insts = s.insts.insert id (Session.dial i now))
      (next : s'.nextId = s.nextId) : Move s k s' (k.connect id)
  | accept : Move s k s.acceptInbound (k.accept s.nextId)
  | reap (drained : Nat → Bool) : Move s k s (k.checkTimeouts drained)

/-- Any number of them. -/
def Moves (s : Session) (k : Netstack) (s' : Session) (k' : Netstack) : Prop :=
  Relation.ReflTransGen (fun a b : Session × Netstack => Move a.1 a.2 b.1 b.2) (s, k) (s', k')

section Moves
variable {s s' s'' : Session} {k k' k'' : Netstack} {w : Line} {id : Nat}

theorem Moves.refl (s : Session) (k : Netstack) : Moves s k s k := Relation.ReflTransGen.refl

theorem Moves.one (h : Move s k s' k') : Moves s k s' k' := .single h

theorem Moves.trans (h : Moves s k s' k') (h' : Moves s' k' s'' k'') : Moves s k s'' k'' :=
  Relation.ReflTransGen.trans h h'

/-- What one move keeps, any number of them keeps. -/
theorem Moves.keep {P : Session → Netstack → Prop} (h : Moves s k s' k')
    (step : ∀ s k s' k', P s k → Move s k s' k' → P s' k') (init : P s k) : P s' k' := by
  have run : ∀ b : Session × Netstack, Relation.ReflTransGen
      (fun a b : Session × Netstack => Move a.1 a.2 b.1 b.2) (s, k) b → P b.1 b.2 := by
    intro b hb
    induction hb with
    | refl => exact init
    | tail _ move ih => exact step _ _ _ _ ih move
  exact run (s', k') h

theorem insts_closeInstance (s : Session) (id : Nat) :
    (s.closeInstance id).insts = s.insts.erase id ∧ (s.closeInstance id).nextId = s.nextId := by
  simp only [Session.closeInstance]
  split
  · rename_i hnone
    refine ⟨Std.ExtTreeMap.ext_getElem? fun q => ?_, rfl⟩
    rw [lookup_erase]
    split
    · rename_i e
      rw [← e, hnone]
    · rfl
  · exact ⟨rfl, rfl⟩

theorem moves_closeInstance (w : Line) (id : Nat) :
    Moves w.session w.stack (w.closeInstance id).session (w.closeInstance id).stack :=
  .one (.close id (insts_closeInstance w.session id).1 (insts_closeInstance w.session id).2)

theorem moves_closeAll (w : Line) (ids : List Nat) :
    Moves w.session w.stack (w.closeAll ids).session (w.closeAll ids).stack :=
  foldl_invariant (I := fun v : Line => Moves w.session w.stack v.session v.stack)
    (fun v id h _ => h.trans (moves_closeInstance v id)) (Moves.refl _ _)

theorem Moves.closeAll {v : Line} (h : Moves s k v.session v.stack) (ids : List Nat) :
    Moves s k (v.closeAll ids).session (v.closeAll ids).stack :=
  h.trans (moves_closeAll v ids)

/-- Instances that are due are dialed one after the other. -/
theorem moves_dial {now : Nat} (due : List Nat) (distinct : due.Nodup)
    (dials : ∀ id ∈ due, ∃ i, s.insts[id]? = some i ∧ dials i now = true)
    (dialed : ∀ q : Nat, s'.insts[q]? =
      if q ∈ due then (s.insts[q]?).map fun i => Session.dial i now else s.insts[q]?)
    (next : s'.nextId = s.nextId) : Moves s k s' (due.foldl Netstack.connect k) := by
  induction due generalizing s k with
  | nil =>
      refine .one (.quiet (Std.ExtTreeMap.ext_getElem? fun q => ?_) next.ge)
      rw [dialed q, if_neg List.not_mem_nil]
  | cons id due ih =>
      obtain ⟨i, hi, hdue⟩ := dials id List.mem_cons_self
      obtain ⟨hid, distinct⟩ := List.nodup_cons.mp distinct
      have first : Move s k (s.putInst id (Session.dial i now)) (k.connect id) :=
        .dial hi hdue rfl rfl
      refine Moves.trans (.one first) (ih distinct ?_ ?_ next)
      · intro q hq
        obtain ⟨j, hj, hdue⟩ := dials q (List.mem_cons_of_mem id hq)
        have hne : q ≠ id := fun e => hid (e ▸ hq)
        exact ⟨j, by rw [Session.putInst, lookup_insert_ne hne]; exact hj, hdue⟩
      · intro q
        rw [dialed q, Session.putInst]
        by_cases hq : q = id
        · subst hq
          rw [if_pos List.mem_cons_self, if_neg hid, lookup_insert, if_pos rfl, hi]
          rfl
        · rw [lookup_insert_ne hq]
          simp only [List.mem_cons, hq, false_or]

theorem mem_due {s : Session} {now : Nat} {q : Nat} :
    q ∈ (s.insts.toList.filter fun e => dials e.2 now).map (·.1) ↔
      ∃ i, s.insts[q]? = some i ∧ dials i now = true := by
  simp only [List.mem_map, List.mem_filter]
  constructor
  · rintro ⟨⟨p, i⟩, ⟨hi, hdue⟩, rfl⟩
    exact ⟨i, Std.ExtTreeMap.mem_toList_iff_getElem?_eq_some.mp hi, hdue⟩
  · rintro ⟨i, hi, hdue⟩
    exact ⟨(q, i), ⟨Std.ExtTreeMap.mem_toList_iff_getElem?_eq_some.mpr hi, hdue⟩, rfl⟩

theorem redial_eq (i : Instance) (now : Nat) :
    Session.redial i now = if dials i now then Session.dial i now else i := by
  simp only [Session.redial, dials, Bool.and_eq_true, Bool.not_eq_true', decide_eq_true_eq,
    and_assoc]

/-- All that are due are dialed. -/
theorem moves_redial (s : Session) (k : Netstack) (now : Nat) :
    Moves s k { s with insts := s.insts.map fun _ i => Session.redial i now }
      (((s.insts.toList.filter fun e => dials e.2 now).map (·.1)).foldl Netstack.connect k) := by
  refine moves_dial _ ?_ (fun id hid => mem_due.mp hid) (fun q => ?_) rfl
  · refine List.Nodup.sublist (List.Sublist.map _ List.filter_sublist) ?_
    rw [Std.ExtTreeMap.map_fst_toList_eq_keys]
    exact s.insts.nodup_keys
  · rw [Std.ExtTreeMap.getElem?_map]
    cases hq : s.insts[q]? with
    | none => split <;> rfl
    | some i =>
        by_cases hdue : dials i now = true
        · rw [if_pos (mem_due.mpr ⟨i, hq, hdue⟩)]
          simp only [Option.map_some, redial_eq, if_pos hdue]
        · rw [if_neg]
          · simp only [Option.map_some, redial_eq, if_neg hdue]
          · rw [mem_due]
            rintro ⟨j, hj, hdue'⟩
            rw [hq] at hj
            cases hj
            exact hdue hdue'

theorem moves_dialAll (w : Line) (now : Nat) :
    Moves w.session w.stack (w.dialAll now).session (w.dialAll now).stack := by
  simp only [dialAll]
  generalize hv : Line.mk _ _ _ = v
  have dialed : Moves w.session w.stack v.session v.stack := by
    rw [← hv]
    exact moves_redial w.session w.stack now
  exact dialed.closeAll _

theorem moves_quiet {s s' : Session} {k : Netstack}
    (h : s'.insts = s.insts ∧ s'.nextId = s.nextId) : Moves s k s' k :=
  .one (.quiet h.1 h.2.ge)

theorem moves_tick (w : Line) (now : Nat) (drained : Nat → Bool) :
    Moves w.session w.stack (w.tick now drained).session (w.tick now drained).stack := by
  simp only [tick]
  generalize hs : (if w.session.busy then { w.session with lastActive := now } else w.session) = s₁
  have start : Moves w.session w.stack s₁ w.stack := by
    rw [← hs]
    split
    · exact moves_quiet ⟨rfl, rfl⟩
    · exact .refl _ _
  split
  · generalize hv : Line.mk _ s₁ _ = v
    have reaped : Moves w.session w.stack v.session v.stack := by
      rw [← hv]
      exact start.trans (.one (.reap drained))
    generalize hu : Line.mk _ _ _ = u
    have retired : Moves w.session w.stack u.session u.stack := by
      rw [← hu]
      refine (reaped.closeAll s₁.wantClose).trans (moves_quiet ?_)
      exact Session.insts_retire _ (_, { (v.closeAll s₁.wantClose).session with wantClose := [] })
    exact retired.trans (moves_dialAll u now)
  · exact start

/-- What was launched is there and is dialed. -/
theorem move_launch {i : Instance} {now : Nat} (fresh : Session.Fresh i)
    (h : s.launch i now = some s') :
    s'.insts.contains s.nextId = true ∧ Move s k s' (k.connect s.nextId) := by
  simp only [Session.launch] at h
  split at h
  · cases h
    refine ⟨by simp [Session.putInst], ?_⟩
    exact .launch (i := { i with nextDial := now })
      ⟨fresh.inbound, fresh.isOpen, fresh.conn, fresh.lbuf, fresh.hasEnd⟩ rfl rfl
  · cases h

theorem moves_command {src : SourceFs} {fd now : Nat} {cmd : SessionCmd} {w' : Line}
    (numbered : w.session.Instances fun _ => True) (h : w.command src fd now cmd = some w') :
    Moves w.session w.stack w'.session w'.stack := by
  have absent : w.session.insts.contains w.session.nextId = false := by
    by_contra hmem
    rw [Bool.not_eq_false, Std.ExtTreeMap.contains_iff_mem] at hmem
    obtain ⟨i, hi⟩ := Option.isSome_iff_exists.mp (Std.ExtTreeMap.isSome_getElem?_iff_mem.mpr hmem)
    exact absurd (numbered _ i hi).1 (Nat.lt_irrefl _)
  obtain ⟨r, hr, rfl⟩ := Option.map_eq_some_iff.mp h
  cases cmd with
  | forceRelay =>
      simp only [SessionCmd.run, Session.forceRelay] at hr
      split at hr
      · cases hr
        exact .refl _ _
      · cases hr
  | register name toks =>
      cases hr
      exact moves_quiet (Session.insts_register src w.disk w.session fd name toks)
  | unregister name =>
      cases hr
      simp only [Session.unregisterCmd]
      split
      · exact moves_quiet (Session.insts_unregister w.disk w.session name)
      · exact .refl _ _
  | openPipe want o type args =>
      simp only [SessionCmd.run, Session.openCmd] at hr
      split at hr
      · split at hr
        · obtain ⟨s', hs', rfl⟩ := Option.map_eq_some_iff.mp hr
          obtain ⟨there, move⟩ :=
            move_launch ⟨rfl, rfl, rfl, rfl, .inr (Int.natCast_nonneg fd)⟩ hs'
          simp only [commandStack, there, if_true]
          exact .one move
        · cases hr
          simp only [commandStack, absent, Bool.false_eq_true, if_false]
          exact .one (.quiet rfl (Nat.le_succ _))
      · split at hr
        · cases hr
          simp only [commandStack, absent, Bool.false_eq_true, if_false]
          exact .one (.quiet rfl (Nat.le_succ _))
        · obtain ⟨s', hs', rfl⟩ := Option.map_eq_some_iff.mp hr
          obtain ⟨there, move⟩ := move_launch ⟨rfl, rfl, rfl, rfl, .inl (by simp)⟩ hs'
          simp only [commandStack, there, if_true]
          exact .one move
  | query want =>
      obtain ⟨s', hs', rfl⟩ := Option.map_eq_some_iff.mp hr
      obtain ⟨there, move⟩ := move_launch ⟨rfl, rfl, rfl, rfl, .inl (by simp)⟩ hs'
      simp only [commandStack, there, if_true]
      exact .one move
  | close text =>
      cases hr
      simp only [commandStack, Session.closeCmd]
      split
      · exact moves_closeInstance w _
      · rename_i missing
        refine .one (.close _ ?_ rfl)
        have same := insts_closeInstance w.session (strtoul 10 (Session.instanceId text)).1
        rw [Session.closeInstance] at same
        split at same
        · exact same.1
        · rename_i i hi
          refine absurd ?_ missing
          rw [Std.ExtTreeMap.contains_iff_mem, ← Std.ExtTreeMap.isSome_getElem?_iff_mem, hi]
          rfl

theorem moves_reset (w : Line) : Moves w.session w.stack w.reset.session w.reset.stack := by
  simp only [reset]
  generalize hr : w.session.regs.keys.foldl _ _ = r
  generalize hv : Line.mk r.1 r.2.1 w.stack = v
  have unregistered : Moves w.session w.stack v.session v.stack := by
    rw [← hv]
    refine moves_quiet ?_
    rw [← hr]
    refine foldl_invariant (I := fun acc : Disk × Session × List Nat =>
      acc.2.1.insts = w.session.insts ∧ acc.2.1.nextId = w.session.nextId) ?_ ⟨rfl, rfl⟩
    intro acc name h _
    have same := Session.insts_unregister acc.1 acc.2.1 name
    exact ⟨same.1.trans h.1, same.2.trans h.2⟩
  exact unregistered.closeAll _

theorem moves_ownerGone (name : Bytes) (serial : Nat) (fd : Int) (w : Line) :
    Moves w.session w.stack (w.ownerGone name serial fd).session
      (w.ownerGone name serial fd).stack := by
  simp only [ownerGone]
  split
  · exact moves_closeAll w _
  · split
    · generalize hv : Line.mk _ _ w.stack = v
      have unregistered : Moves w.session w.stack v.session v.stack := by
        rw [← hv]
        exact moves_quiet (Session.insts_unregister w.disk w.session name)
      exact unregistered.closeAll _
    · exact moves_closeAll w _

end Moves
end Line

/-! ## Lookups -/

namespace Netstack
variable {k : Netstack} {n m id q : Nat} {c : TcpConn} {f : TcpConn → TcpConn}

theorem conns_change : (k.change n f).conns[m]? =
    if n = m then (k.conns[m]?).map f else k.conns[m]? := by
  simp only [change, Std.ExtTreeMap.getElem?_alter, Std.LawfulEqCmp.compare_eq_iff_eq]
  split
  · rename_i h
    rw [h]
  · rfl

theorem conns_release : (k.release id).conns[m]? =
    if k.conn[id]? = some m then
      (k.conns[m]?).map fun c => { c with owner := none, wantClose := true }
    else k.conns[m]? := by
  simp only [release]
  split
  · rename_i h
    rw [h, if_neg (by simp)]
  · rename_i n h
    simp only [forget, conns_change, h, Option.some.injEq]

theorem conn_release : (k.release id).conn[q]? = if id = q then none else k.conn[q]? := by
  simp only [release]
  split
  · rename_i h
    split
    · rename_i e
      rw [← e, h]
    · rfl
  · exact lookup_erase

theorem made_release : (k.release id).made = k.made := by
  simp only [release]
  split
  · rfl
  · rfl

theorem conns_checkTimeouts {drained : Nat → Bool} :
    (k.checkTimeouts drained).conns[m]? = some c ↔
      k.conns[m]? = some c ∧ (c.pcb && !(c.wantClose && drained m)) = true := by
  simp only [checkTimeouts, Std.ExtTreeMap.getElem?_filter', Option.filter_eq_some_iff]

end Netstack

/-- A dial that lwIP still works on. -/
def TcpConn.Dialing (c : TcpConn) (id : Nat) : Prop :=
  c.pcb = true ∧ c.connected = false ∧ c.dialer = some id

/-- More may come over it. -/
def TcpConn.Live (c : TcpConn) : Prop := c.pcb = true ∧ c.connected = true ∧ c.fin = false

/-! ## Callbacks of lwIP -/

namespace Line

/-- What bytes for instance `id` do. -/
inductive Shook (s : Session) (k : Netstack) (id : Nat) (i : Instance) (b : Bytes) :
    Session → Netstack → Prop
  | open (isOpen : i.isOpen = true) : Shook s k id i b s k
  | part (waits : i.isOpen = false) (line : newline ∉ i.lbuf ++ b) :
      Shook s k id i b (s.putInst id { i with lbuf := i.lbuf ++ b }) k
  | closed {s' : Session} (insts : s'.insts = s.insts.erase id) (next : s'.nextId = s.nextId) :
      Shook s k id i b s' (k.release id)
  | opened {s' : Session} {i' : Instance} (others : ∀ q, q ≠ id → s'.insts[q]? = s.insts[q]?)
      (there : s'.insts[id]? = some i') (isOpen : i'.isOpen = true) (conn : i'.conn = i.conn)
      (linked : k.conn.contains id = true) (next : s'.nextId = s.nextId) : Shook s k id i b s' k
  | retried {t : Nat} (waits : i.isOpen = false) (out : i.inbound = false) (conn : i.conn = true) :
      Shook s k id i b (s.putInst id { i with lbuf := [], conn := false, nextDial := t })
        (k.release id)

section Callbacks
variable {src : SourceFs} {id n now : Nat} {b : Bytes} {w w' : Line} {i : Instance}

theorem shook (h : w.onTunnelData src id b now = some w')
    (hi : w.session.insts[id]? = some i) :
    Shook w.session w.stack id i b w'.session w'.stack := by
  simp only [onTunnelData, hi] at h
  cases waits : i.isOpen with
  | true =>
      rw [Session.onTunnelData_open hi waits, hi] at h
      simp only [waits, Bool.not_true, Bool.and_false, Bool.false_and, Bool.false_eq_true, if_false,
        Bool.and_not_self, Option.some.injEq] at h
      subst h
      exact .open waits
  | false =>
      by_cases line : newline ∈ i.lbuf ++ b
      · rw [Session.onTunnelData_line hi waits line] at h
        simp only at h
        have told := Session.handshakeLine_outcome src id { i with lbuf := [] }
          (w.session.putInst id { i with lbuf := [] }) ((i.lbuf ++ b).takeWhile (· ≠ newline))
        generalize Session.afterLine (i.lbuf ++ b) = rest at h
        cases told with
        | closed is =>
            rw [is now, Session.preack_waiting, Session.closeInstance_putInst hi] at h
            · simp only [Session.closeInstance_gone, Option.some.injEq] at h
              subst h
              have same := insts_closeInstance w.session id
              exact .closed same.1 same.2
            · intro i' hi'
              rw [Session.closeInstance_gone] at hi'
              cases hi'
        | @opened i' same there isOpen conn others next =>
            rw [same now] at h
            generalize (Session.handshakeLine src _ id _ _ 0).1 = after at h there others next
            obtain ⟨othersPre, nextPre⟩ := Session.preack_others after id rest
            obtain ⟨m, hm⟩ := Session.preack_there there rest
            simp only [hm, isOpen, waits, Bool.not_false, Bool.and_self, Bool.true_and,
              Bool.not_eq_true', conn, Bool.and_not_self, Bool.false_eq_true, if_false] at h
            split at h
            · cases h
            · rename_i linked
              cases h
              refine .opened (fun q hq => ?_) hm isOpen conn (by simpa using linked)
                (nextPre.trans next)
              rw [othersPre q hq, others q hq, Session.putInst, lookup_insert_ne hq]
        | retried out conn is =>
            rw [is now, Session.preack_waiting, Session.putInst_putInst] at h
            · simp only [Session.putInst_there, Bool.and_not_self, Bool.false_and,
                Bool.false_eq_true, if_false, Bool.not_false, Bool.and_true] at h
              rw [if_pos conn] at h
              cases h
              exact .retried waits out conn
            · intro i' hi'
              rw [Session.putInst_there] at hi'
              cases hi'
              exact waits
      · by_cases long : 256 < (i.lbuf ++ b).length
        · rw [Session.onTunnelData_long hi waits line long] at h
          simp only [Session.closeInstance_gone, Option.some.injEq] at h
          subst h
          have same := insts_closeInstance w.session id
          exact .closed same.1 same.2
        · rw [Session.onTunnelData_part hi waits line (Nat.le_of_not_lt long)] at h
          simp only [Session.putInst_there, Bool.and_not_self, Bool.false_and, Bool.false_eq_true,
            if_false, Option.some.injEq] at h
          subst h
          exact .part waits line

end Callbacks

end Line

/-- The end of a connection is the end of an instance, or of one attempt of it. -/
inductive Line.Gone (s : Session) (id : Nat) : Session → Prop
  | absent (none : s.insts[id]? = none) : Gone s id s
  | attempt {i : Instance} (there : s.insts[id]? = some i) (out : i.inbound = false)
      (waits : i.isOpen = false) : Gone s id (s.putInst id { i with conn := false })
  | closed {s' : Session} {i : Instance} (there : s.insts[id]? = some i)
      (past : ¬ (i.inbound = false ∧ i.isOpen = false)) (insts : s'.insts = s.insts.erase id)
      (next : s'.nextId = s.nextId) : Gone s id s'

theorem Line.gone_onTunnelGone (s : Session) (id : Nat) : Line.Gone s id (s.onTunnelGone id) := by
  simp only [Session.onTunnelGone]
  split
  · rename_i hnone
    exact .absent hnone
  · rename_i i hi
    split
    · rename_i waits
      simp only [Bool.and_eq_true, Bool.not_eq_true'] at waits
      exact .attempt hi waits.1 waits.2
    · rename_i past
      have same := Line.insts_closeInstance s id
      exact .closed hi (by simpa using past) same.1 same.2

namespace Line

/-- Bytes have come over connection `n`. -/
inductive Heard (s : Session) (k : Netstack) (n : Nat) (b : Bytes) : Session → Netstack → Prop
  | nobody {c : TcpConn} (there : k.conns[n]? = some c) (live : c.Live)
      (none : ∀ id, c.owner = some id → s.insts[id]? = none) :
      Heard s k n b s (k.change n fun c => { c with heard := c.heard ++ b })
  | somebody {c : TcpConn} {id : Nat} {i : Instance} {s' : Session} {k' : Netstack}
      (there : k.conns[n]? = some c) (live : c.Live) (owner : c.owner = some id)
      (inst : s.insts[id]? = some i)
      (shook : Shook s (k.change n fun c => { c with heard := c.heard ++ b }) id i b s' k') :
      Heard s k n b s' k'

/-- The peer has closed its side of connection `n`. -/
inductive Finished (s : Session) (k : Netstack) (n : Nat) : Session → Netstack → Prop
  | nobody {c : TcpConn} (there : k.conns[n]? = some c) (live : c.Live) (none : c.owner = none) :
      Finished s k n s (k.change n fun c => { c with fin := true })
  | somebody {c : TcpConn} {id : Nat} {s' : Session} (there : k.conns[n]? = some c)
      (live : c.Live) (owner : c.owner = some id) (gone : Gone s id s') :
      Finished s k n s' ((k.change n fun c => { c with fin := true }).forget id)

/-- The pcb of connection `n` is gone. -/
inductive Lost (s : Session) (k : Netstack) (n : Nat) : Session → Netstack → Prop
  | nobody {c : TcpConn} (there : k.conns[n]? = some c) (pcb : c.pcb = true)
      (none : c.connected = true ∧ c.owner = none ∨ c.connected = false ∧ c.dialer = none) :
      Lost s k n s (k.change n fun c => { c with pcb := false })
  | somebody {c : TcpConn} {id : Nat} {s' : Session} (there : k.conns[n]? = some c)
      (pcb : c.pcb = true) (connected : c.connected = true) (owner : c.owner = some id)
      (gone : Gone s id s') :
      Lost s k n s' ((k.change n fun c => { c with pcb := false }).forget id)
  | dialer {c : TcpConn} {id : Nat} (there : k.conns[n]? = some c) (dialing : c.Dialing id) :
      Lost s k n (s.connectFailed id) ((k.change n fun c => { c with pcb := false }).forget id)

/-- Connection `n` came through, for an instance that waits for it or not any more. -/
inductive Connected (s : Session) (k : Netstack) (n : Nat) : Session → Netstack → Prop
  | dialer {c : TcpConn} {id : Nat} {i : Instance} {k' : Netstack}
      (there : k.conns[n]? = some c) (dialing : c.Dialing id) (inst : s.insts[id]? = some i)
      (made : k'.made = k.made)
      (conns : k'.conns =
        (k.change n fun c => { c with connected := true, owner := some id }).conns)
      (conn : k'.conn = k.conn.insert id n) : Connected s k n (s.connected id) k'
  | expired {c : TcpConn} {id : Nat} (there : k.conns[n]? = some c) (dialing : c.Dialing id)
      (none : s.insts[id]? = none) :
      Connected s k n s (k.change n fun c => { c with connected := true, wantClose := true })

section Callbacks
variable {src : SourceFs} {n now : Nat} {b : Bytes} {w w' : Line}

theorem heard_data (h : w.data src n b now = some w') :
    Heard w.session w.stack n b w'.session w'.stack := by
  simp only [data] at h
  split at h
  · cases h
  · rename_i c hc
    split at h
    · rename_i live
      simp only [Bool.and_eq_true, Bool.not_eq_true'] at live
      have live : c.Live := ⟨live.1.1, live.1.2, live.2⟩
      split at h
      · rename_i none
        cases h
        refine .nobody hc live fun id hid => ?_
        rw [none] at hid
        cases hid
      · rename_i id owner
        cases hi : w.session.insts[id]? with
        | none =>
            simp only [onTunnelData, hi, Option.some.injEq] at h
            subst h
            refine .nobody hc live fun id' hid => ?_
            rw [owner] at hid
            cases hid
            exact hi
        | some i => exact .somebody hc live owner hi (shook h hi)
    · cases h

theorem finished_fin (h : w.fin n = some w') :
    Finished w.session w.stack n w'.session w'.stack := by
  simp only [fin] at h
  split at h
  · cases h
  · rename_i c hc
    split at h
    · rename_i live
      simp only [Bool.and_eq_true, Bool.not_eq_true'] at live
      have live : c.Live := ⟨live.1.1, live.1.2, live.2⟩
      split at h
      · rename_i none
        cases h
        exact .nobody hc live none
      · rename_i id owner
        cases h
        exact .somebody hc live owner (gone_onTunnelGone _ id)
    · cases h

theorem lost_lost (h : w.lost n = some w') : Lost w.session w.stack n w'.session w'.stack := by
  simp only [lost] at h
  split at h
  · cases h
  · rename_i c hc
    split at h
    · rename_i pcb
      split at h
      · rename_i connected
        split at h
        · rename_i none
          cases h
          exact .nobody hc pcb (.inl ⟨connected, none⟩)
        · rename_i id owner
          cases h
          exact .somebody hc pcb connected owner (gone_onTunnelGone _ id)
      · rename_i unconnected
        rw [Bool.not_eq_true] at unconnected
        split at h
        · rename_i none
          cases h
          exact .nobody hc pcb (.inr ⟨unconnected, none⟩)
        · rename_i id dialer
          cases h
          exact .dialer hc ⟨pcb, unconnected, dialer⟩
    · cases h

theorem connected_connected (h : w.connected n = some w') :
    Connected w.session w.stack n w'.session w'.stack := by
  simp only [connected] at h
  split at h
  · cases h
  · rename_i c hc
    split at h
    · cases h
    · rename_i id dialer
      split at h
      · cases h
      · rename_i pending
        simp only [Bool.or_eq_true, Bool.not_eq_true', not_or, Bool.not_eq_false,
          Bool.not_eq_true] at pending
        have dialing : c.Dialing id := ⟨pending.1, pending.2, dialer⟩
        split at h
        · rename_i there
          rw [Std.ExtTreeMap.contains_iff_mem, ← Std.ExtTreeMap.isSome_getElem?_iff_mem] at there
          obtain ⟨i, hi⟩ := Option.isSome_iff_exists.mp there
          cases h
          exact .dialer hc dialing hi rfl rfl rfl
        · rename_i missing
          cases h
          refine .expired hc dialing ?_
          rw [Std.ExtTreeMap.contains_iff_mem, ← Std.ExtTreeMap.isSome_getElem?_iff_mem] at missing
          simpa using missing

end Callbacks
end Line

end Splice.Peer
