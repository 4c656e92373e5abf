import Splice.Peer.Moves

/-!
What ties a session to its connections, whatever happens: an instance's connection is
established, has its pcb and calls back into the instance; a dial is in flight for an
instance that waits for it, and only one.
-/

namespace Splice.Peer
open Lib Proto

structure Wired (s : Session) (k : Netstack) : Prop where
  ids : ∀ (id : Nat) i, s.insts[id]? = some i → id < s.nextId
  numbered : ∀ (n : Nat) c, k.conns[n]? = some c → n < k.made
  linked : ∀ id n : Nat, k.conn[id]? = some n → ∃ i c, s.insts[id]? = some i ∧ i.conn = true ∧
    k.conns[n]? = some c ∧ c.pcb = true ∧ c.connected = true ∧ c.owner = some id
  known : ∀ (n : Nat) c id, k.conns[n]? = some c → c.owner = some id ∨ c.dialer = some id →
    id < s.nextId
  asked : ∀ (n : Nat) c, k.conns[n]? = some c → c.wantClose = true → c.owner = none
  /-- what is not connected yet -/
  silent : ∀ (n : Nat) c, k.conns[n]? = some c → c.connected = false →
    c.owner = none ∧ c.wantClose = false ∧ c.heard = []
  pending : ∀ (n : Nat) c id i, k.conns[n]? = some c → c.Dialing id → s.insts[id]? = some i →
    i.dialing = true ∧ i.conn = false
  sole : ∀ (m n : Nat) c c' id i, k.conns[m]? = some c → k.conns[n]? = some c' → c.Dialing id →
    c'.Dialing id → s.insts[id]? = some i → m = n

namespace Wired
variable {s s' : Session} {k k' : Netstack} {id n : Nat}

/-- A connection of an instance belongs to no other. -/
theorem link_unique (h : Wired s k) {id' : Nat} (h₁ : k.conn[id]? = some n)
    (h₂ : k.conn[id']? = some n) : id = id' := by
  obtain ⟨_, c, -, -, hc, -, -, owner⟩ := h.linked id n h₁
  obtain ⟨_, c', -, -, hc', -, -, owner'⟩ := h.linked id' n h₂
  rw [hc] at hc'
  cases hc'
  exact Option.some.inj (owner.symm.trans owner')

theorem quiet (h : Wired s k) (insts : s'.insts = s.insts) (next : s.nextId ≤ s'.nextId) :
    Wired s' k := by
  constructor
  · exact fun id i hi => (h.ids id i (insts ▸ hi)).trans_le next
  · exact h.numbered
  · rw [insts]
    exact h.linked
  · exact fun n c id hc hid => (h.known n c id hc hid).trans_le next
  · exact h.asked
  · exact h.silent
  · rw [insts]
    exact h.pending
  · rw [insts]
    exact h.sole

theorem reap (h : Wired s k) (drained : Nat → Bool) : Wired s (k.checkTimeouts drained) := by
  have old : ∀ {n c}, (k.checkTimeouts drained).conns[n]? = some c → k.conns[n]? = some c :=
    fun hc => (Netstack.conns_checkTimeouts.mp hc).1
  constructor
  · exact h.ids
  · exact fun n c hc => h.numbered n c (old hc)
  · intro id n hn
    obtain ⟨i, c, hi, conn, hc, pcb, connected, owner⟩ := h.linked id n hn
    refine ⟨i, c, hi, conn, Netstack.conns_checkTimeouts.mpr ⟨hc, ?_⟩, pcb, connected, owner⟩
    have kept : c.wantClose = false := by
      by_contra hw
      rw [h.asked n c hc (by simpa using hw)] at owner
      cases owner
    simp [pcb, kept]
  · exact fun n c id hc => h.known n c id (old hc)
  · exact fun n c hc => h.asked n c (old hc)
  · exact fun n c hc => h.silent n c (old hc)
  · exact fun n c id i hc => h.pending n c id i (old hc)
  · exact fun m n c c' id i hc hc' => h.sole m n c c' id i (old hc) (old hc')

end Wired

/-- The connection is what it was, or less. -/
structure TcpConn.Kin (c c' : TcpConn) : Prop where
  pcb : c'.pcb = true → c.pcb = true
  connected : c'.connected = c.connected
  dialer : c'.dialer = c.dialer
  owner : c'.owner = c.owner ∨ c'.owner = none
  asked : c'.wantClose = true → c.wantClose = true ∨ c'.owner = none
  silent : c.connected = false → c'.wantClose = c.wantClose ∧ c'.heard = c.heard

theorem TcpConn.Kin.refl (c : TcpConn) : c.Kin c :=
  ⟨id, rfl, rfl, .inl rfl, .inl, fun _ => ⟨rfl, rfl⟩⟩

theorem TcpConn.Kin.dialing {c c' : TcpConn} (h : c.Kin c') {id : Nat} (hd : c'.Dialing id) :
    c.Dialing id := ⟨h.pcb hd.1, h.connected ▸ hd.2.1, h.dialer ▸ hd.2.2⟩

/-- No connection is new, no pointer is, and the connections pointed at are left alone. -/
structure Netstack.Shrinks (k k' : Netstack) : Prop where
  made : k'.made = k.made
  kin : ∀ (n : Nat) c', k'.conns[n]? = some c' → ∃ c, k.conns[n]? = some c ∧ c.Kin c'
  conn : ∀ q n : Nat, k'.conn[q]? = some n → k.conn[q]? = some n
  kept : ∀ (q n : Nat) c, k'.conn[q]? = some n → k.conns[n]? = some c → c.owner = some q →
    ∃ c', k'.conns[n]? = some c' ∧ c'.pcb = c.pcb ∧ c'.owner = c.owner

/-- The sessions differ in one instance at most. -/
structure Session.Except (s s' : Session) (id : Nat) : Prop where
  others : ∀ q, q ≠ id → s'.insts[q]? = s.insts[q]?
  there : ∀ i', s'.insts[id]? = some i' → ∃ i, s.insts[id]? = some i
  next : s'.nextId = s.nextId

namespace Wired
variable {s s' : Session} {k k' : Netstack} {id n : Nat}

theorem shrink (h : Wired s k) (differ : s.Except s' id) (shrinks : k.Shrinks k')
    (pending : ∀ (n : Nat) c i', k'.conns[n]? = some c → c.Dialing id → s'.insts[id]? = some i' →
      i'.dialing = true ∧ i'.conn = false)
    (link : ∀ n, k'.conn[id]? = some n → ∃ i', s'.insts[id]? = some i' ∧ i'.conn = true) :
    Wired s' k' := by
  have there : ∀ {q : Nat} {i' : Instance}, s'.insts[q]? = some i' → ∃ i, s.insts[q]? = some i := by
    intro q i' hi'
    by_cases hq : q = id
    · subst hq
      exact differ.there i' hi'
    · exact ⟨i', differ.others q hq ▸ hi'⟩
  constructor
  · intro q i' hi'
    obtain ⟨i, hi⟩ := there hi'
    rw [differ.next]
    exact h.ids q i hi
  · intro n c' hc'
    obtain ⟨c, hc, -⟩ := shrinks.kin n c' hc'
    rw [shrinks.made]
    exact h.numbered n c hc
  · intro q n hn
    obtain ⟨i, c, hi, conn, hc, pcb, connected, owner⟩ := h.linked q n (shrinks.conn q n hn)
    obtain ⟨c', hc', pcb', owner'⟩ := shrinks.kept q n c hn hc owner
    obtain ⟨c₁, hc₁, kin⟩ := shrinks.kin n c' hc'
    rw [hc] at hc₁
    cases hc₁
    have same : ∃ i', s'.insts[q]? = some i' ∧ i'.conn = true := by
      by_cases hq : q = id
      · subst hq
        exact link n hn
      · exact ⟨i, (differ.others q hq).trans hi, conn⟩
    obtain ⟨i', hi', conn'⟩ := same
    exact ⟨i', c', hi', conn', hc', pcb'.trans pcb, kin.connected.trans connected,
      owner'.trans owner⟩
  · intro n c' q hc' hq
    obtain ⟨c, hc, kin⟩ := shrinks.kin n c' hc'
    rw [differ.next]
    refine h.known n c q hc ?_
    rcases hq with hq | hq
    · rcases kin.owner with same | none
      · exact .inl (same ▸ hq)
      · rw [none] at hq
        cases hq
    · exact .inr (kin.dialer ▸ hq)
  · intro n c' hc' want
    obtain ⟨c, hc, kin⟩ := shrinks.kin n c' hc'
    rcases kin.asked want with want | none
    · rcases kin.owner with same | none
      · exact same.trans (h.asked n c hc want)
      · exact none
    · exact none
  · intro n c' hc' connected
    obtain ⟨c, hc, kin⟩ := shrinks.kin n c' hc'
    have unconnected : c.connected = false := kin.connected ▸ connected
    obtain ⟨owner, want, heard⟩ := h.silent n c hc unconnected
    obtain ⟨want', heard'⟩ := kin.silent unconnected
    refine ⟨?_, want'.trans want, heard'.trans heard⟩
    exact kin.owner.elim (fun same => same.trans owner) fun none => none
  · intro n c' q i' hc' dialing hi'
    by_cases hq : q = id
    · subst hq
      exact pending n c' i' hc' dialing hi'
    · obtain ⟨c, hc, kin⟩ := shrinks.kin n c' hc'
      exact h.pending n c q i' hc (kin.dialing dialing) (differ.others q hq ▸ hi')
  · intro m n c c' q i' hc hc' dialing dialing' hi'
    obtain ⟨c₁, hc₁, kin⟩ := shrinks.kin m c hc
    obtain ⟨c₂, hc₂, kin'⟩ := shrinks.kin n c' hc'
    obtain ⟨i, hi⟩ := there hi'
    exact h.sole m n c₁ c₂ q i hc₁ hc₂ (kin.dialing dialing) (kin'.dialing dialing') hi

end Wired

namespace Netstack
variable {k : Netstack} {id n : Nat}

theorem Shrinks.refl (k : Netstack) : k.Shrinks k :=
  ⟨rfl, fun _ c hc => ⟨c, hc, .refl c⟩, fun _ _ h => h, fun _ _ c _ hc _ => ⟨c, hc, rfl, rfl⟩⟩

/-- A connection changes that nobody points at, or in what does not matter here. -/
theorem shrinks_change {f : TcpConn → TcpConn}
    (kin : ∀ c : TcpConn, k.conns[n]? = some c → c.Kin (f c))
    (kept : ∀ (q : Nat) (c : TcpConn), k.conn[q]? = some n → k.conns[n]? = some c → c.owner = some q →
      (f c).pcb = c.pcb ∧ (f c).owner = c.owner) : k.Shrinks (k.change n f) := by
  refine ⟨rfl, fun m c' hc' => ?_, fun _ _ h => h, fun q m c hm hc owner => ?_⟩
  · rw [conns_change] at hc'
    split at hc'
    · rename_i e
      subst e
      obtain ⟨c, hc, rfl⟩ := Option.map_eq_some_iff.mp hc'
      exact ⟨c, hc, kin c hc⟩
    · exact ⟨c', hc', .refl c'⟩
  · rw [conns_change]
    split
    · rename_i e
      subst e
      exact ⟨f c, by rw [hc]; rfl, kept q c hm hc owner⟩
    · exact ⟨c, hc, rfl, rfl⟩

theorem shrinks_release (h : ∀ q m : Nat, k.conn[q]? = some m → k.conn[id]? = some m → q = id)
    (connected : ∀ (m : Nat) c, k.conn[id]? = some m → k.conns[m]? = some c → c.connected = true) :
    k.Shrinks (k.release id) := by
  refine ⟨made_release, fun m c' hc' => ?_, fun q m hm => ?_, fun q m c hm hc _ => ?_⟩
  · rw [conns_release] at hc'
    split at hc'
    · rename_i hm
      obtain ⟨c, hc, rfl⟩ := Option.map_eq_some_iff.mp hc'
      refine ⟨c, hc, fun h => h, rfl, rfl, .inr rfl, fun _ => .inr rfl, fun unconnected => ?_⟩
      rw [connected m c hm hc] at unconnected
      cases unconnected
    · exact ⟨c', hc', .refl c'⟩
  · rw [conn_release] at hm
    split at hm
    · cases hm
    · exact hm
  · rw [conn_release] at hm
    split at hm
    · cases hm
    · rename_i hq
      rw [conns_release, if_neg]
      · exact ⟨c, hc, rfl, rfl⟩
      · exact fun hid => hq (h q m hm hid).symm

end Netstack

namespace Wired
variable {s s' : Session} {k k' : Netstack} {id n : Nat}

theorem shrinks_release (h : Wired s k) : k.Shrinks (k.release id) := by
  refine Netstack.shrinks_release (fun q m hq hid => h.link_unique hq hid) fun m c hm hc => ?_
  obtain ⟨_, c', -, -, hc', -, connected, -⟩ := h.linked id m hm
  rw [hc] at hc'
  cases hc'
  exact connected

theorem unlinked (h : Wired s k) (hid : s.nextId ≤ id) : k.conn[id]? = none := by
  cases hn : k.conn[id]? with
  | none => rfl
  | some n =>
      obtain ⟨i, -, hi, -⟩ := h.linked id n hn
      exact absurd (h.ids id i hi) (Nat.not_lt.mpr hid)

/-- One more connection, made for an instance that had none. -/
theorem grow (h : Wired s k) (i' : Instance) {c' : TcpConn}
    (others : ∀ q, q ≠ id → s'.insts[q]? = s.insts[q]?) (here : s'.insts[id]? = some i')
    (next : s.nextId ≤ s'.nextId) (lt : id < s'.nextId) (unlinked : k.conn[id]? = none)
    (undialed : ∀ (n : Nat) c, k.conns[n]? = some c → ¬ c.Dialing id)
    (made : k'.made = k.made + 1) (conns : k'.conns = k.conns.insert k.made c')
    (mine : c'.owner = some id ∨ c'.owner = none) (dialer : ∀ q, c'.dialer = some q → q = id)
    (asked : c'.wantClose = false) (silent : c'.connected = false → c'.owner = none ∧ c'.heard = [])
    (pending : c'.Dialing id → i'.dialing = true ∧ i'.conn = false)
    (conn : k'.conn = k.conn ∨ k'.conn = k.conn.insert id k.made ∧ i'.conn = true ∧
      c'.pcb = true ∧ c'.connected = true ∧ c'.owner = some id) : Wired s' k' := by
  have old : ∀ {n : Nat} {c : TcpConn}, k'.conns[n]? = some c →
      n = k.made ∧ c = c' ∨ n ≠ k.made ∧ k.conns[n]? = some c := by
    intro n c hc
    rw [conns, lookup_insert] at hc
    split at hc
    · rename_i e
      cases hc
      exact .inl ⟨e.symm, rfl⟩
    · rename_i e
      exact .inr ⟨Ne.symm e, hc⟩
  have stays : ∀ {n : Nat} {c : TcpConn}, k.conns[n]? = some c → k'.conns[n]? = some c := by
    intro n c hc
    rw [conns, lookup_insert_ne]
    · exact hc
    · exact Nat.ne_of_lt (h.numbered n c hc)
  constructor
  · intro q i hi
    by_cases hq : q = id
    · exact hq ▸ lt
    · exact (h.ids q i (others q hq ▸ hi)).trans_le next
  · intro n c hc
    rw [made]
    rcases old hc with ⟨rfl, -⟩ | ⟨-, hc⟩
    · exact Nat.lt_succ_self _
    · exact (h.numbered n c hc).trans (Nat.lt_succ_self _)
  · intro q n hn
    have before : k.conn[q]? = some n → ∃ i c, s'.insts[q]? = some i ∧ i.conn = true ∧
        k'.conns[n]? = some c ∧ c.pcb = true ∧ c.connected = true ∧ c.owner = some q := by
      intro hn
      obtain ⟨i, c, hi, conn, hc, rest⟩ := h.linked q n hn
      have hq : q ≠ id := by
        rintro rfl
        rw [unlinked] at hn
        cases hn
      exact ⟨i, c, (others q hq).trans hi, conn, stays hc, rest⟩
    rcases conn with same | ⟨new, conn, rest⟩
    · rw [same] at hn
      exact before hn
    · rw [new, lookup_insert] at hn
      split at hn
      · rename_i e
        cases hn
        subst e
        exact ⟨i', c', here, conn, by rw [conns, lookup_insert, if_pos rfl], rest⟩
      · exact before hn
  · intro n c q hc hq
    rcases old hc with ⟨-, rfl⟩ | ⟨-, hc⟩
    · have : q = id := by
        rcases hq with hq | hq
        · rcases mine with mine | mine
          · exact Option.some.inj (hq.symm.trans mine)
          · rw [mine] at hq
            cases hq
        · exact dialer q hq
      exact this ▸ lt
    · exact (h.known n c q hc hq).trans_le next
  · intro n c hc want
    rcases old hc with ⟨-, rfl⟩ | ⟨-, hc⟩
    · rw [asked] at want
      cases want
    · exact h.asked n c hc want
  · intro n c hc
    rcases old hc with ⟨-, rfl⟩ | ⟨-, hc⟩
    · exact fun connected => ⟨(silent connected).1, asked, (silent connected).2⟩
    · exact h.silent n c hc
  · intro n c q i hc dialing hi
    by_cases hq : q = id
    · subst hq
      rw [here] at hi
      cases hi
      rcases old hc with ⟨-, rfl⟩ | ⟨-, hc⟩
      · exact pending dialing
      · exact absurd dialing (undialed n c hc)
    · rcases old hc with ⟨-, rfl⟩ | ⟨-, hc⟩
      · exact absurd (dialer q dialing.2.2) hq
      · exact h.pending n c q i hc dialing (others q hq ▸ hi)
  · intro m n c₁ c₂ q i hc₁ hc₂ dialing dialing' hi
    rcases old hc₁ with ⟨rfl, rfl⟩ | ⟨-, hc₁⟩
    · rcases old hc₂ with ⟨rfl, -⟩ | ⟨-, hc₂⟩
      · rfl
      · exact absurd (dialer q dialing.2.2 ▸ dialing') (undialed n c₂ hc₂)
    · rcases old hc₂ with ⟨-, rfl⟩ | ⟨-, hc₂⟩
      · exact absurd (dialer q dialing'.2.2 ▸ dialing) (undialed m c₁ hc₁)
      · have hq : q ≠ id := fun e => undialed m c₁ hc₁ (e ▸ dialing)
        exact h.sole m n c₁ c₂ q i hc₁ hc₂ dialing dialing' (others q hq ▸ hi)

theorem move (h : Wired s k) (move : Line.Move s k s' k') : Wired s' k' := by
  cases move with
  | quiet insts next => exact h.quiet insts next
  | reap drained => exact h.reap drained
  | close id insts next =>
      have differ : s.Except s' id := by
        refine ⟨fun q hq => by rw [insts, lookup_erase_ne hq], fun i' hi' => ?_, next⟩
        rw [insts, lookup_erase, if_pos rfl] at hi'
        cases hi'
      refine h.shrink differ h.shrinks_release ?_ ?_
      · intro n c i' _ _ hi'
        obtain ⟨i, hi⟩ := differ.there i' hi'
        rw [insts, lookup_erase, if_pos rfl] at hi'
        cases hi'
      · intro n hn
        rw [Netstack.conn_release, if_pos rfl] at hn
        cases hn
  | @launch _ i now fresh insts next =>
      refine h.grow (Session.dial i now) (fun q hq => by rw [insts, lookup_insert_ne hq])
        (by rw [insts, lookup_insert, if_pos rfl]) (by rw [next]; exact Nat.le_succ _)
        (by rw [next]; exact Nat.lt_succ_self _) (h.unlinked le_rfl) ?_ rfl rfl (.inr rfl)
        (fun q hq => (Option.some.inj hq).symm) rfl (fun _ => ⟨rfl, rfl⟩)
        (fun _ => ⟨rfl, fresh.conn⟩) (.inl rfl)
      exact fun n c hc dialing => absurd (h.known n c _ hc (.inr dialing.2.2)) (Nat.lt_irrefl _)
  | @dial _ id i now there due insts next =>
      simp only [Line.dials, Session.unconnected, Bool.and_eq_true, Bool.not_eq_true'] at due
      obtain ⟨⟨⟨⟨-, conn⟩, -⟩, dialing⟩, -⟩ := due
      refine h.grow (Session.dial i now) (fun q hq => by rw [insts, lookup_insert_ne hq])
        (by rw [insts, lookup_insert, if_pos rfl]) next.ge (by rw [next]; exact h.ids id i there)
        ?_ ?_ rfl rfl (.inr rfl) (fun q hq => (Option.some.inj hq).symm) rfl
        (fun _ => ⟨rfl, rfl⟩) (fun _ => ⟨rfl, conn⟩) (.inl rfl)
      · cases hn : k.conn[id]? with
        | none => rfl
        | some n =>
            obtain ⟨j, -, hj, connected, -⟩ := h.linked id n hn
            rw [there] at hj
            cases hj
            rw [conn] at connected
            cases connected
      · intro n c hc pending
        have := (h.pending n c id i hc pending there).1
        rw [dialing] at this
        cases this
  | accept =>
      refine h.grow _ (fun q hq => lookup_insert_ne hq) (Session.putInst_there _ _ _)
        (Nat.le_succ _) (Nat.lt_succ_self _) (h.unlinked le_rfl) ?_ rfl rfl (.inl rfl)
        (fun q hq => by cases hq) rfl (fun h => by cases h) (fun h => by cases h.2.2)
        (.inr ⟨rfl, rfl, rfl, rfl, rfl⟩)
      exact fun n c hc dialing => absurd (h.known n c _ hc (.inr dialing.2.2)) (Nat.lt_irrefl _)

end Wired

theorem Session.Except.refl (s : Session) (id : Nat) : s.Except s id :=
  ⟨fun _ _ => rfl, fun i hi => ⟨i, hi⟩, rfl⟩

theorem Session.Except.putInst {s : Session} {id : Nat} {i : Instance}
    (hi : s.insts[id]? = some i) (i' : Instance) : s.Except (s.putInst id i') id :=
  ⟨fun _ hq => lookup_insert_ne hq, fun _ _ => ⟨i, hi⟩, rfl⟩

theorem Session.Except.erase {s s' : Session} {id : Nat} (insts : s'.insts = s.insts.erase id)
    (next : s'.nextId = s.nextId) : s.Except s' id := by
  refine ⟨fun q hq => by rw [insts, lookup_erase_ne hq], fun i' hi' => ?_, next⟩
  rw [insts, lookup_erase, if_pos rfl] at hi'
  cases hi'

namespace Wired
variable {s s' : Session} {k k' : Netstack} {id n : Nat} {i : Instance} {c : TcpConn} {b : Bytes}

/-- Only connections change. -/
theorem shrink_stack (h : Wired s k) (shrinks : k.Shrinks k') : Wired s k' := by
  refine h.shrink (Session.Except.refl s 0) shrinks (fun n c' i hc' dialing hi => ?_) fun n hn => ?_
  · obtain ⟨c, hc, kin⟩ := shrinks.kin n c' hc'
    exact h.pending n c 0 i hc (kin.dialing dialing) hi
  · obtain ⟨i, c, hi, conn, -⟩ := h.linked 0 n (shrinks.conn 0 n hn)
    exact ⟨i, hi, conn⟩

/-- An instance that is gone takes its connection with it, or has lost it. -/
theorem erase (h : Wired s k) (insts : s'.insts = s.insts.erase id) (next : s'.nextId = s.nextId)
    (shrinks : k.Shrinks k') (link : k'.conn[id]? = none) : Wired s' k' := by
  refine h.shrink (.erase insts next) shrinks (fun n c i' _ _ hi' => ?_) fun n hn => ?_
  · rw [insts, lookup_erase, if_pos rfl] at hi'
    cases hi'
  · rw [link] at hn
    cases hn

theorem shook (h : Wired s k) (hi : s.insts[id]? = some i)
    (shook : Line.Shook s k id i b s' k') : Wired s' k' := by
  cases shook with
  | «open» => exact h
  | part =>
      refine h.shrink (.putInst hi _) (.refl k) (fun n c i' hc dialing hi' => ?_) fun n hn => ?_
      · rw [Session.putInst_there] at hi'
        cases hi'
        exact h.pending n c id i hc dialing hi
      · obtain ⟨j, -, hj, conn, -⟩ := h.linked id n hn
        rw [hi] at hj
        cases hj
        exact ⟨_, Session.putInst_there _ _ _, conn⟩
  | closed insts next =>
      exact h.erase insts next h.shrinks_release (by rw [Netstack.conn_release, if_pos rfl])
  | @opened _ i' others there isOpen conn linked next =>
      rw [Std.ExtTreeMap.contains_iff_mem, ← Std.ExtTreeMap.isSome_getElem?_iff_mem] at linked
      obtain ⟨m, hm⟩ := Option.isSome_iff_exists.mp linked
      obtain ⟨j, -, hj, connected, -⟩ := h.linked id m hm
      rw [hi] at hj
      cases hj
      refine h.shrink ⟨others, fun _ _ => ⟨i, hi⟩, next⟩ (.refl k) (fun n c _ hc dialing _ => ?_)
        fun n _ => ⟨i', there, conn.trans connected⟩
      have := (h.pending n c id i hc dialing hi).2
      rw [connected] at this
      cases this
  | retried _ _ conn =>
      refine h.shrink (.putInst hi _) h.shrinks_release (fun n c' i' hc' dialing hi' => ?_)
        fun n hn => ?_
      · obtain ⟨c, hc, kin⟩ := h.shrinks_release.kin n c' hc'
        have := (h.pending n c id i hc (kin.dialing dialing) hi).2
        rw [conn] at this
        cases this
      · rw [Netstack.conn_release, if_pos rfl] at hn
        cases hn

end Wired

/-- A connection changes, and the one pointer there may be to it is dropped. -/
theorem Netstack.shrinks_lose {k : Netstack} {id n : Nat} {f : TcpConn → TcpConn}
    (kin : ∀ c : TcpConn, k.conns[n]? = some c → c.Kin (f c))
    (only : ∀ q : Nat, k.conn[q]? = some n → q = id) :
    k.Shrinks ((k.change n f).forget id) := by
  refine ⟨rfl, fun m c' hc' => ?_, fun q m hm => ?_, fun q m c hm hc _ => ?_⟩
  · simp only [forget, conns_change] at hc'
    split at hc'
    · rename_i e
      subst e
      obtain ⟨c, hc, rfl⟩ := Option.map_eq_some_iff.mp hc'
      exact ⟨c, hc, kin c hc⟩
    · exact ⟨c', hc', .refl c'⟩
  · rw [forget, lookup_erase] at hm
    split at hm
    · cases hm
    · exact hm
  · rw [forget, lookup_erase] at hm
    split at hm
    · cases hm
    · rename_i hq
      refine ⟨c, ?_, rfl, rfl⟩
      simp only [forget, conns_change]
      rw [if_neg]
      · exact hc
      · rintro rfl
        exact hq (only q hm).symm

namespace Wired
variable {s s' : Session} {k k' : Netstack} {id n : Nat} {i : Instance} {c : TcpConn} {b : Bytes}
  {f : TcpConn → TcpConn}

/-- Only the owner points at a connection. -/
theorem owner_of_link (h : Wired s k) (hc : k.conns[n]? = some c) {q : Nat}
    (hq : k.conn[q]? = some n) : c.owner = some q ∧ c.connected = true := by
  obtain ⟨_, c', -, -, hc', -, connected, owner⟩ := h.linked q n hq
  rw [hc] at hc'
  cases hc'
  exact ⟨owner, connected⟩

theorem gone (h : Wired s k) (gone : Line.Gone s id s') (shrinks : k.Shrinks k')
    (link : k'.conn[id]? = none) : Wired s' k' := by
  cases gone with
  | absent none => exact h.shrink_stack shrinks
  | closed _ _ insts next => exact h.erase insts next shrinks link
  | attempt hi =>
      refine h.shrink (.putInst hi _) shrinks (fun n c' i' hc' dialing hi' => ?_) fun n hn => ?_
      · rw [Session.putInst_there] at hi'
        cases hi'
        obtain ⟨c, hc, kin⟩ := shrinks.kin n c' hc'
        exact ⟨(h.pending n c id _ hc (kin.dialing dialing) hi).1, rfl⟩
      · rw [link] at hn
        cases hn

theorem hear (h : Wired s k) (connected : ∀ c, k.conns[n]? = some c → c.connected = true)
    (b : Bytes) : Wired s (k.change n fun c => { c with heard := c.heard ++ b }) := by
  refine h.shrink_stack (Netstack.shrinks_change (fun c hc => ?_) fun _ _ _ _ _ => ⟨rfl, rfl⟩)
  refine ⟨fun h => h, rfl, rfl, .inl rfl, .inl, fun unconnected => ?_⟩
  rw [connected c hc] at unconnected
  cases unconnected

end Wired

namespace Wired
variable {s s' : Session} {k k' : Netstack} {n : Nat} {b : Bytes}

theorem heard (h : Wired s k) (heard : Line.Heard s k n b s' k') : Wired s' k' := by
  have grown : ∀ {c}, k.conns[n]? = some c → c.Live →
      Wired s (k.change n fun c => { c with heard := c.heard ++ b }) := by
    intro c hc live
    refine h.hear (fun c' hc' => ?_) b
    rw [hc] at hc'
    cases hc'
    exact live.2.1
  cases heard with
  | nobody hc live => exact grown hc live
  | somebody hc live _ hi shook => exact (grown hc live).shook hi shook

theorem finished (h : Wired s k) (finished : Line.Finished s k n s' k') : Wired s' k' := by
  have kin : ∀ c : TcpConn, k.conns[n]? = some c → c.Kin { c with fin := true } :=
    fun c _ => ⟨fun h => h, rfl, rfl, .inl rfl, .inl, fun _ => ⟨rfl, rfl⟩⟩
  cases finished with
  | nobody => exact h.shrink_stack (Netstack.shrinks_change kin fun _ _ _ _ _ => ⟨rfl, rfl⟩)
  | @somebody c id _ hc _ owner gone =>
      refine h.gone gone (Netstack.shrinks_lose kin fun q hq => ?_) ?_
      · have := (h.owner_of_link hc hq).1
        rw [owner] at this
        exact (Option.some.inj this).symm
      · rw [Netstack.forget, lookup_erase, if_pos rfl]

theorem lost (h : Wired s k) (lost : Line.Lost s k n s' k') : Wired s' k' := by
  have kin : ∀ c : TcpConn, k.conns[n]? = some c → c.Kin { c with pcb := false } :=
    fun c _ => ⟨fun h => absurd h Bool.false_ne_true, rfl, rfl, .inl rfl, .inl,
      fun _ => ⟨rfl, rfl⟩⟩
  cases lost with
  | @nobody c hc _ none =>
      refine h.shrink_stack (Netstack.shrinks_change kin fun q c' hq hc' owner => ?_)
      obtain ⟨owned, connected⟩ := h.owner_of_link hc hq
      rcases none with ⟨-, none⟩ | ⟨unconnected, -⟩
      · rw [none] at owned
        cases owned
      · rw [unconnected] at connected
        cases connected
  | @somebody c id _ hc _ _ owner gone =>
      refine h.gone gone (Netstack.shrinks_lose kin fun q hq => ?_) ?_
      · have := (h.owner_of_link hc hq).1
        rw [owner] at this
        exact (Option.some.inj this).symm
      · rw [Netstack.forget, lookup_erase, if_pos rfl]
  | @dialer c id hc dialing =>
      have shrinks : k.Shrinks ((k.change n fun c => { c with pcb := false }).forget id) := by
        refine Netstack.shrinks_lose kin fun q hq => ?_
        have := (h.owner_of_link hc hq).2
        rw [dialing.2.1] at this
        cases this
      simp only [Session.connectFailed]
      split
      · exact h.shrink_stack shrinks
      · rename_i i hi
        refine h.shrink (.putInst hi _) shrinks (fun m c' i' hc' dialing' hi' => ?_) fun m hm => ?_
        · -- the dial that failed was the only one
          obtain ⟨c₁, hc₁, kin'⟩ := shrinks.kin m c' hc'
          obtain rfl := h.sole m n c₁ c id i hc₁ hc (kin'.dialing dialing') dialing hi
          simp only [Netstack.forget, Netstack.conns_change, if_true] at hc'
          obtain ⟨c₂, -, rfl⟩ := Option.map_eq_some_iff.mp hc'
          cases dialing'.1
        · rw [Netstack.forget, lookup_erase, if_pos rfl] at hm
          cases hm

/-- Connection `n` is established, and nothing else is different. -/
theorem establish (h : Wired s k) {c : TcpConn} (c' : TcpConn) {id : Nat}
    (hc : k.conns[n]? = some c)
    (dialing : c.Dialing id) (made : k'.made = k.made)
    (conns : ∀ m : Nat, k'.conns[m]? = if n = m then some c' else k.conns[m]?)
    (differ : s.Except s' id) (kept : ∀ i, s.insts[id]? = some i → ∃ i', s'.insts[id]? = some i')
    (connected : c'.connected = true) (dialer : c'.dialer = c.dialer)
    (owner : c'.owner = some id ∧ (∃ i, s.insts[id]? = some i) ∨ c'.owner = none)
    (asked : c'.wantClose = true → c'.owner = none)
    (conn : ∀ q m : Nat, k'.conn[q]? = some m → k.conn[q]? = some m ∧ q ≠ id ∨
      q = id ∧ m = n ∧ c'.pcb = true ∧ c'.owner = some id ∧
        ∃ i', s'.insts[id]? = some i' ∧ i'.conn = true) : Wired s' k' := by
  have old : ∀ {m : Nat} {d : TcpConn}, k'.conns[m]? = some d →
      m = n ∧ d = c' ∨ m ≠ n ∧ k.conns[m]? = some d := by
    intro m d hd
    rw [conns] at hd
    split at hd
    · rename_i e
      cases hd
      exact .inl ⟨e.symm, rfl⟩
    · rename_i e
      exact .inr ⟨Ne.symm e, hd⟩
  have there : ∀ {q : Nat} {i' : Instance}, s'.insts[q]? = some i' →
      ∃ i, s.insts[q]? = some i := by
    intro q i' hi'
    by_cases hq : q = id
    · subst hq
      exact differ.there i' hi'
    · exact ⟨i', differ.others q hq ▸ hi'⟩
  constructor
  · intro q i' hi'
    obtain ⟨i, hi⟩ := there hi'
    rw [differ.next]
    exact h.ids q i hi
  · intro m d hd
    rw [made]
    rcases old hd with ⟨rfl, -⟩ | ⟨-, hd⟩
    · exact h.numbered m c hc
    · exact h.numbered m d hd
  · intro q m hm
    rcases conn q m hm with ⟨hm, hq⟩ | ⟨rfl, rfl, pcb, owner, i', hi', conn⟩
    · obtain ⟨i, d, hi, conn, hd, pcb, connected', owner'⟩ := h.linked q m hm
      have hne : n ≠ m := by
        rintro rfl
        rw [hc] at hd
        cases hd
        rw [dialing.2.1] at connected'
        cases connected'
      exact ⟨i, d, (differ.others q hq).trans hi, conn, by rw [conns, if_neg hne]; exact hd, pcb,
        connected', owner'⟩
    · exact ⟨i', c', hi', conn, by rw [conns, if_pos rfl], pcb, connected, owner⟩
  · intro m d q hd hq
    rw [differ.next]
    rcases old hd with ⟨rfl, rfl⟩ | ⟨-, hd⟩
    · rcases hq with hq | hq
      · rcases owner with ⟨owner, i, hi⟩ | none
        · rw [owner] at hq
          cases hq
          exact h.ids id i hi
        · rw [none] at hq
          cases hq
      · exact h.known m c q hc (.inr (dialer ▸ hq))
    · exact h.known m d q hd hq
  · intro m d hd want
    rcases old hd with ⟨-, rfl⟩ | ⟨-, hd⟩
    · exact asked want
    · exact h.asked m d hd want
  · intro m d hd unconnected
    rcases old hd with ⟨-, rfl⟩ | ⟨-, hd⟩
    · rw [connected] at unconnected
      cases unconnected
    · exact h.silent m d hd unconnected
  · intro m d q i' hd dialing' hi'
    rcases old hd with ⟨-, rfl⟩ | ⟨hne, hd⟩
    · have := dialing'.2.1
      rw [connected] at this
      cases this
    · by_cases hq : q = id
      · subst hq
        obtain ⟨i, hi⟩ := differ.there i' hi'
        exact absurd (h.sole m n d c q i hd hc dialing' dialing hi) hne
      · exact h.pending m d q i' hd dialing' (differ.others q hq ▸ hi')
  · intro m m' d d' q i' hd hd' dialing₁ dialing₂ hi'
    obtain ⟨i, hi⟩ := there hi'
    rcases old hd with ⟨-, rfl⟩ | ⟨-, hd⟩
    · have := dialing₁.2.1
      rw [connected] at this
      cases this
    · rcases old hd' with ⟨-, rfl⟩ | ⟨-, hd'⟩
      · have := dialing₂.2.1
        rw [connected] at this
        cases this
      · exact h.sole m m' d d' q i hd hd' dialing₁ dialing₂ hi

theorem connected (h : Wired s k) (connected : Line.Connected s k n s' k') : Wired s' k' := by
  cases connected with
  | @dialer c id i _ hc dialing hi made conns conn =>
      have after : (s.connected id) = s.putInst id { i with
          conn := true, dialing := false, isOpen := i.isOpen || i.isMeta } := by
        simp only [Session.connected, hi]
      rw [after]
      refine h.establish { c with connected := true, owner := some id } hc dialing made
        (fun m => ?_) (.putInst hi _) (fun _ _ => ⟨_, Session.putInst_there _ _ _⟩) rfl rfl
        (.inl ⟨rfl, i, hi⟩) (fun want => ?_) fun q m hm => ?_
      · rw [conns, Netstack.conns_change]
        split
        · rename_i e
          rw [← e, hc]
          rfl
        · rfl
      · have := (h.silent n c hc dialing.2.1).2.1
        rw [this] at want
        cases want
      · rw [conn, lookup_insert] at hm
        split at hm
        · rename_i e
          cases hm
          exact .inr ⟨e.symm, rfl, dialing.1, rfl, _, Session.putInst_there _ _ _, rfl⟩
        · rename_i e
          exact .inl ⟨hm, Ne.symm e⟩
  | @expired c id hc dialing none =>
      refine h.establish { c with connected := true, wantClose := true } hc dialing rfl
        (fun m => ?_) (.refl s id) (fun i hi => ⟨i, hi⟩) rfl rfl
        (.inr (h.silent n c hc dialing.2.1).1) (fun _ => (h.silent n c hc dialing.2.1).1)
        fun q m hm => ?_
      · rw [Netstack.conns_change]
        split
        · rename_i e
          rw [← e, hc]
          rfl
        · rfl
      · refine .inl ⟨hm, ?_⟩
        rintro rfl
        obtain ⟨i, -, hi, -⟩ := h.linked q m hm
        rw [none] at hi
        cases hi

end Wired

/-! ## Every session -/

namespace Tunnels

def Every (P : Session → Netstack → Prop) (t : Tunnels) : Prop :=
  ∀ key w, t.line key = some w → P w.session w.stack

/-- Which ends of connections a run may have. -/
def Ends (fins losts : Session → Netstack → Nat → Prop) (t : Tunnels) : TunnelAction → Prop
  | .fin key n => ∀ w, t.line key = some w → fins w.session w.stack n
  | .lost key n => ∀ w, t.line key = some w → losts w.session w.stack n
  | _ => True

/-- What each kind of step keeps. -/
structure Upheld (fins losts : Session → Netstack → Nat → Prop)
    (P : Session → Netstack → Prop) : Prop where
  wired : ∀ {s k}, P s k → Wired s k
  blank : P {} {}
  restart : ∀ {s k s'}, P s k → s'.insts = s.insts → s'.nextId = s.nextId → P s' {}
  move : ∀ s k s' k', P s k → Line.Move s k s' k' → P s' k'
  heard : ∀ {s k n b s' k'}, P s k → Line.Heard s k n b s' k' → P s' k'
  finished : ∀ {s k n s' k'}, P s k → fins s k n → Line.Finished s k n s' k' → P s' k'
  lost : ∀ {s k n s' k'}, P s k → losts s k n → Line.Lost s k n s' k' → P s' k'
  connected : ∀ {s k n s' k'}, P s k → Line.Connected s k n s' k' → P s' k'

variable {P : Session → Netstack → Prop} {fins losts : Session → Netstack → Nat → Prop}
  {t t' : Tunnels} {key : Bytes}

theorem line_work {f : Line → Option Line} (ht : t.work key f = some t') :
    ∃ w w', t.line key = some w ∧ f w = some w' ∧ t'.line key = some w' := by
  obtain ⟨w', hw', rfl⟩ := Option.map_eq_some_iff.mp ht
  obtain ⟨w, hw, hf⟩ := Option.bind_eq_some_iff.mp hw'
  refine ⟨w, w', hw, hf, ?_⟩
  simp [line, Daemon.putSession]

theorem Every.work {f : Line → Option Line} (h : t.Every P) (ht : t.work key f = some t')
    (keep : ∀ w w', t.line key = some w → f w = some w' → P w'.session w'.stack) :
    t'.Every P := by
  obtain ⟨w', hw', rfl⟩ := Option.map_eq_some_iff.mp ht
  obtain ⟨w, hw, hf⟩ := Option.bind_eq_some_iff.mp hw'
  intro q v hv
  obtain ⟨s, hs, rfl⟩ := Option.map_eq_some_iff.mp hv
  simp only [Daemon.putSession, lookup_insert] at hs ⊢
  split at hs
  · rename_i e
    cases hs
    rw [if_pos e]
    exact keep w w' hw hf
  · rename_i e
    rw [if_neg e]
    refine h q ⟨t.daemon.disk, s, (t.nets[q]?).getD {}⟩ ?_
    rw [line, hs]
    rfl

theorem Every.each {f : Bytes → Line → Option Line} (h : t.Every P) (ht : t.each f = some t')
    (keep : ∀ key w w', P w.session w.stack → f key w = some w' → P w'.session w'.stack) :
    t'.Every P :=
  foldlM_invariant
    (fun _ key _ ht _ hwork => ht.work hwork fun w w' hw => keep key w w' (ht key w hw)) h ht

theorem Every.start (h : t.Every P) (upheld : Upheld fins losts P) (a : Answers)
    (record : ConnRecord) : (t.start a record).Every P := by
  intro q v hv
  obtain ⟨s, hs, rfl⟩ := Option.map_eq_some_iff.mp hv
  simp only [Tunnels.start, Daemon.startSession] at hs ⊢
  rw [lookup_insert]
  have other : t.daemon.sessions[q]? = some s → P s ((t.nets[q]?).getD {}) := by
    intro hs
    refine h q ⟨t.daemon.disk, s, (t.nets[q]?).getD {}⟩ ?_
    rw [line, hs]
    rfl
  split at hs
  · rw [lookup_insert] at hs
    split at hs
    · rename_i e
      cases hs
      rw [if_pos e]
      have same := Session.insts_start t.daemon.disk
        ((t.daemon.sessions[record.name]?).getD {}) record t.daemon.objects
      cases hold : t.daemon.sessions[record.name]? with
      | none =>
          rw [hold] at same
          exact upheld.restart upheld.blank same.1 same.2
      | some old =>
          rw [hold] at same
          have held : P old ((t.nets[record.name]?).getD {}) := by
            refine h record.name ⟨t.daemon.disk, old, (t.nets[record.name]?).getD {}⟩ ?_
            rw [line, hold]
            rfl
          exact upheld.restart held same.1 same.2
    · rename_i e
      rw [if_neg e]
      exact other hs
  · rw [lookup_erase] at hs
    split at hs
    · cases hs
    · rename_i e
      rw [if_neg e]
      exact other hs

theorem Every.drop (h : t.Every P) (ht : t.drop key = some t') : t'.Every P := by
  obtain ⟨d, hd, rfl⟩ := Option.map_eq_some_iff.mp ht
  intro q v hv
  obtain ⟨s, hs, rfl⟩ := Option.map_eq_some_iff.mp hv
  have kept : q ≠ key ∧ t.daemon.sessions[q]? = some s := by
    simp only [Daemon.dropSession] at hd
    split at hd
    · rename_i none
      cases hd
      refine ⟨?_, hs⟩
      rintro rfl
      rw [none] at hs
      cases hs
    · split at hd
      · cases hd
        simp only [lookup_erase] at hs
        split at hs
        · cases hs
        · rename_i e
          exact ⟨Ne.symm e, hs⟩
      · cases hd
  rw [lookup_erase_ne kept.1]
  refine h q ⟨t.daemon.disk, s, (t.nets[q]?).getD {}⟩ ?_
  rw [line, kept.2]
  rfl

theorem Every.step (h : t.Every P) (upheld : Upheld fins losts P) {a : TunnelAction}
    (ok : Ends fins losts t a) (ht : t.step a = some t') : t'.Every P := by
  have moves : ∀ {w w' : Line}, Line.Moves w.session w.stack w'.session w'.stack →
      P w.session w.stack → P w'.session w'.stack := fun hm hp => hm.keep upheld.move hp
  cases a with
  | start a record =>
      cases ht
      exact h.start upheld a record
  | drop key => exact h.drop ht
  | command key cmd fd now =>
      refine h.work ht fun w w' hw hf => moves (Line.moves_command ?_ hf) (h key w hw)
      exact fun id i hi => ⟨(upheld.wired (h key w hw)).ids id i hi, trivial⟩
  | reset =>
      refine h.each ht fun key w w' hw hf => ?_
      cases hf
      exact moves (Line.moves_reset w) hw
  | ownerGone key name serial fd =>
      refine h.work ht fun w w' hw hf => ?_
      cases hf
      exact moves (Line.moves_ownerGone name serial fd w) (h key w hw)
  | requestClose key id =>
      refine h.work ht fun w w' hw hf => ?_
      cases hf
      exact upheld.move _ _ _ _ (h key w hw) (.quiet rfl le_rfl)
  | tick now drained =>
      refine h.each ht fun key w w' hw hf => ?_
      split at hf
      · cases hf
        exact moves (Line.moves_tick w now (drained key)) hw
      · cases hf
  | accept key =>
      refine h.work ht fun w w' hw hf => ?_
      cases hf
      exact upheld.move _ _ _ _ (h key w hw) .accept
  | connected key n =>
      exact h.work ht fun w w' hw hf => upheld.connected (h key w hw) (Line.connected_connected hf)
  | data key n b now =>
      exact h.work ht fun w w' hw hf => upheld.heard (h key w hw) (Line.heard_data hf)
  | fin key n =>
      exact h.work ht fun w w' hw hf =>
        upheld.finished (h key w hw) (ok w hw) (Line.finished_fin hf)
  | lost key n =>
      exact h.work ht fun w w' hw hf => upheld.lost (h key w hw) (ok w hw) (Line.lost_lost hf)

/-- A daemon before its first session. -/
def fresh (d : Daemon) : Tunnels := { daemon := { d with sessions := ∅ } }

theorem every_fresh (d : Daemon) : (fresh d).Every P := by
  intro key w hw
  simp [line, fresh] at hw

theorem Every.reach (upheld : Upheld fins losts P) {d : Daemon}
    (h : Reach Tunnels.step (Ends fins losts) (fresh d) t) : t.Every P :=
  h.invariant (every_fresh d) fun _ _ _ ht ok hs => ht.step upheld ok hs

end Tunnels

theorem wired_blank (s : Session) (ids : ∀ (id : Nat) i, s.insts[id]? = some i → id < s.nextId) :
    Wired s {} :=
  ⟨ids, fun _ _ h => by simp at h, fun _ _ h => by simp at h, fun _ _ _ h => by simp at h,
    fun _ _ h => by simp at h, fun _ _ h => by simp at h, fun _ _ _ _ h => by simp at h,
    fun _ _ _ _ _ _ h => by simp at h⟩
end Splice.Peer
