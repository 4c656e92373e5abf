import Splice.Peer.Wired

/-!
An OPEN is dialed until its deadline, or with WAIT for ever, and the line its peer answers
with is gathered in the instance, across connections. Where a connection ends with part of a
line, the next one's answer is read after it; and where the peer closed its side of an
earlier connection, the end of that one takes the pointer to the current one away.
-/

namespace Splice.Peer
open Lib Proto

/-- An OPEN that has no answer yet. -/
def Instance.Waits (i : Instance) : Prop := i.inbound = false ∧ i.isOpen = false

/-- What the bytes for an OPEN without an answer lead to. -/
inductive Verdict
  | waits
  /-- closed: no line is that long -/
  | overlong
  /-- of this kind, and the bytes after the line are for the local end -/
  | accepted (kind rest : Bytes)
  | refused (why : Bytes)
  | retried
  deriving DecidableEq

/-- The verdict on `heard`, were it all that has come, for an OPEN of `want` at `peer`. -/
def verdict (peer want expect : Bytes) (wait : Bool) (heard : Bytes) : Verdict :=
  if newline ∈ heard then
    let line := heard.takeWhile (· ≠ newline)
    let kind := printable (line.drop 3)
    let why := Desk.refusal { name := peer } { want } line
    if line = str "OK" ∨ str "OK " <+: line then
      if kindMatches kind expect then .accepted kind (Session.afterLine heard) else .refused why
    else if wait then .retried else .refused why
  else if 256 < heard.length then .overlong else .waits

namespace Session
variable {src : SourceFs} {s : Session} {id now : Nat} {i : Instance} {b : Bytes}

/-- What a segment leads to, by what is left of the instance. -/
def decided (src : SourceFs) (s : Session) (id : Nat) (b : Bytes) (now : Nat) : Verdict :=
  match (s.onTunnelData src id b now).1.insts[id]? with
  | none =>
      match s.failure src id b now with
      | none => .overlong
      | some why => .refused why
  | some i =>
      if i.isOpen then .accepted i.kind (s.handed src id b now)
      else if i.conn then .waits else .retried

/-- The line is read as the answer to the OPEN. -/
theorem onTunnelData_answer (hi : s.insts[id]? = some i) (waits : i.Waits)
    (line : newline ∈ i.lbuf ++ b) :
    ∃ (base : Session) (i₀ : Instance), i₀ = { i with lbuf := [] } ∧
      s.onTunnelData src id b now =
        ((outboundLine base id i₀ ((i.lbuf ++ b).takeWhile (· ≠ newline)) now).preack id
          (afterLine (i.lbuf ++ b)), []) := by
  refine ⟨s.putInst id { i with lbuf := [] }, _, rfl, ?_⟩
  rw [onTunnelData_line hi waits.2 line]
  simp only [handshakeLine, waits.1, Bool.false_eq_true, if_false]

theorem decided_line (hi : s.insts[id]? = some i) (waits : i.Waits) (conn : i.conn = true)
    (line : newline ∈ i.lbuf ++ b) :
    s.decided src id b now = verdict s.name i.want i.expect i.wait (i.lbuf ++ b) := by
  obtain ⟨base, i₀, hi₀, after⟩ := onTunnelData_answer hi waits line
  have conn₀ : i₀.conn = true := hi₀ ▸ conn
  have expect₀ : i₀.expect = i.expect := hi₀ ▸ rfl
  have wait₀ : i₀.wait = i.wait := hi₀ ▸ rfl
  have waits₀ : i₀.isOpen = false := hi₀ ▸ waits.2
  simp only [verdict, if_pos line]
  generalize hline : (i.lbuf ++ b).takeWhile (· ≠ newline) = first at after
  -- what the instance is closed for, if it is
  have refused : outboundLine base id i₀ first now = base.closeInstance id →
      s.decided src id b now = .refused (Desk.refusal s i first) := by
    intro closed
    have gone : (s.onTunnelData src id b now).1.insts[id]? = none := by
      rw [after, closed, preack_waiting]
      · exact closeInstance_gone base id
      · intro j hj
        rw [closeInstance_gone] at hj
        cases hj
    simp only [decided, gone, failure, hi]
    rw [if_pos ⟨waits.2, waits.1, line, trivial⟩, hline]
  by_cases ok : first = str "OK" ∨ str "OK " <+: first
  · by_cases fits : kindMatches (printable (first.drop 3)) i.expect = true
    · rw [if_pos ok, if_pos fits]
      have opened : outboundLine base id i₀ first now =
          base.putInst id { i₀ with kind := printable (first.drop 3), isOpen := true } := by
        simp only [outboundLine, if_pos ok, expect₀, if_pos fits]
      rw [opened] at after
      obtain ⟨m, hm⟩ := preack_there (putInst_there base id
        { i₀ with kind := printable (first.drop 3), isOpen := true }) (afterLine (i.lbuf ++ b))
      simp only [decided, handed, after, hi, hm, if_true, waits.2, Bool.false_eq_true, if_false,
        if_pos line]
    · rw [if_pos ok, if_neg fits]
      exact refused (by simp only [outboundLine, if_pos ok, expect₀, if_neg fits])
  · cases again : i.wait with
    | true =>
        rw [if_neg ok, if_pos rfl]
        have retried : outboundLine base id i₀ first now =
            base.putInst id { i₀ with conn := false, nextDial := now + 1000 } := by
          simp only [outboundLine, if_neg ok, wait₀, again, conn₀, Bool.and_self, if_true]
        rw [retried, preack_waiting] at after
        · simp only [decided, after, putInst_there, waits₀, Bool.false_eq_true, if_false]
        · intro j hj
          rw [putInst_there] at hj
          cases hj
          exact waits₀
    | false =>
        rw [if_neg ok, if_neg Bool.false_ne_true]
        exact refused (by simp only [outboundLine, if_neg ok, wait₀, again, Bool.false_and,
          Bool.false_eq_true, if_false])

/-- The verdict is on what has been gathered. -/
theorem decided_eq (hi : s.insts[id]? = some i) (waits : i.Waits) (conn : i.conn = true) :
    s.decided src id b now = verdict s.name i.want i.expect i.wait (i.lbuf ++ b) := by
  by_cases line : newline ∈ i.lbuf ++ b
  · exact decided_line hi waits conn line
  · by_cases long : 256 < (i.lbuf ++ b).length
    · have after : s.onTunnelData src id b now = (s.closeInstance id, []) :=
        onTunnelData_long hi waits.2 line long
      simp only [decided, failure, after, closeInstance_gone, hi, verdict, if_neg line,
        if_pos long]
      rw [if_neg fun h => line h.2.2.1]
    · have after : s.onTunnelData src id b now =
          (s.putInst id { i with lbuf := i.lbuf ++ b }, []) :=
        onTunnelData_part hi waits.2 line (Nat.le_of_not_lt long)
      simp only [decided, after, putInst_there, waits.2, Bool.false_eq_true, if_false, conn,
        if_true, verdict, if_neg line, if_neg long]

end Session

/-- What the waiting instance `id` has gathered came over its connection. -/
structure CleanAt (k : Netstack) (id : Nat) (i : Instance) : Prop where
  current : ∀ (n : Nat) c, k.conns[n]? = some c → c.Live → c.owner = some id →
    k.conn[id]? = some n
  empty : i.conn = false → i.lbuf = []
  same : ∀ (n : Nat) c, k.conn[id]? = some n → k.conns[n]? = some c → i.lbuf = c.heard

def Clean (s : Session) (k : Netstack) : Prop :=
  ∀ (id : Nat) i, s.insts[id]? = some i → i.Waits → CleanAt k id i

/-- For instance `id` the connections are what they were. -/
structure Netstack.Keeps (k k' : Netstack) (id : Nat) : Prop where
  conn : k'.conn[id]? = k.conn[id]?
  conns : ∀ (n : Nat) c', k'.conns[n]? = some c' → c'.owner = some id →
    ∃ c, k.conns[n]? = some c ∧ c.owner = some id ∧ (c'.Live → c.Live) ∧ c'.heard = c.heard

namespace Netstack
variable {k : Netstack} {id q n : Nat} {f : TcpConn → TcpConn}

theorem Keeps.refl (k : Netstack) (id : Nat) : k.Keeps k id :=
  ⟨rfl, fun _ c' hc' owner => ⟨c', hc', owner, fun h => h, rfl⟩⟩

theorem Keeps.trans {k' k'' : Netstack} (h : k.Keeps k' id) (h' : k'.Keeps k'' id) :
    k.Keeps k'' id := by
  refine ⟨h'.conn.trans h.conn, fun n c'' hc'' owner => ?_⟩
  obtain ⟨c', hc', owner', live', heard'⟩ := h'.conns n c'' hc'' owner
  obtain ⟨c, hc, owner, live, heard⟩ := h.conns n c' hc' owner'
  exact ⟨c, hc, owner, fun h => live (live' h), heard'.trans heard⟩

theorem keeps_change (other : ∀ c, k.conns[n]? = some c → (f c).owner ≠ some q) :
    k.Keeps (k.change n f) q := by
  refine ⟨rfl, fun m c' hc' owner => ?_⟩
  rw [conns_change] at hc'
  split at hc'
  · rename_i e
    subst e
    obtain ⟨c, hc, rfl⟩ := Option.map_eq_some_iff.mp hc'
    exact absurd owner (other c hc)
  · exact ⟨c', hc', owner, fun h => h, rfl⟩

theorem keeps_forget (h : q ≠ id) : k.Keeps (k.forget id) q :=
  ⟨lookup_erase_ne h, (Keeps.refl k q).conns⟩

theorem keeps_release (h : q ≠ id) : k.Keeps (k.release id) q := by
  refine ⟨?_, fun m c' hc' owner => ?_⟩
  · rw [conn_release, if_neg (Ne.symm h)]
  · rw [conns_release] at hc'
    split at hc'
    · obtain ⟨c, -, rfl⟩ := Option.map_eq_some_iff.mp hc'
      cases owner
    · exact ⟨c', hc', owner, fun h => h, rfl⟩

theorem keeps_connect (k : Netstack) (id q : Nat) : k.Keeps (k.connect id) q := by
  refine ⟨rfl, fun m c' hc' owner => ?_⟩
  simp only [connect, add, lookup_insert] at hc'
  split at hc'
  · cases hc'
    cases owner
  · exact ⟨c', hc', owner, fun h => h, rfl⟩

theorem keeps_accept (h : q ≠ id) : k.Keeps (k.accept id) q := by
  refine ⟨lookup_insert_ne h, fun m c' hc' owner => ?_⟩
  simp only [accept, add, lookup_insert] at hc'
  split at hc'
  · cases hc'
    exact absurd (Option.some.inj owner).symm h
  · exact ⟨c', hc', owner, fun h => h, rfl⟩

theorem keeps_checkTimeouts (k : Netstack) (drained : Nat → Bool) (q : Nat) :
    k.Keeps (k.checkTimeouts drained) q :=
  ⟨rfl, fun _ c' hc' owner => ⟨c', (conns_checkTimeouts.mp hc').1, owner, fun h => h, rfl⟩⟩

end Netstack

/-- The instance that is told of the end of `n`, if it waits, has gathered nothing. -/
def Unheld (s : Session) (k : Netstack) (n : Nat) : Prop :=
  ∀ c (id : Nat) i, k.conns[n]? = some c → c.connected = true → c.owner = some id →
    s.insts[id]? = some i → i.Waits → i.lbuf = []

/-- ...and it is not connected anew. -/
def Parted (s : Session) (k : Netstack) (n : Nat) : Prop :=
  Unheld s k n ∧ ∀ c (id m : Nat) i, k.conns[n]? = some c → c.connected = true →
    c.owner = some id → s.insts[id]? = some i → i.Waits → k.conn[id]? = some m → m = n

namespace Clean
variable {s s' : Session} {k k' : Netstack} {id n : Nat} {b : Bytes} {i i' : Instance}
  {c : TcpConn} {f : TcpConn → TcpConn}

/-- Nothing gathered, and nothing to gather from. -/
theorem blankAt (lbuf : i.lbuf = []) (conn : k.conn[id]? = none)
    (live : ∀ (n : Nat) c, k.conns[n]? = some c → c.Live → c.owner ≠ some id) : CleanAt k id i :=
  ⟨fun n c hc hlive owner => absurd owner (live n c hc hlive), fun _ => lbuf,
    fun _ _ hn => by simp [conn] at hn⟩

theorem keepAt (h : CleanAt k id i) (wired : Wired s' k') (keeps : k.Keeps k' id)
    (lbuf : i'.lbuf = i.lbuf) (conn : i'.conn = i.conn) : CleanAt k' id i' := by
  constructor
  · intro n c' hc' live owner
    obtain ⟨c, hc, owner', live', -⟩ := keeps.conns n c' hc' owner
    rw [keeps.conn]
    exact h.current n c hc (live' live) owner'
  · rw [conn, lbuf]
    exact h.empty
  · intro n c' hn hc'
    obtain ⟨c, hc, -, -, heard⟩ := keeps.conns n c' hc' (wired.owner_of_link hc' hn).1
    rw [lbuf, heard]
    exact h.same n c (keeps.conn ▸ hn) hc

/-- Only instance `id` is different. -/
theorem except (h : Clean s k) (wired : Wired s' k')
    (others : ∀ q, q ≠ id → s'.insts[q]? = s.insts[q]?) (keeps : ∀ q, q ≠ id → k.Keeps k' q)
    (this : ∀ i', s'.insts[id]? = some i' → i'.Waits → CleanAt k' id i') : Clean s' k' := by
  intro q i' hi' waits
  by_cases e : q = id
  · subst e
    exact this i' hi' waits
  · exact keepAt (h q i' (others q e ▸ hi') waits) wired (keeps q e) rfl rfl

theorem restart (h : Clean s k) (insts : s'.insts = s.insts) : Clean s' {} := by
  refine fun id i hi waits => ⟨fun _ _ hc => by simp at hc, ?_, fun _ _ hn => by simp at hn⟩
  exact (h id i (insts ▸ hi) waits).empty

/-- An instance without a connection has none that anything comes over. -/
theorem unlinked (wired : Wired s k) (hi : s.insts[id]? = some i) (conn : i.conn = false) :
    k.conn[id]? = none := by
  cases hm : k.conn[id]? with
  | none => rfl
  | some m =>
      obtain ⟨j, -, hj, linked, -⟩ := wired.linked id m hm
      rw [hi] at hj
      cases hj
      rw [conn] at linked
      cases linked

/-- The instance lets its connection go. -/
theorem released (current : ∀ (n : Nat) c, k.conns[n]? = some c → c.Live → c.owner = some id →
    k.conn[id]? = some n) (lbuf : i.lbuf = []) : CleanAt (k.release id) id i := by
  refine blankAt lbuf ?_ fun m c' hc' live owner => ?_
  · rw [Netstack.conn_release, if_pos rfl]
  · rw [Netstack.conns_release] at hc'
    split at hc'
    · obtain ⟨c, -, rfl⟩ := Option.map_eq_some_iff.mp hc'
      cases owner
    · rename_i other
      exact other (current m c' hc' live owner)

theorem move (h : Clean s k) (wired : Wired s k) (move : Line.Move s k s' k') : Clean s' k' := by
  have wired' := wired.move move
  cases move with
  | quiet insts => exact fun q i' hi' waits => h q i' (insts ▸ hi') waits
  | close id insts =>
      refine h.except wired' (fun q hq => by rw [insts, lookup_erase_ne hq])
        (fun q hq => Netstack.keeps_release hq) fun i' hi' => ?_
      rw [insts, lookup_erase, if_pos rfl] at hi'
      cases hi'
  | @launch _ i _ fresh insts =>
      refine h.except wired' (fun q hq => by rw [insts, lookup_insert_ne hq])
        (fun q _ => Netstack.keeps_connect k _ q) fun i' hi' _ => ?_
      rw [insts, lookup_insert, if_pos rfl] at hi'
      cases hi'
      refine blankAt fresh.lbuf (wired.unlinked le_rfl) fun n c' hc' live owner => ?_
      obtain ⟨c, hc, owner, -⟩ := (Netstack.keeps_connect k s.nextId s.nextId).conns n c' hc' owner
      exact absurd (wired.known n c s.nextId hc (.inl owner)) (Nat.lt_irrefl _)
  | @dial _ id i _ there _ insts =>
      refine h.except wired' (fun q hq => by rw [insts, lookup_insert_ne hq])
        (fun q _ => Netstack.keeps_connect k _ q) fun i' hi' waits => ?_
      rw [insts, lookup_insert, if_pos rfl] at hi'
      cases hi'
      exact keepAt (h id i there waits) wired' (Netstack.keeps_connect k id id) rfl rfl
  | accept =>
      refine h.except wired' (fun q hq => lookup_insert_ne hq)
        (fun q hq => Netstack.keeps_accept hq) fun i' hi' waits => ?_
      simp only [Session.acceptInbound, Session.putInst, lookup_insert, if_pos] at hi'
      cases hi'
      cases waits.1
  | reap drained =>
      exact fun q i' hi' waits =>
        keepAt (h q i' hi' waits) wired' (Netstack.keeps_checkTimeouts k drained q) rfl rfl

/-- What comes over the connection of a waiting instance is gathered. -/
theorem heard (h : Clean s k) (wired : Wired s k) (heard : Line.Heard s k n b s' k') :
    Clean s' k' := by
  have wired' := wired.heard heard
  have other : ∀ {q c}, k.conns[n]? = some c → c.owner ≠ some q →
      k.Keeps (k.change n fun c => { c with heard := c.heard ++ b }) q := by
    intro q c hc owner
    refine Netstack.keeps_change fun c' hc' => ?_
    rw [hc] at hc'
    cases hc'
    exact owner
  cases heard with
  | @nobody c hc live none =>
      intro q i hi waits
      refine keepAt (h q i hi waits) wired' (other hc fun owner => ?_) rfl rfl
      rw [none q owner] at hi
      cases hi
  | @somebody c id i _ _ hc live owner hi shook =>
      have keeps : ∀ q, q ≠ id → k.Keeps (k.change n fun c => { c with heard := c.heard ++ b }) q :=
        fun q hq => other hc fun e => hq (Option.some.inj (e.symm.trans owner))
      cases shook with
      | «open» isOpen =>
          refine h.except wired' (fun _ _ => rfl) keeps fun i' hi' waits => ?_
          rw [hi] at hi'
          cases hi'
          rw [waits.2] at isOpen
          cases isOpen
      | part =>
          refine h.except wired' (fun q hq => lookup_insert_ne hq) keeps
            fun i' hi' waits => ?_
          rw [Session.putInst_there] at hi'
          cases hi'
          have clean := h id i hi waits
          have link := clean.current n c hc live owner
          constructor
          · intro m c' hc' live' owner'
            rw [Netstack.conns_change] at hc'
            split at hc'
            · rename_i e
              exact e ▸ link
            · exact clean.current m c' hc' live' owner'
          · intro unconnected
            rw [unlinked wired hi unconnected] at link
            cases link
          · intro m c' hm hc'
            obtain rfl : n = m := Option.some.inj (link.symm.trans hm)
            rw [Netstack.conns_change, if_pos rfl, hc] at hc'
            cases hc'
            rw [clean.same n c link hc]
      | closed insts =>
          refine h.except wired' (fun q hq => by rw [insts, lookup_erase_ne hq])
            (fun q hq => (keeps q hq).trans (Netstack.keeps_release hq)) fun i' hi' => ?_
          rw [insts, lookup_erase, if_pos rfl] at hi'
          cases hi'
      | opened others there isOpen =>
          refine h.except wired' others keeps fun i' hi' waits => ?_
          rw [there] at hi'
          cases hi'
          rw [waits.2] at isOpen
          cases isOpen
      | retried waits out =>
          refine h.except wired' (fun q hq => lookup_insert_ne hq)
            (fun q hq => (keeps q hq).trans (Netstack.keeps_release hq)) fun i' hi' _ => ?_
          rw [Session.putInst_there] at hi'
          cases hi'
          have clean := h id i hi ⟨out, waits⟩
          refine released (fun m c' hc' live' owner' => ?_) rfl
          rw [Netstack.conns_change] at hc'
          split at hc'
          · rename_i e
            exact e ▸ clean.current n c hc live owner
          · exact clean.current m c' hc' live' owner'

/-- Connection `n` ends for instance `id`, which had no other. -/
theorem ended (h : Clean s k) (wired' : Wired s' ((k.change n f).forget id))
    (hc : k.conns[n]? = some c) (gone : Line.Gone s id s') (dead : ¬ (f c).Live)
    (owner : c.owner = some id) (same : ∀ c, (f c).owner = c.owner)
    (lbuf : ∀ i, s.insts[id]? = some i → i.Waits → i.lbuf = [])
    (only : ∀ (m : Nat) i, s.insts[id]? = some i → i.Waits → k.conn[id]? = some m → m = n) :
    Clean s' ((k.change n f).forget id) := by
  have keeps : ∀ q, q ≠ id → k.Keeps ((k.change n f).forget id) q := by
    refine fun q hq => .trans (Netstack.keeps_change fun c' hc' e => ?_) (Netstack.keeps_forget hq)
    rw [hc] at hc'
    cases hc'
    rw [same, owner] at e
    exact hq (Option.some.inj e).symm
  cases gone with
  | absent none =>
      refine h.except wired' (fun _ _ => rfl) keeps fun i' hi' => ?_
      rw [none] at hi'
      cases hi'
  | @attempt i hi out waits =>
      refine h.except wired' (fun q hq => lookup_insert_ne hq) keeps fun i' hi' waits' => ?_
      rw [Session.putInst_there] at hi'
      cases hi'
      have clean := h id i hi ⟨out, waits⟩
      refine blankAt (lbuf i hi ⟨out, waits⟩) (by rw [Netstack.forget, lookup_erase, if_pos rfl])
        fun m c' hc' live owner' => ?_
      simp only [Netstack.forget, Netstack.conns_change] at hc'
      split at hc'
      · rename_i e
        subst e
        rw [hc] at hc'
        cases hc'
        exact dead live
      · rename_i e
        exact e (only m i hi ⟨out, waits⟩ (clean.current m c' hc' live owner')).symm
  | closed _ _ insts =>
      refine h.except wired' (fun q hq => by rw [insts, lookup_erase_ne hq]) keeps
        fun i' hi' => ?_
      rw [insts, lookup_erase, if_pos rfl] at hi'
      cases hi'

theorem finished (h : Clean s k) (wired : Wired s k) (unheld : Unheld s k n)
    (finished : Line.Finished s k n s' k') : Clean s' k' := by
  have wired' := wired.finished finished
  cases finished with
  | @nobody c hc live none =>
      intro q i hi waits
      refine keepAt (h q i hi waits) wired' (Netstack.keeps_change fun c' hc' owner => ?_) rfl rfl
      rw [hc] at hc'
      cases hc'
      rw [none] at owner
      cases owner
  | @somebody c id _ hc live owner gone =>
      refine h.ended wired' hc gone (fun live' => Bool.noConfusion live'.2.2) owner (fun _ => rfl)
        (fun i hi waits => unheld c id i hc live.2.1 owner hi waits) fun m i hi waits hm => ?_
      have := (h id i hi waits).current n c hc live owner
      exact Option.some.inj (hm.symm.trans this)

theorem lost (h : Clean s k) (wired : Wired s k) (parted : Parted s k n)
    (lost : Line.Lost s k n s' k') : Clean s' k' := by
  have wired' := wired.lost lost
  cases lost with
  | @nobody c hc pcb none =>
      intro q i hi waits
      refine keepAt (h q i hi waits) wired' (Netstack.keeps_change fun c' hc' owner => ?_) rfl rfl
      rw [hc] at hc'
      cases hc'
      rcases none with ⟨-, none⟩ | ⟨unconnected, -⟩
      · rw [none] at owner
        cases owner
      · rw [(wired.silent n c hc unconnected).1] at owner
        cases owner
  | @somebody c id _ hc pcb connected owner gone =>
      exact h.ended wired' hc gone (fun live' => Bool.noConfusion live'.1) owner (fun _ => rfl)
        (fun i hi waits => parted.1 c id i hc connected owner hi waits)
        fun m i hi waits hm => parted.2 c id m i hc connected owner hi waits hm
  | @dialer c id hc dialing =>
      have keeps : ∀ q, k.Keeps (k.change n fun c => { c with pcb := false }) q := by
        refine fun q => Netstack.keeps_change fun c' hc' owner => ?_
        rw [hc] at hc'
        cases hc'
        rw [(wired.silent n c hc dialing.2.1).1] at owner
        cases owner
      simp only [Session.connectFailed] at wired' ⊢
      split
      · rename_i none
        refine h.except (by simpa only [none] using wired') (fun _ _ => rfl)
          (fun q hq => (keeps q).trans (Netstack.keeps_forget hq)) fun i' hi' => ?_
        rw [none] at hi'
        cases hi'
      · rename_i i hi
        have clean := h id i hi
        obtain ⟨dials, unconnected⟩ := wired.pending n c id i hc dialing hi
        have link := unlinked wired hi unconnected
        refine h.except (by simpa only [hi] using wired')
          (fun q hq => lookup_insert_ne hq)
          (fun q hq => (keeps q).trans (Netstack.keeps_forget hq)) fun i' hi' waits => ?_
        rw [Session.putInst_there] at hi'
        cases hi'
        refine keepAt (clean waits) (by simpa only [hi] using wired') (.trans (keeps id) ⟨?_, ?_⟩)
          rfl unconnected.symm
        · simp only [Netstack.forget, Netstack.change, lookup_erase, if_true]
          exact link.symm
        · exact (Netstack.Keeps.refl _ id).conns

theorem connected (h : Clean s k) (wired : Wired s k) (came : Line.Connected s k n s' k') :
    Clean s' k' := by
  have wired' := wired.connected came
  cases came with
  | @expired c id hc dialing =>
      intro q i hi waits
      refine keepAt (h q i hi waits) wired' (Netstack.keeps_change fun c' hc' owner => ?_) rfl rfl
      rw [hc] at hc'
      cases hc'
      rw [(wired.silent n c hc dialing.2.1).1] at owner
      cases owner
  | @dialer c id i _ hc dialing hi made conns conn =>
      have there : ∀ m : Nat, k'.conns[m]? =
          if n = m then some { c with connected := true, owner := some id } else k.conns[m]? := by
        intro m
        rw [conns, Netstack.conns_change]
        split
        · rename_i e
          rw [← e, hc]
          rfl
        · rfl
      have keeps : ∀ q, q ≠ id → k.Keeps k' q := by
        refine fun q hq => ⟨by rw [conn, lookup_insert_ne hq], fun m c' hc' owner => ?_⟩
        rw [there] at hc'
        split at hc'
        · cases hc'
          exact absurd (Option.some.inj owner).symm hq
        · exact ⟨c', hc', owner, fun h => h, rfl⟩
      simp only [Session.connected, hi] at wired' ⊢
      refine h.except wired' (fun q hq => lookup_insert_ne hq) keeps
        fun i' hi' waits => ?_
      rw [Session.putInst_there] at hi'
      cases hi'
      have clean := h id i hi ⟨waits.1, (Bool.or_eq_false_iff.mp waits.2).1⟩
      have unconnected := (wired.pending n c id i hc dialing hi).2
      have lbuf : i.lbuf = [] := clean.empty unconnected
      have link : k'.conn[id]? = some n := by rw [conn, lookup_insert, if_pos rfl]
      constructor
      · intro m c' hc' live owner
        rw [there] at hc'
        split at hc'
        · rename_i e
          exact e ▸ link
        · have := clean.current m c' hc' live owner
          rw [unlinked wired hi unconnected] at this
          cases this
      · exact fun _ => lbuf
      · intro m c' hm hc'
        obtain rfl : n = m := Option.some.inj (link.symm.trans hm)
        rw [there, if_pos rfl] at hc'
        cases hc'
        exact lbuf.trans (wired.silent n c hc dialing.2.1).2.2.symm

theorem upheld : Tunnels.Upheld Unheld Parted fun s k => Wired s k ∧ Clean s k where
  wired h := h.1
  blank := ⟨wired_blank {} fun _ _ h => by simp at h, fun _ _ h => by simp at h⟩
  restart h insts next :=
    ⟨wired_blank _ fun id i hi => next ▸ h.1.ids id i (insts ▸ hi), h.2.restart insts⟩
  move _ _ _ _ h move := ⟨h.1.move move, h.2.move h.1 move⟩
  heard h heard := ⟨h.1.heard heard, h.2.heard h.1 heard⟩
  finished h unheld finished := ⟨h.1.finished finished, h.2.finished h.1 unheld finished⟩
  lost h parted lost := ⟨h.1.lost lost, h.2.lost h.1 parted lost⟩
  connected h came := ⟨h.1.connected came, h.2.connected h.1 came⟩

end Clean

namespace Tunnels
variable {d : Daemon} {t : Tunnels}

/-- No connection ends after part of a line, nor one that was given up after its successor is
established. -/
def Parting : Tunnels → TunnelAction → Prop := Ends Unheld Parted

/-- What comes over `n` is for the OPEN `id`, which has no answer yet. -/
structure Awaited (t : Tunnels) (key : Bytes) (n id : Nat) (w : Line) (c : TcpConn)
    (i : Instance) : Prop where
  line : t.line key = some w
  conn : w.stack.conns[n]? = some c
  live : c.Live
  owner : c.owner = some id
  inst : w.session.insts[id]? = some i
  waits : i.Waits

/-- The verdict on a segment is the one on all that has come over its connection. -/
theorem decided_current (h : Reach step Parting (fresh d) t) {key : Bytes} {n id : Nat} {w : Line}
    {c : TcpConn} {i : Instance} (awaited : t.Awaited key n id w c i) (b : Bytes) (now : Nat) :
    w.session.decided t.daemon.files id b now =
      verdict w.session.name i.want i.expect i.wait (c.heard ++ b) := by
  obtain ⟨wired, clean⟩ := Every.reach Clean.upheld h key w awaited.line
  have clean := clean id i awaited.inst awaited.waits
  have link := clean.current n c awaited.conn awaited.live awaited.owner
  obtain ⟨j, -, hj, conn, -⟩ := wired.linked id n link
  rw [awaited.inst] at hj
  cases hj
  rw [Session.decided_eq awaited.inst awaited.waits conn, clean.same n c link awaited.conn]

/-- What a verdict depends on, and the verdict. -/
structure Asked where
  peer : Bytes
  want : Bytes
  expect : Bytes := []
  wait : Bool := false
  heard : Bytes := []
  verdict : Verdict
  deriving DecidableEq

def asked (key : Bytes) (n id : Nat) (b : Bytes) (now : Nat) (t : Tunnels) : Option Asked :=
  (t.line key).bind fun w => (w.stack.conns[n]?).bind fun c => (w.session.insts[id]?).bind fun i =>
    if c.pcb && c.connected && !c.fin && (c.owner == some id) && !i.inbound && !i.isOpen then
      some { peer := w.session.name, want := i.want, expect := i.expect, wait := i.wait
             heard := c.heard, verdict := w.session.decided t.daemon.files id b now }
    else none

theorem awaited_of_asked {key : Bytes} {n id now : Nat} {b : Bytes} {a : Asked}
    (h : t.asked key n id b now = some a) :
    ∃ w c i, t.Awaited key n id w c i ∧ w.session.name = a.peer ∧ i.want = a.want ∧
      i.expect = a.expect ∧ i.wait = a.wait ∧ c.heard = a.heard ∧
      w.session.decided t.daemon.files id b now = a.verdict := by
  obtain ⟨w, hw, h⟩ := Option.bind_eq_some_iff.mp h
  obtain ⟨c, hc, h⟩ := Option.bind_eq_some_iff.mp h
  obtain ⟨i, hi, h⟩ := Option.bind_eq_some_iff.mp h
  split at h
  · rename_i ok
    simp only [Bool.and_eq_true, Bool.not_eq_true', beq_iff_eq] at ok
    obtain ⟨⟨⟨⟨⟨pcb, connected⟩, fin⟩, owner⟩, out⟩, waits⟩ := ok
    cases h
    exact ⟨w, c, i, ⟨hw, hc, ⟨pcb, connected, fin⟩, owner, hi, out, waits⟩, rfl, rfl, rfl, rfl,
      rfl, rfl⟩
  · cases h

/-- No established connection ends. -/
def endless (t : Tunnels) : TunnelAction → Bool
  | .fin key n | .lost key n =>
      ((t.line key).bind fun w => w.stack.conns[n]?).all fun c => !c.connected
  | _ => true

theorem endless_parting (t : Tunnels) (a : TunnelAction) (h : endless t a = true) :
    Parting t a := by
  have never : ∀ {key : Bytes} {n : Nat} {w : Line} {c : TcpConn},
      ((t.line key).bind fun w => w.stack.conns[n]?).all (fun c : TcpConn => !c.connected) = true →
        t.line key = some w → w.stack.conns[n]? = some c → c.connected = true → False := by
    intro key n w c h hw hc connected
    simp only [hw, Option.bind_some, hc, Option.all_some, connected, Bool.not_true,
      Bool.false_eq_true] at h
  cases a with
  | fin key n => exact fun w hw c _ _ hc connected => (never h hw hc connected).elim
  | lost key n =>
      exact fun w hw => ⟨fun c _ _ hc connected => (never h hw hc connected).elim,
        fun c _ _ _ hc connected => (never h hw hc connected).elim⟩
  | start _ _ | drop _ | command _ _ _ _ | reset | ownerGone _ _ _ _ | requestClose _ _
    | tick _ _ | accept _ | connected _ _ | data _ _ _ _ => exact trivial

/-- An OPEN whose first dial failed is answered on the second. -/
theorem redialed_accepted : ∃ (w : Line) (files : SourceFs),
    w.session.decided files 0 (str "OK raw\nhi") 700 = .accepted (str "raw") (str "hi") := by
  obtain ⟨t, reached, seen⟩ := Reach.observedWhen step endless_parting (fresh Sample.daemon)
    [.start {} Sample.record, .command (str "bob") (.openPipe (str "x") {} (str "ECHO") []) 3 0,
      .lost (str "bob") 0, .tick 600 fun _ _ => false, .connected (str "bob") 1]
    (fun t => t.asked (str "bob") 1 0 [] 700)
    (by decide +kernel : _ = some (some ⟨str "bob", str "x", [], false, [], .waits⟩))
  obtain ⟨w, c, i, awaited, peer, want, expect, wait, heard, -⟩ := awaited_of_asked seen
  refine ⟨w, t.daemon.files, (decided_current reached awaited _ 700).trans ?_⟩
  rw [peer, want, expect, wait, heard]
  decide +kernel

/-- The same answer to the same OPEN, over its first connection and over the second, after part
of a line on the first. -/
theorem decided_previous : ¬ ∃ F : Bytes → Bytes → Bytes → Bool → Bytes → Verdict,
    ∀ t, Reach step anyStep (fresh Sample.daemon) t → ∀ key n id w c i, t.Awaited key n id w c i →
      ∀ b now, w.session.decided t.daemon.files id b now =
        F w.session.name i.want i.expect i.wait (c.heard ++ b) := by
  rintro ⟨F, all⟩
  obtain ⟨t, reached, seen⟩ := Reach.observed step (fresh Sample.daemon)
    [.start {} Sample.record, .command (str "bob") (.openPipe (str "x") {} (str "ECHO") []) 3 0,
      .connected (str "bob") 0]
    (fun t => t.asked (str "bob") 0 0 (str "OK raw\n") 700)
    (by decide +kernel : _ = some (some ⟨str "bob", str "x", [], false, [],
      .accepted (str "raw") []⟩))
  obtain ⟨t', reached', seen'⟩ := Reach.observed step (fresh Sample.daemon)
    [.start {} Sample.record, .command (str "bob") (.openPipe (str "x") {} (str "ECHO") []) 3 0,
      .connected (str "bob") 0, .data (str "bob") 0 (str "OK fi") 10, .fin (str "bob") 0,
      .tick 600 fun _ _ => false, .connected (str "bob") 1]
    (fun t => t.asked (str "bob") 1 0 (str "OK raw\n") 700)
    (by decide +kernel : _ = some (some ⟨str "bob", str "x", [], false, [],
      .accepted (str "fiOK raw") []⟩))
  obtain ⟨w, c, i, awaited, peer, want, expect, wait, heard, is⟩ := awaited_of_asked seen
  obtain ⟨w', c', i', awaited', peer', want', expect', wait', heard', is'⟩ := awaited_of_asked seen'
  have first := all t reached _ _ _ _ _ _ awaited (str "OK raw\n") 700
  have second := all t' reached' _ _ _ _ _ _ awaited' (str "OK raw\n") 700
  rw [is, peer, want, expect, wait, heard] at first
  rw [is', peer', want', expect', wait', heard', ← first] at second
  exact absurd second (by decide)

end Tunnels
end Splice.Peer
