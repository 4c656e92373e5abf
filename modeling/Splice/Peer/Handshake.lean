import Splice.Peer.LocalEnds
import Splice.Peer.Sockets

/-!
The pipe handshake and the segments its bytes come in. A line is looked for in what has
come so far, and its length is checked only while it is not complete. So the first line,
where it ends within the limit, is answered in the same way however the stream is cut; a
longer one is answered or not according to where a segment ends.
-/

namespace Splice.Peer
open Lib Proto

/-- No line is buffered, and no more than one may have. -/
structure Instance.Buffered (i : Instance) : Prop where
  line : newline ∉ i.lbuf
  short : i.lbuf.length ≤ 256

namespace Session

/-- What follows the first line. -/
def afterLine (lbuf : Bytes) : Bytes := (lbuf.dropWhile (· ≠ newline)).drop 1

/-- Of the bytes of a segment, those that go to the instance's end or its client. -/
def handed (src : SourceFs) (s : Session) (id : Nat) (b : Bytes) (now : Nat) : Bytes :=
  match s.insts[id]? with
  | none => []
  | some i =>
      if i.isOpen then b
      else if newline ∈ i.lbuf ++ b then
        match (s.onTunnelData src id b now).1.insts[id]? with
        | none => []
        | some i' => if i'.isOpen then afterLine (i.lbuf ++ b) else []
      else []

/-- What `fail_open` is told, when a segment leads to it. -/
def failure (src : SourceFs) (s : Session) (id : Nat) (b : Bytes) (now : Nat) : Option Bytes :=
  match s.insts[id]? with
  | none => none
  | some i =>
      if i.isOpen = false ∧ i.inbound = false ∧ newline ∈ i.lbuf ++ b ∧
          (s.onTunnelData src id b now).1.insts[id]? = none then
        some (Desk.refusal s i ((i.lbuf ++ b).takeWhile (· ≠ newline)))
      else none

/-- What a connection's bytes have led to. -/
structure Outcome where
  session : Session
  /-- the answers the peer was sent -/
  sent : Bytes := []
  /-- what the instance's end or its client was given -/
  handed : Bytes := []
  /-- why an OPEN failed -/
  failed : Option Bytes := none

/-- One segment of instance `id`'s connection; one that was closed delivers no more. -/
def Outcome.segment (src : SourceFs) (id : Nat) (o : Outcome) (p : Bytes × Nat) : Outcome :=
  match o.session.insts[id]? with
  | none => o
  | some i =>
      if i.conn then
        let r := o.session.onTunnelData src id p.1 p.2
        { session := r.1, sent := o.sent ++ r.2
          handed := o.handed ++ o.session.handed src id p.1 p.2
          failed := o.failed <|> o.session.failure src id p.1 p.2 }
      else o

/-- Segments with the times they arrive at. -/
def deliver (src : SourceFs) (id : Nat) (s : Session) (cut : List (Bytes × Nat)) : Outcome :=
  cut.foldl (Outcome.segment src id) { session := s }

def joined (cut : List (Bytes × Nat)) : Bytes := cut.flatMap (·.1)

/-- Without when to dial next, and without how many bytes came along with the line. -/
def settled (s : Session) (id : Nat) : Session :=
  { s with insts := s.insts.alter id (Option.map fun i => { i with nextDial := 0, preacked := 0 }) }

structure Outcome.Same (id : Nat) (o o' : Outcome) : Prop where
  session : o.session.settled id = o'.session.settled id
  sent : o.sent = o'.sent
  handed : o.handed = o'.handed
  failed : o.failed = o'.failed

/-! ## One segment -/

section Segment
variable {src : SourceFs} {s : Session} {id : Nat} {i : Instance} {b b' : Bytes} {now : Nat}

theorem putInst_putInst (s : Session) (id : Nat) (i i' : Instance) :
    (s.putInst id i).putInst id i' = s.putInst id i' := by
  simp only [putInst, mk.injEq, true_and, and_true]
  refine Std.ExtTreeMap.ext_getElem? fun q => ?_
  rw [lookup_insert, lookup_insert, lookup_insert]
  split
  · rfl
  · rfl

theorem putInst_self (hi : s.insts[id]? = some i) : s.putInst id i = s := by
  have same : s.insts.insert id i = s.insts := by
    refine Std.ExtTreeMap.ext_getElem? fun q => ?_
    rw [lookup_insert]
    split
    · rename_i e
      rw [← e, hi]
    · rfl
  rw [putInst, same]

@[simp] theorem putInst_there (s : Session) (id : Nat) (i : Instance) :
    (s.putInst id i).insts[id]? = some i := by simp [putInst]

@[simp] theorem closeInstance_gone (s : Session) (id : Nat) :
    (s.closeInstance id).insts[id]? = none := by
  simp only [closeInstance]
  split
  · assumption
  · simp

/-- Closing does not look at what was buffered. -/
theorem closeInstance_putInst (hi : s.insts[id]? = some i) (lbuf : Bytes) :
    (s.putInst id { i with lbuf }).closeInstance id = s.closeInstance id := by
  simp only [closeInstance, putInst_there, hi]
  simp only [countFinished, putInst, mk.injEq, true_and, and_true]
  refine Std.ExtTreeMap.ext_getElem? fun q => ?_
  rw [lookup_erase, lookup_erase, lookup_insert]
  split
  · rfl
  · rfl

theorem onTunnelData_open (hi : s.insts[id]? = some i) (opened : i.isOpen = true) :
    s.onTunnelData src id b now = (s, []) := by
  simp only [onTunnelData, hi, opened, if_true]

theorem onTunnelData_line (hi : s.insts[id]? = some i) (waits : i.isOpen = false)
    (line : newline ∈ i.lbuf ++ b) :
    s.onTunnelData src id b now =
      let r := handshakeLine src (s.putInst id { i with lbuf := [] }) id { i with lbuf := [] }
        ((i.lbuf ++ b).takeWhile (· ≠ newline)) now
      (r.1.preack id (afterLine (i.lbuf ++ b)), r.2) := by
  simp only [onTunnelData, hi, waits, Bool.false_eq_true, if_false, if_pos line, afterLine]

theorem onTunnelData_long (hi : s.insts[id]? = some i) (waits : i.isOpen = false)
    (line : newline ∉ i.lbuf ++ b) (long : 256 < (i.lbuf ++ b).length) :
    s.onTunnelData src id b now = (s.closeInstance id, []) := by
  simp only [onTunnelData, hi, waits, Bool.false_eq_true, if_false, if_neg line, if_pos long]

theorem onTunnelData_part (hi : s.insts[id]? = some i) (waits : i.isOpen = false)
    (line : newline ∉ i.lbuf ++ b) (short : (i.lbuf ++ b).length ≤ 256) :
    s.onTunnelData src id b now = (s.putInst id { i with lbuf := i.lbuf ++ b }, []) := by
  simp only [onTunnelData, hi, waits, Bool.false_eq_true, if_false, if_neg line,
    if_neg (Nat.not_lt.mpr short)]

/-- Bytes that are buffered count as if they came now. -/
theorem onTunnelData_buffered (hi : s.insts[id]? = some i) (waits : i.isOpen = false) :
    (s.putInst id { i with lbuf := i.lbuf ++ b }).onTunnelData src id b' now =
      s.onTunnelData src id (b ++ b') now := by
  have there := putInst_there s id { i with lbuf := i.lbuf ++ b }
  have bytes : (i.lbuf ++ b) ++ b' = i.lbuf ++ (b ++ b') := List.append_assoc _ _ _
  by_cases line : newline ∈ i.lbuf ++ (b ++ b')
  · rw [onTunnelData_line hi waits line, onTunnelData_line there waits (bytes ▸ line)]
    simp only [putInst_putInst, bytes]
  · by_cases long : 256 < (i.lbuf ++ (b ++ b')).length
    · rw [onTunnelData_long hi waits line long,
        onTunnelData_long there waits (bytes ▸ line) (bytes ▸ long), closeInstance_putInst hi]
    · rw [onTunnelData_part hi waits line (Nat.le_of_not_lt long),
        onTunnelData_part there waits (bytes ▸ line) (bytes ▸ Nat.le_of_not_lt long),
        putInst_putInst]
      simp only [bytes]

theorem handed_buffered (hi : s.insts[id]? = some i) (waits : i.isOpen = false) :
    (s.putInst id { i with lbuf := i.lbuf ++ b }).handed src id b' now =
      s.handed src id (b ++ b') now := by
  unfold handed
  rw [onTunnelData_buffered hi waits]
  simp only [hi, putInst_there, waits, Bool.false_eq_true, if_false, List.append_assoc]

theorem failure_buffered (hi : s.insts[id]? = some i) (waits : i.isOpen = false) :
    (s.putInst id { i with lbuf := i.lbuf ++ b }).failure src id b' now =
      s.failure src id (b ++ b') now := by
  unfold failure
  rw [onTunnelData_buffered hi waits]
  simp only [hi, putInst_there, List.append_assoc]
  rfl

/-- What the line leads to: the instance is closed, open, or to be dialed again. -/
inductive LineOutcome (base : Session) (id : Nat) (i : Instance) (after : Nat → Session) : Prop
  | closed (is : ∀ now, after now = base.closeInstance id)
  | opened {i' : Instance} (same : ∀ now, after now = after 0)
      (there : (after 0).insts[id]? = some i') (isOpen : i'.isOpen = true) (conn : i'.conn = i.conn)
      (others : ∀ q, q ≠ id → (after 0).insts[q]? = base.insts[q]?)
      (next : (after 0).nextId = base.nextId)
  | retried (out : i.inbound = false) (conn : i.conn = true) (is : ∀ now, after now =
      base.putInst id { i with conn := false, nextDial := now + 1000 })

/-- A request is answered at once, with something unless it asks for what there is none of. -/
theorem handshakeLine_reply (src : SourceFs) (id : Nat) (i : Instance) (base : Session)
    (line : Bytes) :
    ∃ reply, (∀ now, (handshakeLine src base id i line now).2 = reply) ∧
      (i.inbound = true → line ≠ str "__LIST__" → reply ≠ []) := by
  simp only [handshakeLine]
  split
  · refine ⟨_, fun _ => rfl, fun _ hlist => ?_⟩
    simp only [inboundLine, if_neg hlist]
    have unknown : str "UNKNOWN\n" ≠ [] := by decide
    split
    · exact (by decide : str "PONG\n" ≠ [])
    · split
      · exact unknown
      · split
        · exact unknown
        · simp [str]
  · rename_i out
    exact ⟨_, fun _ => rfl, fun h => absurd h out⟩

theorem handshakeLine_outcome (src : SourceFs) (id : Nat) (i : Instance) (base : Session)
    (line : Bytes) :
    LineOutcome base id i fun now => (handshakeLine src base id i line now).1 := by
  simp only [handshakeLine]
  split
  · simp only [inboundLine]
    split
    · exact .closed fun _ => rfl
    · split
      · exact .closed fun _ => rfl
      · split
        · exact .closed fun _ => rfl
        · split
          · exact .closed fun _ => rfl
          · rename_i r _ _
            have there := putInst_there base id (bindReg src i line (spawnReg r))
            exact .opened (fun _ => rfl) there rfl rfl (fun q hq => lookup_insert_ne hq) rfl
  · rename_i out
    rw [Bool.not_eq_true] at out
    simp only [outboundLine]
    split
    · split
      · exact .opened (fun _ => rfl) (putInst_there _ _ _) rfl rfl
          (fun q hq => lookup_insert_ne hq) rfl
      · exact .closed fun _ => rfl
    · split
      · rename_i again
        exact .retried out (Bool.and_eq_true_iff.mp again).2 fun _ => rfl
      · exact .closed fun _ => rfl

/-! ## Several -/

theorem joined_cons (p : Bytes × Nat) (cut : List (Bytes × Nat)) :
    joined (p :: cut) = p.1 ++ joined cut := rfl

theorem deliver_cons (p : Bytes × Nat) (cut : List (Bytes × Nat)) :
    deliver src id s (p :: cut) = cut.foldl (Outcome.segment src id) (deliver src id s [p]) := rfl

theorem deliver_one (hi : s.insts[id]? = some i) (conn : i.conn = true) :
    deliver src id s [(b, now)] =
      { session := (s.onTunnelData src id b now).1, sent := (s.onTunnelData src id b now).2
        handed := s.handed src id b now, failed := s.failure src id b now } := by
  simp only [deliver, List.foldl_cons, List.foldl_nil, Outcome.segment, hi, conn, if_true,
    List.nil_append]
  rfl

theorem deliver_buffered (hi : s.insts[id]? = some i) (waits : i.isOpen = false)
    (conn : i.conn = true) :
    deliver src id (s.putInst id { i with lbuf := i.lbuf ++ b }) [(b', now)] =
      deliver src id s [(b ++ b', now)] := by
  rw [deliver_one hi conn, deliver_one (putInst_there s id { i with lbuf := i.lbuf ++ b }) conn,
    onTunnelData_buffered hi waits, handed_buffered hi waits, failure_buffered hi waits]

/-- Nothing more comes over a connection that was closed. -/
theorem segments_closed {o : Outcome} (closed : ∀ i, o.session.insts[id]? = some i → i.conn = false)
    (cut : List (Bytes × Nat)) : cut.foldl (Outcome.segment src id) o = o := by
  induction cut with
  | nil => rfl
  | cons p cut ih =>
      have same : o.segment src id p = o := by
        unfold Outcome.segment
        split
        · rfl
        · rename_i i hi
          rw [closed i hi]
          rfl
      rw [List.foldl_cons, same, ih]

/-- After the handshake every byte is handed on. -/
theorem segments_open {o : Outcome} (hi : o.session.insts[id]? = some i) (opened : i.isOpen = true)
    (conn : i.conn = true) (cut : List (Bytes × Nat)) :
    cut.foldl (Outcome.segment src id) o = { o with handed := o.handed ++ joined cut } := by
  induction cut generalizing o with
  | nil => simp [joined]
  | cons p cut ih =>
      have next : o.segment src id p = { o with handed := o.handed ++ p.1 } := by
        simp only [Outcome.segment, hi, conn, if_true, onTunnelData_open hi opened, handed, opened,
          failure, Bool.true_eq_false, false_and, if_false, List.append_nil]
        cases o.failed <;> rfl
      rw [List.foldl_cons, next, ih (o := { o with handed := o.handed ++ p.1 }) hi, joined_cons,
        List.append_assoc]

theorem settled_insts (s : Session) (id q : Nat) :
    (s.settled id).insts[q]? = if id = q then
      (s.insts[id]?).map fun i => { i with nextDial := 0, preacked := 0 } else s.insts[q]? := by
  simp only [settled, Std.ExtTreeMap.getElem?_alter, Std.LawfulEqCmp.compare_eq_iff_eq]

theorem settled_preack (s : Session) (id : Nat) (rest : Bytes) :
    (s.preack id rest).settled id = s.settled id := by
  simp only [preack]
  split
  · rfl
  · rename_i i hi
    split
    · simp only [settled, putInst, mk.injEq, true_and, and_true]
      refine Std.ExtTreeMap.ext_getElem? fun q => ?_
      simp only [Std.ExtTreeMap.getElem?_alter, lookup_insert, Std.LawfulEqCmp.compare_eq_iff_eq]
      split
      · simp [hi]
      · rfl
    · rfl

theorem settled_retried (s : Session) (id : Nat) (i : Instance) (t t' : Nat) :
    (s.putInst id { i with nextDial := t }).settled id =
      (s.putInst id { i with nextDial := t' }).settled id := by
  simp only [settled, putInst, mk.injEq, true_and, and_true]
  refine Std.ExtTreeMap.ext_getElem? fun q => ?_
  simp only [Std.ExtTreeMap.getElem?_alter, lookup_insert, Std.LawfulEqCmp.compare_eq_iff_eq]
  split
  · simp
  · rfl

theorem preack_there (hi : s.insts[id]? = some i) (rest : Bytes) :
    ∃ n, (s.preack id rest).insts[id]? = some { i with preacked := n } := by
  simp only [preack, hi]
  split
  · exact ⟨rest.length, putInst_there _ _ _⟩
  · exact ⟨i.preacked, hi⟩

theorem preack_waiting (rest : Bytes) (waits : ∀ i, s.insts[id]? = some i → i.isOpen = false) :
    s.preack id rest = s := by
  simp only [preack]
  split
  · rfl
  · rename_i i hi
    rw [if_neg]
    rw [waits i hi]
    simp

/-- What a line and the bytes after it lead to when one segment completes it. -/
inductive Concludes (s : Session) (id : Nat) (i : Instance) (line reply : Bytes)
    (one : Bytes → Nat → Outcome) : Prop
  | closed (is : one = fun _ _ =>
      { session := s.closeInstance id, sent := reply
        failed := if i.inbound then none else some (Desk.refusal s i line) })
  | opened {t : Session} {i' : Instance} (is : one = fun rest _ =>
        { session := t.preack id rest, sent := reply, handed := rest })
      (there : t.insts[id]? = some i') (isOpen : i'.isOpen = true) (conn : i'.conn = i.conn)
  | retried (is : one = fun _ now =>
      { session := s.putInst id { i with lbuf := [], conn := false, nextDial := now + 1000 }
        sent := reply })

theorem deliver_opened {t : Session} {i' : Instance} {reply : Bytes} (hi : s.insts[id]? = some i)
    (waits : i.isOpen = false) (conn : i.conn = true) (line : newline ∈ i.lbuf ++ b)
    (result : s.onTunnelData src id b now = (t.preack id (afterLine (i.lbuf ++ b)), reply))
    (there : t.insts[id]? = some i') (isOpen : i'.isOpen = true) :
    deliver src id s [(b, now)] =
      { session := t.preack id (afterLine (i.lbuf ++ b)), sent := reply
        handed := afterLine (i.lbuf ++ b) } := by
  obtain ⟨n, hn⟩ := preack_there there (afterLine (i.lbuf ++ b))
  rw [deliver_one hi conn]
  simp only [result, handed, failure, hi, waits, line, hn, isOpen, Bool.false_eq_true, if_false,
    if_true, reduceCtorEq, and_false]

theorem deliver_line (hi : s.insts[id]? = some i) (waits : i.isOpen = false)
    (conn : i.conn = true) (line : Bytes) :
    ∃ reply one, Concludes s id i line reply one ∧
      (i.inbound = true → line ≠ str "__LIST__" → reply ≠ []) ∧ ∀ b now,
        newline ∈ i.lbuf ++ b → (i.lbuf ++ b).takeWhile (· ≠ newline) = line →
        deliver src id s [(b, now)] = one (afterLine (i.lbuf ++ b)) now := by
  obtain ⟨reply, hreply, hsome⟩ :=
    handshakeLine_reply src id { i with lbuf := [] } (s.putInst id { i with lbuf := [] }) line
  have answered := handshakeLine_outcome src id { i with lbuf := [] }
    (s.putInst id { i with lbuf := [] }) line
  have data : ∀ {b now after}, newline ∈ i.lbuf ++ b →
      (i.lbuf ++ b).takeWhile (· ≠ newline) = line →
      (handshakeLine src (s.putInst id { i with lbuf := [] }) id { i with lbuf := [] } line
        now).1 = after →
      s.onTunnelData src id b now = (after.preack id (afterLine (i.lbuf ++ b)), reply) := by
    intro b now after hnl hline hafter
    rw [onTunnelData_line hi waits hnl]
    simp only [hline, hafter, hreply]
  cases answered with
  | closed is =>
      refine ⟨reply, _, .closed rfl, hsome, fun b now hnl hline => ?_⟩
      have result : s.onTunnelData src id b now = (s.closeInstance id, reply) := by
        rw [data hnl hline (is now), closeInstance_putInst hi]
        rw [preack_waiting]
        intro i' hi'
        rw [closeInstance_gone] at hi'
        cases hi'
      rw [deliver_one hi conn]
      simp only [result, handed, failure, hi, waits, hnl, hline, closeInstance_gone]
      cases i.inbound <;> rfl
  | @opened i' same there isOpen conn' _ _ =>
      refine ⟨reply, _, .opened rfl there isOpen conn', hsome, fun b now hnl hline => ?_⟩
      exact deliver_opened hi waits conn hnl (data hnl hline (same now)) there isOpen
  | retried out _ is =>
      refine ⟨reply, _, .retried rfl, hsome, fun b now hnl hline => ?_⟩
      have result : s.onTunnelData src id b now =
          (s.putInst id { i with lbuf := [], conn := false, nextDial := now + 1000 }, reply) := by
        rw [data hnl hline (is now), putInst_putInst, preack_waiting]
        intro i' hi'
        rw [putInst_there] at hi'
        cases hi'
        exact waits
      rw [deliver_one hi conn]
      simp only [result, handed, failure, hi, waits, hnl, putInst_there, Bool.false_eq_true,
        if_false, if_true, reduceCtorEq, and_false]

/-- A line of the stream is the first to end, whatever follows. -/
theorem takeWhile_append {a b : Bytes} (h : newline ∈ a) :
    (a ++ b).takeWhile (· ≠ newline) = a.takeWhile (· ≠ newline) ∧
      afterLine (a ++ b) = afterLine a ++ b := by
  induction a with
  | nil => cases h
  | cons x a ih =>
      by_cases hx : x = newline
      · subst hx
        simp [afterLine]
      · have ha : newline ∈ a := (List.mem_cons.mp h).resolve_left (Ne.symm hx)
        obtain ⟨h₁, h₂⟩ := ih ha
        simp only [afterLine] at h₂ ⊢
        simp only [List.cons_append, List.takeWhile_cons, List.dropWhile_cons, ne_eq, hx,
          not_false_eq_true, decide_true, if_true]
        exact ⟨congrArg _ h₁, h₂⟩

/-- However the bytes after the line are cut, they come after it. -/
theorem Concludes.segments {line reply : Bytes} {one : Bytes → Nat → Outcome}
    (h : Concludes s id i line reply one) (conn : i.conn = true) (rest : Bytes) (t t' : Nat)
    (cut : List (Bytes × Nat)) :
    Outcome.Same id (cut.foldl (Outcome.segment src id) (one rest t))
      (one (rest ++ joined cut) t') := by
  cases h with
  | closed is =>
      subst is
      rw [segments_closed]
      · exact ⟨rfl, rfl, rfl, rfl⟩
      · intro i' hi'
        rw [closeInstance_gone] at hi'
        cases hi'
  | @opened t i' is there isOpen conn' =>
      subst is
      obtain ⟨n, hn⟩ := preack_there there rest
      rw [segments_open (i := { i' with preacked := n }) hn isOpen (conn'.trans conn)]
      refine ⟨?_, rfl, rfl, rfl⟩
      rw [settled_preack, settled_preack]
  | retried is =>
      subst is
      rw [segments_closed]
      · exact ⟨settled_retried s id { i with lbuf := [], conn := false } _ _, rfl, rfl, rfl⟩
      · intro i' hi'
        rw [putInst_there] at hi'
        cases hi'
        rfl

theorem Outcome.Same.refl (id : Nat) (o : Outcome) : Outcome.Same id o o := ⟨rfl, rfl, rfl, rfl⟩

theorem Outcome.Same.symm {o o' : Outcome} (h : Outcome.Same id o o') : Outcome.Same id o' o :=
  ⟨h.session.symm, h.sent.symm, h.handed.symm, h.failed.symm⟩

theorem Outcome.Same.trans {o o' o'' : Outcome} (h : Outcome.Same id o o')
    (h' : Outcome.Same id o' o'') : Outcome.Same id o o'' :=
  ⟨h.session.trans h'.session, h.sent.trans h'.sent, h.handed.trans h'.handed,
    h.failed.trans h'.failed⟩

theorem deliver_part (hi : s.insts[id]? = some i) (waits : i.isOpen = false)
    (conn : i.conn = true) (line : newline ∉ i.lbuf ++ b) (short : (i.lbuf ++ b).length ≤ 256) :
    deliver src id s [(b, now)] = { session := s.putInst id { i with lbuf := i.lbuf ++ b } } := by
  rw [deliver_one hi conn, onTunnelData_part hi waits line short]
  simp only [handed, failure, hi, waits, line, Bool.false_eq_true, if_false, false_and, and_false]

theorem deliver_long (hi : s.insts[id]? = some i) (waits : i.isOpen = false)
    (conn : i.conn = true) (line : newline ∉ i.lbuf ++ b) (long : 256 < (i.lbuf ++ b).length) :
    deliver src id s [(b, now)] = { session := s.closeInstance id } := by
  rw [deliver_one hi conn, onTunnelData_long hi waits line long]
  simp only [handed, failure, hi, waits, line, Bool.false_eq_true, if_false, false_and, and_false]

/-- A stream whose first line keeps to the limit leads to what it leads to in one piece. -/
theorem deliver_whole (cut : List (Bytes × Nat)) (hi : s.insts[id]? = some i)
    (waits : i.isOpen = false) (conn : i.conn = true) (buffered : i.Buffered)
    (fits : newline ∈ i.lbuf ++ joined cut →
      ((i.lbuf ++ joined cut).takeWhile (· ≠ newline)).length ≤ 256) (t : Nat) :
    Outcome.Same id (deliver src id s cut) (deliver src id s [(joined cut, t)]) := by
  induction cut generalizing s i with
  | nil =>
      have none : newline ∉ i.lbuf ++ [] := by simpa using buffered.line
      have short : (i.lbuf ++ []).length ≤ 256 := by simpa using buffered.short
      have same : s.putInst id { i with lbuf := i.lbuf ++ [] } = s := by
        rw [List.append_nil]
        exact putInst_self hi
      rw [joined, List.flatMap_nil, deliver_part hi waits conn none short, same]
      exact .refl id _
  | cons p cut ih =>
      obtain ⟨b, u⟩ := p
      rw [joined_cons, ← List.append_assoc] at fits
      rw [deliver_cons, joined_cons]
      by_cases hnl : newline ∈ i.lbuf ++ b
      · -- the line is complete: what follows is handed on or dropped
        obtain ⟨reply, one, concludes, -, hone⟩ := deliver_line hi waits conn
          ((i.lbuf ++ b).takeWhile (· ≠ newline))
        obtain ⟨hline, hafter⟩ := takeWhile_append (b := joined cut) hnl
        have whole := hone (b ++ joined cut) t
        rw [← List.append_assoc, hline, hafter] at whole
        rw [hone b u hnl rfl, whole (List.mem_append_left _ hnl) rfl]
        exact concludes.segments conn _ _ _ cut
      · by_cases long : 256 < (i.lbuf ++ b).length
        · -- too long before its end, so it never ends
          have none : newline ∉ i.lbuf ++ (b ++ joined cut) := by
            intro hmem
            rw [← List.append_assoc] at hmem
            have hlen := fits hmem
            have before : ∀ x ∈ i.lbuf ++ b, decide (x ≠ newline) = true := by
              intro x hx
              rw [decide_eq_true_eq]
              rintro rfl
              exact hnl hx
            rw [List.takeWhile_append_of_pos before, List.length_append] at hlen
            omega
          have long' : 256 < (i.lbuf ++ (b ++ joined cut)).length := by
            rw [← List.append_assoc, List.length_append]
            omega
          rw [deliver_long hi waits conn hnl long, deliver_long hi waits conn none long',
            segments_closed]
          · exact .refl id _
          · intro i' hi'
            rw [closeInstance_gone] at hi'
            cases hi'
        · rw [deliver_part hi waits conn hnl (Nat.le_of_not_lt long)]
          have there := putInst_there s id { i with lbuf := i.lbuf ++ b }
          have rest := ih there waits conn ⟨hnl, Nat.le_of_not_lt long⟩ fits
          exact rest.trans (deliver_buffered hi waits conn ▸ .refl id _)

end Segment

/-! ## What is buffered -/

/-- Until its handshake is over, an instance has part of one line buffered. -/
def Unfinished (i : Instance) : Prop := i.isOpen = false → i.Buffered

section Buffers
variable {s s' : Session} {id : Nat} {i : Instance}

theorem unfinished_nil {i : Instance} (h : i.lbuf = []) : Unfinished i := by
  intro _
  constructor
  · rw [h]
    exact List.not_mem_nil
  · rw [h]
    exact Nat.zero_le _

/-- A change that leaves the buffer alone. -/
theorem Unfinished.same {i i' : Instance} (h : Unfinished i) (lbuf : i'.lbuf = i.lbuf)
    (isOpen : i'.isOpen = false → i.isOpen = false) : Unfinished i' := by
  intro waits
  have buffered := h (isOpen waits)
  exact ⟨lbuf ▸ buffered.line, lbuf ▸ buffered.short⟩

theorem unfinished_dialAll (h : s.Instances Unfinished) (now : Nat) :
    (s.dialAll now).Instances Unfinished := by
  refine Instances.closeAll ?_ _
  intro id i hi
  simp only [Std.ExtTreeMap.getElem?_map] at hi
  obtain ⟨j, hj, rfl⟩ := Option.map_eq_some_iff.mp hi
  refine ⟨(h id j hj).1, ?_⟩
  simp only [redial]
  split
  · exact (h id j hj).2.same rfl fun waits => waits
  · exact (h id j hj).2

theorem unfinished_tick (h : s.Instances Unfinished) (disk : Disk) (now : Nat) :
    (Session.tick disk s now).2.Instances Unfinished := by
  simp only [Session.tick]
  generalize hs : (if s.busy then { s with lastActive := now } else s) = s₁
  have h₁ : s₁.Instances Unfinished := by
    rw [← hs]
    split
    · exact h
    · exact h
  split
  · have hclosed : s₁.drainClose.Instances Unfinished :=
      (h₁.closeAll s₁.wantClose).of_insts rfl le_rfl
    have same := insts_retire s₁.drainClose.wantRetire (disk, s₁.drainClose)
    have hretired : (s₁.drainClose.drainRetire disk).2.Instances Unfinished :=
      hclosed.of_insts same.1 same.2.ge
    exact unfinished_dialAll hretired now
  · exact h₁

theorem preack_others (s : Session) (id : Nat) (rest : Bytes) :
    (∀ q, q ≠ id → (s.preack id rest).insts[q]? = s.insts[q]?) ∧
      (s.preack id rest).nextId = s.nextId := by
  simp only [preack]
  split
  · exact ⟨fun _ _ => rfl, rfl⟩
  · split
    · exact ⟨fun q hq => lookup_insert_ne hq, rfl⟩
    · exact ⟨fun _ _ => rfl, rfl⟩

theorem unfinished_outcome {after : Nat → Session} {rest : Bytes} (h : s.Instances Unfinished)
    (there : id < s.nextId) (waits : i.isOpen = false)
    (answered : LineOutcome s id { i with lbuf := [] } after) (now : Nat) :
    ((after now).preack id rest).Instances Unfinished := by
  cases answered with
  | closed is =>
      rw [is now, preack_waiting]
      · exact h.closeInstance id
      · intro i' hi'
        rw [closeInstance_gone] at hi'
        cases hi'
  | @opened i' same hi' isOpen _ others next =>
      obtain ⟨othersPre, nextPre⟩ := preack_others (after 0) id rest
      obtain ⟨n, hn⟩ := preack_there hi' rest
      rw [same now]
      intro q j hj
      rw [nextPre, next]
      by_cases hq : q = id
      · subst hq
        rw [hn] at hj
        cases hj
        refine ⟨there, fun waits => ?_⟩
        rw [isOpen] at waits
        cases waits
      · rw [othersPre q hq, others q hq] at hj
        exact h q j hj
  | retried _ _ is =>
      rw [is now]
      rw [preack_waiting]
      · exact h.putInst there (unfinished_nil rfl)
      · intro i' hi'
        rw [putInst_there] at hi'
        cases hi'
        exact waits

theorem unfinished_data (h : s.Instances Unfinished) (src : SourceFs) (id : Nat) (b : Bytes)
    (now : Nat) : (s.onTunnelData src id b now).1.Instances Unfinished := by
  cases hi : s.insts[id]? with
  | none =>
      simp only [onTunnelData, hi]
      exact h
  | some i =>
      obtain ⟨there, unfinished⟩ := h id i hi
      cases waits : i.isOpen with
      | true =>
          rw [onTunnelData_open hi waits]
          exact h
      | false =>
          by_cases line : newline ∈ i.lbuf ++ b
          · have cleared : (s.putInst id { i with lbuf := [] }).Instances Unfinished :=
              h.putInst there (unfinished_nil rfl)
            rw [onTunnelData_line hi waits line]
            exact unfinished_outcome cleared there waits (handshakeLine_outcome _ _ _ _ _) now
          · by_cases long : 256 < (i.lbuf ++ b).length
            · rw [onTunnelData_long hi waits line long]
              exact h.closeInstance id
            · rw [onTunnelData_part hi waits line (Nat.le_of_not_lt long)]
              exact h.putInst there fun _ => ⟨line, Nat.le_of_not_lt long⟩

theorem unfinished_kept : Kept 0 (fun _ _ _ _ _ => True) (Instances Unfinished) where
  blank := by
    intro id i hi
    simp at hi
  start disk s record object _ h :=
    h.of_insts (insts_start disk s record object).1 (insts_start disk s record object).2.ge
  named _ _ h := h
  recorded _ _ h := h
  run _ _ _ _ s _ _ h hr := by
    cases ran_of_run hr with
    | same insts next => exact h.of_insts insts next
    | closed id is =>
        rw [is]
        exact h.closeInstance id
    | launched fresh is =>
        rw [is]
        exact h.add (unfinished_nil fresh.lbuf)
  reset disk _ h := h.reset disk
  tick disk _ now h := unfinished_tick h disk now
  ownerGone disk _ name serial fd h := h.ownerGone disk name serial fd
  accept _ h := h.add (unfinished_nil rfl)
  gone s id h := by
    simp only [onTunnelGone]
    split
    · exact h
    · rename_i i hi
      split
      · exact h.change hi ((h id i hi).2.same rfl fun waits => waits)
      · exact h.closeInstance id
  connected s id h := by
    simp only [connected]
    split
    · exact h
    · rename_i i hi
      refine h.change hi ((h id i hi).2.same rfl fun waits => ?_)
      exact (Bool.or_eq_false_iff.mp waits).1
  connectFailed s id h := by
    simp only [connectFailed]
    split
    · exact h
    · rename_i i hi
      exact h.change hi ((h id i hi).2.same rfl fun waits => waits)
  requestClose _ _ h := h
  data src _ id b now _ h := unfinished_data h src id b now

end Buffers

/-- The stream's first line, where it ends, keeps to the limit. -/
def Fits (stream : Bytes) : Prop :=
  newline ∈ stream → (stream.takeWhile (· ≠ newline)).length ≤ 256

theorem not_fits_replicate {n : Nat} {x : UInt8} (hx : x ≠ newline) (hn : 256 < n) :
    ¬ Fits (List.replicate n x ++ [newline]) := by
  intro fits
  have before : ∀ y ∈ List.replicate n x, decide (y ≠ newline) = true := by
    intro y hy
    rw [List.eq_of_mem_replicate hy]
    exact decide_eq_true hx
  have short := fits (List.mem_append_right _ (List.mem_singleton_self newline))
  rw [List.takeWhile_append_of_pos before, List.length_append, List.length_replicate] at short
  omega

/-- Every two ways of cutting lead to the same. -/
def CutFree (src : SourceFs) (s : Session) (id : Nat) (b : Bytes) : Prop :=
  ∀ cut cut', joined cut = b → joined cut' = b →
    Outcome.Same id (deliver src id s cut) (deliver src id s cut')

section Cuts
variable {src : SourceFs} {s : Session} {id : Nat} {i : Instance} {b : Bytes}

/-- A longer line is answered, and a piece of it is not. -/
theorem fits_of_cutFree (hi : s.insts[id]? = some i) (waits : i.isOpen = false)
    (conn : i.conn = true) (buffered : i.Buffered) (h : CutFree src s id b) :
    Fits (i.lbuf ++ b) := by
  intro hnl
  by_contra hlong
  have hmem : newline ∈ b := (List.mem_append.mp hnl).resolve_left buffered.line
  obtain ⟨line, rest, rfl, hline⟩ := List.eq_append_cons_of_mem hmem
  have unended : newline ∉ i.lbuf ++ line := fun h =>
    (List.mem_append.mp h).elim buffered.line hline
  have before : ∀ x ∈ i.lbuf ++ line, decide (x ≠ newline) = true := by
    intro x hx
    rw [decide_eq_true_eq]
    rintro rfl
    exact unended hx
  have first : (i.lbuf ++ (line ++ newline :: rest)).takeWhile (· ≠ newline) = i.lbuf ++ line := by
    rw [← List.append_assoc, List.takeWhile_append_of_pos before]
    simp
  have long : 256 < (i.lbuf ++ line).length := by
    rw [first] at hlong
    exact Nat.lt_of_not_le hlong
  -- in two pieces it is dropped when the first comes in
  have pieces : deliver src id s [(line, 0), (newline :: rest, 0)] =
      { session := s.closeInstance id } := by
    rw [deliver_cons, deliver_long hi waits conn unended long, segments_closed]
    intro i' hi'
    rw [closeInstance_gone] at hi'
    cases hi'
  obtain ⟨reply, one, concludes, said, hone⟩ := deliver_line hi waits conn
    (i.lbuf ++ line)
  have same := h [(line ++ newline :: rest, 0)] [(line, 0), (newline :: rest, 0)]
    (by simp [joined]) (by simp [joined])
  rw [pieces, hone _ 0 hnl first] at same
  have gone : ((s.closeInstance id).settled id).insts[id]? = none := by
    rw [settled_insts, if_pos rfl, closeInstance_gone]
    rfl
  cases concludes with
  | closed is =>
      subst is
      cases hin : i.inbound with
      | true =>
          refine said hin ?_ same.sent
          intro hlist
          rw [hlist] at long
          exact absurd long (by decide)
      | false =>
          have failed := same.failed
          simp [hin] at failed
  | @opened t i' is there =>
      subst is
      obtain ⟨n, hn⟩ := preack_there there (afterLine (i.lbuf ++ (line ++ newline :: rest)))
      have at_id := congrArg (fun s : Session => s.insts[id]?) same.session
      simp only [gone, settled_insts, if_pos, hn] at at_id
      cases at_id
  | retried is =>
      subst is
      have at_id := congrArg (fun s : Session => s.insts[id]?) same.session
      simp only [gone, settled_insts, if_pos, putInst_there] at at_id
      cases at_id

theorem cutFree_iff (hi : s.insts[id]? = some i) (waits : i.isOpen = false)
    (conn : i.conn = true) (buffered : i.Buffered) : CutFree src s id b ↔ Fits (i.lbuf ++ b) := by
  constructor
  · exact fits_of_cutFree hi waits conn buffered
  · intro fits cut cut' hcut hcut'
    subst hcut
    refine (deliver_whole cut hi waits conn buffered fits 0).trans ?_
    rw [← hcut'] at fits ⊢
    exact (deliver_whole cut' hi waits conn buffered fits 0).symm

end Cuts
end Session

namespace Daemon
open Session

theorem heardOk_true (d : Daemon) (act : DaemonAction) :
    HeardOk (fun _ _ _ _ _ => True) d act := by
  cases act with
  | data key id b now => exact fun _ _ => trivial
  | command _ _ _ | tick _ | accept _ | gone _ _ | connected _ _ | connectFailed _ _
    | requestClose _ _ | ownerGone _ _ _ _ | changeFiles _ | restart _ | pair _
    | removePeer _ | renamePeer _ _ => trivial

/-- However often a daemon was started and whatever was done to it: how the bytes of a connection
that is not open yet are cut makes no difference exactly when the first line, if it comes to its
end, is within the limit. -/
theorem handshake_cut_iff {d₀ d : Daemon} {a : Answers} (h : Reach step anyStep (d₀.run a) d)
    {key : Bytes} {s : Session} (hs : d.sessions[key]? = some s) {id : Nat} {i : Instance}
    (hi : s.insts[id]? = some i) (waits : i.isOpen = false) (conn : i.conn = true) (b : Bytes) :
    s.CutFree d.files id b ↔ Fits (i.lbuf ++ b) := by
  have unfinished : d.Every (Instances Unfinished) :=
    h.invariant (Every.run unfinished_kept d₀ a) fun d act _ hd _ hstep =>
      hd.step unfinished_kept (heardOk_true d act) hstep
  exact cutFree_iff hi waits conn ((unfinished key s hs id i hi).2 waits)

/-- A request that was begun in one segment ends in any others. -/
theorem request_cut_anywhere : ∃ (d : Daemon) (s : Session),
    d.sessions[str "bob"]? = some s ∧ s.CutFree d.files 0 (str "log\nhello") := by
  obtain ⟨d, reached, seen⟩ := Reach.observed step (Sample.daemon.run {})
    [.pair Sample.record, .command {} 3 (str "RELOAD"),
      .command {} 3 (str "REGISTER bob catalog PIPE"),
      .accept (str "bob"), .data (str "bob") 0 (str "cata") 5]
    (fun d => (d.sessions[str "bob"]?).bind fun s => (s.insts[0]?).map fun i =>
      (i.isOpen, i.conn, i.lbuf))
    (by decide +kernel : _ = some (some (false, true, str "cata")))
  obtain ⟨s, hs, seen⟩ := Option.bind_eq_some_iff.mp seen
  obtain ⟨i, hi, seen⟩ := Option.map_eq_some_iff.mp seen
  simp only [Prod.mk.injEq] at seen
  obtain ⟨waits, conn, lbuf⟩ := seen
  refine ⟨d, s, hs, (handshake_cut_iff reached hs hi waits conn _).mpr ?_⟩
  rw [lbuf, Fits]
  decide

/-- A request of 257 bytes is answered when it comes in one segment, and is closed without an
answer when its newline comes in a second. -/
theorem long_request_cut : ¬ ∀ d : Daemon, Reach step anyStep (Sample.daemon.run {}) d →
    ∀ (key : Bytes) (s : Session) (id : Nat) (i : Instance), d.sessions[key]? = some s →
      s.insts[id]? = some i → i.isOpen = false → i.conn = true →
        ∀ b, s.CutFree d.files id b := by
  intro all
  obtain ⟨d, reached, seen⟩ := Reach.observed step (Sample.daemon.run {})
    [.pair Sample.record, .command {} 3 (str "RELOAD"), .accept (str "bob")]
    (fun d => (d.sessions[str "bob"]?).bind fun s => (s.insts[0]?).map fun i =>
      (i.isOpen, i.conn, i.lbuf))
    (by decide +kernel : _ = some (some (false, true, [])))
  obtain ⟨s, hs, seen⟩ := Option.bind_eq_some_iff.mp seen
  obtain ⟨i, hi, seen⟩ := Option.map_eq_some_iff.mp seen
  simp only [Prod.mk.injEq] at seen
  obtain ⟨waits, conn, lbuf⟩ := seen
  have buffered : i.Buffered := ⟨by simp [lbuf], by simp [lbuf]⟩
  have fits := fits_of_cutFree hi waits conn buffered
    (all d reached _ s 0 i hs hi waits conn (List.replicate 257 120 ++ [newline]))
  rw [lbuf, List.nil_append] at fits
  exact not_fits_replicate (by decide) (by decide) fits

end Daemon
end Splice.Peer
