import Splice.Peer.Wired

/-!
Connections that nobody is left to close. Every way an instance goes asks its connection to
close, but for one: when the peer has closed its side, `on_tunnel_gone` drops the pointer as
if the pcb were gone too, and the connection stays, half closed, with nobody to close it.
-/

namespace Splice.Peer
open Lib Proto

/-- An established connection with a pcb belongs to an instance or is to be closed. -/
def Attended (s : Session) (k : Netstack) : Prop :=
  ∀ (n : Nat) c, k.conns[n]? = some c → c.connected = true → c.pcb = true →
    (∃ (id : Nat) (i : Instance), s.insts[id]? = some i ∧ i.conn = true ∧
      k.conn[id]? = some n) ∨ c.wantClose = true

/-- It is the one of the instance it calls back into, or is to be closed. -/
def Minded (k : Netstack) : Prop :=
  ∀ (n : Nat) c, k.conns[n]? = some c → c.connected = true → c.pcb = true →
    c.owner = none ∧ c.wantClose = true ∨ ∃ id, c.owner = some id ∧ k.conn[id]? = some n

/-- Of `n`, nobody is told that the peer has closed its side. -/
def Unheard (_ : Session) (k : Netstack) (n : Nat) : Prop :=
  ∀ c, k.conns[n]? = some c → c.owner = none

section Minded
variable {s s' : Session} {k k' : Netstack} {id n : Nat} {b : Bytes}

theorem Minded.attended (h : Minded k) (wired : Wired s k) : Attended s k := by
  intro n c hc connected pcb
  rcases h n c hc connected pcb with ⟨-, want⟩ | ⟨id, -, hid⟩
  · exact .inr want
  · obtain ⟨i, -, hi, conn, -⟩ := wired.linked id n hid
    exact .inl ⟨id, i, hi, conn, hid⟩

theorem Minded.release (h : Minded k) (id : Nat) : Minded (k.release id) := by
  intro n c' hc' connected pcb
  rw [Netstack.conns_release] at hc'
  split at hc'
  · obtain ⟨c, -, rfl⟩ := Option.map_eq_some_iff.mp hc'
    exact .inl ⟨rfl, rfl⟩
  · rename_i hn
    rcases h n c' hc' connected pcb with want | ⟨q, owner, hq⟩
    · exact .inl want
    · refine .inr ⟨q, owner, ?_⟩
      rw [Netstack.conn_release, if_neg]
      · exact hq
      · rintro rfl
        exact hn hq

theorem Minded.connect (h : Minded k) (id : Nat) : Minded (k.connect id) := by
  intro n c hc connected pcb
  simp only [Netstack.connect, Netstack.add, lookup_insert] at hc
  split at hc
  · cases hc
    cases connected
  · exact h n c hc connected pcb

theorem Minded.move (h : Minded k) (wired : Wired s k) (move : Line.Move s k s' k') :
    Minded k' := by
  cases move with
  | quiet => exact h
  | close id => exact h.release id
  | launch => exact h.connect _
  | dial => exact h.connect _
  | accept =>
      intro n c hc connected pcb
      simp only [Netstack.accept, Netstack.add, lookup_insert] at hc ⊢
      split at hc
      · rename_i e
        cases hc
        exact .inr ⟨s.nextId, rfl, by rw [if_pos rfl, e]⟩
      · rcases h n c hc connected pcb with want | ⟨q, owner, hq⟩
        · exact .inl want
        · refine .inr ⟨q, owner, ?_⟩
          rw [if_neg]
          · exact hq
          · rintro rfl
            rw [wired.unlinked le_rfl] at hq
            cases hq
  | reap drained =>
      exact fun n c hc => h n c (Netstack.conns_checkTimeouts.mp hc).1

/-- A change that leaves alone who is told. -/
theorem Minded.change (h : Minded k) {f : TcpConn → TcpConn}
    (same : ∀ c, (f c).connected = c.connected ∧ ((f c).pcb = true → c.pcb = true) ∧
      (f c).owner = c.owner ∧ (f c).wantClose = c.wantClose) : Minded (k.change n f) := by
  intro m c' hc' connected pcb
  rw [Netstack.conns_change] at hc'
  split at hc'
  · obtain ⟨c, hc, rfl⟩ := Option.map_eq_some_iff.mp hc'
    obtain ⟨connected', pcb', owner, want⟩ := same c
    rw [owner, want]
    exact h m c hc (connected' ▸ connected) (pcb' pcb)
  · exact h m c' hc' connected pcb

theorem Minded.shook {i : Instance} (h : Minded k) (shook : Line.Shook s k id i b s' k') :
    Minded k' := by
  cases shook with
  | «open» => exact h
  | part => exact h
  | closed => exact h.release id
  | opened => exact h
  | retried => exact h.release id

theorem Minded.heard (h : Minded k) (heard : Line.Heard s k n b s' k') : Minded k' := by
  have grown : Minded (k.change n fun c => { c with heard := c.heard ++ b }) :=
    h.change fun _ => ⟨rfl, fun h => h, rfl, rfl⟩
  cases heard with
  | nobody => exact grown
  | somebody _ _ _ _ shook => exact grown.shook shook

/-- A connection without a pcb needs nobody, and the pointer that goes was to it. -/
theorem Minded.lose (h : Minded k) (only : ∀ m c, k.conns[m]? = some c → c.pcb = true →
    c.connected = true → c.owner = some id → k.conn[id]? = some m → m = n) :
    Minded ((k.change n fun c => { c with pcb := false }).forget id) := by
  intro m c' hc' connected pcb
  simp only [Netstack.forget, Netstack.conns_change] at hc'
  split at hc'
  · obtain ⟨c, -, rfl⟩ := Option.map_eq_some_iff.mp hc'
    cases pcb
  · rename_i hne
    rcases h m c' hc' connected pcb with want | ⟨q, owner, hq⟩
    · exact .inl want
    · refine .inr ⟨q, owner, ?_⟩
      simp only [Netstack.forget]
      rw [lookup_erase_ne]
      · exact hq
      · rintro rfl
        exact hne (only m c' hc' pcb connected owner hq).symm

theorem Minded.lost (h : Minded k) (wired : Wired s k) (lost : Line.Lost s k n s' k') :
    Minded k' := by
  cases lost with
  | nobody => exact h.change fun _ => ⟨rfl, fun h => absurd h Bool.false_ne_true, rfl, rfl⟩
  | somebody hc pcb connected owner =>
      refine h.lose fun m c' _ _ _ _ hm => ?_
      rcases h n _ hc connected pcb with ⟨none, -⟩ | ⟨q, owner', hq⟩
      · rw [none] at owner
        cases owner
      · rw [owner] at owner'
        cases owner'
        rw [hm] at hq
        exact Option.some.inj hq
  | dialer hc dialing =>
      refine h.lose fun m c' _ _ _ _ hm => ?_
      obtain ⟨i, -, hi, conn, -⟩ := wired.linked _ m hm
      have := (wired.pending n _ _ i hc dialing hi).2
      rw [conn] at this
      cases this

theorem Minded.connected (h : Minded k) (wired : Wired s k) (came : Line.Connected s k n s' k') :
    Minded k' := by
  cases came with
  | @dialer c id i _ hc dialing hi made conns conn =>
      intro m c' hc' connected pcb
      rw [conns, Netstack.conns_change] at hc'
      rw [conn]
      split at hc'
      · rename_i e
        obtain ⟨c₁, -, rfl⟩ := Option.map_eq_some_iff.mp hc'
        exact .inr ⟨id, rfl, by rw [lookup_insert, if_pos rfl, e]⟩
      · rcases h m c' hc' connected pcb with want | ⟨q, owner, hq⟩
        · exact .inl want
        · refine .inr ⟨q, owner, ?_⟩
          rw [lookup_insert_ne]
          · exact hq
          · rintro rfl
            obtain ⟨j, -, hj, linked, -⟩ := wired.linked q m hq
            have := (wired.pending n c q j hc dialing hj).2
            rw [linked] at this
            cases this
  | @expired c id hc dialing =>
      intro m c' hc' connected pcb
      rw [Netstack.conns_change] at hc'
      split at hc'
      · rename_i e
        subst e
        obtain ⟨c₁, hc₁, rfl⟩ := Option.map_eq_some_iff.mp hc'
        rw [hc] at hc₁
        cases hc₁
        exact .inl ⟨(wired.silent n c hc dialing.2.1).1, rfl⟩
      · exact h m c' hc' connected pcb

theorem minded_upheld :
    Tunnels.Upheld Unheard (fun _ _ _ => True) fun s k => Wired s k ∧ Minded k where
  wired h := h.1
  blank := ⟨wired_blank {} fun _ _ h => by simp at h, fun _ _ h => by simp at h⟩
  restart h insts next :=
    ⟨wired_blank _ fun id i hi => next ▸ h.1.ids id i (insts ▸ hi), fun _ _ h => by simp at h⟩
  move _ _ _ _ h move := ⟨h.1.move move, h.2.move h.1 move⟩
  heard h heard := ⟨h.1.heard heard, h.2.heard heard⟩
  finished h unheard finished := by
    refine ⟨h.1.finished finished, ?_⟩
    cases finished with
    | nobody => exact h.2.change fun _ => ⟨rfl, fun h => h, rfl, rfl⟩
    | somebody hc _ owner =>
        rw [unheard _ hc] at owner
        cases owner
  lost h _ lost := ⟨h.1.lost lost, h.2.lost h.1 lost⟩
  connected h came := ⟨h.1.connected came, h.2.connected h.1 came⟩

end Minded

namespace Tunnels
variable {d : Daemon} {t t' : Tunnels}

/-- The peer's FIN comes only over connections that call nobody back. -/
def Unclosed : Tunnels → TunnelAction → Prop := Ends Unheard fun _ _ _ => True

/-- The instance that is told forgets a connection that is still there. -/
theorem orphaned {s s' : Session} {k k' : Netstack} {n : Nat} {c : TcpConn} {id : Nat}
    (wired : Wired s k) (hc : k.conns[n]? = some c) (owner : c.owner = some id)
    (finished : Line.Finished s k n s' k') : ¬ Attended s' k' := by
  intro attended
  cases finished with
  | nobody hc' _ none =>
      rw [hc] at hc'
      cases hc'
      rw [none] at owner
      cases owner
  | @somebody c' id' _ hc' live owner' gone =>
      rw [hc] at hc'
      cases hc'
      rw [owner] at owner'
      cases owner'
      have there : ((k.change n fun c => { c with fin := true }).forget id).conns[n]? =
          some { c with fin := true } := by
        simp only [Netstack.forget, Netstack.conns_change, if_true, hc, Option.map_some]
      rcases attended n _ there live.2.1 live.1 with ⟨q, -, -, -, hq⟩ | want
      · simp only [Netstack.forget] at hq
        rw [lookup_erase] at hq
        split at hq
        · cases hq
        · rename_i other
          -- no other instance has it
          have := (wired.owner_of_link hc hq).1
          rw [owner] at this
          exact other (Option.some.inj this)
      · rw [wired.asked n c hc want] at owner
        cases owner

/-- In every run in which no instance is told that its peer has closed its side, no connection
is orphaned; the first FIN that an instance is told of orphans one. -/
theorem attended_iff_unclosed (h : Reach step Unclosed (fresh d) t) :
    t.Every Attended ∧ ∀ key n, t.step (.fin key n) = some t' →
      (t'.Every Attended ↔ Unclosed t (.fin key n)) := by
  have minded : t.Every fun s k => Wired s k ∧ Minded k := Every.reach minded_upheld h
  have attended : ∀ {u : Tunnels}, (u.Every fun s k => Wired s k ∧ Minded k) → u.Every Attended :=
    fun hu key w hw => (hu key w hw).2.attended (hu key w hw).1
  refine ⟨attended minded, fun key n hstep => ⟨fun after w hw c hc => ?_, fun ok => ?_⟩⟩
  · obtain ⟨w₁, w', hw₁, finished, hw'⟩ := line_work hstep
    rw [hw] at hw₁
    cases hw₁
    cases owner : c.owner with
    | none => rfl
    | some id =>
        exact absurd (after key w' hw') (orphaned (minded key w hw).1 hc owner
          (Line.finished_fin finished))
  · exact attended (minded.step minded_upheld ok hstep)

/-- A run without FINs. -/
def finless (_ : Tunnels) : TunnelAction → Bool
  | .fin _ _ => false
  | _ => true

theorem finless_unclosed (t : Tunnels) (a : TunnelAction) (h : finless t a = true) :
    Unclosed t a := by
  cases a with
  | fin key n => cases h
  | lost key n => exact fun _ _ => trivial
  | start _ _ | drop _ | command _ _ _ _ | reset | ownerGone _ _ _ _ | requestClose _ _
    | tick _ _ | accept _ | connected _ _ | data _ _ _ _ => exact trivial

/-- The peer's FIN comes after the instance is closed. -/
theorem fin_after_close : ∃ t t' : Tunnels,
    t.step (.fin (str "bob") 0) = some t' ∧ t'.Every Attended := by
  obtain ⟨t, reached, seen⟩ := Reach.observedWhen step finless_unclosed (fresh Sample.daemon)
    [.start {} Sample.record, .accept (str "bob"), .requestClose (str "bob") 0,
      .tick 5 fun _ _ => false]
    (fun t => (t.line (str "bob")).bind fun w => (w.stack.conns[0]?).map fun c =>
      (c.owner, (t.step (.fin (str "bob") 0)).isSome))
    (by decide +kernel : _ = some (some (none, true)))
  obtain ⟨w, hw, seen⟩ := Option.bind_eq_some_iff.mp seen
  obtain ⟨c, hc, seen⟩ := Option.map_eq_some_iff.mp seen
  simp only [Prod.mk.injEq] at seen
  obtain ⟨none, steps⟩ := seen
  obtain ⟨t', hstep⟩ := Option.isSome_iff_exists.mp steps
  refine ⟨t, t', hstep, ((attended_iff_unclosed reached).2 _ _ hstep).mpr fun v hv c' hc' => ?_⟩
  rw [hw] at hv
  cases hv
  rw [hc] at hc'
  cases hc'
  exact none

/-- The peer closes its side of a connection before it has said anything. -/
theorem fin_orphans : ¬ ∀ t, Reach step anyStep (fresh Sample.daemon) t → t.Every Attended := by
  intro all
  obtain ⟨t, reached, seen⟩ := Reach.observed step (fresh Sample.daemon)
    [.start {} Sample.record, .accept (str "bob"), .fin (str "bob") 0]
    (fun t => (t.line (str "bob")).bind fun w => (w.stack.conns[0]?).map fun c =>
      (c.connected, c.pcb, c.wantClose, w.session.insts.isEmpty))
    (by decide +kernel : _ = some (some (true, true, false, true)))
  obtain ⟨w, hw, seen⟩ := Option.bind_eq_some_iff.mp seen
  obtain ⟨c, hc, seen⟩ := Option.map_eq_some_iff.mp seen
  simp only [Prod.mk.injEq] at seen
  obtain ⟨connected, pcb, want, empty⟩ := seen
  rcases all t reached _ w hw 0 c hc connected pcb with ⟨id, i, hi, -⟩ | want'
  · rw [Std.ExtTreeMap.isEmpty_iff.mp empty] at hi
    simp at hi
  · rw [want] at want'
    cases want'

end Tunnels
end Splice.Peer
