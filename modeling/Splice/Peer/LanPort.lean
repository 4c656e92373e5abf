import Mathlib.Data.List.Induction
import Splice.Peer.PathSteps

/-!
The question for the peer's LAN port, between the two sessions of a pairing and over a
network that may drop, delay, repeat and make up datagrams, but cannot make the pair's
MAC. An answer that is taken was made by the peer for a question of the last 30
seconds, with the port it had then, and it is the only one taken for its nonce.
-/

namespace Splice.Peer
open Proto PathManager

/-! ## What is under a MAC -/

/-- The bytes whose MAC a message of this side carries. -/
def Disco.signs (side : Bool) : Disco → Option Bytes
  | here nonce _ => some (macInput "here" side nonce.toList)
  | portq nonce _ => some (macInput "portq" side nonce.toList)
  | porta nonce port _ => some (macInput "porta" side (portData nonce port))
  | callme _ _ | ping _ | pong _ => none

def Effect.signs (side : Bool) : Effect → Option Bytes
  | direct _ (.disco msg) | relay (.disco msg) => msg.signs side
  | lanQuery _ nonce _ => some (macInput "who" side nonce.toList)
  | _ => none

def macLabels : List String := ["who", "here", "portq", "porta"]

section Inputs
variable {s s' : Bool} {nonce nonce' : Nonce} {port port' : UInt16}

theorem macInput_length (label : String) (s : Bool) (data : Bytes) :
    (macInput label s data).length = (str label).length + (data.length + 1) := by
  simp [macInput]

theorem macInput_inj {label : String} {data data' : Bytes}
    (h : macInput label s data = macInput label s' data') : s = s' ∧ data = data' := by
  have h' := List.cons.inj (List.append_cancel_left h)
  refine ⟨?_, h'.2⟩
  have hbyte := h'.1
  revert hbyte
  cases s <;> cases s' <;> decide

theorem portData_inj (h : portData nonce port = portData nonce' port') :
    nonce = nonce' ∧ port = port' := by
  obtain ⟨hn, hp⟩ := List.append_inj h (by simp)
  refine ⟨Subtype.ext hn, ?_⟩
  have hval := congrArg ofBigEndian hp
  rw [ofBigEndian_bigEndian, ofBigEndian_bigEndian] at hval
  have hlt := port.toNat_lt
  have hlt' := port'.toNat_lt
  exact UInt16.toNat_inj.mp (by omega)

theorem portData_length (nonce : Nonce) (port : UInt16) : (portData nonce port).length = 18 := by
  simp [portData]

/-- The labels have inputs of different lengths: one message never passes for another. -/
theorem Disco.signs_portq {msg : Disco}
    (h : msg.signs s = some (macInput "portq" s' nonce.toList)) :
    s = s' ∧ ∃ tag, msg = .portq nonce tag := by
  cases msg with
  | callme | ping | pong => cases h
  | here n tag =>
      have hlen := congrArg List.length (Option.some.inj h)
      simp [macInput_length, str] at hlen
  | portq n tag =>
      obtain ⟨hs, hn⟩ := macInput_inj (Option.some.inj h)
      exact ⟨hs, tag, by rw [Subtype.ext hn]⟩
  | porta n port tag =>
      have hlen := congrArg List.length (Option.some.inj h)
      simp [macInput_length, portData_length, str] at hlen

theorem Disco.signs_porta {msg : Disco}
    (h : msg.signs s = some (macInput "porta" s' (portData nonce port))) :
    s = s' ∧ ∃ tag, msg = .porta nonce port tag := by
  cases msg with
  | callme | ping | pong => cases h
  | here n tag =>
      have hlen := congrArg List.length (Option.some.inj h)
      simp [macInput_length, portData_length, str] at hlen
  | portq n tag =>
      have hlen := congrArg List.length (Option.some.inj h)
      simp [macInput_length, portData_length, str] at hlen
  | porta n p tag =>
      obtain ⟨hs, hd⟩ := macInput_inj (Option.some.inj h)
      obtain ⟨hn, hp⟩ := portData_inj hd
      exact ⟨hs, tag, by rw [hn, hp]⟩

/-- What is under the MAC of a datagram is under that of the message in it, or a query. -/
theorem Effect.signs_cases {x : Effect} {input : Bytes} (h : x.signs s = some input) :
    (∃ msg, x.Carries msg ∧ msg.signs s = some input) ∨ input.length = 20 := by
  cases x with
  | direct dst inner =>
      cases inner with
      | wg => cases h
      | disco msg => exact .inl ⟨msg, .inl ⟨dst, rfl⟩, h⟩
  | relay inner =>
      cases inner with
      | wg => cases h
      | disco msg => exact .inl ⟨msg, .inr rfl, h⟩
  | lanQuery dst n tag =>
      right
      rw [← Option.some.inj h, macInput_length]
      simp [str]
  | register | whereami | peerLanPort | deliver | accepted | measured => cases h

theorem signs_portq {x : Effect} (h : x.signs s = some (macInput "portq" s' nonce.toList)) :
    s = s' ∧ ∃ tag, x.Carries (.portq nonce tag) := by
  rcases Effect.signs_cases h with ⟨msg, hx, hmsg⟩ | hlen
  · obtain ⟨hs, tag, rfl⟩ := Disco.signs_portq hmsg
    exact ⟨hs, tag, hx⟩
  · simp [macInput_length, str] at hlen

theorem signs_porta {x : Effect}
    (h : x.signs s = some (macInput "porta" s' (portData nonce port))) :
    s = s' ∧ ∃ tag, x.Carries (.porta nonce port tag) := by
  rcases Effect.signs_cases h with ⟨msg, hx, hmsg⟩ | hlen
  · obtain ⟨hs, tag, rfl⟩ := Disco.signs_porta hmsg
    exact ⟨hs, tag, hx⟩
  · simp [macInput_length, portData_length, str] at hlen

end Inputs

/-! ## Two sessions -/

/-- The sessions of the two peers. -/
structure Pair where
  a : PathManager
  b : PathManager

inductive Act
  | a (e : Event)
  | b (e : Event)
  /-- the second peer comes up again, perhaps with another port -/
  | restart (cfg : PathConfig) (locals : List Endpoint)

namespace Pair
variable (mac : MacFn) (w : Pair)

def step : Act → Pair
  | .a e => { w with a := w.a.step mac e }
  | .b e => { w with b := w.b.step mac e }
  | .restart cfg locals => { w with b := .start { cfg with uid := w.b.cfg.uid } locals }

def run (w : Pair) (acts : List Act) : Pair := acts.foldl (step mac) w

def start (cfgA cfgB : PathConfig) (localsA localsB : List Endpoint) : Pair where
  a := .start cfgA localsA
  b := .start cfgB localsB

/-- What an act sends, and from which side. -/
def out : Act → List Effect
  | .a e => (w.a.step mac e).out
  | .b e => (w.b.step mac e).out
  | .restart _ _ => []

def side : Act → Bool
  | .a _ => w.a.side
  | .b _ | .restart _ _ => w.b.side

/-- A holder of the key has sent the MAC of `x`. -/
def Signed (w : Pair) (acts : List Act) (x : Bytes) : Prop :=
  ∃ pre act post, acts = pre ++ act :: post ∧
    ∃ eff ∈ (run mac w pre).out mac act, eff.signs ((run mac w pre).side act) = some x

end Pair

/-- The bytes that reach a peer. -/
def Act.raw : Act → Option Bytes
  | .a (.datagram _ raw _ _) | .b (.datagram _ raw _ _) => some raw
  | .a (.lanQuery _ pkt _) | .b (.lanQuery _ pkt _) => some pkt
  | _ => none

/-- The nonce the first peer would ask with. -/
def Act.draw : Act → Option Nonce
  | .a (.tick _ d) => some d.portNonce
  | _ => none

/-- An ideal MAC: no datagram shows one that no holder of the key has sent before. -/
def Unforged (mac : MacFn) (w : Pair) (acts : List Act) : Prop :=
  ∀ pre act post raw, acts = pre ++ act :: post → act.raw = some raw →
    ∀ label ∈ macLabels, ∀ side data, Shows mac raw label side data →
      Pair.Signed mac w pre (macInput label side data)

/-! ## One call -/

section Calls
variable {mac : MacFn} {m : PathManager} {e : Event} {nonce tag : Nonce} {port : UInt16} {x : Effect}

theorem Effect.Carries.inj {msg msg' : Disco} (h : x.Carries msg) (h' : x.Carries msg') :
    msg = msg' := by
  rcases h with ⟨ep, rfl⟩ | rfl
  · rcases h' with ⟨ep', he⟩ | he <;> cases he
    rfl
  · rcases h' with ⟨ep', he⟩ | he <;> cases he
    rfl

theorem Effect.Carries.calm {msg : Disco} (h : x.Carries msg) : x.calm = msg.calm := by
  rcases h with ⟨ep, rfl⟩ | rfl <;> rfl

/-- Only a tick asks. -/
theorem portq_of_step (h : x ∈ (m.step mac e).out) (hx : x.Carries (.portq nonce tag)) :
    ∃ now d, e = .tick now d ∧ d.portNonce = nonce := by
  cases origin_of_step h hx.calm with
  | ask carries =>
      cases hx.inj carries
      exact ⟨_, _, rfl, rfl⟩
  | ping => rcases hx with ⟨_, he⟩ | he <;> cases he
  | answer _ carries => cases hx.inj carries
  | accept _ _ _ _ _ tells => rcases tells with rfl | rfl <;> rcases hx with ⟨_, he⟩ | he <;> cases he
  | measure => rcases hx with ⟨_, he⟩ | he <;> cases he

/-- An answer names the port listened on, and answers a question of the other side. -/
theorem porta_of_step (h : x ∈ (m.step mac e).out) (hx : x.Carries (.porta nonce port tag)) :
    m.cfg.ownLanPort = port ∧ ∃ src raw now wg, e = .datagram src raw now wg ∧
      Shows mac raw "portq" (!m.side) nonce.toList := by
  cases origin_of_step h hx.calm with
  | ask carries => cases hx.inj carries
  | ping => rcases hx with ⟨_, he⟩ | he <;> cases he
  | answer checked carries =>
      cases hx.inj carries
      exact ⟨rfl, _, _, _, _, rfl, checked⟩
  | accept _ _ _ _ _ tells => rcases tells with rfl | rfl <;> rcases hx with ⟨_, he⟩ | he <;> cases he
  | measure => rcases hx with ⟨_, he⟩ | he <;> cases he

/-- An answer that is taken is fresh and shows the other side's MAC. -/
theorem accepted_of_step (h : Effect.accepted nonce port ∈ (m.step mac e).out) :
    ∃ src raw now wg ask, e = .datagram src raw now wg ∧
      m.portAsked.find? (fun a => a.nonce = nonce) = some ask ∧ now - ask.at_ ≤ kPortAnswerMs ∧
      port ≠ 0 ∧ Shows mac raw "porta" (!m.side) (portData nonce port) := by
  cases origin_of_step h rfl with
  | ask carries => rcases carries with ⟨_, he⟩ | he <;> cases he
  | answer _ carries => rcases carries with ⟨_, he⟩ | he <;> cases he
  | accept pending fresh named checked _ tells =>
      rcases tells with he | he <;> cases he
      exact ⟨_, _, _, _, _, rfl, pending, fresh, named, checked⟩

theorem peerLanPort_of_step (h : Effect.peerLanPort port ∈ (m.step mac e).out) :
    ∃ nonce, Effect.accepted nonce port ∈ (m.step mac e).out := by
  cases origin_of_step h rfl with
  | ask carries => rcases carries with ⟨_, he⟩ | he <;> cases he
  | answer _ carries => rcases carries with ⟨_, he⟩ | he <;> cases he
  | accept _ _ _ _ taken tells =>
      rcases tells with he | he <;> cases he
      exact ⟨_, taken⟩

/-- At most one answer is taken in a call. -/
theorem accepted_unique {nonce' : Nonce} {port' : UInt16}
    (h : Effect.accepted nonce port ∈ (m.step mac e).out)
    (h' : Effect.accepted nonce' port' ∈ (m.step mac e).out) : nonce = nonce' ∧ port = port' := by
  obtain ⟨src, raw, now, wg, ask, rfl, -⟩ := accepted_of_step h
  have hmove : Move mac (.datagram src raw now wg) { m with out := [] }
      (m.step mac (.datagram src raw now wg)) := move_process
  generalize m.step mac (.datagram src raw now wg) = m' at h h' hmove
  cases hmove with
  | calm hc =>
      obtain ⟨l, hout, hcalm⟩ := hc.out
      rw [hout] at h
      exact absurd (hcalm _ h) (by simp [Effect.calm])
  | ask ticks => cases ticks
  | ping ticks => cases ticks
  | answer _ _ _ _ sends => rcases sends _ h with ⟨_, he⟩ | he <;> cases he
  | accept =>
      dsimp only at h h'
      have only : ∀ {n : Nonce} {p : UInt16} {o : List Effect}, Effect.accepted n p ∈ o →
          ∀ {n₀ p₀ q}, (o = [.accepted n₀ p₀, .peerLanPort q] ∨ o = [.accepted n₀ p₀]) →
            n = n₀ ∧ p = p₀ := by
        rintro n p o hmem n₀ p₀ q (rfl | rfl) <;> simpa using hmem
      split at h
      · obtain ⟨hn, hp⟩ := only h (.inl rfl)
        split at h'
        · obtain ⟨hn', hp'⟩ := only h' (.inl rfl)
          exact ⟨hn.trans hn'.symm, hp.trans hp'.symm⟩
        · rename_i hne hno
          exact absurd hne hno
      · obtain ⟨hn, hp⟩ := only (q := 0) h (.inr rfl)
        split at h'
        · rename_i hno hne
          exact absurd hne hno
        · obtain ⟨hn', hp'⟩ := only (q := 0) h' (.inr rfl)
          exact ⟨hn.trans hn'.symm, hp.trans hp'.symm⟩
  | measure => simp [emit] at h

theorem accepted_portAsked (h : Effect.accepted nonce port ∈ (m.step mac e).out) :
    (m.step mac e).portAsked = m.portAsked.eraseP fun a => a.nonce = nonce := by
  obtain ⟨src, raw, now, wg, ask, rfl, -⟩ := accepted_of_step h
  have hmove : Move mac (.datagram src raw now wg) { m with out := [] }
      (m.step mac (.datagram src raw now wg)) := move_process
  have hall : ∀ n p, Effect.accepted n p ∈ (m.step mac (.datagram src raw now wg)).out →
      nonce = n := fun n p h' => (accepted_unique h h').1
  generalize m.step mac (.datagram src raw now wg) = m' at h hall hmove
  cases hmove with
  | calm hc =>
      obtain ⟨l, hout, hcalm⟩ := hc.out
      rw [hout] at h
      exact absurd (hcalm _ h) (by simp [Effect.calm])
  | ask ticks => cases ticks
  | ping ticks => cases ticks
  | answer _ _ _ _ sends => rcases sends _ h with ⟨_, he⟩ | he <;> cases he
  | accept =>
      dsimp only at hall ⊢
      split at hall
      · rename_i hne
        rw [if_pos hne, hall _ _ (List.mem_append_left _ (List.mem_append_right _
          List.mem_cons_self))]
        rfl
      · rename_i hne
        rw [if_neg hne, hall _ _ (List.mem_append_right _ List.mem_cons_self)]
        rfl
  | measure => simp [emit] at h

/-- A session keeps its side. -/
theorem step_side (mac : MacFn) (m : PathManager) (e : Event) : (m.step mac e).side = m.side := by
  have huid : (m.step mac e).cfg.uid = m.cfg.uid := by
    refine step_invariant (I := fun m' => m'.cfg.uid = m.cfg.uid) (fun m₁ m₂ hi hm => ?_) rfl
    cases hm with
    | calm hc => exact hc.uid.trans hi
    | ask => exact hi
    | ping => exact hi
    | answer => exact hi
    | accept =>
        dsimp only
        split <;> exact hi
    | measure => exact hi
  rw [side, side, huid]

end Calls

/-! ## Runs -/

theorem split_concat {α : Type} {l p q : List α} {a x : α} (h : l ++ [a] = p ++ x :: q) :
    p = l ∧ x = a ∧ q = [] ∨ ∃ q', q = q' ++ [a] ∧ l = p ++ x :: q' := by
  induction q using List.reverseRecOn with
  | nil =>
      obtain ⟨h₁, h₂⟩ := List.append_inj' h rfl
      exact .inl ⟨h₁.symm, (List.cons.inj h₂).1.symm, rfl⟩
  | append_singleton q b _ =>
      rw [← List.cons_append, ← List.append_assoc] at h
      obtain ⟨h₁, h₂⟩ := List.append_inj' h rfl
      exact .inr ⟨q, by rw [(List.cons.inj h₂).1], h₁⟩

/-- Two places in a list are the same or one is before the other. -/
theorem split_cases {α : Type} {p q p' q' : List α} {x x' : α}
    (h : p ++ x :: q = p' ++ x' :: q') :
    p = p' ∧ x = x' ∨ (∃ mid, p' = p ++ x :: mid) ∨ ∃ mid, p = p' ++ x' :: mid := by
  rcases List.append_eq_append_iff.mp h with ⟨l, hp, hq⟩ | ⟨l, hp, hq⟩
  · cases l with
    | nil =>
        rw [List.append_nil] at hp
        exact .inl ⟨hp.symm, (List.cons.inj hq).1⟩
    | cons a l =>
        rw [List.cons_append] at hq
        rw [(List.cons.inj hq).1]
        exact .inr (.inl ⟨l, hp⟩)
  · cases l with
    | nil =>
        rw [List.append_nil] at hp
        exact .inl ⟨hp, (List.cons.inj hq).1.symm⟩
    | cons a l =>
        rw [List.cons_append] at hq
        rw [(List.cons.inj hq).1]
        exact .inr (.inr ⟨l, hp⟩)

theorem eq_of_nodup_filterMap {α β : Type} {f : α → Option β} {l : List α}
    (h : (l.filterMap f).Nodup) {x y : α} {b : β} (hx : x ∈ l) (hy : y ∈ l) (fx : f x = some b)
    (fy : f y = some b) : x = y := by
  induction l with
  | nil => cases hx
  | cons a l ih =>
      have hmem : ∀ {z}, z ∈ l → f z = some b → b ∈ l.filterMap f := fun hz fz =>
        List.mem_filterMap.mpr ⟨_, hz, fz⟩
      rcases List.mem_cons.mp hx with rfl | hx
      · rcases List.mem_cons.mp hy with rfl | hy
        · rfl
        · rw [List.filterMap_cons_some fx, List.nodup_cons] at h
          exact absurd (hmem hy fy) h.1
      · rcases List.mem_cons.mp hy with rfl | hy
        · rw [List.filterMap_cons_some fy, List.nodup_cons] at h
          exact absurd (hmem ‹x ∈ l› fx) h.1
        · refine ih ?_ ‹x ∈ l› hy
          cases fa : f a with
          | none => rwa [List.filterMap_cons_none fa] at h
          | some c =>
              rw [List.filterMap_cons_some fa, List.nodup_cons] at h
              exact h.2

namespace Pair
variable {mac : MacFn} {w : Pair} {pre : List Act} {nonce : Nonce} {port : UInt16}

theorem run_concat (mac : MacFn) (w : Pair) (acts : List Act) (act : Act) :
    run mac w (acts ++ [act]) = (run mac w acts).step mac act := by
  simp [run]

theorem run_sides (mac : MacFn) (w : Pair) (acts : List Act) :
    (run mac w acts).a.side = w.a.side ∧ (run mac w acts).b.side = w.b.side := by
  induction acts using List.reverseRecOn with
  | nil => exact ⟨rfl, rfl⟩
  | append_singleton acts act ih =>
      rw [run_concat]
      cases act with
      | a e => exact ⟨(step_side mac _ e).trans ih.1, ih.2⟩
      | b e => exact ⟨ih.1, (step_side mac _ e).trans ih.2⟩
      | restart cfg locals => exact ih

/-- A question under the first peer's MAC was sent by it, in a tick that drew its nonce. -/
theorem asked_of_signed (opposite : w.b.side = !w.a.side)
    (h : Signed mac w pre (macInput "portq" w.a.side nonce.toList)) :
    ∃ p₁ t d p₂, pre = p₁ ++ .a (.tick t d) :: p₂ ∧ d.portNonce = nonce ∧
      ∃ x ∈ ((run mac w p₁).a.step mac (.tick t d)).out, ∃ tag, x.Carries (.portq nonce tag) := by
  obtain ⟨p₁, act, p₂, rfl, x, hx, hsigns⟩ := h
  obtain ⟨hside, tag, hcarries⟩ := signs_portq hsigns
  obtain ⟨ha, hb⟩ := run_sides mac w p₁
  cases act with
  | a e =>
      obtain ⟨t, d, rfl, hd⟩ := portq_of_step hx hcarries
      exact ⟨p₁, t, d, p₂, rfl, hd, x, hx, tag, hcarries⟩
  | b e =>
      rw [side, hb, opposite] at hside
      exact absurd hside (by simp)
  | restart cfg locals => cases hx

/-- An answer under the second peer's MAC was sent by it with the port it had, to a question
of the first. -/
theorem answered_of_signed (opposite : w.b.side = !w.a.side) {acts : List Act}
    (ideal : Unforged mac w acts) {post : List Act} (hacts : acts = pre ++ post)
    (h : Signed mac w pre (macInput "porta" w.b.side (portData nonce port))) :
    ∃ p₁ r p₂, pre = p₁ ++ .b r :: p₂ ∧ (run mac w p₁).b.cfg.ownLanPort = port ∧
      (∃ x ∈ ((run mac w p₁).b.step mac r).out, ∃ tag, x.Carries (.porta nonce port tag)) ∧
      Signed mac w p₁ (macInput "portq" w.a.side nonce.toList) := by
  obtain ⟨p₁, act, p₂, rfl, x, hx, hsigns⟩ := h
  obtain ⟨hside, tag, hcarries⟩ := signs_porta hsigns
  obtain ⟨ha, hb⟩ := run_sides mac w p₁
  cases act with
  | a e =>
      rw [side, ha, opposite] at hside
      exact absurd hside (by simp)
  | b e =>
      obtain ⟨hport, src, raw, now, wg, rfl, hshows⟩ := porta_of_step hx hcarries
      refine ⟨p₁, _, p₂, rfl, hport, ⟨x, hx, tag, hcarries⟩, ?_⟩
      have hsplit : acts = p₁ ++ .b (.datagram src raw now wg) :: (p₂ ++ post) := by
        rw [hacts, List.append_assoc, List.cons_append]
      rw [hb, opposite, Bool.not_not] at hshows
      exact ideal p₁ _ _ raw hsplit rfl "portq" (by decide) _ _ hshows
  | restart cfg locals => cases hx

end Pair

/-- The first peer's pending questions: each drawn by one tick, and none for a nonce that has
been answered. -/
structure Pending (mac : MacFn) (w : Pair) (pre : List Act) : Prop where
  drawn : ∀ ask ∈ (Pair.run mac w pre).a.portAsked, ∃ p₁ d p₂,
    pre = p₁ ++ .a (.tick ask.at_ d) :: p₂ ∧ d.portNonce = ask.nonce
  nodup : ((Pair.run mac w pre).a.portAsked.map (·.nonce)).Nodup
  spent : ∀ p₁ e p₂ nonce port, pre = p₁ ++ .a e :: p₂ →
    .accepted nonce port ∈ ((Pair.run mac w p₁).a.step mac e).out →
    nonce ∈ pre.filterMap Act.draw ∧ ∀ ask ∈ (Pair.run mac w pre).a.portAsked, ask.nonce ≠ nonce

theorem mem_draws {p q : List Act} {t : Int} {d : Draw} :
    d.portNonce ∈ (p ++ .a (.tick t d) :: q).filterMap Act.draw :=
  List.mem_filterMap.mpr ⟨.a (.tick t d), by simp, rfl⟩

theorem eraseP_ne {l : List PortAsk} {nonce : Nonce} (h : (l.map (·.nonce)).Nodup) :
    ∀ a ∈ l.eraseP (fun a => a.nonce = nonce), a.nonce ≠ nonce := by
  induction l with
  | nil => simp
  | cons b l ih =>
      rw [List.map_cons, List.nodup_cons] at h
      intro a ha
      by_cases hb : b.nonce = nonce
      · rw [List.eraseP_cons_of_pos (by simpa using hb)] at ha
        intro hn
        exact h.1 (hb ▸ hn ▸ List.mem_map_of_mem ha)
      · rw [List.eraseP_cons_of_neg (by simpa using hb)] at ha
        rcases List.mem_cons.mp ha with rfl | ha
        · exact hb
        · exact ih h.2 a ha

namespace Pending
variable {mac : MacFn} {w : Pair} {pre : List Act} {act : Act}

/-- Something else happened. -/
theorem other (h : Pending mac w pre)
    (same : (Pair.run mac w (pre ++ [act])).a.portAsked = (Pair.run mac w pre).a.portAsked)
    (none : ∀ e nonce port, act = .a e →
      Effect.accepted nonce port ∉ ((Pair.run mac w pre).a.step mac e).out) :
    Pending mac w (pre ++ [act]) := by
  constructor
  · intro ask hask
    rw [same] at hask
    obtain ⟨p₁, d, p₂, hpre, hd⟩ := h.drawn ask hask
    exact ⟨p₁, d, p₂ ++ [act], by rw [hpre]; simp, hd⟩
  · rw [same]
    exact h.nodup
  · intro p₁ e p₂ nonce port hsplit hmem
    rcases split_concat hsplit with ⟨rfl, hact, rfl⟩ | ⟨p₂', rfl, hpre⟩
    · exact absurd hmem (none e nonce port hact.symm)
    · obtain ⟨hdraw, hno⟩ := h.spent p₁ e p₂' nonce port hpre hmem
      refine ⟨?_, ?_⟩
      · rw [List.filterMap_append]
        exact List.mem_append_left _ hdraw
      · rw [same]
        exact hno

theorem asked (h : Pending mac w pre) {t : Int} {d : Draw}
    (distinct : ((pre ++ [Act.a (.tick t d)]).filterMap Act.draw).Nodup)
    (new : (Pair.run mac w (pre ++ [.a (.tick t d)])).a.portAsked =
      ((Pair.run mac w pre).a.portAsked.filter fun a => !(kPortAnswerMs < t - a.at_)) ++
        [{ nonce := d.portNonce, at_ := t }])
    (none : ∀ nonce port, Effect.accepted nonce port ∉
      ((Pair.run mac w pre).a.step mac (.tick t d)).out) :
    Pending mac w (pre ++ [.a (.tick t d)]) := by
  have hfresh : d.portNonce ∉ pre.filterMap Act.draw := by
    rw [List.filterMap_append, List.nodup_append] at distinct
    exact fun hmem => distinct.2.2 _ hmem _ (by simp [Act.draw]) rfl
  have hold : ∀ ask ∈ (Pair.run mac w pre).a.portAsked, ask.nonce ∈ pre.filterMap Act.draw := by
    intro ask hask
    obtain ⟨p₁, d', p₂, hpre, hd⟩ := h.drawn ask hask
    rw [hpre, ← hd]
    exact mem_draws
  constructor
  · intro ask hask
    rw [new] at hask
    rcases List.mem_append.mp hask with hask | hask
    · obtain ⟨p₁, d', p₂, hpre, hd⟩ := h.drawn ask (List.mem_filter.mp hask).1
      exact ⟨p₁, d', p₂ ++ [.a (.tick t d)], by rw [hpre]; simp, hd⟩
    · rw [List.mem_singleton.mp hask]
      exact ⟨pre, d, [], rfl, rfl⟩
  · rw [new, List.map_append]
    refine List.Nodup.append ?_ (by simp) ?_
    · exact h.nodup.sublist (List.filter_sublist.map _)
    · intro n hn hn'
      obtain ⟨ask, hask, rfl⟩ := List.mem_map.mp hn
      have hin := hold ask (List.mem_filter.mp hask).1
      rw [List.map_singleton, List.mem_singleton] at hn'
      rw [hn'] at hin
      exact hfresh hin
  · intro p₁ e p₂ nonce port hsplit hmem
    rcases split_concat hsplit with ⟨rfl, hact, rfl⟩ | ⟨p₂', rfl, hpre⟩
    · cases hact
      exact absurd hmem (none nonce port)
    · obtain ⟨hdraw, hno⟩ := h.spent p₁ e p₂' nonce port hpre hmem
      refine ⟨?_, fun ask hask => ?_⟩
      · rw [List.filterMap_append]
        exact List.mem_append_left _ hdraw
      · rw [new] at hask
        rcases List.mem_append.mp hask with hask | hask
        · exact hno ask (List.mem_filter.mp hask).1
        · rw [List.mem_singleton.mp hask]
          intro hn
          rw [← hn] at hdraw
          exact hfresh hdraw

theorem answered (h : Pending mac w pre) {e : Event} {nonce : Nonce} {port : UInt16}
    (taken : Effect.accepted nonce port ∈ ((Pair.run mac w pre).a.step mac e).out) :
    Pending mac w (pre ++ [.a e]) := by
  have hrun : (Pair.run mac w (pre ++ [.a e])).a.portAsked =
      (Pair.run mac w pre).a.portAsked.eraseP fun a => a.nonce = nonce := by
    rw [Pair.run_concat]
    exact accepted_portAsked taken
  have hsub : ∀ ask ∈ (Pair.run mac w (pre ++ [.a e])).a.portAsked,
      ask ∈ (Pair.run mac w pre).a.portAsked := by
    intro ask hask
    rw [hrun] at hask
    exact List.mem_of_mem_eraseP hask
  constructor
  · intro ask hask
    obtain ⟨p₁, d, p₂, hpre, hd⟩ := h.drawn ask (hsub ask hask)
    exact ⟨p₁, d, p₂ ++ [.a e], by rw [hpre]; simp, hd⟩
  · rw [hrun]
    exact h.nodup.sublist (List.eraseP_sublist.map _)
  · intro p₁ e' p₂ nonce' port' hsplit hmem
    rcases split_concat hsplit with ⟨rfl, hact, rfl⟩ | ⟨p₂', rfl, hpre⟩
    · cases hact
      obtain ⟨rfl, rfl⟩ := accepted_unique taken hmem
      obtain ⟨src, raw, now, wg, ask, -, hfind, -⟩ := accepted_of_step taken
      obtain ⟨q₁, d, q₂, hpre, hd⟩ := h.drawn ask (List.mem_of_find?_eq_some hfind)
      have hnonce : ask.nonce = nonce := by simpa using List.find?_some hfind
      refine ⟨?_, ?_⟩
      · rw [List.filterMap_append, ← hnonce, ← hd]
        refine List.mem_append_left _ ?_
        rw [hpre]
        exact mem_draws
      · rw [hrun]
        exact eraseP_ne h.nodup
    · obtain ⟨hdraw, hno⟩ := h.spent p₁ e' p₂' nonce' port' hpre hmem
      refine ⟨?_, fun ask hask => hno ask (hsub ask hask)⟩
      rw [List.filterMap_append]
      exact List.mem_append_left _ hdraw

end Pending

theorem pending_run (mac : MacFn) {w : Pair} (idle : w.a.portAsked = []) (pre : List Act)
    (distinct : (pre.filterMap Act.draw).Nodup) : Pending mac w pre := by
  induction pre using List.reverseRecOn with
  | nil =>
      refine ⟨?_, ?_, ?_⟩
      · intro ask hask
        rw [show Pair.run mac w [] = w from rfl, idle] at hask
        cases hask
      · rw [show Pair.run mac w [] = w from rfl, idle]
        simp
      · intro p₁ e p₂ nonce port hsplit
        simp at hsplit
  | append_singleton pre act ih =>
      have hpre := ih (by
        rw [List.filterMap_append, List.nodup_append] at distinct
        exact distinct.1)
      cases act with
      | b e =>
          exact hpre.other (by rw [Pair.run_concat]; rfl) (fun e' _ _ he => nomatch he)
      | restart cfg locals =>
          exact hpre.other (by rw [Pair.run_concat]; rfl) (fun e' _ _ he => nomatch he)
      | a e =>
          by_cases htaken : ∃ nonce port,
              Effect.accepted nonce port ∈ ((Pair.run mac w pre).a.step mac e).out
          · obtain ⟨nonce, port, htaken⟩ := htaken
            exact hpre.answered htaken
          · have hnone : ∀ nonce port, Effect.accepted nonce port ∉
                ((Pair.run mac w pre).a.step mac e).out := fun n p hm => htaken ⟨n, p, hm⟩
            rcases step_portAsked e (Pair.run mac w pre).a with
              hsame | ⟨t, d, rfl, hnew⟩ | ⟨nonce, port, hm, -⟩
            · refine hpre.other (by rw [Pair.run_concat]; exact hsame) fun e' n p he => ?_
              cases he
              exact hnone n p
            · exact hpre.asked distinct (by rw [Pair.run_concat]; exact hnew) hnone
            · exact absurd hm (hnone nonce port)

/-! ## Answers that are not taken -/

section Ignored
variable {mac : MacFn} {m : PathManager} {nonce tag : Nonce} {port : UInt16} {now : Int}

/-- Not the other side's MAC, or no question of the last 30 seconds. -/
def Stale (mac : MacFn) (m : PathManager) (nonce : Nonce) (port : UInt16) (tag : Nonce)
    (now : Int) : Prop :=
  lanMac mac "porta" (!m.side) (portData nonce port) ≠ tag ∨
    ∀ a ∈ m.portAsked, a.nonce = nonce → kPortAnswerMs < now - a.at_

theorem onPortAnswer_stale (h : Stale mac m nonce port tag now) :
    m.onPortAnswer mac ⟨nonce.toList ++ (bigEndian 2 port.toNat ++ tag.toList), false⟩ now = m := by
  have hlast : ByteReader.array 16 ⟨tag.toList, false⟩ = (tag, ⟨[], false⟩) := by
    have := ByteReader.array_append tag []
    rwa [List.append_nil] at this
  simp only [onPortAnswer, ByteReader.array_append, ByteReader.u16_append, hlast]
  split
  · rfl
  split
  · rfl
  · rename_i ask hask
    split
    · rfl
    · rename_i hfresh
      split
      · rfl
      · rename_i hmac
        rcases h with hforged | hlate
        · exact absurd hforged hmac
        · have hnonce : ask.nonce = nonce := by simpa using List.find?_some hask
          exact absurd (hlate ask (List.mem_of_find?_eq_some hask) hnonce) hfresh

theorem handleDisco_stale (h : Stale mac m nonce port tag now) (via : PathKind)
    (src : Option Endpoint) :
    m.handleDisco mac (Disco.porta nonce port tag).build via src now = m := by
  rw [Disco.build, handleDisco, ByteReader.u8_cons]
  exact onPortAnswer_stale h

/-- Forged and late answers change nothing, however they come. -/
theorem step_stale (h : Stale mac m nonce port tag now) {raw : Bytes}
    (hraw : raw = (Inner.disco (.porta nonce port tag)).build ∨
      raw = encodeRelayDown (Inner.disco (.porta nonce port tag)).build)
    (src : Endpoint) (wg : WgReply) :
    m.step mac (.datagram src raw now wg) = { m with out := [] } := by
  have h' : Stale mac { m with out := [] } nonce port tag now := h
  rw [step, on]
  generalize { m with out := [] } = m at h' ⊢
  rw [process]
  split
  · rfl
  split
  · split
    · rfl
    · rcases hraw with rfl | rfl
      · -- the server would have put a type byte before it
        rw [show (Inner.disco (.porta nonce port tag)).build =
          encodeRelayDown (Disco.porta nonce port tag).build from rfl, peekUdpType_encodeRelayDown]
        simp only [decodeRelayDown_encode]
        rfl
      · simp only [peekUdpType_encodeRelayDown, decodeRelayDown_encode]
        exact handleDisco_stale h' .relay none
  · rcases hraw with rfl | rfl
    · exact handleDisco_stale h' .direct (some src)
    · rfl

end Ignored

/-! ## Answers that are taken -/

/-- The second peer sent `port`, its own then, for a question the first sent at `t`. -/
def Pair.AnsweredPort (mac : MacFn) (w : Pair) (pre : List Act) (nonce : Nonce) (port : UInt16) (t : Int) :
    Prop :=
  ∃ p₁ d p₂ r p₃, pre = p₁ ++ .a (.tick t d) :: (p₂ ++ .b r :: p₃) ∧
    (∃ x ∈ ((run mac w p₁).a.step mac (.tick t d)).out, ∃ tag, x.Carries (.portq nonce tag)) ∧
    (run mac w (p₁ ++ .a (.tick t d) :: p₂)).b.cfg.ownLanPort = port ∧
    ∃ x ∈ ((run mac w (p₁ ++ .a (.tick t d) :: p₂)).b.step mac r).out,
      ∃ tag, x.Carries (.porta nonce port tag)

section Taken
variable {mac : MacFn} {w : Pair} {acts pre post : List Act} {e : Event} {nonce : Nonce}
  {port : UInt16}

theorem pending_of_prefix (idle : w.a.portAsked = []) (distinct : (acts.filterMap Act.draw).Nodup)
    (hacts : acts = pre ++ post) : Pending mac w pre := by
  refine pending_run mac idle pre ?_
  rw [hacts, List.filterMap_append, List.nodup_append] at distinct
  exact distinct.1

theorem told_of_accepted (opposite : w.b.side = !w.a.side) (idle : w.a.portAsked = [])
    (ideal : Unforged mac w acts) (distinct : (acts.filterMap Act.draw).Nodup)
    (hacts : acts = pre ++ .a e :: post)
    (taken : .accepted nonce port ∈ ((Pair.run mac w pre).a.step mac e).out) :
    port ≠ 0 ∧ ∃ now t, e.time = some now ∧ now - t ≤ kPortAnswerMs ∧
      Pair.AnsweredPort mac w pre nonce port t := by
  obtain ⟨src, raw, now, wg, ask, rfl, hfind, hfresh, hport, hshows⟩ := accepted_of_step taken
  have hnonce : ask.nonce = nonce := by simpa using List.find?_some hfind
  rw [(Pair.run_sides mac w pre).1, ← opposite] at hshows
  have hsigned := ideal pre _ post raw hacts rfl "porta" (by decide) _ _ hshows
  obtain ⟨q, r, p₃, hpre, hown, hsent, hasked⟩ :=
    Pair.answered_of_signed opposite ideal hacts hsigned
  obtain ⟨p₁, t, d, p₂, rfl, hd, hquestion⟩ := Pair.asked_of_signed opposite hasked
  rw [List.append_assoc, List.cons_append] at hpre
  -- the tick that sent the question is the one that keeps it pending
  have ht : ask.at_ = t := by
    have hpend : Pending mac w pre := pending_of_prefix idle distinct hacts
    obtain ⟨q₁, d', q₂, hpre', hd'⟩ := hpend.drawn ask (List.mem_of_find?_eq_some hfind)
    rw [hacts, List.filterMap_append, List.nodup_append] at distinct
    have heq : Act.a (.tick ask.at_ d') = .a (.tick t d) :=
      eq_of_nodup_filterMap (b := nonce) distinct.1 (by rw [hpre']; simp) (by rw [hpre]; simp)
        (by rw [Act.draw, hd', hnonce]) (by rw [Act.draw, hd])
    cases heq
    rfl
  rw [ht] at hfresh
  exact ⟨hport, now, t, rfl, hfresh, p₁, d, p₂, r, p₃, hpre, hquestion, hown, hsent⟩

/-- One answer for each question. -/
theorem accepted_once (idle : w.a.portAsked = []) (distinct : (acts.filterMap Act.draw).Nodup)
    (hacts : acts = pre ++ .a e :: post)
    (taken : .accepted nonce port ∈ ((Pair.run mac w pre).a.step mac e).out)
    {pre' post' : List Act} {e' : Event} {port' : UInt16} (hacts' : acts = pre' ++ .a e' :: post')
    (taken' : .accepted nonce port' ∈ ((Pair.run mac w pre').a.step mac e').out) :
    pre' = pre ∧ port' = port := by
  have before : ∀ {p p' mid q : List Act} {x x' : Event} {n n' : UInt16},
      acts = p' ++ .a x' :: q → p' = p ++ .a x :: mid →
      .accepted nonce n ∈ ((Pair.run mac w p).a.step mac x).out →
      .accepted nonce n' ∉ ((Pair.run mac w p').a.step mac x').out := by
    intro p p' mid q x x' n n' hl hp hx hx'
    have hpend : Pending mac w p' := pending_of_prefix idle distinct hl
    obtain ⟨src, raw, now, wg, ask, -, hfind, -⟩ := accepted_of_step hx'
    refine (hpend.spent p x mid nonce n hp hx).2 ask (List.mem_of_find?_eq_some hfind) ?_
    simpa using List.find?_some hfind
  rcases split_cases (hacts.symm.trans hacts') with ⟨rfl, he⟩ | ⟨mid, hmid⟩ | ⟨mid, hmid⟩
  · cases he
    exact ⟨rfl, (accepted_unique taken taken').2.symm⟩
  · exact absurd taken' (before hacts' hmid taken)
  · exact absurd taken (before hacts hmid taken')

theorem stale_ignored {src : Endpoint} {raw : Bytes} {now : Int} {wg : WgReply} {tag : Nonce}
    (hraw : raw = (Inner.disco (.porta nonce port tag)).build ∨
      raw = encodeRelayDown (Inner.disco (.porta nonce port tag)).build)
    (hstale : Stale mac (Pair.run mac w pre).a nonce port tag now) :
    (Pair.run mac w (pre ++ [.a (.datagram src raw now wg)])).a =
        { (Pair.run mac w pre).a with out := [] } ∧
      ∀ e, (Pair.run mac w (pre ++ [.a (.datagram src raw now wg)])).a.step mac e =
        (Pair.run mac w pre).a.step mac e := by
  have hstep : (Pair.run mac w (pre ++ [.a (.datagram src raw now wg)])).a =
      { (Pair.run mac w pre).a with out := [] } := by
    rw [Pair.run_concat]
    exact step_stale hstale hraw src wg
  refine ⟨hstep, fun e => ?_⟩
  rw [hstep]
  rfl

end Taken

/-- Whenever the first peer is told a port, the second has sent it, while it was its own, for a
question of at most 30 seconds before, and nothing else was ever taken for that question; and
an answer that is forged or late leaves the first peer as it was. -/
theorem port_answers_authentic (mac : MacFn) (cfgA cfgB : PathConfig)
    (localsA localsB : List Endpoint) {w : Pair} (fresh : w = .start cfgA cfgB localsA localsB)
    (opposite : w.b.side = !w.a.side) (acts : List Act) (ideal : Unforged mac w acts)
    (distinct : (acts.filterMap Act.draw).Nodup) :
    (∀ pre e post port, acts = pre ++ .a e :: post →
      .peerLanPort port ∈ ((Pair.run mac w pre).a.step mac e).out →
      port ≠ 0 ∧ ∃ nonce now t, e.time = some now ∧ now - t ≤ kPortAnswerMs ∧
        Pair.AnsweredPort mac w pre nonce port t ∧
        .accepted nonce port ∈ ((Pair.run mac w pre).a.step mac e).out ∧
        ∀ pre' e' post' port', acts = pre' ++ .a e' :: post' →
          .accepted nonce port' ∈ ((Pair.run mac w pre').a.step mac e').out →
          pre' = pre ∧ port' = port) ∧
    ∀ pre src raw now wg post nonce port tag,
      acts = pre ++ .a (.datagram src raw now wg) :: post →
      (raw = (Inner.disco (.porta nonce port tag)).build ∨
        raw = encodeRelayDown (Inner.disco (.porta nonce port tag)).build) →
      Stale mac (Pair.run mac w pre).a nonce port tag now →
      (Pair.run mac w (pre ++ [.a (.datagram src raw now wg)])).a =
        { (Pair.run mac w pre).a with out := [] } ∧
      ∀ e, (Pair.run mac w (pre ++ [.a (.datagram src raw now wg)])).a.step mac e =
        (Pair.run mac w pre).a.step mac e := by
  have idle : w.a.portAsked = [] := by
    rw [fresh]
    rfl
  constructor
  · intro pre e post port hacts htold
    obtain ⟨nonce, htaken⟩ := peerLanPort_of_step htold
    obtain ⟨hport, now, t, hnow, hfresh, htoldBy⟩ :=
      told_of_accepted opposite idle ideal distinct hacts htaken
    refine ⟨hport, nonce, now, t, hnow, hfresh, htoldBy, htaken, ?_⟩
    intro pre' e' post' port' hacts' htaken'
    exact accepted_once idle distinct hacts htaken hacts' htaken'
  · intro pre src raw now wg post nonce port tag hacts hraw hstale
    exact stale_ignored hraw hstale

/-! ## One exchange -/

theorem unforged_nil (mac : MacFn) (w : Pair) : Unforged mac w [] := by
  intro pre act post raw h
  simp at h

theorem Unforged.concat {mac : MacFn} {w : Pair} {acts : List Act} {act : Act}
    (h : Unforged mac w acts) (last : ∀ raw, act.raw = some raw → ∀ label ∈ macLabels,
      ∀ side data, Shows mac raw label side data →
        Pair.Signed mac w acts (macInput label side data)) : Unforged mac w (acts ++ [act]) := by
  intro pre act' post raw hsplit hraw label hlabel side data hshows
  rcases split_concat hsplit with ⟨rfl, rfl, rfl⟩ | ⟨post', rfl, hacts⟩
  · exact last raw hraw label hlabel side data hshows
  · exact h pre act' post' raw hacts hraw label hlabel side data hshows

/-- Two tags that have been given out, and one that never was. -/
def twoTags (question answer : Bytes) : MacFn := fun x =>
  List.Vector.replicate 16 (if x = question then 0x11 else if x = answer then 0x22 else 0x33)

theorem shows_twoTags {question answer raw : Bytes} {label : String} {side : Bool} {data : Bytes}
    (h : Shows (twoTags question answer) raw label side data) :
    macInput label side data = question ∧ List.replicate 16 0x11 <:+: raw ∨
      macInput label side data = answer ∧ List.replicate 16 0x22 <:+: raw ∨
      List.replicate 16 0x33 <:+: raw := by
  have htag : (lanMac (twoTags question answer) label side data).toList <:+: raw :=
    List.IsInfix.trans (List.suffix_append data _).isInfix h
  rw [lanMac, twoTags] at htag
  by_cases hq : macInput label side data = question
  · rw [if_pos hq] at htag
    exact .inl ⟨hq, htag⟩
  · rw [if_neg hq] at htag
    by_cases ha : macInput label side data = answer
    · rw [if_pos ha] at htag
      exact .inr (.inl ⟨ha, htag⟩)
    · rw [if_neg ha] at htag
      exact .inr (.inr htag)

namespace Exchange

def nonce : Nonce := List.Vector.replicate 16 0xaa

def question : Bytes := macInput "portq" false nonce.toList
def answer : Bytes := macInput "porta" true (portData nonce 4444)

def mac : MacFn := twoTags question answer

def server : Endpoint := { port := 7700 }

def otherUid : ByteArr 32 := ⟨List.replicate 31 0 ++ [1], rfl⟩

def pair : Pair := .start { uid := ByteArr.zero 32, server }
  { uid := otherUid, server, ownLanPort := 4444 } [] []

/-- The first peer asks over the relay. -/
def asking : List Act :=
  [.a (.setActive true), .b (.setActive true), .a (.tick 5000 { portNonce := nonce })]

def delivered (msg : Disco) (now : Int) : Event :=
  .datagram server (encodeRelayDown (Inner.disco msg).build) now {}

/-- The question arrives. -/
def asked : Act := .b (delivered (.portq nonce (List.Vector.replicate 16 0x11)) 10)

/-- The answer does. -/
def told : Event := delivered (.porta nonce 4444 (List.Vector.replicate 16 0x22)) 5020

theorem question_signed : Pair.Signed mac pair asking question :=
  ⟨asking.take 2, .a (.tick 5000 { portNonce := nonce }), [], rfl,
    .relay (.disco (.portq nonce (List.Vector.replicate 16 0x11))), by decide +kernel,
    by decide +kernel⟩

theorem answer_signed : Pair.Signed mac pair (asking ++ [asked]) answer :=
  ⟨asking, asked, [], rfl, .relay (.disco (.porta nonce 4444 (List.Vector.replicate 16 0x22))),
    by decide +kernel, by decide +kernel⟩

theorem unforged : Unforged mac pair (asking ++ [asked] ++ [.a told]) := by
  have hquiet : Unforged mac pair asking := by
    refine ((((unforged_nil mac pair).concat ?_).concat
      ?_).concat
      ?_)
    all_goals exact fun raw hraw => nomatch hraw
  refine (hquiet.concat fun raw hraw label _ side data hshows => ?_).concat
    fun raw hraw label _ side data hshows => ?_
  · cases hraw
    rcases shows_twoTags hshows with ⟨hq, -⟩ | ⟨-, htag⟩ | htag
    · rw [hq]
      exact question_signed
    · exact absurd htag (by decide +kernel)
    · exact absurd htag (by decide +kernel)
  · cases hraw
    rcases shows_twoTags hshows with ⟨-, htag⟩ | ⟨ha, -⟩ | htag
    · exact absurd htag (by decide +kernel)
    · rw [ha]
      exact answer_signed
    · exact absurd htag (by decide +kernel)

theorem port_told : ∃ nonce t, (5020 : Int) - t ≤ kPortAnswerMs ∧
    Pair.AnsweredPort mac pair (asking ++ [asked]) nonce 4444 t := by
  have h := (port_answers_authentic mac _ _ _ _ rfl (w := pair) (by decide)
    (asking ++ [asked] ++ [.a told]) unforged (by decide +kernel)).1 (asking ++ [asked]) told [] 4444
    rfl (by decide +kernel)
  obtain ⟨-, nonce, now, t, hnow, hfresh, htold, -⟩ := h
  cases hnow
  exact ⟨nonce, t, hfresh, htold⟩

end Exchange

end Splice.Peer
