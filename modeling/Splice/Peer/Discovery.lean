import Splice.Peer.Answers
import Splice.Peer.LanPort

/-!
Discovery on the local network with any number of sessions on it. Each holds the key of its
pairing; whatever goes out can be recorded, dropped, repeated and changed, and anything
made up, except for MACs under a key nobody gave away. Of the two sessions of a pairing,
one takes an address from a query only if the other made the query, and from an answer
only if it asked and the other answered.
-/

namespace Splice.Peer
open Proto PathManager Lib

/-! ## What is under a MAC -/

section Inputs
variable {s s' : Bool} {nonce : Nonce} {x : Effect}

theorem signs_who (h : x.signs s = some (macInput "who" s' nonce.toList)) :
    s = s' ∧ ∃ dst tag, x = .lanQuery dst nonce tag := by
  have disco : ∀ msg : Disco, msg.signs s ≠ some (macInput "who" s' nonce.toList) := by
    intro msg hmsg
    cases msg with
    | callme | ping | pong => cases hmsg
    | here | portq | porta =>
        have hlen := congrArg List.length (Option.some.inj hmsg)
        simp [macInput_length, portData_length, str] at hlen
  cases x with
  | direct dst inner =>
      cases inner with
      | wg => cases h
      | disco msg => exact absurd h (disco msg)
  | relay inner =>
      cases inner with
      | wg => cases h
      | disco msg => exact absurd h (disco msg)
  | lanQuery dst n tag =>
      obtain ⟨hs, hn⟩ := macInput_inj (Option.some.inj h)
      exact ⟨hs, dst, tag, by rw [Subtype.ext hn]⟩
  | register | whereami | peerLanPort | deliver | accepted | measured => cases h

theorem signs_here (h : x.signs s = some (macInput "here" s' nonce.toList)) :
    s = s' ∧ ∃ tag, x.Carries (.here nonce tag) := by
  rcases Effect.signs_cases h with ⟨msg, hx, hmsg⟩ | hlen
  · cases msg with
    | callme | ping | pong => cases hmsg
    | here n tag =>
        obtain ⟨hs, hn⟩ := macInput_inj (Option.some.inj hmsg)
        exact ⟨hs, tag, by rwa [Subtype.ext hn] at hx⟩
    | portq | porta =>
        have hlen := congrArg List.length (Option.some.inj hmsg)
        simp [macInput_length, portData_length, str] at hlen
  · simp [macInput_length, str] at hlen

end Inputs

/-- The nonce of a message that has one. -/
def Effect.nonce : Effect → Option Nonce
  | .direct _ (.disco (.here nonce _)) | .relay (.disco (.here nonce _)) => some nonce
  | .direct _ (.disco (.portq nonce _)) | .relay (.disco (.portq nonce _)) => some nonce
  | .direct _ (.disco (.porta nonce _ _)) | .relay (.disco (.porta nonce _ _)) => some nonce
  | .lanQuery _ nonce _ => some nonce
  | _ => none

theorem Effect.nonce_cases {x : Effect} {nonce : Nonce} (h : x.nonce = some nonce) :
    (∃ dst tag, x = .lanQuery dst nonce tag) ∨ (∃ tag, x.Carries (.here nonce tag)) ∨
      (∃ tag, x.Carries (.portq nonce tag)) ∨ ∃ port tag, x.Carries (.porta nonce port tag) := by
  unfold Effect.nonce at h
  split at h <;> cases h
  · exact .inr (.inl ⟨_, .inl ⟨_, rfl⟩⟩)
  · exact .inr (.inl ⟨_, .inr rfl⟩)
  · exact .inr (.inr (.inl ⟨_, .inl ⟨_, rfl⟩⟩))
  · exact .inr (.inr (.inl ⟨_, .inr rfl⟩))
  · exact .inr (.inr (.inr ⟨_, _, .inl ⟨_, rfl⟩⟩))
  · exact .inr (.inr (.inr ⟨_, _, .inr rfl⟩))
  · exact .inl ⟨_, _, rfl⟩

/-! ## One call -/

section Calls
variable {mac : MacFn} {m : PathManager} {e : Event} {nonce tag : Nonce} {x : Effect}

theorem step_lanSent (mac : MacFn) (m : PathManager) (e : Event) : (m.step mac e).lanSent =
    (m.lanAsked mac e).elim m.lanSent (keepLast kLanRemember m.lanSent) := by
  by_cases ht : ∃ now d, e = .tick now d
  · obtain ⟨now, d, rfl⟩ := ht
    cases hasked : m.lanAsked mac (.tick now d) with
    | none => exact (tick_off mac m now d hasked).sent
    | some nonce => exact (tick_asks mac m hasked).2.2.2.1
  have hnone : m.lanAsked mac e = none := by
    cases e with
    | tick now d => exact absurd ⟨now, d, rfl⟩ ht
    | _ => rfl
  rw [hnone]
  by_cases hq : ∃ src pkt now, e = .lanQuery src pkt now
  · obtain ⟨src, pkt, now, rfl⟩ := hq
    cases hans : m.answers mac pkt with
    | false =>
        have heq : PathManager.onLanDiscovery mac { m with out := [] } src pkt now =
            { m with out := [] } := onLanDiscovery_ignored mac _ hans
        rw [step, on, heq]
        rfl
    | true => exact (onLanDiscovery_answered mac { m with out := [] } hans).2.1
  · exact (off_on mac { m with out := [] } (fun now d h => ht ⟨now, d, h⟩) fun src pkt now h =>
      hq ⟨src, pkt, now, h⟩).sent

/-- Where a message of the discovery comes from: a query from a tick, a HERE from a query of the
peer. -/
theorem lan_of_step (h : x ∈ (m.step mac e).out) (hx : x.lan = true) :
    (∃ now d dst, e = .tick now d ∧
      x = .lanQuery dst d.lanNonce (lanMac mac "who" m.side d.lanNonce.toList)) ∨
    ∃ src pkt now, e = .lanQuery src pkt now ∧ m.answers mac pkt = true ∧
      x = .direct src (.disco (.here (lanNonceOf pkt)
        (lanMac mac "here" m.side (lanNonceOf pkt).toList))) := by
  have off : ∀ m' : PathManager, OffLan { m with out := [] } m' → x ∉ m'.out := by
    intro m' hoff hmem
    obtain ⟨l, hout, hl⟩ := hoff.out
    rw [hout] at hmem
    exact absurd hx (by simp [hl x hmem])
  by_cases ht : ∃ now d, e = .tick now d
  · obtain ⟨now, d, rfl⟩ := ht
    cases hasked : m.lanAsked mac (.tick now d) with
    | none => exact absurd h (off _ (tick_off mac m now d hasked))
    | some nonce =>
        obtain ⟨rfl, -, -, -, hout⟩ := tick_asks mac m hasked
        obtain ⟨dst, rfl⟩ := hout x h hx
        exact .inl ⟨now, d, dst, rfl, rfl⟩
  by_cases hq : ∃ src pkt now, e = .lanQuery src pkt now
  · obtain ⟨src, pkt, now, rfl⟩ := hq
    rw [step, on] at h
    cases hans : m.answers mac pkt with
    | false =>
        have heq : PathManager.onLanDiscovery mac { m with out := [] } src pkt now =
            { m with out := [] } := onLanDiscovery_ignored mac _ hans
        rw [heq] at h
        cases h
    | true =>
        obtain ⟨-, -, -, hout⟩ : _ ∧ _ ∧ _ ∧
            (PathManager.onLanDiscovery mac { m with out := [] } src pkt now).out = _ :=
          onLanDiscovery_answered mac { m with out := [] } hans
        rw [hout, List.nil_append] at h
        exact .inr ⟨src, pkt, now, rfl, hans, List.mem_singleton.mp h⟩
  · exact absurd h (off _ (off_on mac _ (fun now d h => ht ⟨now, d, h⟩) fun src pkt now h =>
      hq ⟨src, pkt, now, h⟩))

theorem lanQuery_of_step {dst : Endpoint} (h : .lanQuery dst nonce tag ∈ (m.step mac e).out) :
    ∃ now d, e = .tick now d ∧ nonce = d.lanNonce ∧
      tag = lanMac mac "who" m.side nonce.toList := by
  rcases lan_of_step h rfl with ⟨now, d, dst', rfl, heq⟩ | ⟨src, pkt, now, -, -, heq⟩
  · cases heq
    exact ⟨now, d, rfl, rfl, rfl⟩
  · cases heq

theorem here_of_step (h : x ∈ (m.step mac e).out) (hx : x.Carries (.here nonce tag)) :
    ∃ src pkt now, e = .lanQuery src pkt now ∧ m.answers mac pkt = true ∧ lanNonceOf pkt = nonce ∧
      x = .direct src (.disco (.here nonce tag)) ∧ tag = lanMac mac "here" m.side nonce.toList := by
  have hlan : x.lan = true := by
    rcases hx with ⟨ep, rfl⟩ | rfl
    · rfl
    · rfl
  rcases lan_of_step h hlan with ⟨now, d, dst, -, rfl⟩ | ⟨src, pkt, now, rfl, hans, rfl⟩
  · rcases hx with ⟨ep, heq⟩ | heq <;> cases heq
  · rcases hx with ⟨ep, heq⟩ | heq
    · cases heq
      exact ⟨src, pkt, now, rfl, hans, rfl, rfl, rfl⟩
    · cases heq

/-- A query of the peer is its nonce and the other side's MAC. -/
theorem query_bytes {pkt : Bytes} (h : m.lanQueryFromPeer mac pkt = true) :
    pkt = kLanMagic ++ ((lanNonceOf pkt).toList ++
      (lanMac mac "who" (!m.side) (lanNonceOf pkt).toList).toList) := by
  simp only [lanQueryFromPeer, isLanQuery, Bool.and_eq_true, decide_eq_true_eq] at h
  obtain ⟨⟨hlen, hmagic⟩, htag⟩ := h
  have hnonce : (lanNonceOf pkt).toList = (pkt.drop 4).take 16 := by
    have hroom : (⟨pkt.drop 4, false⟩ : ByteReader).failed = false ∧
        16 ≤ (⟨pkt.drop 4, false⟩ : ByteReader).rest.length := by
      refine ⟨rfl, ?_⟩
      rw [List.length_drop]
      omega
    rw [lanNonceOf, ByteReader.array, dif_pos hroom]
    rfl
  rw [htag, hnonce, ← hmagic]
  conv_lhs => rw [← List.take_append_drop 4 pkt, ← List.take_append_drop 16 (pkt.drop 4)]
  rw [List.drop_drop]

theorem query_shows {pkt : Bytes} (h : m.answers mac pkt = true) :
    Shows mac pkt "who" (!m.side) (lanNonceOf pkt).toList := by
  simp only [PathManager.answers, Bool.and_eq_true] at h
  rw [Shows]
  conv_rhs => rw [query_bytes h.1.1.2]
  exact (List.suffix_append kLanMagic _).isInfix

/-- An address taken from a datagram that came straight is its sender's, and the datagram a
HERE with a nonce that was sent and the other side's MAC. -/
theorem here_added {src : Endpoint} {raw : Bytes} {now : Int} {wg : WgReply} {ep : Endpoint}
    {lan : Bool} (hsrc : src ≠ m.cfg.server)
    (h : .add ep lan ∈ m.tableOps mac (.datagram src raw now wg)) :
    ep = src ∧ ∃ nonce tag rest, raw = 0x01 :: 0x04 :: (nonce.toList ++ (tag.toList ++ rest)) ∧
      nonce ∈ m.lanSent ∧ tag = lanMac mac "here" (!m.side) nonce.toList := by
  simp only [tableOps, processOps] at h
  split at h
  · cases h
  rcases raw with _ | ⟨ch, _ | ⟨dt, body⟩⟩
  · cases h
  · simp only [innerOps] at h
    split at h
    · unfold wgOps at h
      split at h
      · cases List.mem_singleton.mp h
      · cases h
    split at h
    · cases h
    · cases h
  · simp only [innerOps] at h
    split at h
    · unfold wgOps at h
      split at h
      · cases List.mem_singleton.mp h
      · cases h
    split at h
    · rename_i hch
      simp only [discoOps, ByteReader.u8_cons] at h
      split at h
      · cases h
      split at h
      · cases (op_of_callme h).1
      split at h
      · rename_i hdt
        obtain ⟨ep', -, hep, hop, hok, hsent, htag⟩ := op_of_here h
        cases hep
        cases hop
        rw [ByteReader.ok, Bool.not_eq_true'] at hok
        obtain ⟨hok', hrest'⟩ := ByteReader.array_ok (by decide) hok
        obtain ⟨-, hrest⟩ := ByteReader.array_ok (by decide) hok'
        refine ⟨rfl, (ByteReader.array 16 ⟨body, false⟩).1,
          (ByteReader.array 16 (ByteReader.array 16 ⟨body, false⟩).2).1,
          (ByteReader.array 16 (ByteReader.array 16 ⟨body, false⟩).2).2.rest, ?_, hsent,
          htag.symm⟩
        rw [hch, hdt, ← hrest', ← hrest]
      split at h
      · obtain ⟨_, -, hop, -⟩ := op_of_pong h
        cases hop
      · cases h
    · cases h

end Calls

/-! ## Many sessions -/

namespace Network
variable {ι K : Type} [DecidableEq ι] (macs : K → MacFn) (key : ι → K)

def step (w : ι → PathManager) (act : ι × Event) : ι → PathManager :=
  Function.update w act.1 ((w act.1).step (macs (key act.1)) act.2)

def run (w : ι → PathManager) (acts : List (ι × Event)) : ι → PathManager :=
  acts.foldl (step macs key) w

/-- The calls of one session. -/
def eventsOf (i : ι) (acts : List (ι × Event)) : List Event :=
  acts.filterMap fun act => if act.1 = i then some act.2 else none

/-- The session has sent it. -/
def Sends (w : ι → PathManager) (acts : List (ι × Event)) (i : ι) (x : Effect) : Prop :=
  ∃ pre e post, acts = pre ++ (i, e) :: post ∧
    x ∈ ((run macs key w pre i).step (macs (key i)) e).out

/-- A holder of the key has sent the MAC of `input`. -/
def Signed (w : ι → PathManager) (acts : List (ι × Event)) (k : K) (input : Bytes) : Prop :=
  ∃ i x, key i = k ∧ Sends macs key w acts i x ∧ x.signs (w i).side = some input

/-- The bytes that reach a session. -/
def rawOf : Event → Option Bytes
  | .datagram _ raw _ _ => some raw
  | .lanQuery _ pkt _ => some pkt
  | _ => none

/-- Ideal MACs: what reaches a session shows none under its key that no holder of the key has
sent before. -/
def Unforged (w : ι → PathManager) (acts : List (ι × Event)) : Prop :=
  ∀ pre i e post raw, acts = pre ++ (i, e) :: post → rawOf e = some raw →
    ∀ label ∈ macLabels, ∀ side data, Shows (macs (key i)) raw label side data →
      Signed macs key w pre (key i) (macInput label side data)

/-- The nonces a call has drawn for it. -/
def draws (act : ι × Event) : List Nonce :=
  match act.2 with
  | .tick _ d => [d.lanNonce, d.portNonce]
  | _ => []

/-- All messages with the nonce are queries of the one session and answers of the other. -/
def Between (w : ι → PathManager) (acts : List (ι × Event)) (asker answerer : ι) (nonce : Nonce) :
    Prop :=
  ∀ i x, Sends macs key w acts i x → x.nonce = some nonce →
    (i = asker ∧ ∃ dst tag, x = .lanQuery dst nonce tag) ∨
      (i = answerer ∧ ∃ tag, x.Carries (.here nonce tag))

section Runs
variable {macs key} {w : ι → PathManager} {acts pre post : List (ι × Event)} {i j : ι}
  {x : Effect} {nonce tag : Nonce}

theorem run_at (macs : K → MacFn) (key : ι → K) (w : ι → PathManager) (acts : List (ι × Event))
    (i : ι) : run macs key w acts i = PathManager.run (macs (key i)) (w i) (eventsOf i acts) := by
  induction acts using List.reverseRecOn with
  | nil => rfl
  | append_singleton acts act ih =>
      rw [run, List.foldl_append, List.foldl_cons, List.foldl_nil, ← run, eventsOf,
        List.filterMap_append, ← eventsOf]
      by_cases hact : act.1 = i
      · subst hact
        simp only [List.filterMap_cons, if_true, List.filterMap_nil]
        rw [run_concat, ← ih, step, Function.update_self]
      · simp only [List.filterMap_cons, if_neg hact, List.filterMap_nil, List.append_nil]
        rw [← ih, step, Function.update_of_ne (Ne.symm hact)]

theorem run_side (macs : K → MacFn) (key : ι → K) (w : ι → PathManager) (acts : List (ι × Event))
    (i : ι) : (run macs key w acts i).side = (w i).side := by
  rw [run_at]
  generalize eventsOf i acts = es
  induction es using List.reverseRecOn with
  | nil => rfl
  | append_singleton es e ih => rw [run_concat, step_side, ih]

omit [DecidableEq ι] in
/-- A nonce is drawn in one place. -/
theorem draws_unique (distinct : (acts.flatMap draws).Nodup) {p q p' q' : List (ι × Event)}
    {act act' : ι × Event} (h : acts = p ++ act :: q) (h' : acts = p' ++ act' :: q')
    (hn : nonce ∈ draws act) (hn' : nonce ∈ draws act') : act = act' := by
  have before : ∀ {p p' mid q : List (ι × Event)} {act act' : ι × Event},
      acts = p' ++ act' :: q → p' = p ++ act :: mid → nonce ∈ draws act → nonce ∉ draws act' := by
    intro p p' mid q act act' hl hp hn hn'
    rw [hl, List.flatMap_append, List.nodup_append] at distinct
    refine distinct.2.2 nonce ?_ nonce ?_ rfl
    · rw [hp, List.mem_flatMap]
      exact ⟨act, by simp, hn⟩
    · rw [List.mem_flatMap]
      exact ⟨act', by simp, hn'⟩
  rcases split_cases (h.symm.trans h') with ⟨-, heq⟩ | ⟨mid, hmid⟩ | ⟨mid, hmid⟩
  · exact heq
  · exact absurd hn' (before h' hmid hn)
  · exact absurd hn (before h hmid hn')

theorem asked_of_sends {dst : Endpoint} (h : Sends macs key w acts i (.lanQuery dst nonce tag)) :
    ∃ p now d q, acts = p ++ (i, .tick now d) :: q ∧ nonce = d.lanNonce ∧
      tag = lanMac (macs (key i)) "who" (w i).side nonce.toList := by
  obtain ⟨p, e, q, rfl, hx⟩ := h
  obtain ⟨now, d, rfl, hn, htag⟩ := lanQuery_of_step hx
  rw [run_side] at htag
  exact ⟨p, now, d, q, rfl, hn, htag⟩

theorem asked_of_signed {k : K} {s : Bool}
    (h : Signed macs key w acts k (macInput "who" s nonce.toList)) :
    ∃ j dst tag, key j = k ∧ (w j).side = s ∧ Sends macs key w acts j (.lanQuery dst nonce tag) := by
  obtain ⟨j, x, hk, hx, hsigns⟩ := h
  obtain ⟨hs, dst, tag, rfl⟩ := signs_who hsigns
  exact ⟨j, dst, tag, hk, hs, hx⟩

/-- A HERE answers a query that the session's peer has made. -/
theorem answered_of_sends (ideal : Unforged macs key w acts) (hpre : acts = pre ++ post)
    (h : Sends macs key w pre i x) (hx : x.Carries (.here nonce tag)) :
    ∃ p src pkt now q, pre = p ++ (i, .lanQuery src pkt now) :: q ∧
      (run macs key w p i).answers (macs (key i)) pkt = true ∧ lanNonceOf pkt = nonce ∧
      .direct src (.disco (.here nonce tag)) ∈
        ((run macs key w p i).step (macs (key i)) (.lanQuery src pkt now)).out ∧
      tag = lanMac (macs (key i)) "here" (w i).side nonce.toList ∧
      Signed macs key w p (key i) (macInput "who" (!(w i).side) nonce.toList) := by
  obtain ⟨p, e, q, rfl, hmem⟩ := h
  obtain ⟨src, pkt, now, rfl, hans, hn, rfl, htag⟩ := here_of_step hmem hx
  have hshows := query_shows hans
  rw [run_side, hn] at hshows
  rw [run_side] at htag
  refine ⟨p, src, pkt, now, q, rfl, hans, hn, hmem, htag, ?_⟩
  exact ideal p i (.lanQuery src pkt now) (q ++ post) pkt (by rw [hpre]; simp) rfl "who"
    (by decide) _ _ hshows

/-- The two sessions of a pairing, the only ones with its key. -/
structure Paired (key : ι → K) (w : ι → PathManager) (a b : ι) : Prop where
  same : key b = key a
  opposite : (w b).side = !(w a).side
  only : ∀ i, key i = key a → i = a ∨ i = b

omit [DecidableEq ι] in
theorem Paired.symm {a b : ι} (h : Paired key w a b) : Paired key w b a where
  same := h.same.symm
  opposite := by rw [h.opposite, Bool.not_not]
  only i hi := (h.only i (hi.trans h.same)).symm

omit [DecidableEq ι] in
/-- The one with the key and the other side. -/
theorem Paired.other {a b : ι} (h : Paired key w a b) (hk : key i = key a)
    (hs : (w i).side = !(w a).side) : i = b := by
  rcases h.only i hk with rfl | rfl
  · exact absurd hs (by simp)
  · rfl

/-- What has the nonce of a query of one session is that query or an answer of its peer. -/
theorem between_of_drawn {a b : ι} (pair : Paired key w a b) (ideal : Unforged macs key w acts)
    (distinct : (acts.flatMap draws).Nodup) {p q : List (ι × Event)} {now : Int} {d : Draw}
    (hdrawn : acts = p ++ (a, .tick now d) :: q) :
    Between macs key w acts a b d.lanNonce := by
  have drawn : d.lanNonce ∈ draws (a, .tick now d) := by simp [draws]
  have asker : ∀ {j pre post dst tag}, acts = pre ++ post →
      Sends macs key w pre j (.lanQuery dst d.lanNonce tag) → j = a := by
    intro j pre post dst tag hacts hsends
    obtain ⟨p', now', d', q', hpre, hn, -⟩ := asked_of_sends hsends
    have hdrawn' : acts = p' ++ (j, .tick now' d') :: (q' ++ post) := by
      rw [hacts, hpre]
      simp
    have hact := draws_unique distinct hdrawn hdrawn' drawn (by simp [draws, hn])
    exact (congrArg Prod.fst hact).symm
  have noPortq : ∀ {j pre post x tag}, acts = pre ++ post → Sends macs key w pre j x →
      ¬ x.Carries (.portq d.lanNonce tag) := by
    rintro j pre post x tag hacts ⟨p', e, q', rfl, hx⟩ hcarries
    obtain ⟨now', d', rfl, hn⟩ := portq_of_step hx hcarries
    have hdrawn' : acts = p' ++ (j, .tick now' d') :: (q' ++ post) := by
      rw [hacts]
      simp
    have hact := draws_unique distinct hdrawn hdrawn' drawn (by simp [draws, hn])
    cases hact
    rw [hdrawn, List.flatMap_append, List.nodup_append, List.flatMap_cons, List.nodup_append]
      at distinct
    have hpair := distinct.2.1.1
    simp [draws, hn] at hpair
  intro i x hsends hnonce
  rcases Effect.nonce_cases hnonce with ⟨dst, tag, rfl⟩ | ⟨tag, hx⟩ | ⟨tag, hx⟩ | ⟨port, tag, hx⟩
  · exact .inl ⟨asker (List.append_nil acts).symm hsends, dst, tag, rfl⟩
  · obtain ⟨p', src, pkt, now', q', hacts, -, -, -, -, hsigned⟩ :=
      answered_of_sends ideal (List.append_nil acts).symm hsends hx
    obtain ⟨j, dst, tag', hk, hs, hasked⟩ := asked_of_signed hsigned
    cases asker hacts hasked
    refine .inr ⟨pair.other hk.symm ?_, tag, hx⟩
    rw [hs, Bool.not_not]
  · exact absurd hx (noPortq (List.append_nil acts).symm hsends)
  · obtain ⟨p', e, q', rfl, hmem⟩ := hsends
    obtain ⟨-, src, raw, now', wg, rfl, hshows⟩ := porta_of_step hmem hx
    obtain ⟨j, y, -, hy, hsigns⟩ := ideal p' i _ q' raw rfl rfl "portq" (by decide) _ _ hshows
    obtain ⟨-, tag', hcarries⟩ := signs_portq hsigns
    exact absurd hcarries (noPortq rfl hy)

/-- Of two paired sessions on a network, with any number of others: the one takes an address
from a query only if the other made the query, and from an answer only if its nonce is one of
its own last 64 and the other answered it, to a query of its own. And whatever else carries
that nonce is the query or the answer of these two. -/
theorem discovery_authentic (macs : K → MacFn) (key : ι → K) (w : ι → PathManager)
    (fresh : ∀ i, ∃ cfg locals, w i = .start cfg locals) {a b : ι} (pair : Paired key w a b)
    (acts : List (ι × Event)) (ideal : Unforged macs key w acts)
    (distinct : (acts.flatMap draws).Nodup) :
    (∀ pre src pkt now post op, acts = pre ++ (a, .lanQuery src pkt now) :: post →
      op ∈ (run macs key w pre a).tableOps (macs (key a)) (.lanQuery src pkt now) →
      op = .add src true ∧ ∃ nonce tag dst, pkt = kLanMagic ++ (nonce.toList ++ tag.toList) ∧
        Sends macs key w pre b (.lanQuery dst nonce tag) ∧
        Between macs key w acts b a nonce) ∧
    ∀ pre src raw now wg post ep lan, acts = pre ++ (a, .datagram src raw now wg) :: post →
      src ≠ (run macs key w pre a).cfg.server →
      .add ep lan ∈ (run macs key w pre a).tableOps (macs (key a)) (.datagram src raw now wg) →
      ep = src ∧ ∃ nonce tag rest,
        raw = 0x01 :: 0x04 :: (nonce.toList ++ (tag.toList ++ rest)) ∧
        nonce ∈ (collect (PathManager.step (macs (key a))) (lanAsked (macs (key a))) (w a)
          (eventsOf a pre)).rtake kLanRemember ∧
        (∃ p src' pkt now' q dst tag', pre = p ++ (b, .lanQuery src' pkt now') :: q ∧
          Sends macs key w p a (.lanQuery dst nonce tag') ∧
          pkt = kLanMagic ++ (nonce.toList ++ tag'.toList) ∧
          (run macs key w p b).lanQueryFromPeer (macs (key b)) pkt = true ∧
          .direct src' (.disco (.here nonce tag)) ∈
            ((run macs key w p b).step (macs (key b)) (.lanQuery src' pkt now')).out) ∧
        Between macs key w acts a b nonce := by
  constructor
  · intro pre src pkt now post op hacts hop
    simp only [tableOps] at hop
    split at hop
    · rename_i hans
      refine ⟨List.mem_singleton.mp hop, ?_⟩
      have hshows := query_shows hans
      rw [run_side] at hshows
      obtain ⟨j, dst, tag, hk, hs, hsends⟩ := asked_of_signed
        (ideal pre a _ post pkt hacts rfl "who" (by decide) _ _ hshows)
      cases pair.other hk hs
      obtain ⟨p, now', d, q, hpre, hn, htag⟩ := asked_of_sends hsends
      have hbytes := query_bytes (m := run macs key w pre a) (by
        simp only [PathManager.answers, Bool.and_eq_true] at hans
        exact hans.1.1.2)
      rw [run_side, ← pair.opposite, ← pair.same, ← htag] at hbytes
      refine ⟨_, tag, dst, hbytes, hsends, ?_⟩
      rw [hn]
      have hdrawn : acts = p ++ (b, .tick now' d) :: (q ++ (a, .lanQuery src pkt now) :: post) := by
        rw [hacts, hpre]
        simp
      exact between_of_drawn pair.symm ideal distinct hdrawn
    · cases hop
  · intro pre src raw now wg post ep lan hacts hsrc hop
    obtain ⟨rfl, nonce, tag, rest, hraw, hsent, htag⟩ := here_added hsrc hop
    refine ⟨rfl, nonce, tag, rest, hraw, ?_, ?_⟩
    · obtain ⟨cfg, locals, hstart⟩ := fresh a
      have hempty : (w a).lanSent = [] := by
        rw [hstart]
        rfl
      have hlast := seen_eq_rtake (by decide) hempty
        (fun m e => step_lanSent (macs (key a)) m e) (eventsOf a pre)
      rw [run_at] at hsent
      rw [← hlast]
      exact hsent
    · rw [run_side, ← pair.opposite] at htag
      have hshows : Shows (macs (key a)) raw "here" (w b).side nonce.toList := by
        rw [Shows, ← htag, hraw]
        refine ⟨[0x01, 0x04], rest, by simp⟩
      obtain ⟨j, x, hk, hsends, hsigns⟩ := ideal pre a _ post raw hacts rfl "here" (by decide) _ _
        hshows
      obtain ⟨hs, tag', hcarries⟩ := signs_here hsigns
      cases pair.other hk (hs.trans pair.opposite)
      obtain ⟨p, src', pkt, now', q, hpre, hans, hn, hmem, htag', hsigned⟩ :=
        answered_of_sends ideal hacts hsends hcarries
      rw [pair.same, ← htag] at htag'
      rw [htag'] at hmem
      obtain ⟨j, dst, tag₁, hk₁, hs₁, hasked⟩ := asked_of_signed hsigned
      cases pair.symm.other hk₁ hs₁
      obtain ⟨p₁, now₁, d, q₁, hp, hd, htag₁⟩ := asked_of_sends hasked
      have hpeer : (run macs key w p b).lanQueryFromPeer (macs (key b)) pkt = true := by
        simp only [PathManager.answers, Bool.and_eq_true] at hans
        exact hans.1.1.2
      have hbytes := query_bytes hpeer
      rw [run_side, hn, pair.opposite, Bool.not_not, pair.same, ← htag₁] at hbytes
      refine ⟨⟨p, src', pkt, now', q, dst, tag₁, hpre, hasked, hbytes, hpeer, hmem⟩, ?_⟩
      rw [hd]
      have hdrawn : acts = p₁ ++ (a, .tick now₁ d) ::
          (q₁ ++ (b, .lanQuery src' pkt now') :: q ++ (a, .datagram ep raw now wg) :: post) := by
        rw [hacts, hpre, hp]
        simp
      exact between_of_drawn pair ideal distinct hdrawn

end Runs
end Network

/-! ## Two sessions meet -/

namespace Network.Encounter

def nonce : Nonce := List.Vector.replicate 16 0xaa

def question : Bytes := macInput "who" false nonce.toList
def answer : Bytes := macInput "here" true nonce.toList

def mac : MacFn := twoTags question answer

/-- The session that asks and the one that answers. -/
def sessions : Bool → PathManager
  | false => .start { uid := ByteArr.zero 32 } []
  | true => .start { uid := Exchange.otherUid } []

def home : Endpoint := { port := 4000 }
def there : Endpoint := { port := 4001 }

/-- A query is broadcast. -/
def asking : List (Bool × Event) :=
  [(false, .setActive true), (true, .setActive true),
    (false, .tick 5000 { lanNonce := nonce, broadcasts := [{ port := 21300 }] })]

/-- It arrives. -/
def asked : Bool × Event :=
  (true, .lanQuery home (kLanMagic ++ (nonce.toList ++ List.replicate 16 0x11)) 5001)

/-- The answer does. -/
def told : Event :=
  .datagram there (0x01 :: 0x04 :: (nonce.toList ++ List.replicate 16 0x22)) 5002 {}

abbrev macs : Unit → MacFn := fun _ => mac
abbrev key : Bool → Unit := fun _ => ()

theorem question_signed : Signed macs key sessions asking () question := by
  refine ⟨false, .lanQuery { port := 21300 } nonce (List.Vector.replicate 16 0x11), rfl,
    ⟨asking.take 2, _, [], rfl, ?_⟩, by decide +kernel⟩
  decide +kernel

theorem answer_signed : Signed macs key sessions (asking ++ [asked]) () answer := by
  refine ⟨true, .direct home (.disco (.here nonce (List.Vector.replicate 16 0x22))), rfl,
    ⟨asking, _, [], rfl, ?_⟩, by decide +kernel⟩
  decide +kernel

theorem unforged : Unforged macs key sessions (asking ++ [asked] ++ [(false, told)]) := by
  intro pre i e post raw hsplit hraw label _ side data hshows
  rcases split_concat hsplit with ⟨rfl, he, -⟩ | ⟨post', -, hbefore⟩
  · cases he
    cases hraw
    rcases shows_twoTags hshows with ⟨-, htag⟩ | ⟨ha, -⟩ | htag
    · exact absurd htag (by decide +kernel)
    · rw [ha]
      exact answer_signed
    · exact absurd htag (by decide +kernel)
  rcases split_concat hbefore with ⟨rfl, he, -⟩ | ⟨post'', -, hfirst⟩
  · cases he
    cases hraw
    rcases shows_twoTags hshows with ⟨hq, -⟩ | ⟨-, htag⟩ | htag
    · rw [hq]
      exact question_signed
    · exact absurd htag (by decide +kernel)
    · exact absurd htag (by decide +kernel)
  · have hquiet : ∀ act ∈ asking, rawOf act.2 = none := by decide +kernel
    have hnone := hquiet (i, e) (by rw [hfirst]; simp)
    rw [hraw] at hnone
    cases hnone

theorem paired : Paired key sessions false true where
  same := rfl
  opposite := by decide +kernel
  only i _ := by cases i <;> simp

theorem discovery_meets : ∃ (nonce tag : Nonce) (rest : Bytes),
    0x01 :: 0x04 :: (Encounter.nonce.toList ++ List.replicate 16 0x22) =
      0x01 :: 0x04 :: (nonce.toList ++ (tag.toList ++ rest)) ∧
    Between macs key sessions (asking ++ [asked] ++ [(false, told)]) false true nonce := by
  have h := (discovery_authentic macs key sessions
    (fun i => by cases i <;> exact ⟨_, _, rfl⟩) paired (asking ++ [asked] ++ [(false, told)])
    unforged (by decide +kernel)).2 (asking ++ [asked]) there _ 5002 {} [] there true rfl
    (by decide +kernel) (by decide +kernel)
  obtain ⟨-, n, tag, rest, hraw, -, -, hbetween⟩ := h
  exact ⟨n, tag, rest, hraw, hbetween⟩

end Network.Encounter
end Splice.Peer
