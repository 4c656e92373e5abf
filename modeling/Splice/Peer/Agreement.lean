import Splice.Lib.Run
import Splice.Peer.Pairing

/-!
Agreement of the two sides of a pairing over a channel the adversary owns. Ideal
cryptography is a condition on the frames it may deliver: derived keys are equal only
if label, key and transcript are, and whatever verifies under a key of one of the two
parties was handed over by one of them under that key. The offers and replies then
stay in step because both sides count one nonce per message and direction.
-/

namespace Splice.Peer
open Proto Lib

namespace PairWorld

def secrets (w : PairWorld) : List Secrets :=
  w.leader.secrets.toList ++ w.follower.secrets.toList

def Independent (C : Crypto) (w : PairWorld) : Prop :=
  ∀ s ∈ w.secrets, ∀ s' ∈ w.secrets, ∀ l l',
    C.derive s l = C.derive s' l' → s = s' ∧ l = l'

/-- No MAC or ciphertext in the frame verifies under an honest key unless an honest
party handed it over for that key, nonce and content. -/
structure Unforged (C : Crypto) (w : PairWorld) (frame : Bytes) : Prop where
  mac : ∀ m, decodePeer frame = some (.keyConfirm m) → ∀ s ∈ w.secrets, ∀ l,
    m = C.hmac (C.derive s l) s.transcript → (C.derive s l, s.transcript) ∈ w.macLog
  aead : ∀ ct, decodePeer frame = some (.sealed ct) → ∀ s ∈ w.secrets, ∀ l n pt,
    C.aeadOpen (C.derive s l) (nonceFrom n) ct = some pt →
    (C.derive s l, nonceFrom n, pt) ∈ w.sealLog

/-- The condition ideal cryptography puts on a step. -/
def Ideal (C : Crypto) (w : PairWorld) : PairAction → Prop
  | .leader e | .follower e => Independent C w ∧ ∀ b, e.frame = some b → Unforged C w b
  | .leaderStart _ _ | .followerStart _ => True

/-- The records of both sides fit together: the follower's uid has the side bit set, the leader's
has it clear, and they agree in every other bit. -/
structure Paired (l f : ConnRecord) : Prop where
  leaderPeer : l.peerPub = f.ownPub
  followerPeer : f.peerPub = l.ownPub
  ula : l.ulaBase = f.ulaBase
  leaderBit : sideBit l.uid = 0
  followerBit : sideBit f.uid = 1
  otherBits : SameButSide f.uid l.uid
  uid : f.uid = setSide l.uid
  sides : l.side = false ∧ f.side = true

/-- The follower's record is the one that `off` proposes. -/
structure Takes (f : ConnRecord) (off : Offer) : Prop where
  bit : sideBit f.uid = 1
  otherBits : SameButSide f.uid off.uid
  uid : f.uid = setSide off.uid
  ula : f.ulaBase = off.ulaBase
  peer : f.peerPub = off.leaderPubkey

structure Agreement (w : PairWorld) : Prop where
  leader : w.leader.phase = .agreed →
    w.follower.phase = .agreed ∧ Paired w.leader.record w.follower.record
  follower : w.follower.phase = .agreed → ∃ off ∈ w.offers, Takes w.follower.record off

/-! ## The invariant -/

/-- The leader waits for the reply to offer `n`. -/
structure Negotiates (l f : Party) (offers : List Offer) (n : Nat) : Prop where
  lt : n < 10
  nF2L : l.nF2L = n
  nL2F : l.nL2F = n + 1
  count : offers.length = n + 1
  current : ∀ off, offers[n]? = some off → off.ulaBase = l.ula
  shared : ∃ s, l.secrets = some s ∧ f.secrets = some s
  bit : sideBit l.uid = 0

def LeaderOk (l f : Party) (offers : List Offer) : Prop :=
  match l.phase with
  | .start | .awaitSpake => l.secrets = none ∧ offers = [] ∧ l.nF2L = 0 ∧ l.nL2F = 0
  | .awaitConfirm => offers = [] ∧ l.nF2L = 0 ∧ l.nL2F = 0
  | .negotiating n => Negotiates l f offers n
  | .agreed => f.phase = .agreed ∧ Paired l.record f.record
  | .failed => True

/-- The follower accepted offer `n` and rejected the ones before. -/
structure Accepted (f : Party) (offers : List Offer) (replies : List Reply) (n : Nat) :
    Prop where
  count : replies.length = n + 1
  offer : ∃ off, offers[n]? = some off ∧ Takes f.record off
  reply : ∀ r, replies[n]? = some r → r.followerPubkey = f.record.ownPub
  before : ∀ i r, i < n → replies[i]? = some r → r.status = .rejectIp

def FollowerOk (f : Party) (offers : List Offer) (replies : List Reply) : Prop :=
  match f.phase with
  | .start | .awaitSpake => f.secrets = none ∧ replies = [] ∧ f.nF2L = 0 ∧ f.nL2F = 0
  | .awaitConfirm => replies = [] ∧ f.nF2L = 0 ∧ f.nL2F = 0
  | .negotiating n => n < 10 ∧ f.nF2L = n ∧ f.nL2F = n ∧ replies.length = n ∧
      ∀ r ∈ replies, r.status = .rejectIp
  | .agreed => ∃ n, Accepted f offers replies n
  | .failed => ∀ r ∈ replies, r.status = .rejectIp

/-- Who a logged MAC comes from. -/
def MacOrigin (C : Crypto) (l f : Party) (k : Bytes) : Prop :=
  (∃ s, l.secrets = some s ∧ k = C.derive s .confirmLeader) ∨
    ∃ s, f.secrets = some s ∧ k = C.derive s .confirmFollower

/-- Which offer or reply a logged ciphertext carries. -/
def SealOrigin (C : Crypto) (l f : Party) (offers : List Offer) (replies : List Reply)
    (k n pt : Bytes) : Prop :=
  (∃ s i off, l.secrets = some s ∧ k = C.derive s .l2f ∧ n = nonceFrom i ∧
      offers[i]? = some off ∧ pt = encodeNeg (.offer off)) ∨
    ∃ s i r, f.secrets = some s ∧ k = C.derive s .f2l ∧ n = nonceFrom i ∧
      replies[i]? = some r ∧ pt = encodeNeg (.reply r)

structure Sound (C : Crypto) (w : PairWorld) : Prop where
  macs : ∀ k d, (k, d) ∈ w.macLog → MacOrigin C w.leader w.follower k
  seals : ∀ k n pt, (k, n, pt) ∈ w.sealLog →
    SealOrigin C w.leader w.follower w.offers w.replies k n pt
  offers : ∀ off ∈ w.offers, off.uid = w.leader.uid ∧ off.leaderPubkey = w.leader.record.ownPub
  offersLe : w.offers.length ≤ 10
  repliesLe : w.replies.length ≤ 10
  leaderSide : w.leader.record.side = false
  followerSide : w.follower.record.side = true
  leader : LeaderOk w.leader w.follower w.offers
  follower : FollowerOk w.follower w.offers w.replies

theorem nonceFrom_inj {i j : Nat} (hi : i ≤ 10) (hj : j ≤ 10)
    (h : nonceFrom i = nonceFrom j) : i = j := by
  have h' : bigEndian 8 i = bigEndian 8 j := by simpa [nonceFrom] using h
  have hv : i % 256 ^ 8 = j % 256 ^ 8 := by
    rw [← ofBigEndian_bigEndian, ← ofBigEndian_bigEndian, h']
  omega

theorem sideBit_clearSide (u : Uid) : sideBit (clearSide u) = 0 := by
  have hat : (clearSide u).toList.getD 31 0 = u.toList.getD 31 0 &&& 0xFE := by
    simp [clearSide, List.Vector.toList, List.getD_eq_getElem?_getD]
  rw [sideBit, hat, UInt8.and_assoc, show (0xFE : UInt8) &&& 1 = 0 by decide, UInt8.and_zero]

/-- What setting the side bit does. -/
theorem setSide_bits (u : Uid) : sideBit (setSide u) = 1 ∧ SameButSide (setSide u) u := by
  refine ⟨?_, sameButSide_modify u _ fun b => (or_one b).1⟩
  have last : (u.toList.modify 31 (· ||| 0x01)).getD 31 0 &&& 1 = 1 := by
    rw [getD_modify]
    exact (or_one _).2
  exact last

theorem takes_setSide {f : ConnRecord} {off : Offer} (uid : f.uid = setSide off.uid)
    (ula : f.ulaBase = off.ulaBase) (peer : f.peerPub = off.leaderPubkey) : Takes f off := by
  obtain ⟨bit, others⟩ := setSide_bits off.uid
  exact ⟨uid ▸ bit, uid ▸ others, uid, ula, peer⟩

section Opened
variable {C : Crypto} {w : PairWorld} {frame : Bytes} {s : Secrets}

theorem leader_mem_secrets (h : w.leader.secrets = some s) : s ∈ w.secrets := by
  simp [secrets, h]

theorem follower_mem_secrets (h : w.follower.secrets = some s) : s ∈ w.secrets := by
  simp [secrets, h]

/-- A confirmation the leader accepts was made by the follower from the same secrets. -/
theorem Sound.confirmed (inv : Sound C w) (ind : Independent C w) (unf : Unforged C w frame)
    {m : Mac} (hf : decodePeer frame = some (.keyConfirm m)) (hs : w.leader.secrets = some s)
    (ok : m = C.hmac (C.derive s .confirmFollower) s.transcript) :
    w.follower.secrets = some s := by
  have mem := leader_mem_secrets hs
  rcases inv.macs _ _ (unf.mac m hf s mem _ ok) with ⟨s', hs', hk⟩ | ⟨s', hs', hk⟩
  · cases (ind s mem s' (leader_mem_secrets hs') _ _ hk).2
  · rw [(ind s mem s' (follower_mem_secrets hs') _ _ hk).1]
    exact hs'

/-- What the leader opens with counter `n` is the follower's reply number `n`. -/
theorem Sound.opened_reply (inv : Sound C w) (ind : Independent C w)
    (unf : Unforged C w frame) {ct pt : Bytes} {n : Nat}
    (hf : decodePeer frame = some (.sealed ct)) (hs : w.leader.secrets = some s) (hn : n ≤ 10)
    (ok : C.aeadOpen (C.derive s .f2l) (nonceFrom n) ct = some pt) :
    ∃ r, w.replies[n]? = some r ∧ decodeNeg pt = some (.reply r) := by
  have mem := leader_mem_secrets hs
  rcases inv.seals _ _ _ (unf.aead ct hf s mem _ _ _ ok) with
    ⟨s', i, off, hs', hk, _⟩ | ⟨s', i, r, hs', hk, hi, hr, hpt⟩
  · cases (ind s mem s' (leader_mem_secrets hs') _ _ hk).2
  · have hlt : i < w.replies.length := (List.getElem?_eq_some_iff.mp hr).1
    have hle := inv.repliesLe
    have : n = i := nonceFrom_inj hn (by omega) hi
    exact ⟨r, this ▸ hr, by rw [hpt, decodeNeg_encodeNeg]⟩

/-- What the follower opens with counter `n` is the leader's offer number `n`. -/
theorem Sound.opened_offer (inv : Sound C w) (ind : Independent C w)
    (unf : Unforged C w frame) {ct pt : Bytes} {n : Nat}
    (hf : decodePeer frame = some (.sealed ct)) (hs : w.follower.secrets = some s) (hn : n ≤ 10)
    (ok : C.aeadOpen (C.derive s .l2f) (nonceFrom n) ct = some pt) :
    ∃ off, w.offers[n]? = some off ∧ decodeNeg pt = some (.offer off) := by
  have mem := follower_mem_secrets hs
  rcases inv.seals _ _ _ (unf.aead ct hf s mem _ _ _ ok) with
    ⟨s', i, off, hs', hk, hi, ho, hpt⟩ | ⟨s', i, r, hs', hk, _⟩
  · have hlt : i < w.offers.length := (List.getElem?_eq_some_iff.mp ho).1
    have hle := inv.offersLe
    have : n = i := nonceFrom_inj hn (by omega) hi
    exact ⟨off, this ▸ ho, by rw [hpt, decodeNeg_encodeNeg]⟩
  · cases (ind s mem s' (follower_mem_secrets hs') _ _ hk).2

end Opened

/-! ## The leader's steps -/

section Leader
variable {C : Crypto} {w : PairWorld} {s : Secrets}

/-- The leader gives up; only what its offers refer to has to stay. -/
theorem Sound.failLeader_with (inv : Sound C w) (p : Party)
    (secrets : p.secrets = w.leader.secrets) (side : p.record.side = false)
    (offers : ∀ off ∈ w.offers, off.uid = p.uid ∧ off.leaderPubkey = p.record.ownPub) :
    Sound C { w with leader := p.fail } := by
  refine ⟨?_, ?_, offers, inv.offersLe, inv.repliesLe, side, inv.followerSide, trivial,
    inv.follower⟩
  · simpa only [MacOrigin, Party.fail, secrets] using inv.macs
  · simpa only [SealOrigin, Party.fail, secrets] using inv.seals

theorem Sound.failLeader (inv : Sound C w) : Sound C w.failLeader :=
  inv.failLeader_with w.leader rfl inv.leaderSide inv.offers

theorem Sound.leaderStart (inv : Sound C w) (h : w.leader.phase = .start)
    (spake : Option (Bytes × Bytes)) (sent : Bool) : Sound C (w.leaderStart spake sent) := by
  have ok := inv.leader
  simp only [LeaderOk, h] at ok
  unfold PairWorld.leaderStart
  split
  · exact inv.failLeader
  · split
    · exact { inv with leader := ok }
    · exact inv.failLeader

theorem Sound.leaderSpake (inv : Sound C w) (h : w.leader.phase = .awaitSpake) (e : Env)
    (theirs : Bytes) : Sound C (w.leaderSpake C e theirs) := by
  have ok := inv.leader
  simp only [LeaderOk, h] at ok
  obtain ⟨none, noOffers, counters⟩ := ok
  simp only [PairWorld.leaderSpake]
  split
  · exact inv.failLeader
  · split
    · -- before this step the leader had no key, so every log entry is the follower's
      refine { inv with macs := ?_, seals := ?_, leader := ⟨noOffers, counters⟩ }
      · intro k d hmem
        rcases List.mem_append.mp hmem with old | new
        · have origin := inv.macs k d old
          simp only [MacOrigin, none, reduceCtorEq, false_and, exists_false, false_or] at origin
          exact .inr origin
        · obtain ⟨rfl, -⟩ := Prod.mk.inj (List.mem_singleton.mp new)
          exact .inl ⟨_, rfl, rfl⟩
      · intro k n pt hmem
        have origin := inv.seals k n pt hmem
        simp only [SealOrigin, none, reduceCtorEq, false_and, exists_false, false_or] at origin
        exact .inr origin
    · exact inv.failLeader

theorem getElem?_append_of_some {α : Type*} {xs : List α} {i : Nat} {x : α} (ys : List α)
    (h : xs[i]? = some x) : (xs ++ ys)[i]? = some x := by
  obtain ⟨hi, hx⟩ := List.getElem?_eq_some_iff.mp h
  rw [List.getElem?_append_left hi, h]

theorem FollowerOk.more_offers {f : Party} {offers : List Offer} {replies : List Reply}
    (ok : FollowerOk f offers replies) (more : List Offer) :
    FollowerOk f (offers ++ more) replies := by
  unfold FollowerOk at ok ⊢
  cases h : f.phase <;> simp only [h] at ok ⊢
  case agreed =>
    obtain ⟨n, acc⟩ := ok
    obtain ⟨off, ho, takes⟩ := acc.offer
    exact ⟨n, { acc with offer := ⟨off, getElem?_append_of_some _ ho, takes⟩ }⟩
  all_goals exact ok

/-- Offer `n` goes out after replies `0 .. n - 1` were read. -/
theorem Sound.sendOffer (inv : Sound C w) (e : Env) (p : Party) (n : Nat)
    (secrets : p.secrets = some s) (own : w.leader.secrets = some s)
    (shared : w.follower.secrets = some s) (side : p.record.side = false)
    (offers : ∀ off ∈ w.offers, off.uid = p.uid ∧ off.leaderPubkey = p.record.ownPub)
    (count : w.offers.length = n) (nF2L : p.nF2L = n) (nL2F : p.nL2F = n)
    (bit : sideBit p.uid = 0) :
    Sound C (w.sendOffer C e s p n) := by
  simp only [PairWorld.sendOffer]
  split
  · rename_i hlt
    split
    · refine ⟨?_, ?_, ?_, ?_, inv.repliesLe, side, inv.followerSide, ?_, ?_⟩
      · simpa only [MacOrigin, secrets, own] using inv.macs
      · intro k m pt hmem
        rcases List.mem_append.mp hmem with old | new
        · rcases inv.seals k m pt old with ⟨s', i, off, hs', hk, hm, ho, hpt⟩ | origin
          · refine .inl ⟨s', i, off, ?_, hk, hm, getElem?_append_of_some _ ho, hpt⟩
            rw [show _ = some s from secrets, ← own, hs']
          · exact .inr origin
        · obtain ⟨rfl, rfl, rfl⟩ : k = C.derive s .l2f ∧ m = nonceFrom p.nL2F ∧ pt = _ := by
            simpa using List.mem_singleton.mp new
          refine .inl ⟨s, n, _, secrets, rfl, by rw [nL2F], ?_, rfl⟩
          rw [List.getElem?_append_right count.le]
          simp [count]
      · intro off hoff
        rcases List.mem_append.mp hoff with old | new
        · exact offers off old
        · rw [List.mem_singleton.mp new]
          exact ⟨rfl, rfl⟩
      · simp only [List.length_append, List.length_singleton, count]
        omega
      · refine ⟨hlt, nF2L, by rw [nL2F], by simp [count], ?_,
          ⟨s, secrets, shared⟩, bit⟩
        intro off hoff
        rw [List.getElem?_append_right count.le] at hoff
        simp only [count, Nat.sub_self, List.getElem?_cons_zero, Option.some.injEq] at hoff
        rw [← hoff]
      · exact inv.follower.more_offers _
    · exact inv.failLeader_with p (by rw [secrets, own]) side offers
  · exact inv.failLeader_with p (by rw [secrets, own]) side offers

theorem Sound.leaderConfirm (inv : Sound C w) (h : w.leader.phase = .awaitConfirm)
    (own : w.leader.secrets = some s) (ind : Independent C w) {e : Env} {frame : Bytes}
    (unf : Unforged C w frame) {m : Mac} (hf : decodePeer frame = some (.keyConfirm m))
    {w' : PairWorld} (step : w.leaderConfirm C e s m = some w') : Sound C w' := by
  have ok := inv.leader
  simp only [LeaderOk, h] at ok
  obtain ⟨noOffers, nF2L, nL2F⟩ := ok
  simp only [PairWorld.leaderConfirm] at step
  split at step
  · rename_i verifies
    split at step
    · cases step
    · cases step
      have shared := inv.confirmed ind unf hf own verifies
      exact inv.sendOffer e _ 0 own own shared inv.leaderSide (by simp [noOffers])
        (by simp [noOffers]) nF2L nL2F (sideBit_clearSide _)
  · cases step
    exact inv.failLeader

/-- Reply `n` accepts: then the follower stopped at offer `n`, the leader's own. -/
theorem Sound.accepted_pairs (inv : Sound C w) {n : Nat}
    (neg : Negotiates w.leader w.follower w.offers n) {r : Reply}
    (hr : w.replies[n]? = some r) (accepts : r.status = .accept) (port : UInt16) :
    w.follower.phase = .agreed ∧
      Paired { w.leader.record with
        lanPort := port, peerPub := r.followerPubkey, uid := w.leader.uid,
        ulaBase := w.leader.ula } w.follower.record := by
  have rejected : (∀ r ∈ w.replies, r.status = .rejectIp) → False := by
    intro all
    have := all r (List.mem_of_getElem? hr)
    rw [accepts] at this
    cases this
  have ok := inv.follower
  unfold FollowerOk at ok
  cases hphase : w.follower.phase <;> simp only [hphase] at ok
  case agreed =>
    obtain ⟨m, acc⟩ := ok
    have hn : n < w.replies.length := (List.getElem?_eq_some_iff.mp hr).1
    have hnm : n = m := by
      by_contra hne
      have hlt : n < m := by have := acc.count; omega
      rw [acc.before n r hlt hr] at accepts
      cases accepts
    subst hnm
    obtain ⟨off, ho, takes⟩ := acc.offer
    obtain ⟨huid, hpub⟩ := inv.offers off (List.mem_of_getElem? ho)
    refine ⟨rfl, acc.reply r hr, ?_, ?_, neg.bit, takes.bit, ?_, ?_, inv.leaderSide,
      inv.followerSide⟩
    · rw [takes.peer, hpub]
    · rw [takes.ula, ← neg.current off ho]
    · exact huid ▸ takes.otherBits
    · rw [takes.uid, huid]
  case negotiating => exact (rejected ok.2.2.2.2).elim
  case failed => exact (rejected ok).elim
  all_goals simp [ok] at hr

theorem Sound.leaderReply (inv : Sound C w) {n : Nat} (h : w.leader.phase = .negotiating n)
    (own : w.leader.secrets = some s) (ind : Independent C w) {e : Env} {frame ct : Bytes}
    (unf : Unforged C w frame) (hf : decodePeer frame = some (.sealed ct))
    {w' : PairWorld} (step : w.leaderReply C e s n ct = some w') : Sound C w' := by
  have neg := inv.leader
  simp only [LeaderOk, h] at neg
  have giveUp : Sound C
      { w with leader := { w.leader with nF2L := w.leader.nF2L + 1 }.fail } :=
    inv.failLeader_with _ rfl inv.leaderSide inv.offers
  have hlt := neg.lt
  simp only [PairWorld.leaderReply] at step
  split at step
  · cases step
    exact giveUp
  · rename_i pt opened
    rw [neg.nF2L] at opened
    obtain ⟨r, hr, decoded⟩ := inv.opened_reply ind unf hf own (by omega) opened
    simp only [decoded] at step
    cases status : r.status <;> simp only [status] at step
    case accept =>
      cases step
      have pairs := inv.accepted_pairs neg hr status
      exact { inv with leader := pairs _ }
    case rejectIp =>
      split at step
      · cases step
      · cases step
        obtain ⟨s', hs', shared⟩ := neg.shared
        rw [own, ← shared] at hs'
        exact inv.sendOffer e _ (n + 1) own own hs'.symm inv.leaderSide
          inv.offers neg.count (by simp [neg.nF2L]) neg.nL2F neg.bit
    case abort =>
      cases step
      exact giveUp

end Leader

/-! ## The follower's steps -/

section Follower
variable {C : Crypto} {w : PairWorld} {s : Secrets}

theorem LeaderOk.follower_moves {l f : Party} {offers : List Offer} (ok : LeaderOk l f offers)
    {f' : Party} (secrets : ∀ s, f.secrets = some s → f'.secrets = some s)
    (running : f.phase ≠ .agreed) : LeaderOk l f' offers := by
  unfold LeaderOk at ok ⊢
  cases h : l.phase <;> simp only [h] at ok ⊢
  case negotiating n =>
    obtain ⟨s, hl, hf⟩ := ok.shared
    exact { ok with shared := ⟨s, hl, secrets s hf⟩ }
  case agreed => exact (running ok.1).elim
  all_goals exact ok

/-- A follower that has not agreed has rejected everything so far. -/
theorem Sound.rejected (inv : Sound C w) (running : w.follower.phase ≠ .agreed) :
    ∀ r ∈ w.replies, r.status = .rejectIp := by
  have ok := inv.follower
  unfold FollowerOk at ok
  cases h : w.follower.phase <;> simp only [h] at ok
  case negotiating => exact ok.2.2.2.2
  case agreed => exact (running h).elim
  case failed => exact ok
  all_goals simp [ok]

theorem Sound.failFollower_with (inv : Sound C w) (running : w.follower.phase ≠ .agreed)
    (p : Party) (secrets : p.secrets = w.follower.secrets) (side : p.record.side = true) :
    Sound C { w with follower := p.fail } := by
  refine ⟨?_, ?_, inv.offers, inv.offersLe, inv.repliesLe, inv.leaderSide, side, ?_,
    inv.rejected running⟩
  · simpa only [MacOrigin, Party.fail, secrets] using inv.macs
  · simpa only [SealOrigin, Party.fail, secrets] using inv.seals
  · exact inv.leader.follower_moves (fun s hs => by rw [← hs]; exact secrets) running

theorem Sound.failFollower (inv : Sound C w) (running : w.follower.phase ≠ .agreed) :
    Sound C w.failFollower :=
  inv.failFollower_with running w.follower rfl inv.followerSide

theorem Sound.followerStart (inv : Sound C w) (h : w.follower.phase = .start)
    (spake : Option (Bytes × Bytes)) : Sound C (w.followerStart spake) := by
  have running : w.follower.phase ≠ .agreed := by rw [h]; nofun
  have ok := inv.follower
  simp only [FollowerOk, h] at ok
  unfold PairWorld.followerStart
  split
  · exact inv.failFollower running
  · exact { inv with
      follower := ok, leader := inv.leader.follower_moves (fun _ hs => hs) running }

theorem Sound.followerSpake (inv : Sound C w) (h : w.follower.phase = .awaitSpake) (e : Env)
    (theirs : Bytes) : Sound C (w.followerSpake C e theirs) := by
  have running : w.follower.phase ≠ .agreed := by rw [h]; nofun
  have ok := inv.follower
  simp only [FollowerOk, h] at ok
  obtain ⟨none, noReplies, counters⟩ := ok
  simp only [PairWorld.followerSpake]
  split
  · split
    · exact inv.failFollower running
    · refine { inv with
        macs := ?_, seals := ?_, follower := ⟨noReplies, counters⟩
        leader := inv.leader.follower_moves (by simp [none]) running }
      · intro k d hmem
        have origin := inv.macs k d hmem
        simp only [MacOrigin, none, reduceCtorEq, false_and, exists_false, or_false] at origin
        exact .inl origin
      · intro k n pt hmem
        have origin := inv.seals k n pt hmem
        simp only [SealOrigin, none, reduceCtorEq, false_and, exists_false, or_false] at origin
        exact .inl origin
  · exact inv.failFollower running

theorem Sound.followerConfirm (inv : Sound C w) (h : w.follower.phase = .awaitConfirm)
    (own : w.follower.secrets = some s) (e : Env) (m : Mac) :
    Sound C (w.followerConfirm C e s m) := by
  have running : w.follower.phase ≠ .agreed := by rw [h]; nofun
  have ok := inv.follower
  simp only [FollowerOk, h] at ok
  obtain ⟨noReplies, nF2L, nL2F⟩ := ok
  simp only [PairWorld.followerConfirm]
  split
  · split
    · refine { inv with
        macs := ?_
        follower := ⟨by omega, nF2L, nL2F, by simp [noReplies], by simp [noReplies]⟩
        leader := inv.leader.follower_moves (fun _ hs => hs) running }
      intro k d hmem
      rcases List.mem_append.mp hmem with old | new
      · exact inv.macs k d old
      · obtain ⟨rfl, -⟩ := Prod.mk.inj (List.mem_singleton.mp new)
        exact .inr ⟨s, own, rfl⟩
    · exact inv.failFollower running
  · exact inv.failFollower running

/-- Reply `n` goes out; what the follower does next has to fit the reply. -/
theorem Sound.sendReply (inv : Sound C w) (e : Env) (p after : Party) (r : Reply) {n : Nat}
    (running : w.follower.phase ≠ .agreed) (lt : n < 10)
    (own : w.follower.secrets = some s) (secrets : p.secrets = some s)
    (secrets' : after.secrets = some s) (side : p.record.side = true)
    (side' : after.record.side = true) (count : w.replies.length = n) (nF2L : p.nF2L = n)
    (ok : FollowerOk { after with nF2L := p.nF2L + 1 } w.offers (w.replies ++ [r])) :
    Sound C (w.sendReply C e s p after r) := by
  simp only [PairWorld.sendReply]
  split
  · refine ⟨?_, ?_, inv.offers, inv.offersLe, ?_, inv.leaderSide, side', ?_, ok⟩
    · simpa only [MacOrigin, secrets', own] using inv.macs
    · intro k m pt hmem
      rcases List.mem_append.mp hmem with old | new
      · rcases inv.seals k m pt old with origin | ⟨s', i, r', hs', hk, hm, hr, hpt⟩
        · exact .inl origin
        · refine .inr ⟨s', i, r', ?_, hk, hm, getElem?_append_of_some _ hr, hpt⟩
          rw [show _ = some s from secrets', ← own, hs']
      · obtain ⟨rfl, rfl, rfl⟩ : k = C.derive s .f2l ∧ m = nonceFrom p.nF2L ∧ pt = _ := by
          simpa using List.mem_singleton.mp new
        refine .inr ⟨s, n, r, secrets', rfl, by rw [nF2L], ?_, rfl⟩
        rw [List.getElem?_append_right count.le]
        simp [count]
    · simp only [List.length_append, List.length_singleton, count]
      omega
    · refine inv.leader.follower_moves (fun s' hs' => ?_) running
      rw [show _ = some s from secrets', ← own, hs']
  · exact inv.failFollower_with running p (by rw [secrets, own]) side

theorem Sound.followerOffer (inv : Sound C w) {n : Nat}
    (h : w.follower.phase = .negotiating n) (own : w.follower.secrets = some s)
    (ind : Independent C w) {e : Env} {frame ct : Bytes} (unf : Unforged C w frame)
    (hf : decodePeer frame = some (.sealed ct)) {w' : PairWorld}
    (step : w.followerOffer C e s n ct = some w') : Sound C w' := by
  have running : w.follower.phase ≠ .agreed := by rw [h]; nofun
  have ok := inv.follower
  simp only [FollowerOk, h] at ok
  obtain ⟨lt, nF2L, nL2F, count, rejects⟩ := ok
  simp only [PairWorld.followerOffer] at step
  split at step
  · cases step
    exact inv.failFollower_with running _ rfl inv.followerSide
  · rename_i pt opened
    rw [nL2F] at opened
    obtain ⟨off, ho, decoded⟩ := inv.opened_offer ind unf hf own (by omega) opened
    simp only [decoded] at step
    split at step
    · split at step
      · cases step
      · cases step
        have rejects' : ∀ r, r.status = .rejectIp →
            ∀ r' ∈ w.replies ++ [r], r'.status = .rejectIp := by
          intro r hr r' hr'
          rcases List.mem_append.mp hr' with old | new
          · exact rejects r' old
          · rw [List.mem_singleton.mp new, hr]
        refine inv.sendReply e _ _ _ running lt own own own inv.followerSide inv.followerSide
          count nF2L ?_
        by_cases more : n + 1 < 10
        · simp only [FollowerOk, more, if_true]
          exact ⟨trivial, by simp [nF2L], by simp [nL2F], by simp [count], rejects' _ rfl⟩
        · simp only [FollowerOk, more, if_false]
          exact rejects' _ rfl
    · cases step
      refine inv.sendReply e _ _ _ running lt own own own inv.followerSide inv.followerSide
        count nF2L ⟨n, by simp [count], ⟨off, ho, takes_setSide rfl rfl rfl⟩, ?_, ?_⟩
      · intro r hr
        rw [List.getElem?_append_right count.le] at hr
        simp only [count, Nat.sub_self, List.getElem?_cons_zero, Option.some.injEq] at hr
        rw [← hr]
      · intro i r hi hr
        rw [List.getElem?_append_left (by omega)] at hr
        exact rejects r (List.mem_of_getElem? hr)

end Follower

/-! ## Runs -/

theorem sound_start (C : Crypto) : Sound C {} where
  macs := by simp
  seals := by simp
  offers := by simp
  offersLe := by simp
  repliesLe := by simp
  leaderSide := rfl
  followerSide := rfl
  leader := ⟨rfl, rfl, rfl, rfl⟩
  follower := ⟨rfl, rfl, rfl, rfl⟩

theorem recvPeer_eq_some {e : Env} {m : PeerMessage} (h : recvPeer e = some m) :
    ∃ b, e.frame = some b ∧ decodePeer b = some m :=
  Option.bind_eq_some_iff.mp h

theorem sound_step (C : Crypto) (w : PairWorld) (a : PairAction) (w' : PairWorld)
    (inv : Sound C w) (ideal : Ideal C w a) (h : w.step C a = some w') : Sound C w' := by
  cases a with
  | leaderStart spake sent =>
      simp only [PairWorld.step, Option.ite_none_right_eq_some, Option.some.injEq] at h
      obtain ⟨start, rfl⟩ := h
      exact inv.leaderStart start spake sent
  | followerStart spake =>
      simp only [PairWorld.step, Option.ite_none_right_eq_some, Option.some.injEq] at h
      obtain ⟨start, rfl⟩ := h
      exact inv.followerStart start spake
  | leader e =>
      obtain ⟨ind, unf⟩ := ideal
      simp only [PairWorld.step, stepLeader] at h
      split at h
      · rename_i m phase _
        cases h
        exact inv.leaderSpake phase e m
      · rename_i s m phase own recv
        obtain ⟨b, hb, hm⟩ := recvPeer_eq_some recv
        exact inv.leaderConfirm phase own ind (unf b hb) hm h
      · rename_i n s ct phase own recv
        obtain ⟨b, hb, hm⟩ := recvPeer_eq_some recv
        exact inv.leaderReply phase own ind (unf b hb) hm h
      all_goals first | cases h; done | (cases h; exact inv.failLeader)
  | follower e =>
      obtain ⟨ind, unf⟩ := ideal
      simp only [PairWorld.step, stepFollower] at h
      split at h
      · rename_i m phase _
        cases h
        exact inv.followerSpake phase e m
      · rename_i s m phase own recv
        cases h
        exact inv.followerConfirm phase own e m
      · rename_i n s ct phase own recv
        obtain ⟨b, hb, hm⟩ := recvPeer_eq_some recv
        exact inv.followerOffer phase own ind (unf b hb) hm h
      all_goals first
        | cases h; done
        | (cases h; exact inv.failFollower (by intro agreed; simp_all))

theorem Sound.agreement {C : Crypto} {w : PairWorld} (inv : Sound C w) : Agreement w := by
  refine ⟨fun h => ?_, fun h => ?_⟩
  · have ok := inv.leader
    simpa only [LeaderOk, h] using ok
  · have ok := inv.follower
    simp only [FollowerOk, h] at ok
    obtain ⟨n, acc⟩ := ok
    obtain ⟨off, ho, takes⟩ := acc.offer
    exact ⟨off, List.mem_of_getElem? ho, takes⟩

/-- In every schedule of deliveries, losses, replays and injections that ideal
cryptography permits, a leader that agreed agreed with the follower, and a follower
that agreed took an offer of the leader. -/
theorem pairing_agreement (C : Crypto) {w : PairWorld}
    (h : Reach (PairWorld.step C) (Ideal C) {} w) : Agreement w :=
  (h.invariant (sound_start C) (sound_step C)).agreement

/-! ## A run that agrees -/

/-- Stand-ins under which keys, tags and ciphertexts spell out what they are made of. -/
def plainCrypto : Crypto where
  spakeFinish _ _ := some [7]
  hkdf _ _ info := info.take 12 ++ info.drop 18
  hmac k _ := ⟨(k ++ List.replicate 32 0).take 32, by simp⟩
  aeadSeal k n pt := k ++ n ++ pt
  aeadOpen k n ct :=
    if ct.take 12 = k ∧ (ct.drop 12).take 12 = n then some (ct.drop 24) else none

def labels : List Label := [.confirmLeader, .confirmFollower, .l2f, .f2l]

theorem mem_labels (l : Label) : l ∈ labels := by cases l <;> decide

/-- The frame an action delivers. -/
def frame : PairAction → Option Bytes
  | .leader e | .follower e => e.frame
  | .leaderStart _ _ | .followerStart _ => none

/-- A decidable form of `Ideal` for `plainCrypto`. -/
def plainIdeal (w : PairWorld) (a : PairAction) : Bool :=
  let C := plainCrypto
  (w.secrets.all fun s => w.secrets.all fun s' => labels.all fun l => labels.all fun l' =>
    decide (C.derive s l = C.derive s' l' → s = s' ∧ l = l')) &&
  match (frame a).bind decodePeer with
  | some (.keyConfirm m) => w.secrets.all fun s => labels.all fun l =>
      decide (m = C.hmac (C.derive s l) s.transcript → (C.derive s l, s.transcript) ∈ w.macLog)
  | some (.sealed ct) => w.secrets.all fun s => labels.all fun l =>
      decide (ct.take 12 = C.derive s l →
        (C.derive s l, (ct.drop 12).take 12, ct.drop 24) ∈ w.sealLog)
  | _ => true

theorem plainIdeal_sound (w : PairWorld) (a : PairAction) (h : plainIdeal w a = true) :
    Ideal plainCrypto w a := by
  simp only [plainIdeal, Bool.and_eq_true, List.all_eq_true, decide_eq_true_eq] at h
  obtain ⟨ind, frames⟩ := h
  have independent : Independent plainCrypto w := fun s hs s' hs' l l' =>
    ind s hs s' hs' l (mem_labels l) l' (mem_labels l')
  have unforged : ∀ e : Env, (a = .leader e ∨ a = .follower e) → ∀ b, e.frame = some b →
      Unforged plainCrypto w b := by
    intro e ha b hb
    have delivered : frame a = some b := by
      rcases ha with rfl | rfl <;> exact hb
    rw [delivered] at frames
    refine ⟨fun m hm s hs l => ?_, fun ct hct s hs l n pt opened => ?_⟩
    · simp only [Option.bind_some, hm, List.all_eq_true, decide_eq_true_eq] at frames
      exact frames s hs l (mem_labels l)
    · simp only [Option.bind_some, hct, List.all_eq_true, decide_eq_true_eq] at frames
      simp only [plainCrypto, Option.ite_none_right_eq_some, Option.some.injEq] at opened
      obtain ⟨⟨hk, hn⟩, rfl⟩ := opened
      rw [← hn]
      exact frames s hs l (mem_labels l) hk
  cases a with
  | leader e => exact ⟨independent, unforged e (.inl rfl)⟩
  | follower e => exact ⟨independent, unforged e (.inr rfl)⟩
  | leaderStart _ _ | followerStart _ => trivial

/-- The frames of a run in which the first offer is accepted, each delivered as sent. -/
def plainRun : List PairAction :=
  let C := plainCrypto
  let s : Secrets := ⟨[7], [10, 20]⟩
  let off : Offer :=
    { ulaBase := randomUla (ByteArr.zero 7), ulaPrefix := 64, uid := ByteArr.zero 32,
      leaderPubkey := ByteArr.zero 32 }
  let reply : Reply :=
    { status := .accept, followerPubkey := ByteArr.zero 32, counterUlaBase := ByteArr.zero 16,
      counterUlaPrefix := 0 }
  let confirm (l : Label) := encodePeer (.keyConfirm (C.hmac (C.derive s l) s.transcript))
  let sealedBy (l : Label) (m : NegMessage) :=
    encodePeer (.sealed (C.aeadSeal (C.derive s l) (nonceFrom 0) (encodeNeg m)))
  [.leaderStart (some ([1], [10])) true,
    .followerStart (some ([2], [20])),
    .follower { frame := some (encodePeer (.spake2 [10])) },
    .leader { frame := some (encodePeer (.spake2 [20])) },
    .follower { frame := some (confirm .confirmLeader) },
    .leader { frame := some (confirm .confirmFollower), ulaDraws := [ByteArr.zero 7] },
    .follower { frame := some (sealedBy .l2f (.offer off)) },
    .leader { frame := some (sealedBy .f2l (.reply reply)) }]

theorem pairing_agreement_plain :
    ∃ w, Reach (PairWorld.step plainCrypto) (Ideal plainCrypto) {} w ∧
      w.leader.phase = .agreed ∧ Agreement w := by
  obtain ⟨w, reached, agreed⟩ := Reach.observedWhen (PairWorld.step plainCrypto)
    plainIdeal_sound {} plainRun (fun w => w.leader.phase)
    (by decide +kernel : _ = some PairPhase.agreed)
  exact ⟨w, reached, agreed, pairing_agreement plainCrypto reached⟩

end PairWorld
end Splice.Peer
