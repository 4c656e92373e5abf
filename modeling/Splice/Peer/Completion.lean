import Mathlib.Data.FinEnum
import Mathlib.Data.Fintype.BigOperators
import Splice.Peer.Agreement
import Splice.Server.Bridge

/-!
Pairing over the server's bridge, with nobody interfering. The bridge takes turns, and so do
the parties: there is always one frame on the way, and whoever is to handle it can. So every
run ends, and it ends in agreement unless each of ten networks was taken on the follower's
side.
-/

namespace Splice.Peer
open Proto Lib Server PairWorld

/-- The two parties, the bridge between them and how many moves have been made. -/
structure Bridged where
  pair : PairWorld := {}
  bridge : Bridge := {}
  moves : Nat := 0

/-- SPAKE2 gives both sides one key, and what was sealed can be opened. -/
structure Crypto.Works (C : Crypto) (lead follow : Bytes × Bytes) (k : Bytes) : Prop where
  leader : C.spakeFinish lead.1 follow.2 = some k
  follower : C.spakeFinish follow.1 lead.2 = some k
  opens : ∀ k n pt, C.aeadOpen k n (C.aeadSeal k n pt) = some pt
  overhead : ∀ k n pt, (C.aeadSeal k n pt).length ≤ pt.length + 16
  short : lead.2.length ≤ 64 ∧ follow.2.length ≤ 64

namespace Bridged

/-- The frames a step has sent under a key, as its logs have grown. -/
def written (C : Crypto) (w w' : PairWorld) : List Bytes :=
  (w'.macLog.drop w.macLog.length).map (fun e => encodePeer (.keyConfirm (C.hmac e.1 e.2))) ++
    (w'.sealLog.drop w.sealLog.length).map fun e =>
      encodePeer (.sealed (C.aeadSeal e.1 e.2.1 e.2.2))

/-- The follower's SPAKE2 message, sent when it has the leader's. -/
def spoken (p : Party) (f : Bytes) : List Bytes :=
  match p.phase, decodePeer f with
  | .awaitSpake, some (.spake2 _) => [encodePeer (.spake2 p.mySpake)]
  | _, _ => []

inductive Act
  | leaderStart (spake : Bytes × Bytes)
  | followerStart (spake : Bytes × Bytes)
  | leader (e : Env)
  | follower (e : Env)
  | forward

def step (C : Crypto) (b : Bridged) : Act → Option Bridged
  | .leaderStart spake =>
      (b.pair.step C (.leaderStart (some spake) true)).map fun w =>
        ⟨w, b.bridge.write false [encodePeer (.spake2 spake.2)], b.moves + 1⟩
  | .followerStart spake =>
      (b.pair.step C (.followerStart (some spake))).map fun w => ⟨w, b.bridge, b.moves + 1⟩
  | .leader e =>
      (b.bridge.read false).bind fun (f, bridge) =>
        (b.pair.step C (.leader { e with frame := some f, sent := true })).map fun w =>
          ⟨w, bridge.write false (written C b.pair w), b.moves + 1⟩
  | .follower e =>
      (b.bridge.read true).bind fun (f, bridge) =>
        (b.pair.step C (.follower { e with frame := some f, sent := true })).map fun w =>
          ⟨w, bridge.write true (spoken b.pair.follower f ++ written C b.pair w), b.moves + 1⟩
  | .forward => b.bridge.forward.map fun bridge => { b with bridge, moves := b.moves + 1 }

/-- Each party starts SPAKE2 once, and fewer records are stored than there are networks. -/
def Honest (lead follow : Bytes × Bytes) (_ : Bridged) : Act → Prop
  | .leaderStart spake => spake = lead
  | .followerStart spake => spake = follow
  | .leader e => e.existing.length + 1 < 256 ^ 7
  | .follower _ | .forward => True

/-! ## The script -/

def Waits (p : Party) (spake : Bytes × Bytes) : Prop :=
  p.phase = .awaitSpake ∧ p.spake = spake.1 ∧ p.mySpake = spake.2

def Holds (p : Party) (phase : PairPhase) (s : Secrets) : Prop :=
  p.phase = phase ∧ p.secrets = some s

/-- The counters of the leader and of the follower. -/
def Counters (w : PairWorld) (l2f f2l l2f' f2l' : Nat) : Prop :=
  w.leader.nL2F = l2f ∧ w.leader.nF2L = f2l ∧ w.follower.nL2F = l2f' ∧ w.follower.nF2L = f2l'

/-- What has been offered before was taken on the follower's side. -/
def TurnedDown (w : PairWorld) (offers : List Proto.Offer) (n : Nat) : Prop :=
  offers.length = n ∧ ∀ off ∈ offers, w.follower.ulaCollides off.ulaBase = true

/-- The leader stands by the offer it has made. -/
structure Offers (w : PairWorld) (s : Secrets) (n : Nat) (off : Proto.Offer) : Prop where
  lt : n < 10
  leader : Holds w.leader (.negotiating n) s
  ula : off.ulaBase = w.leader.ula
  uid : off.uid = w.leader.uid
  pubkey : off.leaderPubkey = w.leader.record.ownPub
  bit : sideBit w.leader.uid = 0
  stored : w.leader.existing.length + 1 < 256 ^ 7

def nextPhase (n : Nat) : PairPhase := if n + 1 < 10 then .negotiating (n + 1) else .failed

/-- The frame of each stage of the exchange, and where the parties are while it is on the way. -/
inductive Says (C : Crypto) (lead follow : Bytes × Bytes) (s : Secrets) (w : PairWorld) :
    Nat → Bytes → Prop
  | spakeL (leader : Waits w.leader lead)
      (follower : w.follower.phase = .start ∨ Waits w.follower follow)
      (counters : Counters w 0 0 0 0) (fresh : TurnedDown w w.offers 0) :
      Says C lead follow s w 0 (encodePeer (.spake2 lead.2))
  | spakeF (leader : Waits w.leader lead) (follower : Holds w.follower .awaitConfirm s)
      (counters : Counters w 0 0 0 0) (fresh : TurnedDown w w.offers 0) :
      Says C lead follow s w 1 (encodePeer (.spake2 follow.2))
  | confirmL (leader : Holds w.leader .awaitConfirm s) (follower : Holds w.follower .awaitConfirm s)
      (counters : Counters w 0 0 0 0) (fresh : TurnedDown w w.offers 0) :
      Says C lead follow s w 2
        (encodePeer (.keyConfirm (C.hmac (C.derive s .confirmLeader) s.transcript)))
  | confirmF (leader : Holds w.leader .awaitConfirm s)
      (follower : Holds w.follower (.negotiating 0) s)
      (counters : Counters w 0 0 0 0) (fresh : TurnedDown w w.offers 0) :
      Says C lead follow s w 3
        (encodePeer (.keyConfirm (C.hmac (C.derive s .confirmFollower) s.transcript)))
  | offer {n : Nat} {off : Proto.Offer} {before : List Proto.Offer} (offers : Offers w s n off)
      (follower : Holds w.follower (.negotiating n) s) (counters : Counters w (n + 1) n n n)
      (made : w.offers = before ++ [off]) (down : TurnedDown w before n) :
      Says C lead follow s w (4 + 2 * n)
        (encodePeer (.sealed (C.aeadSeal (C.derive s .l2f) (nonceFrom n) (encodeNeg (.offer off)))))
  | accept {n : Nat} {off : Proto.Offer} {rep : Reply} (offers : Offers w s n off)
      (follower : w.follower.phase = .agreed) (counters : Counters w (n + 1) n (n + 1) (n + 1))
      (takes : Takes w.follower.record off) (status : rep.status = .accept)
      (pubkey : rep.followerPubkey = w.follower.record.ownPub) :
      Says C lead follow s w (5 + 2 * n)
        (encodePeer (.sealed (C.aeadSeal (C.derive s .f2l) (nonceFrom n) (encodeNeg (.reply rep)))))
  | reject {n : Nat} {off : Proto.Offer} {rep : Reply} (offers : Offers w s n off)
      (follower : Holds w.follower (nextPhase n) s) (counters : Counters w (n + 1) n (n + 1) (n + 1))
      (status : rep.status = .rejectIp) (down : TurnedDown w w.offers (n + 1)) :
      Says C lead follow s w (5 + 2 * n)
        (encodePeer (.sealed (C.aeadSeal (C.derive s .f2l) (nonceFrom n) (encodeNeg (.reply rep)))))

/-- How the exchange ends. -/
structure Agreed (w : PairWorld) : Prop where
  leader : w.leader.phase = .agreed
  follower : w.follower.phase = .agreed
  paired : Paired w.leader.record w.follower.record

structure GivenUp (w : PairWorld) : Prop where
  leader : w.leader.phase = .failed
  follower : w.follower.phase = .failed
  down : TurnedDown w w.offers 10

def started (w : PairWorld) : Nat := if w.follower.phase = .start then 0 else 1

def odd (i : Nat) : Bool := i % 2 = 1

inductive Stage (C : Crypto) (lead follow : Bytes × Bytes) (s : Secrets) (b : Bridged) : Prop
  | fresh (leader : b.pair.leader.phase = .start)
      (follower : b.pair.follower.phase = .start ∨ Waits b.pair.follower follow)
      (counters : Counters b.pair 0 0 0 0) (down : TurnedDown b.pair b.pair.offers 0)
      (bridge : b.bridge = .idle false) (moves : b.moves ≤ started b.pair)
  | said {i : Nat} {f : Bytes} (passed : Bool) (saying : Says C lead follow s b.pair i f)
      (bridge : b.bridge = .carrying (odd i) passed f)
      (moves : b.moves ≤ 1 + started b.pair + 2 * i + passed.toNat)
  | concluded (turn : Bool) (outcome : Agreed b.pair ∨ GivenUp b.pair)
      (bridge : b.bridge = .idle turn)
      (moves : b.moves ≤ 50)

structure Inv (C : Crypto) (lead follow : Bytes × Bytes) (s : Secrets) (b : Bridged) : Prop where
  stage : Stage C lead follow s b
  sides : b.pair.leader.record.side = false ∧ b.pair.follower.record.side = true

/-! ## What is written -/

section Written
variable {C : Crypto} {w w' : PairWorld}

theorem written_none (macs : w'.macLog = w.macLog) (seals : w'.sealLog = w.sealLog) :
    written C w w' = [] := by
  rw [written, macs, seals, List.drop_length, List.drop_length]
  rfl

theorem written_mac {k d : Bytes} (macs : w'.macLog = w.macLog ++ [(k, d)])
    (seals : w'.sealLog = w.sealLog) :
    written C w w' = [encodePeer (.keyConfirm (C.hmac k d))] := by
  rw [written, macs, seals, List.drop_left, List.drop_length]
  rfl

theorem written_seal {k n pt : Bytes} (macs : w'.macLog = w.macLog)
    (seals : w'.sealLog = w.sealLog ++ [(k, n, pt)]) :
    written C w w' = [encodePeer (.sealed (C.aeadSeal k n pt))] := by
  rw [written, macs, seals, List.drop_left, List.drop_length]
  rfl

end Written

/-! ## One party at a time -/

section Parties
variable {C : Crypto} {lead follow : Bytes × Bytes} {k : Bytes} {w w' : PairWorld} {e : Env}

/-- The secrets both sides come to. -/
def shared (lead follow : Bytes × Bytes) (k : Bytes) : Secrets := ⟨k, lead.2 ++ follow.2⟩

/-- What a party is given: a frame that has arrived, and a send that goes well. -/
def given (e : Env) (m : PeerMessage) : Env := { e with frame := some (encodePeer m), sent := true }

theorem recvPeer_given (e : Env) (m : PeerMessage) : recvPeer (given e m) = some m :=
  decodePeer_encodePeer m

@[simp] theorem given_sent (e : Env) (m : PeerMessage) : (given e m).sent = true := rfl

theorem leader_spake (works : C.Works lead follow k) (leader : Waits w.leader lead) :
    w.step C (.leader (given e (.spake2 follow.2))) = some { w with
      leader := { w.leader with
        phase := .awaitConfirm, secrets := some (shared lead follow k) }
      macLog := w.macLog ++ [(C.derive (shared lead follow k) .confirmLeader,
        (shared lead follow k).transcript)] } := by
  obtain ⟨phase, spake, my⟩ := leader
  simp only [PairWorld.step, stepLeader, phase, recvPeer_given, leaderSpake, spake, works.leader,
    my, given_sent, if_true, shared]

theorem follower_spake (works : C.Works lead follow k) (follower : Waits w.follower follow) :
    w.step C (.follower (given e (.spake2 lead.2))) = some { w with
      follower := { w.follower with
        phase := .awaitConfirm, secrets := some (shared lead follow k) } } := by
  obtain ⟨phase, spake, my⟩ := follower
  simp only [PairWorld.step, stepFollower, phase, recvPeer_given, followerSpake, spake,
    works.follower, my, given_sent, if_true, shared]

theorem follower_confirm {s : Secrets} (follower : Holds w.follower .awaitConfirm s) :
    w.step C (.follower
        (given e (.keyConfirm (C.hmac (C.derive s .confirmLeader) s.transcript)))) =
      some { w with
        follower := { w.follower with
          phase := .negotiating 0
          record := { w.follower.record with ownPriv := e.keypair.1, ownPub := e.keypair.2 }
          existing := e.existing }
        macLog := w.macLog ++ [(C.derive s .confirmFollower, s.transcript)] } := by
  obtain ⟨phase, own⟩ := follower
  simp only [PairWorld.step, stepFollower, phase, own, recvPeer_given, followerConfirm, given_sent,
    if_true]
  rfl

/-- The leader before its first offer. -/
def drawn (p : Party) (e : Env) : Party :=
  { p with
    record := { p.record with ownPriv := e.keypair.1, ownPub := e.keypair.2 }
    existing := e.existing
    uid := clearSide e.uidBytes }

theorem leader_confirm {s : Secrets} (leader : Holds w.leader .awaitConfirm s) :
    let e := given e (.keyConfirm (C.hmac (C.derive s .confirmFollower) s.transcript))
    w.step C (.leader e) =
      ((e.ulaDraws.map randomUla).find? fun u => !(drawn w.leader e).ulaCollides u).map fun ula =>
        w.sendOffer C e s { drawn w.leader e with ula } 0 := by
  intro e
  obtain ⟨phase, own⟩ := leader
  have enter : w.step C (.leader e) = w.leaderConfirm C e s
      (C.hmac (C.derive s .confirmFollower) s.transcript) := by
    simp only [PairWorld.step, stepLeader, phase, own, e, recvPeer_given]
  rw [enter, leaderConfirm, if_pos rfl]
  dsimp only
  split
  · rename_i none_
    have none_ : ((e.ulaDraws.map randomUla).find? fun u =>
        !(drawn w.leader e).ulaCollides u) = none := none_
    rw [none_]
    rfl
  · rename_i ula found
    have found : ((e.ulaDraws.map randomUla).find? fun u =>
        !(drawn w.leader e).ulaCollides u) = some ula := found
    rw [found]
    rfl

/-- The offer the leader makes. -/
def offered (p : Party) (e : Env) : Proto.Offer where
  ulaBase := p.ula
  ulaPrefix := 64
  uid := p.uid
  leaderPubkey := p.record.ownPub
  lanPort := e.ownLanPort

theorem leader_offers {s : Secrets} {p : Party} {n : Nat} (sent : e.sent = true) (lt : n < 10) :
    w.sendOffer C e s p n = { w with
      leader := { p with phase := .negotiating n, nL2F := p.nL2F + 1 }
      sealLog := w.sealLog ++
        [(C.derive s .l2f, nonceFrom p.nL2F, encodeNeg (.offer (offered p e)))]
      offers := w.offers ++ [offered p e] } := by
  rw [sendOffer, if_pos lt, if_pos sent]
  rfl

theorem follower_takes {s : Secrets} {n : Nat} {off : Proto.Offer}
    (works : C.Works lead follow k) (follower : Holds w.follower (.negotiating n) s)
    (counter : w.follower.nL2F = n) (free : w.follower.ulaCollides off.ulaBase = false) :
    ∃ rep : Reply, rep.status = .accept ∧ rep.followerPubkey = w.follower.record.ownPub ∧
      w.step C (.follower (given e (.sealed
          (C.aeadSeal (C.derive s .l2f) (nonceFrom n) (encodeNeg (.offer off)))))) =
        some { w with
          follower := { w.follower with
            phase := .agreed
            nL2F := n + 1
            nF2L := w.follower.nF2L + 1
            record := { w.follower.record with
              lanPort := if off.lanPort = kLanDiscoPort then 0 else off.lanPort
              peerPub := off.leaderPubkey
              uid := setSide off.uid
              ulaBase := off.ulaBase } }
          sealLog := w.sealLog ++
            [(C.derive s .f2l, nonceFrom w.follower.nF2L, encodeNeg (.reply rep))]
          replies := w.replies ++ [rep] } := by
  obtain ⟨phase, own⟩ := follower
  have enter : ∀ ct, w.step C (.follower (given e (.sealed ct))) =
      w.followerOffer C (given e (.sealed ct)) s n ct := fun ct => by
    simp only [PairWorld.step, stepFollower, phase, own, recvPeer_given]
  have same : ∀ base, Party.ulaCollides { w.follower with nL2F := w.follower.nL2F + 1 } base =
      w.follower.ulaCollides base := fun _ => rfl
  refine ⟨⟨.accept, w.follower.record.ownPub, ByteArr.zero 16, 0, e.ownLanPort⟩, rfl, rfl, ?_⟩
  simp only [enter, followerOffer, counter, works.opens, decodeNeg_encodeNeg, sendReply, given_sent,
    if_true]
  rw [if_neg]
  · rfl
  · exact Bool.not_eq_true _ ▸ free

theorem follower_rejects {s : Secrets} {n : Nat} {off : Proto.Offer}
    (works : C.Works lead follow k) (follower : Holds w.follower (.negotiating n) s)
    (counter : w.follower.nL2F = n) (taken : w.follower.ulaCollides off.ulaBase = true)
    {r : ByteArr 7} {rs : List (ByteArr 7)} (draws : e.ulaDraws = r :: rs) :
    ∃ rep : Reply, rep.status = .rejectIp ∧
      w.step C (.follower (given e (.sealed
          (C.aeadSeal (C.derive s .l2f) (nonceFrom n) (encodeNeg (.offer off)))))) =
        some { w with
          follower := { w.follower with
            phase := nextPhase n
            nL2F := n + 1
            nF2L := w.follower.nF2L + 1 }
          sealLog := w.sealLog ++
            [(C.derive s .f2l, nonceFrom w.follower.nF2L, encodeNeg (.reply rep))]
          replies := w.replies ++ [rep] } := by
  obtain ⟨phase, own⟩ := follower
  have enter : ∀ ct, w.step C (.follower (given e (.sealed ct))) =
      w.followerOffer C (given e (.sealed ct)) s n ct := fun ct => by
    simp only [PairWorld.step, stepFollower, phase, own, recvPeer_given]
  have same : ∀ ct, (given e (.sealed ct)).ulaDraws = r :: rs := fun _ => draws
  refine ⟨⟨.rejectIp, ByteArr.zero 32, randomUla r, 64, 0⟩, rfl, ?_⟩
  simp only [enter, followerOffer, counter, works.opens, decodeNeg_encodeNeg, sendReply, given_sent,
    if_true, same]
  rw [if_pos]
  · rfl
  · exact taken

theorem leader_enter {s : Secrets} {n : Nat} (leader : Holds w.leader (.negotiating n) s)
    (ct : Bytes) : w.step C (.leader (given e (.sealed ct))) =
      w.leaderReply C (given e (.sealed ct)) s n ct := by
  obtain ⟨phase, own⟩ := leader
  simp only [PairWorld.step, stepLeader, phase, own, recvPeer_given]

theorem leader_accepts {s : Secrets} {n : Nat} {rep : Reply}
    (works : C.Works lead follow k) (leader : Holds w.leader (.negotiating n) s)
    (counter : w.leader.nF2L = n) (status : rep.status = .accept) :
    w.step C (.leader (given e (.sealed
        (C.aeadSeal (C.derive s .f2l) (nonceFrom n) (encodeNeg (.reply rep)))))) =
      some { w with
        leader := { w.leader with
          phase := .agreed
          nF2L := n + 1
          record := { w.leader.record with
            lanPort := if rep.lanPort = kLanDiscoPort then 0 else rep.lanPort
            peerPub := rep.followerPubkey
            uid := w.leader.uid
            ulaBase := w.leader.ula } } } := by
  simp only [leader_enter leader, leaderReply, counter, works.opens, decodeNeg_encodeNeg, status]

/-- A draw the leader may offer next. -/
def mayOffer (p : Party) (rep : Reply) (u : Ip6) : Bool :=
  !(p.ulaCollides u || sameUla64 u rep.counterUlaBase)

theorem leader_again {s : Secrets} {n : Nat} {rep : Reply}
    (works : C.Works lead follow k) (leader : Holds w.leader (.negotiating n) s)
    (counter : w.leader.nF2L = n) (status : rep.status = .rejectIp) :
    let e := given e (.sealed
      (C.aeadSeal (C.derive s .f2l) (nonceFrom n) (encodeNeg (.reply rep))))
    w.step C (.leader e) =
      ((e.ulaDraws.map randomUla).find? (mayOffer w.leader rep)).map fun ula =>
        w.sendOffer C e s { w.leader with nF2L := n + 1, ula } (n + 1) := by
  intro e
  simp only [e, leader_enter leader, leaderReply, counter, works.opens, decodeNeg_encodeNeg, status]
  split
  · rename_i none_
    have none_ : (e.ulaDraws.map randomUla).find? (mayOffer w.leader rep) = none := none_
    rw [none_]
    rfl
  · rename_i ula found
    have found : (e.ulaDraws.map randomUla).find? (mayOffer w.leader rep) = some ula := found
    rw [found]
    rfl

end Parties

/-! ## One move -/

section Moves
variable {C : Crypto} {lead follow : Bytes × Bytes} {k : Bytes} {b b' : Bridged} {i : Nat}
  {f : Bytes}

theorem frame_fits (works : C.Works lead follow k) {w : PairWorld}
    (saying : Says C lead follow (shared lead follow k) w i f) : f.length ≤ kMaxFrameLen := by
  have neg : ∀ m, (encodeNeg m).length ≤ 100 := by
    intro m
    cases m <;> simp [encodeNeg]
  have sealed_ : ∀ k n m, (encodePeer (.sealed (C.aeadSeal k n (encodeNeg m)))).length ≤
      kMaxFrameLen := by
    intro k n m
    have longer := works.overhead k n (encodeNeg m)
    have small := neg m
    simp only [encodePeer, List.length_cons, kMaxFrameLen]
    omega
  have short := works.short
  cases saying with
  | spakeL | spakeF =>
      simp only [encodePeer, List.length_cons, kMaxFrameLen]
      omega
  | confirmL | confirmF => simp [encodePeer, kMaxFrameLen]
  | offer | accept | reject => exact sealed_ _ _ _

theorem odd_next (i : Nat) : odd (i + 1) = !odd i := by
  have parity : (i + 1) % 2 = 1 ↔ ¬ i % 2 = 1 := by omega
  simp only [odd, parity, decide_not]

/-- Where a message leads: to the next one, or to the end. -/
inductive Leads (C : Crypto) (lead follow : Bytes × Bytes) (s : Secrets) (w : PairWorld) (i : Nat) :
    List Bytes → Prop
  | next {f : Bytes} (saying : Says C lead follow s w (i + 1) f) : Leads C lead follow s w i [f]
  | last (outcome : Agreed w ∨ GivenUp w) (le : i ≤ 23) : Leads C lead follow s w i []

/-- What a move of either party keeps. -/
structure SameSides (w w' : PairWorld) : Prop where
  leader : w'.leader.record.side = w.leader.record.side
  follower : w'.follower.record.side = w.follower.record.side
  started : started w' = started w

theorem leads_mac {s : Secrets} {w w' : PairWorld} {key data : Bytes}
    (macs : w'.macLog = w.macLog ++ [(key, data)]) (seals : w'.sealLog = w.sealLog)
    (saying : Says C lead follow s w' (i + 1) (encodePeer (.keyConfirm (C.hmac key data)))) :
    Leads C lead follow s w' i (written C w w') := by
  rw [written_mac macs seals]
  exact .next saying

theorem leads_seal {s : Secrets} {w w' : PairWorld} {key nonce pt : Bytes}
    (macs : w'.macLog = w.macLog) (seals : w'.sealLog = w.sealLog ++ [(key, nonce, pt)])
    (saying : Says C lead follow s w' (i + 1) (encodePeer (.sealed (C.aeadSeal key nonce pt)))) :
    Leads C lead follow s w' i (written C w w') := by
  rw [written_seal macs seals]
  exact .next saying

theorem leads_spoken {s : Secrets} {w w' : PairWorld} (macs : w'.macLog = w.macLog)
    (seals : w'.sealLog = w.sealLog) (saying : Says C lead follow s w' (i + 1) f) :
    Leads C lead follow s w' i ([f] ++ written C w w') := by
  rw [written_none macs seals, List.append_nil]
  exact .next saying

theorem leads_none {s : Secrets} {w w' : PairWorld} (macs : w'.macLog = w.macLog)
    (seals : w'.sealLog = w.sealLog) (outcome : Agreed w' ∨ GivenUp w') (le : i ≤ 23) :
    Leads C lead follow s w' i (written C w w') := by
  rw [written_none macs seals]
  exact .last outcome le

theorem leader_leads (works : C.Works lead follow k) {w w' : PairWorld} {e : Env}
    (sides : w.leader.record.side = false ∧ w.follower.record.side = true)
    (small : e.existing.length + 1 < 256 ^ 7)
    (saying : Says C lead follow (shared lead follow k) w i f) (mine : odd i = true)
    (h : w.step C (.leader { e with frame := some f, sent := true }) = some w') :
    Leads C lead follow (shared lead follow k) w' i (written C w w') ∧ SameSides w w' := by
  cases saying with
  | spakeL | confirmL => cases mine
  | offer => simp [odd] at mine
  | spakeF leader follower counters fresh =>
      have stepped := (leader_spake (e := e) works leader).symm.trans h
      cases stepped
      exact ⟨leads_mac rfl rfl (.confirmL ⟨rfl, rfl⟩ follower counters fresh), rfl, rfl, rfl⟩
  | confirmF leader follower counters fresh =>
      have stepped := (leader_confirm (e := e) leader).symm.trans h
      obtain ⟨ula, -, rfl⟩ := Option.map_eq_some_iff.mp stepped
      obtain ⟨l2f, f2l, l2f', f2l'⟩ := counters
      have none_ : w.offers = [] := List.length_eq_zero_iff.mp fresh.1
      have zero : (drawn w.leader e).nL2F = 0 := l2f
      rw [leader_offers rfl (by decide)]
      refine ⟨leads_seal rfl rfl ?_, rfl, rfl, rfl⟩
      change Says _ _ _ _ _ 4 (encodePeer (.sealed (C.aeadSeal _ (nonceFrom w.leader.nL2F) _)))
      rw [l2f]
      exact @Says.offer _ _ _ _ _ 0 _ [] ⟨by decide, ⟨rfl, leader.2⟩, rfl, rfl, rfl,
        sideBit_clearSide e.uidBytes, small⟩ follower ⟨congrArg (· + 1) zero, f2l, l2f', f2l'⟩
        (congrArg (· ++ _) none_) ⟨rfl, nofun⟩
  | @accept n off rep offers follower counters takes status pubkey =>
      have stepped := (leader_accepts (e := e) works offers.leader counters.2.1 status).symm.trans h
      cases stepped
      have lt := offers.lt
      refine ⟨leads_none rfl rfl (.inl ⟨rfl, follower, ⟨pubkey, ?_, ?_, offers.bit, takes.bit, ?_, ?_,
        sides⟩⟩) (by omega), rfl, rfl, rfl⟩
      · exact takes.peer.trans offers.pubkey
      · exact (takes.ula.trans offers.ula).symm
      · exact offers.uid ▸ takes.otherBits
      · exact takes.uid.trans (congrArg setSide offers.uid)
  | @reject n off rep offers follower counters status down =>
      have stepped := (leader_again (e := e) works offers.leader counters.2.1 status).symm.trans h
      obtain ⟨ula, -, rfl⟩ := Option.map_eq_some_iff.mp stepped
      obtain ⟨l2f, f2l, l2f', f2l'⟩ := counters
      by_cases more : n + 1 < 10
      · have index : 5 + 2 * n + 1 = 4 + 2 * (n + 1) := by omega
        rw [nextPhase, if_pos more] at follower
        rw [leader_offers rfl more]
        refine ⟨leads_seal rfl rfl ?_, rfl, rfl, rfl⟩
        change Says _ _ _ _ _ _ (encodePeer (.sealed (C.aeadSeal _ (nonceFrom w.leader.nL2F) _)))
        rw [index, l2f]
        exact .offer ⟨more, ⟨rfl, offers.leader.2⟩, rfl, rfl, rfl, offers.bit, offers.stored⟩
          follower ⟨rfl, rfl, l2f', f2l'⟩ rfl down
      · have lt := offers.lt
        have ten : n + 1 = 10 := by omega
        have failed : w.follower.phase = .failed := by
          have phase := follower.1
          rwa [nextPhase, if_neg more] at phase
        rw [sendOffer, if_neg more]
        exact ⟨leads_none rfl rfl (.inr ⟨rfl, failed, ten ▸ down⟩) (by omega), rfl, rfl, rfl⟩

theorem follower_leads (works : C.Works lead follow k) {w w' : PairWorld} {e : Env}
    (saying : Says C lead follow (shared lead follow k) w i f) (mine : odd i = false)
    (up : w.follower.phase ≠ .start)
    (h : w.step C (.follower { e with frame := some f, sent := true }) = some w') :
    Leads C lead follow (shared lead follow k) w' i (spoken w.follower f ++ written C w w') ∧
      SameSides w w' := by
  have silent : ∀ {m}, w.follower.phase ≠ .awaitSpake → spoken w.follower (encodePeer m) = [] := by
    intro m phase
    rw [spoken]
    split
    · rename_i waiting _
      exact absurd waiting phase
    · rfl
  have began : ∀ {w' : PairWorld}, w'.follower.phase ≠ .start → started w' = started w :=
    fun up' => by rw [started, started, if_neg up', if_neg up]
  cases saying with
  | spakeF | confirmF => cases mine
  | accept | reject => simp [odd] at mine
  | spakeL leader follower counters fresh =>
      have waits := follower.resolve_left up
      have stepped := (follower_spake (e := e) works waits).symm.trans h
      cases stepped
      have spoke : spoken w.follower (encodePeer (.spake2 lead.2)) =
          [encodePeer (.spake2 follow.2)] := by
        rw [spoken, decodePeer_encodePeer, waits.1, waits.2.2]
      have nothing : w.offers = [] := List.length_eq_zero_iff.mp fresh.1
      rw [spoke]
      refine ⟨leads_spoken rfl rfl ?_, rfl, rfl, began (by simp)⟩
      exact .spakeF leader ⟨rfl, rfl⟩ counters ⟨fresh.1, by simp [nothing]⟩
  | confirmL leader follower counters fresh =>
      have stepped := (follower_confirm (e := e) follower).symm.trans h
      cases stepped
      rw [silent (by rw [follower.1]; simp), List.nil_append]
      have nothing : w.offers = [] := List.length_eq_zero_iff.mp fresh.1
      refine ⟨leads_mac rfl rfl ?_, rfl, rfl, began (by simp)⟩
      exact .confirmF leader ⟨rfl, follower.2⟩ counters ⟨fresh.1, by simp [nothing]⟩
  | @offer n off before offers follower counters made down =>
      obtain ⟨l2f, f2l, l2f', f2l'⟩ := counters
      have index : 4 + 2 * n + 1 = 5 + 2 * n := by omega
      rw [silent (by rw [follower.1]; simp), List.nil_append]
      by_cases taken : w.follower.ulaCollides off.ulaBase = true
      · cases draws : e.ulaDraws with
        | nil =>
            obtain ⟨phase, own⟩ := follower
            have enter : ∀ ct, w.step C (.follower (given e (.sealed ct))) =
                w.followerOffer C (given e (.sealed ct)) (shared lead follow k) n ct := fun ct => by
              simp only [PairWorld.step, stepFollower, phase, own, recvPeer_given]
            have none_ : ∀ m, (given e m).ulaDraws = [] := fun _ => draws
            have stuck : w.step C (.follower (given e (.sealed (C.aeadSeal
                (C.derive (shared lead follow k) .l2f) (nonceFrom n) (encodeNeg (.offer off)))))) =
                none := by
              simp only [enter, followerOffer, l2f', works.opens, decodeNeg_encodeNeg, none_]
              exact if_pos taken
            cases stuck.symm.trans h
        | cons r rs =>
            obtain ⟨rep, status, eq⟩ := follower_rejects (e := e) works follower l2f' taken draws
            have stepped := eq.symm.trans h
            cases stepped
            refine ⟨leads_seal rfl rfl ?_, rfl, rfl, began ?_⟩
            · rw [index, f2l']
              refine .reject ⟨offers.lt, offers.leader, offers.ula, offers.uid, offers.pubkey,
                offers.bit, offers.stored⟩ ⟨rfl, follower.2⟩ ⟨l2f, f2l, rfl, rfl⟩ status ⟨?_, ?_⟩
              · simp [made, down.1]
              · intro o ho
                rw [made] at ho
                cases List.mem_append.mp ho with
                | inl old => exact down.2 o old
                | inr new => exact List.mem_singleton.mp new ▸ taken
            · simp only [nextPhase]
              split <;> simp
      · obtain ⟨rep, status, pubkey, eq⟩ :=
          follower_takes (e := e) works follower l2f' (Bool.not_eq_true _ ▸ taken)
        have stepped := eq.symm.trans h
        cases stepped
        refine ⟨leads_seal rfl rfl ?_, rfl, rfl, began (by simp)⟩
        rw [index, f2l']
        exact .accept ⟨offers.lt, offers.leader, offers.ula, offers.uid, offers.pubkey,
          offers.bit, offers.stored⟩ rfl ⟨l2f, f2l, rfl, rfl⟩ (takes_setSide rfl rfl rfl) status pubkey

theorem started_le (w : PairWorld) : started w ≤ 1 := by
  rw [started]
  split <;> omega

/-- A side that has read a frame: it was passed on to this side, and nothing else is on the way. -/
theorem read_cases {own passed side : Bool} {g : Bytes} {bridge : Bridge}
    (h : (Bridge.carrying own passed f).read side = some (g, bridge)) :
    passed = true ∧ own = !side ∧ g = f ∧ bridge = .idle side := by
  cases passed with
  | false => cases (Bridge.read_unpassed own side f).symm.trans h
  | true =>
      by_cases mine : side = own
      · subst mine
        cases (Bridge.read_own side f).symm.trans h
      · have other : side = !own := by cases side <;> cases own <;> simp_all
        subst other
        cases (Bridge.read_carrying own f).symm.trans h
        exact ⟨rfl, (Bool.not_not own).symm, rfl, rfl⟩

/-- After a party has handled message `i`. -/
theorem stage_of_leads {s : Secrets} {w : PairWorld} {frames : List Bytes} {side : Bool} {n : Nat}
    (leads : Leads C lead follow s w i frames) (mine : odd i = !side)
    (moves : n ≤ 1 + started w + 2 * i + 1) :
    Stage C lead follow s ⟨w, (Bridge.idle side).write side frames, n + 1⟩ := by
  cases leads with
  | next saying =>
      refine .said false saying ?_ ?_
      · rw [Bridge.write_idle, odd_next, mine, Bool.not_not]
      · simp only [Bool.toNat_false]
        omega
  | last outcome le =>
      have one := started_le w
      refine .concluded side outcome ?_ ?_
      · rw [Bridge.write_none]
      · simp only
        omega

theorem Inv.leaderStart {s : Secrets} {spake : Bytes × Bytes} (inv : Inv C lead follow s b)
    (own : spake = lead) (h : b.step C (.leaderStart spake) = some b') :
    Inv C lead follow s b' := by
  subst own
  obtain ⟨w, stepped, rfl⟩ := Option.map_eq_some_iff.mp h
  simp only [PairWorld.step, Option.ite_none_right_eq_some, Option.some.injEq] at stepped
  obtain ⟨start, rfl⟩ := stepped
  have sides := inv.sides
  cases inv.stage with
  | fresh leader follower counters down bridge moves =>
      refine ⟨.said false (i := 0) (.spakeL ⟨rfl, rfl, rfl⟩ follower counters down) ?_ ?_, sides⟩
      · rw [bridge]
        exact Bridge.write_idle false _
      · have same : started (b.pair.leaderStart (some spake) true) = started b.pair := rfl
        rw [same]
        simp only [Bool.toNat_false]
        omega
  | said passed saying bridge moves =>
      cases saying with
      | spakeL leader | spakeF leader => cases leader.1.symm.trans start
      | confirmL leader | confirmF leader => cases leader.1.symm.trans start
      | offer offers | accept offers | reject offers => cases offers.leader.1.symm.trans start
  | concluded turn outcome bridge moves =>
      cases outcome with
      | inl agreed => cases agreed.leader.symm.trans start
      | inr given_ => cases given_.leader.symm.trans start

theorem Inv.followerStart {s : Secrets} {spake : Bytes × Bytes} (inv : Inv C lead follow s b)
    (own : spake = follow) (h : b.step C (.followerStart spake) = some b') :
    Inv C lead follow s b' := by
  subst own
  obtain ⟨w, stepped, rfl⟩ := Option.map_eq_some_iff.mp h
  simp only [PairWorld.step, Option.ite_none_right_eq_some, Option.some.injEq] at stepped
  obtain ⟨start, rfl⟩ := stepped
  have sides := inv.sides
  have before : started b.pair = 0 := if_pos start
  have after : started (b.pair.followerStart (some spake)) = 1 := rfl
  cases inv.stage with
  | fresh leader follower counters down bridge moves =>
      refine ⟨.fresh leader (.inr ⟨rfl, rfl, rfl⟩) counters ⟨down.1, ?_⟩ bridge ?_, sides⟩
      · have none_ : b.pair.offers = [] := List.length_eq_zero_iff.mp down.1
        simp [PairWorld.followerStart, none_]
      · simp only [after]
        omega
  | said passed saying bridge moves =>
      cases saying with
      | spakeL leader follower counters fresh =>
          refine ⟨.said passed (i := 0) (.spakeL leader (.inr ⟨rfl, rfl, rfl⟩) counters
            ⟨fresh.1, ?_⟩) bridge ?_, sides⟩
          · have none_ : b.pair.offers = [] := List.length_eq_zero_iff.mp fresh.1
            simp [PairWorld.followerStart, none_]
          · simp only [after]
            omega
      | spakeF _ follower | confirmL _ follower | confirmF _ follower | offer _ follower =>
          cases follower.1.symm.trans start
      | accept _ follower => cases follower.symm.trans start
      | reject _ follower =>
          have later := follower.1.symm.trans start
          rw [nextPhase] at later
          split at later <;> cases later
  | concluded turn outcome bridge moves =>
      cases outcome with
      | inl agreed => cases agreed.follower.symm.trans start
      | inr given_ => cases given_.follower.symm.trans start

theorem Inv.forward {s : Secrets} (works : C.Works lead follow k) (same : s = shared lead follow k)
    (inv : Inv C lead follow s b) (h : b.step C .forward = some b') : Inv C lead follow s b' := by
  subst same
  obtain ⟨bridge', forwarded, rfl⟩ := Option.map_eq_some_iff.mp h
  have sides := inv.sides
  cases inv.stage with
  | fresh leader follower counters down bridge moves =>
      rw [bridge] at forwarded
      cases (Bridge.forward_idle false).symm.trans forwarded
  | said passed saying bridge moves =>
      rw [bridge] at forwarded
      cases passed with
      | true => cases (Bridge.forward_passed _ _).symm.trans forwarded
      | false =>
          cases (Bridge.forward_carrying (frame_fits works saying)).symm.trans forwarded
          refine ⟨.said true saying rfl ?_, sides⟩
          simp only [Bool.toNat_false, Bool.toNat_true] at moves ⊢
          omega
  | concluded turn outcome bridge moves =>
      rw [bridge] at forwarded
      cases (Bridge.forward_idle turn).symm.trans forwarded

theorem Inv.leader {e : Env} (works : C.Works lead follow k)
    (inv : Inv C lead follow (shared lead follow k) b) (small : e.existing.length + 1 < 256 ^ 7)
    (h : b.step C (.leader e) = some b') : Inv C lead follow (shared lead follow k) b' := by
  obtain ⟨⟨g, bridge'⟩, read, h⟩ := Option.bind_eq_some_iff.mp h
  obtain ⟨w, stepped, rfl⟩ := Option.map_eq_some_iff.mp h
  cases inv.stage with
  | fresh leader follower counters down bridge moves => cases bridge ▸ read
  | said passed saying bridge moves =>
      obtain ⟨rfl, mine, rfl, rfl⟩ := read_cases (bridge ▸ read)
      obtain ⟨leads, kept⟩ := leader_leads works inv.sides small saying mine stepped
      refine ⟨stage_of_leads leads mine ?_, kept.leader.trans inv.sides.1,
        kept.follower.trans inv.sides.2⟩
      rw [kept.started]
      exact moves
  | concluded turn outcome bridge moves => cases bridge ▸ read

theorem Inv.follower {e : Env} (works : C.Works lead follow k)
    (inv : Inv C lead follow (shared lead follow k) b)
    (h : b.step C (.follower e) = some b') : Inv C lead follow (shared lead follow k) b' := by
  obtain ⟨⟨g, bridge'⟩, read, h⟩ := Option.bind_eq_some_iff.mp h
  obtain ⟨w, stepped, rfl⟩ := Option.map_eq_some_iff.mp h
  have up : b.pair.follower.phase ≠ .start := by
    intro start
    simp only [PairWorld.step, stepFollower, start, reduceCtorEq] at stepped
  cases inv.stage with
  | fresh leader follower counters down bridge moves => cases bridge ▸ read
  | said passed saying bridge moves =>
      obtain ⟨rfl, mine, rfl, rfl⟩ := read_cases (bridge ▸ read)
      obtain ⟨leads, kept⟩ := follower_leads works saying mine up stepped
      refine ⟨stage_of_leads leads mine ?_, kept.leader.trans inv.sides.1,
        kept.follower.trans inv.sides.2⟩
      rw [kept.started]
      exact moves
  | concluded turn outcome bridge moves => cases bridge ▸ read

theorem inv_of_reach (works : C.Works lead follow k)
    (reached : Reach (step C) (Honest lead follow) {} b) :
    Inv C lead follow (shared lead follow k) b := by
  refine reached.invariant ⟨.fresh rfl (.inl rfl) ⟨rfl, rfl, rfl, rfl⟩ ⟨rfl, nofun⟩ rfl
    (Nat.zero_le _), rfl, rfl⟩ fun b a b' inv honest stepped => ?_
  cases a with
  | leaderStart spake => exact inv.leaderStart honest stepped
  | followerStart spake => exact inv.followerStart honest stepped
  | leader e => exact inv.leader works honest stepped
  | follower e => exact inv.follower works stepped
  | forward => exact inv.forward works rfl stepped

/-! ## Somebody can move -/

theorem card_byte : Fintype.card UInt8 = 256 := by decide +kernel

/-- There is a network none of the given addresses is in. -/
theorem exists_free (taken : List Ip6) (few : taken.length < 256 ^ 7) :
    ∃ r : ByteArr 7, ∀ x ∈ taken, sameUla64 (randomUla r) x = false := by
  by_contra none_
  have covered : ∀ r : ByteArr 7, ∃ x ∈ taken, sameUla64 (randomUla r) x = true := by
    simpa using none_
  let draw (x : Ip6) : ByteArr 7 := ⟨(x.toList.take 8).drop 1, by simp⟩
  have all : (Finset.univ : Finset (ByteArr 7)) ⊆ (taken.map draw).toFinset := by
    intro r _
    obtain ⟨x, hx, same⟩ := covered r
    refine List.mem_toFinset.mpr (List.mem_map.mpr ⟨x, hx, List.Vector.toList_injective ?_⟩)
    have front : (randomUla r).toList.take 8 = x.toList.take 8 := eq_of_beq same
    change (x.toList.take 8).drop 1 = r.toList
    rw [← front]
    simp [randomUla]
  have count := (Finset.card_le_card all).trans (List.toFinset_card_le _)
  rw [Finset.card_univ, card_vector, card_byte, List.length_map] at count
  omega

theorem sameUla64_comm (a b : Ip6) : sameUla64 a b = sameUla64 b a := BEq.comm

theorem ulaCollides_false {p : Party} {u : Ip6}
    (free : ∀ x ∈ p.existing.map (·.ulaBase), sameUla64 u x = false) :
    p.ulaCollides u = false := by
  rw [Party.ulaCollides, List.any_eq_false]
  intro r hr
  rw [sameUla64_comm, free r.ulaBase (List.mem_map_of_mem hr)]
  exact Bool.false_ne_true

/-- The leader can handle what has reached it. -/
theorem leader_can (works : C.Works lead follow k) {w : PairWorld}
    (saying : Says C lead follow (shared lead follow k) w i f) (mine : odd i = true) :
    ∃ e : Env, e.existing.length + 1 < 256 ^ 7 ∧
      w.step C (.leader { e with frame := some f, sent := true }) ≠ none := by
  cases saying with
  | spakeL | confirmL => cases mine
  | offer => simp [odd] at mine
  | spakeF leader =>
      have eq := leader_spake (e := {}) works leader
      exact ⟨{}, by decide, Option.ne_none_iff_exists'.mpr ⟨_, eq⟩⟩
  | confirmF leader =>
      let e : Env := { ulaDraws := [ByteArr.zero 7] }
      have eq := leader_confirm (C := C) (e := e) leader
      have free : (drawn w.leader e).ulaCollides (randomUla (ByteArr.zero 7)) = false := rfl
      refine ⟨e, by decide, ?_⟩
      refine Option.ne_none_iff_exists'.mpr ⟨_, eq.trans (Option.map_eq_some_iff.mpr
        ⟨randomUla (ByteArr.zero 7), List.find?_cons_of_pos ?_, rfl⟩)⟩
      exact congrArg (!·) free
  | @accept n off rep offers _ counters _ status =>
      have eq := leader_accepts (e := {}) works offers.leader counters.2.1 status
      exact ⟨{}, by decide, Option.ne_none_iff_exists'.mpr ⟨_, eq⟩⟩
  | @reject n off rep offers _ counters status =>
      have few : (rep.counterUlaBase :: w.leader.existing.map (·.ulaBase)).length < 256 ^ 7 := by
        have stored := offers.stored
        simpa using stored
      obtain ⟨r, free⟩ := exists_free _ few
      obtain ⟨counter, others⟩ := List.forall_mem_cons.mp free
      let e : Env := { ulaDraws := [r] }
      have eq := leader_again (C := C) (e := e) works offers.leader counters.2.1 status
      refine ⟨e, (by decide : 0 + 1 < 256 ^ 7), Option.ne_none_iff_exists'.mpr ⟨_, eq.trans
        (Option.map_eq_some_iff.mpr ⟨randomUla r, List.find?_cons_of_pos ?_, rfl⟩)⟩⟩
      rw [mayOffer, ulaCollides_false others, counter]
      rfl

theorem follower_can (works : C.Works lead follow k) {w : PairWorld}
    (saying : Says C lead follow (shared lead follow k) w i f) (mine : odd i = false)
    (up : w.follower.phase ≠ .start) :
    ∃ e : Env, w.step C (.follower { e with frame := some f, sent := true }) ≠ none := by
  cases saying with
  | spakeF | confirmF => cases mine
  | accept | reject => simp [odd] at mine
  | spakeL leader follower =>
      have eq := follower_spake (e := {}) works (follower.resolve_left up)
      exact ⟨{}, Option.ne_none_iff_exists'.mpr ⟨_, eq⟩⟩
  | confirmL leader follower =>
      exact ⟨{}, Option.ne_none_iff_exists'.mpr ⟨_, follower_confirm (e := {}) follower⟩⟩
  | @offer n off before offers follower counters =>
      let e : Env := { ulaDraws := [ByteArr.zero 7] }
      refine ⟨e, Option.ne_none_iff_exists'.mpr ?_⟩
      by_cases taken : w.follower.ulaCollides off.ulaBase = true
      · obtain ⟨rep, -, eq⟩ :=
          follower_rejects (e := e) works follower counters.2.2.1 taken rfl
        exact ⟨_, eq⟩
      · obtain ⟨rep, -, -, eq⟩ :=
          follower_takes (e := e) works follower counters.2.2.1 (Bool.not_eq_true _ ▸ taken)
        exact ⟨_, eq⟩

theorem map_ne_none {α β : Type*} {g : α → β} {o : Option α} (h : o ≠ none) : o.map g ≠ none := by
  simpa using h

theorem can_move (works : C.Works lead follow k)
    (inv : Inv C lead follow (shared lead follow k) b) :
    (∃ a, Honest lead follow b a ∧ b.step C a ≠ none) ∨ Agreed b.pair ∨ GivenUp b.pair := by
  cases inv.stage with
  | fresh leader follower counters down bridge moves =>
      refine .inl ⟨.leaderStart lead, rfl, map_ne_none ?_⟩
      simp [PairWorld.step, leader]
  | said passed saying bridge moves =>
      refine .inl ?_
      cases passed with
      | false =>
          refine ⟨.forward, trivial, map_ne_none ?_⟩
          rw [bridge, Bridge.forward_carrying (frame_fits works saying)]
          exact Option.some_ne_none _
      | true =>
          cases mine : odd _ with
          | true =>
              obtain ⟨e, small, can⟩ := leader_can works saying mine
              refine ⟨.leader e, small, ?_⟩
              rw [mine] at bridge
              have read := Bridge.read_carrying true
              simp only [Bool.not_true] at read
              simp only [step, bridge, read, Option.bind_some]
              exact map_ne_none can
          | false =>
              by_cases start : b.pair.follower.phase = .start
              · refine ⟨.followerStart follow, rfl, map_ne_none ?_⟩
                simp [PairWorld.step, start]
              · obtain ⟨e, can⟩ := follower_can works saying mine start
                refine ⟨.follower e, trivial, ?_⟩
                rw [mine] at bridge
                have read := Bridge.read_carrying false
                simp only [Bool.not_false] at read
                simp only [step, bridge, read, Option.bind_some]
                exact map_ne_none can
  | concluded turn outcome bridge moves => exact .inr outcome

theorem moves_le {s : Secrets} (inv : Inv C lead follow s b) : b.moves ≤ 50 := by
  have one := started_le b.pair
  cases inv.stage with
  | fresh _ _ _ _ _ moves => omega
  | said passed saying bridge moves =>
      have bit : passed.toNat ≤ 1 := Bool.toNat_le passed
      cases saying with
      | spakeL | spakeF | confirmL | confirmF => omega
      | offer offers | accept offers | reject offers =>
          have lt := offers.lt
          omega
  | concluded _ _ _ moves => exact moves

/-- An undisturbed pairing with one code comes to an end within fifty moves, whatever order the
parties and the bridge move in, and where nobody can move the two have agreed, or each of ten
networks the leader offered was taken on the follower's side. -/
theorem pairing_completes (works : C.Works lead follow k)
    (reached : Reach (step C) (Honest lead follow) {} b) : b.moves ≤ 50 ∧
      ((∀ a, Honest lead follow b a → b.step C a = none) → Agreed b.pair ∨ GivenUp b.pair) := by
  have inv := inv_of_reach works reached
  refine ⟨moves_le inv, fun stuck => ?_⟩
  cases can_move works inv with
  | inl can =>
      obtain ⟨a, honest, moves⟩ := can
      exact absurd (stuck a honest) moves
  | inr outcome => exact outcome

end Moves

/-! ## A run in which the first network is taken -/

theorem length_padded (k : Bytes) : ((k ++ List.replicate 32 0).take 32).length = 32 := by
  rw [List.length_take, List.length_append, List.length_replicate]
  omega

/-- A channel that hides nothing. -/
def clearCrypto : Crypto where
  spakeFinish _ _ := some [7]
  hkdf _ _ info := info
  hmac k _ := ⟨(k ++ List.replicate 32 0).take 32, length_padded k⟩
  aeadSeal _ _ pt := pt
  aeadOpen _ _ ct := some ct

theorem clearCrypto_works : clearCrypto.Works ([1], [10]) ([2], [20]) [7] :=
  ⟨rfl, rfl, fun _ _ _ => rfl, fun _ _ _ => Nat.le_add_right .., by decide⟩

def honest (_ : Bridged) : Act → Bool
  | .leaderStart spake => spake = ([1], [10])
  | .followerStart spake => spake = ([2], [20])
  | .leader e => e.existing.isEmpty
  | .follower _ | .forward => true

theorem honest_sound (b : Bridged) (a : Act) (h : honest b a = true) :
    Honest ([1], [10]) ([2], [20]) b a := by
  cases a with
  | leaderStart spake =>
      have same : spake = ([1], [10]) := by simpa [honest] using h
      exact same
  | followerStart spake =>
      have same : spake = ([2], [20]) := by simpa [honest] using h
      exact same
  | leader e =>
      have none_ : e.existing = [] := List.isEmpty_iff.mp h
      simp only [Honest, none_, List.length_nil]
      decide
  | follower _ | forward => trivial

/-- The follower has a peer in the leader's first network. -/
def takenRun : List Act :=
  let first : ByteArr 7 := ByteArr.zero 7
  let second : ByteArr 7 := ⟨[1, 2, 3, 4, 5, 6, 7], rfl⟩
  [.leaderStart ([1], [10]), .forward, .followerStart ([2], [20]), .follower {}, .forward,
    .leader {}, .forward, .follower { existing := [{ ulaBase := randomUla first }] }, .forward,
    .leader { ulaDraws := [first] }, .forward, .follower { ulaDraws := [first] }, .forward,
    .leader { ulaDraws := [first, second] }, .forward, .follower {}, .forward, .leader {}]

theorem pairing_completes_taken : ∃ b,
    Reach (step clearCrypto) (Honest ([1], [10]) ([2], [20])) {} b ∧
      b.pair.leader.phase = .agreed ∧ b.pair.offers.length = 2 ∧ b.moves ≤ 50 := by
  obtain ⟨b, reached, seen⟩ := Reach.observedWhen (step clearCrypto) honest_sound {} takenRun
    (fun b => (b.pair.leader.phase, b.pair.offers.length))
    (by decide +kernel : _ = some (PairPhase.agreed, 2))
  obtain ⟨agreed, offers⟩ := Prod.mk.inj seen
  exact ⟨b, reached, agreed, offers, (pairing_completes clearCrypto_works reached).1⟩

end Bridged
end Splice.Peer
