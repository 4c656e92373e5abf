import Splice.Peer.Record

/-!
`run_pairing` on both sides of a channel that belongs to someone else. Each step runs
one party from one `recv` to the next; the action says what `recv` returned, whether
the send of that step succeeded, and what was drawn at random. The cryptographic
primitives are parameters on byte strings. `macLog` and `sealLog` record what the two
parties have handed over under their derived keys, `offers` and `replies` the
negotiation messages among it.
-/

namespace Splice.Peer
open Proto

/-- SPAKE2 comes from the Rust shim, the rest from OpenSSL. -/
structure Crypto where
  /-- the party's secret state and the other side's message to the shared key -/
  spakeFinish : Bytes → Bytes → Option Bytes
  /-- input key, salt and info to 32 bytes of key -/
  hkdf : Bytes → Bytes → Bytes → Bytes
  hmac : Bytes → Bytes → Mac
  aeadSeal : Bytes → Bytes → Bytes → Bytes
  aeadOpen : Bytes → Bytes → Bytes → Option Bytes

inductive Label
  | confirmLeader
  | confirmFollower
  | l2f
  | f2l
  deriving DecidableEq

def Label.info : Label → Bytes
  | .confirmLeader => str "spl/confirm/leader"
  | .confirmFollower => str "spl/confirm/follower"
  | .l2f => str "spl/aead/l2f"
  | .f2l => str "spl/aead/f2l"

/-- The SPAKE2 key and the transcript all keys are bound to. -/
structure Secrets where
  ikm : Bytes
  transcript : Bytes
  deriving DecidableEq

def Crypto.derive (C : Crypto) (s : Secrets) (l : Label) : Bytes :=
  C.hkdf s.ikm s.transcript l.info

/-- 4 zero bytes and the counter, big-endian. -/
def nonceFrom (ctr : Nat) : Bytes := [0, 0, 0, 0] ++ bigEndian 8 ctr

def randomUla (r : ByteArr 7) : Ip6 :=
  ⟨0xfd :: (r.toList ++ List.replicate 8 0), by simp⟩

def sameUla64 (a b : Ip6) : Bool := a.toList.take 8 == b.toList.take 8

/-- `uid[kUidLen - 1] &= 0xFE` -/
def clearSide (u : Uid) : Uid := ⟨u.toList.modify 31 (· &&& 0xFE), by simp⟩

/-- `uid[kUidLen - 1] |= 0x01` -/
def setSide (u : Uid) : Uid := ⟨u.toList.modify 31 (· ||| 0x01), by simp⟩

/-- Where a party is: before its first send or receive, at one of its `recv` calls,
or past the negotiation. -/
inductive PairPhase
  | start
  | awaitSpake
  | awaitConfirm
  | negotiating (attempt : Nat)
  | agreed
  | failed
  deriving DecidableEq

/-- The local variables of `run_pairing`. -/
structure Party where
  phase : PairPhase := .start
  spake : Bytes := []
  mySpake : Bytes := []
  secrets : Option Secrets := none
  nL2F : Nat := 0
  nF2L : Nat := 0
  record : ConnRecord := {}
  existing : List ConnRecord := []
  uid : Uid := ByteArr.zero 32
  ula : Ip6 := ByteArr.zero 16

def Party.ulaCollides (p : Party) (b : Ip6) : Bool :=
  p.existing.any fun e => sameUla64 e.ulaBase b

def Party.fail (p : Party) : Party := { p with phase := .failed }

/-- What one step takes from outside. -/
structure Env where
  /-- what `recv` returned -/
  frame : Option Bytes := none
  /-- whether the send of this step succeeded -/
  sent : Bool := true
  /-- own private and public WireGuard key -/
  keypair : WgKey × WgKey := (ByteArr.zero 32, ByteArr.zero 32)
  uidBytes : Uid := ByteArr.zero 32
  /-- the successive draws of `random_ula` -/
  ulaDraws : List (ByteArr 7) := []
  ownLanPort : UInt16 := 0
  /-- the records in the store -/
  existing : List ConnRecord := []

inductive PairAction
  | leaderStart (spake : Option (Bytes × Bytes)) (sent : Bool)
  | followerStart (spake : Option (Bytes × Bytes))
  | leader (e : Env)
  | follower (e : Env)

structure PairWorld where
  leader : Party := {}
  follower : Party := { record := { side := true } }
  /-- key and data of every MAC handed over -/
  macLog : List (Bytes × Bytes) := []
  /-- key, nonce and plaintext of every ciphertext handed over -/
  sealLog : List (Bytes × Bytes × Bytes) := []
  offers : List Offer := []
  replies : List Reply := []

def recvPeer (e : Env) : Option PeerMessage := e.frame.bind decodePeer

namespace PairWorld

def failLeader (w : PairWorld) : PairWorld := { w with leader := w.leader.fail }
def failFollower (w : PairWorld) : PairWorld := { w with follower := w.follower.fail }

def leaderStart (w : PairWorld) (spake : Option (Bytes × Bytes)) (sent : Bool) : PairWorld :=
  match spake with
  | none => w.failLeader
  | some (st, msg) =>
      if sent then
        { w with leader := { w.leader with phase := .awaitSpake, spake := st, mySpake := msg } }
      else w.failLeader

/-- The follower waits for the leader's message before it sends its own. -/
def followerStart (w : PairWorld) (spake : Option (Bytes × Bytes)) : PairWorld :=
  match spake with
  | none => w.failFollower
  | some (st, msg) =>
      { w with follower := { w.follower with phase := .awaitSpake, spake := st, mySpake := msg } }

/-- Finish SPAKE2, derive the keys and send the leader's confirmation. -/
def leaderSpake (C : Crypto) (w : PairWorld) (e : Env) (theirs : Bytes) : PairWorld :=
  match C.spakeFinish w.leader.spake theirs with
  | none => w.failLeader
  | some k =>
      let s : Secrets := ⟨k, w.leader.mySpake ++ theirs⟩
      if e.sent then
        { w with
          leader := { w.leader with phase := .awaitConfirm, secrets := some s }
          macLog := w.macLog ++ [(C.derive s .confirmLeader, s.transcript)] }
      else w.failLeader

/-- The head of the leader's loop: seal and send the offer of this attempt. -/
def sendOffer (C : Crypto) (w : PairWorld) (e : Env) (s : Secrets) (p : Party)
    (attempt : Nat) : PairWorld :=
  if attempt < 10 then
    let off : Offer :=
      { ulaBase := p.ula, ulaPrefix := 64, uid := p.uid, leaderPubkey := p.record.ownPub,
        lanPort := e.ownLanPort }
    if e.sent then
      { w with
        leader := { p with phase := .negotiating attempt, nL2F := p.nL2F + 1 }
        sealLog := w.sealLog ++ [(C.derive s .l2f, nonceFrom p.nL2F, encodeNeg (.offer off))]
        offers := w.offers ++ [off] }
    else { w with leader := p.fail }
  else { w with leader := p.fail }

/-- Check the follower's confirmation, draw keys, uid and network, and enter the loop. -/
def leaderConfirm (C : Crypto) (w : PairWorld) (e : Env) (s : Secrets) (mac : Mac) :
    Option PairWorld :=
  if mac = C.hmac (C.derive s .confirmFollower) s.transcript then
    let p := { w.leader with
      record := { w.leader.record with ownPriv := e.keypair.1, ownPub := e.keypair.2 }
      existing := e.existing
      uid := clearSide e.uidBytes }
    match (e.ulaDraws.map randomUla).find? fun u => !p.ulaCollides u with
    | none => none
    | some ula => some (w.sendOffer C e s { p with ula } 0)
  else some w.failLeader

def leaderReply (C : Crypto) (w : PairWorld) (e : Env) (s : Secrets) (attempt : Nat)
    (ct : Bytes) : Option PairWorld :=
  let p := { w.leader with nF2L := w.leader.nF2L + 1 }
  match C.aeadOpen (C.derive s .f2l) (nonceFrom w.leader.nF2L) ct with
  | none => some { w with leader := p.fail }
  | some pt =>
      match decodeNeg pt with
      | some (.reply rep) =>
          match rep.status with
          | .accept =>
              let record := { p.record with
                lanPort := if rep.lanPort = kLanDiscoPort then 0 else rep.lanPort
                peerPub := rep.followerPubkey
                uid := p.uid
                ulaBase := p.ula }
              some { w with leader := { p with phase := .agreed, record } }
          | .rejectIp =>
              match (e.ulaDraws.map randomUla).find? fun u =>
                  !(p.ulaCollides u || sameUla64 u rep.counterUlaBase) with
              | none => none
              | some ula => some (w.sendOffer C e s { p with ula } (attempt + 1))
          | .abort => some { w with leader := p.fail }
      | _ => some { w with leader := p.fail }

def stepLeader (C : Crypto) (w : PairWorld) (e : Env) : Option PairWorld :=
  match w.leader.phase, w.leader.secrets, recvPeer e with
  | .awaitSpake, _, some (.spake2 m) => some (w.leaderSpake C e m)
  | .awaitConfirm, some s, some (.keyConfirm mac) => w.leaderConfirm C e s mac
  | .negotiating n, some s, some (.sealed ct) => w.leaderReply C e s n ct
  | .awaitSpake, _, _ | .awaitConfirm, _, _ | .negotiating _, _, _ => some w.failLeader
  | .start, _, _ | .agreed, _, _ | .failed, _, _ => none

def followerSpake (C : Crypto) (w : PairWorld) (e : Env) (theirs : Bytes) : PairWorld :=
  if e.sent then
    match C.spakeFinish w.follower.spake theirs with
    | none => w.failFollower
    | some k =>
        let s : Secrets := ⟨k, theirs ++ w.follower.mySpake⟩
        { w with follower := { w.follower with phase := .awaitConfirm, secrets := some s } }
  else w.failFollower

def followerConfirm (C : Crypto) (w : PairWorld) (e : Env) (s : Secrets) (mac : Mac) :
    PairWorld :=
  if mac = C.hmac (C.derive s .confirmLeader) s.transcript then
    if e.sent then
      { w with
        follower := { w.follower with
          phase := .negotiating 0
          record := { w.follower.record with ownPriv := e.keypair.1, ownPub := e.keypair.2 }
          existing := e.existing }
        macLog := w.macLog ++ [(C.derive s .confirmFollower, s.transcript)] }
    else w.failFollower
  else w.failFollower

/-- Seal and send one reply; `after` is the party once the send has succeeded. -/
def sendReply (C : Crypto) (w : PairWorld) (e : Env) (s : Secrets) (p after : Party)
    (r : Reply) : PairWorld :=
  if e.sent then
    { w with
      follower := { after with nF2L := p.nF2L + 1 }
      sealLog := w.sealLog ++ [(C.derive s .f2l, nonceFrom p.nF2L, encodeNeg (.reply r))]
      replies := w.replies ++ [r] }
  else { w with follower := p.fail }

def followerOffer (C : Crypto) (w : PairWorld) (e : Env) (s : Secrets) (attempt : Nat)
    (ct : Bytes) : Option PairWorld :=
  let p := { w.follower with nL2F := w.follower.nL2F + 1 }
  match C.aeadOpen (C.derive s .l2f) (nonceFrom w.follower.nL2F) ct with
  | none => some { w with follower := p.fail }
  | some pt =>
      match decodeNeg pt with
      | some (.offer off) =>
          if p.ulaCollides off.ulaBase then
            match e.ulaDraws with
            | [] => none
            | r :: _ =>
                let next : PairPhase := if attempt + 1 < 10 then .negotiating (attempt + 1) else .failed
                some (w.sendReply C e s p { p with phase := next }
                  { status := .rejectIp, followerPubkey := ByteArr.zero 32,
                    counterUlaBase := randomUla r, counterUlaPrefix := 64 })
          else
            let record := { p.record with
              lanPort := if off.lanPort = kLanDiscoPort then 0 else off.lanPort
              peerPub := off.leaderPubkey
              uid := setSide off.uid
              ulaBase := off.ulaBase }
            some (w.sendReply C e s p { p with phase := .agreed, record }
              { status := .accept, followerPubkey := p.record.ownPub,
                counterUlaBase := ByteArr.zero 16, counterUlaPrefix := 0,
                lanPort := e.ownLanPort })
      | _ => some { w with follower := p.fail }

def stepFollower (C : Crypto) (w : PairWorld) (e : Env) : Option PairWorld :=
  match w.follower.phase, w.follower.secrets, recvPeer e with
  | .awaitSpake, _, some (.spake2 m) => some (w.followerSpake C e m)
  | .awaitConfirm, some s, some (.keyConfirm mac) => some (w.followerConfirm C e s mac)
  | .negotiating n, some s, some (.sealed ct) => w.followerOffer C e s n ct
  | .awaitSpake, _, _ | .awaitConfirm, _, _ | .negotiating _, _, _ => some w.failFollower
  | .start, _, _ | .agreed, _, _ | .failed, _, _ => none

def step (C : Crypto) (w : PairWorld) : PairAction → Option PairWorld
  | .leaderStart spake sent =>
      if w.leader.phase = .start then some (w.leaderStart spake sent) else none
  | .followerStart spake =>
      if w.follower.phase = .start then some (w.followerStart spake) else none
  | .leader e => w.stepLeader C e
  | .follower e => w.stepFollower C e

end PairWorld
end Splice.Peer
