import Splice.Common.Bytes

/-!
The three layers of pairing messages: control (peer and server), the peer envelope
that the server relays unseen, and the negotiation sealed inside it. Encoders and
decoders follow the wire layout byte by byte. What an encoder of the two peer layers
writes, its decoder reads back.
-/

namespace Splice.Proto

abbrev Uid := ByteArr 32
abbrev WgKey := ByteArr 32
abbrev Mac := ByteArr 32
abbrev Ip6 := ByteArr 16

/-! ## The sides of a uid -/

/-- The side bit of a uid, the low bit of its last byte: 0 for the leader, 1 for the follower. -/
def sideBit (u : Uid) : UInt8 := u.toList.getD 31 0 &&& 1

/-- Two uids are the same but for the side bit. -/
def SameButSide (u v : Uid) : Prop :=
  u.toList.take 31 = v.toList.take 31 ∧ u.toList.getD 31 0 >>> 1 = v.toList.getD 31 0 >>> 1

section LastByte
variable (u : Uid) {f : UInt8 → UInt8} (length : (u.toList.modify 31 f).length = 32)

theorem getD_modify : (u.toList.modify 31 f).getD 31 0 = f (u.toList.getD 31 0) := by
  have within : 31 < u.toList.length := by
    rw [u.toList_length]
    decide
  rw [List.getD_eq_getElem?_getD, List.getD_eq_getElem?_getD, List.getElem?_modify,
    List.getElem?_eq_getElem within]
  simp

/-- A change of the last byte that keeps its upper bits. -/
theorem sameButSide_modify (h : ∀ b, f b >>> 1 = b >>> 1) :
    SameButSide ⟨u.toList.modify 31 f, length⟩ u := by
  constructor
  · apply List.ext_getElem?
    intro i
    by_cases hi : i < 31
    · simp [List.Vector.toList, hi, Nat.ne_of_gt hi]
    · simp [hi]
  · have last : (u.toList.modify 31 f).getD 31 0 >>> 1 = u.toList.getD 31 0 >>> 1 := by
      rw [getD_modify]
      exact h _
    exact last

end LastByte

theorem or_one (b : UInt8) : (b ||| 1) >>> 1 = b >>> 1 ∧ (b ||| 1) &&& 1 = 1 := by
  constructor
  · apply UInt8.toBitVec_inj.mp
    ext i hi
    simp
  · apply UInt8.toBitVec_inj.mp
    ext i hi
    simp only [UInt8.toBitVec_and, UInt8.toBitVec_or, BitVec.getElem_and, BitVec.getElem_or]
    cases b.toBitVec[i] <;> simp

theorem xor_one (b : UInt8) : (b ^^^ 1) >>> 1 = b >>> 1 ∧ (b ^^^ 1) &&& 1 = (b &&& 1) ^^^ 1 := by
  constructor
  · apply UInt8.toBitVec_inj.mp
    ext i hi
    simp
  · apply UInt8.toBitVec_inj.mp
    ext i hi
    simp only [UInt8.toBitVec_and, UInt8.toBitVec_xor, BitVec.getElem_and, BitVec.getElem_xor]
    cases b.toBitVec[i] <;> simp

/-! ## Layer 1: control -/

inductive CtrlMessage
  | init (protoVersion : UInt16)
  | code (code : UInt64) (ttlSeconds : UInt32)
  | join (code : UInt64)
  | paired
  | error (code : UInt16) (message : Bytes)
  deriving DecidableEq

def encodeCtrl : CtrlMessage → Bytes
  | .init v => 0x01 :: bigEndian 2 v.toNat
  | .code c ttl => 0x02 :: (bigEndian 8 c.toNat ++ bigEndian 4 ttl.toNat)
  | .join c => 0x03 :: bigEndian 8 c.toNat
  | .paired => [0x04]
  | .error c m => 0x05 :: (bigEndian 2 c.toNat ++ (bigEndian 2 m.length ++ m))

def decodeCtrl (payload : Bytes) : Option CtrlMessage :=
  let (t, r) := ByteReader.u8 ⟨payload, false⟩
  if !r.ok then none
  else if t = 0x01 then
    let (v, r) := r.u16
    if r.done then some (.init v) else none
  else if t = 0x02 then
    let (c, r) := r.u64
    let (ttl, r) := r.u32
    if r.done then some (.code c ttl) else none
  else if t = 0x03 then
    let (c, r) := r.u64
    if r.done then some (.join c) else none
  else if t = 0x04 then
    if r.done then some .paired else none
  else if t = 0x05 then
    let (c, r) := r.u16
    let (m, r) := r.lp16
    if r.done then some (.error c m) else none
  else none

/-! ## Layer 2: peer envelope -/

inductive PeerMessage
  | spake2 (msg : Bytes)
  | keyConfirm (mac : Mac)
  | sealed (ciphertext : Bytes)
  deriving DecidableEq

def encodePeer : PeerMessage → Bytes
  | .spake2 m => 0x10 :: m
  | .keyConfirm m => 0x11 :: m.toList
  | .sealed c => 0x12 :: c

def decodePeer (payload : Bytes) : Option PeerMessage :=
  let (t, r) := ByteReader.u8 ⟨payload, false⟩
  if !r.ok then none
  else if t = 0x10 then
    let (m, r) := r.takeRest
    if r.ok then some (.spake2 m) else none
  else if t = 0x11 then
    let (m, r) := r.array 32
    if r.done then some (.keyConfirm m) else none
  else if t = 0x12 then
    let (c, r) := r.takeRest
    if r.ok then some (.sealed c) else none
  else none

/-! ## Layer 3: negotiation -/

inductive ReplyStatus
  | accept
  | rejectIp
  | abort
  deriving DecidableEq

def ReplyStatus.toByte : ReplyStatus → UInt8
  | .accept => 0
  | .rejectIp => 1
  | .abort => 2

def ReplyStatus.ofByte (b : UInt8) : Option ReplyStatus :=
  if b = 0 then some .accept else if b = 1 then some .rejectIp
  else if b = 2 then some .abort else none

structure Offer where
  ulaBase : Ip6
  ulaPrefix : UInt8
  uid : Uid
  leaderPubkey : WgKey
  lanPort : UInt16 := 0
  deriving DecidableEq

structure Reply where
  status : ReplyStatus
  followerPubkey : WgKey
  counterUlaBase : Ip6
  counterUlaPrefix : UInt8
  lanPort : UInt16 := 0
  deriving DecidableEq

inductive NegMessage
  | offer (o : Offer)
  | reply (r : Reply)
  deriving DecidableEq

def encodeNeg : NegMessage → Bytes
  | .offer m =>
      0x01 :: (m.ulaBase.toList ++ (m.ulaPrefix ::
        (m.uid.toList ++ (m.leaderPubkey.toList ++ bigEndian 2 m.lanPort.toNat))))
  | .reply m =>
      0x02 :: m.status.toByte :: (m.followerPubkey.toList ++
        (m.counterUlaBase.toList ++ (m.counterUlaPrefix :: bigEndian 2 m.lanPort.toNat)))

/-- The trailing `lan_port` is absent from an older peer. -/
def readLanPort (r : ByteReader) : UInt16 × ByteReader :=
  if r.remaining = 2 then r.u16 else (0, r)

def decodeNeg (plaintext : Bytes) : Option NegMessage :=
  let (t, r) := ByteReader.u8 ⟨plaintext, false⟩
  if !r.ok then none
  else if t = 0x01 then
    let (ulaBase, r) := r.array 16
    let (ulaPrefix, r) := r.u8
    let (uid, r) := r.array 32
    let (leaderPubkey, r) := r.array 32
    let (lanPort, r) := readLanPort r
    if r.done then some (.offer { ulaBase, ulaPrefix, uid, leaderPubkey, lanPort }) else none
  else if t = 0x02 then
    let (st, r) := r.u8
    match ReplyStatus.ofByte st with
    | none => none
    | some status =>
        let (followerPubkey, r) := r.array 32
        let (counterUlaBase, r) := r.array 16
        let (counterUlaPrefix, r) := r.u8
        let (lanPort, r) := readLanPort r
        if r.done then
          some (.reply { status, followerPubkey, counterUlaBase, counterUlaPrefix, lanPort })
        else none
  else none

@[simp] theorem ReplyStatus.ofByte_toByte (s : ReplyStatus) : ofByte s.toByte = some s := by
  cases s <;> rfl

@[simp] theorem readLanPort_bigEndian (v : UInt16) :
    readLanPort ⟨bigEndian 2 v.toNat, false⟩ = (v, ⟨[], false⟩) := by
  have h := ByteReader.u16_append v []
  rw [List.append_nil] at h
  simpa [readLanPort, ByteReader.remaining] using h

theorem decodeNeg_encodeNeg (m : NegMessage) : decodeNeg (encodeNeg m) = some m := by
  cases m <;> simp [decodeNeg, encodeNeg]

theorem decodePeer_encodePeer (m : PeerMessage) : decodePeer (encodePeer m) = some m := by
  cases m with
  | spake2 m => simp [decodePeer, encodePeer]
  | keyConfirm m =>
      have h := ByteReader.array_append m []
      rw [List.append_nil] at h
      simp [decodePeer, encodePeer, h]
  | sealed c => simp [decodePeer, encodePeer]

end Splice.Proto
