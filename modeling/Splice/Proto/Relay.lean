import Splice.Proto.Pairing

/-!
The datagrams between a peer and the server: relayed payloads and the question for
one's own address. A type byte comes first; what the relay carries is not looked into.
-/

namespace Splice.Proto

inductive UdpType
  | relay
  | whereami
  deriving DecidableEq

def UdpType.tag : UdpType → UInt8
  | relay => 0x01
  | whereami => 0x02

def peekUdpType : Bytes → Option UdpType
  | [] => none
  | b :: _ => if b = 0x01 then some .relay else if b = 0x02 then some .whereami else none

/-! ## Relay -/

def encodeRelayUp (uid : Uid) (payload : Bytes) : Bytes :=
  UdpType.relay.tag :: (uid.toList ++ payload)

def decodeRelayUp (pkt : Bytes) : Option (Uid × Bytes) :=
  let (t, r) := ByteReader.u8 ⟨pkt, false⟩
  if t ≠ UdpType.relay.tag then none
  else
    let (uid, r) := r.array 32
    if !r.ok then none else some (uid, r.takeRest.1)

def encodeRelayDown (payload : Bytes) : Bytes := UdpType.relay.tag :: payload

def decodeRelayDown (pkt : Bytes) : Option Bytes :=
  let (t, r) := ByteReader.u8 ⟨pkt, false⟩
  if t ≠ UdpType.relay.tag then none else some r.takeRest.1

@[simp] theorem decodeRelayDown_encode (payload : Bytes) :
    decodeRelayDown (encodeRelayDown payload) = some payload := by
  simp [decodeRelayDown, encodeRelayDown]

@[simp] theorem peekUdpType_encodeRelayDown (payload : Bytes) :
    peekUdpType (encodeRelayDown payload) = some .relay := rfl

/-! ## Whereami -/

def encodeWhereamiReq (token : UInt32) : Bytes := UdpType.whereami.tag :: bigEndian 4 token.toNat

def decodeWhereamiReq (pkt : Bytes) : Option UInt32 :=
  let (t, r) := ByteReader.u8 ⟨pkt, false⟩
  if t ≠ UdpType.whereami.tag then none
  else
    let (token, r) := r.u32
    if r.done then some token else none

structure WhereamiReply where
  token : UInt32
  ip : Ip6
  port : UInt16
  deriving DecidableEq

def encodeWhereamiReply (m : WhereamiReply) : Bytes :=
  UdpType.whereami.tag :: (bigEndian 4 m.token.toNat ++ (m.ip.toList ++ bigEndian 2 m.port.toNat))

def decodeWhereamiReply (pkt : Bytes) : Option WhereamiReply :=
  let (t, r) := ByteReader.u8 ⟨pkt, false⟩
  if t ≠ UdpType.whereami.tag then none
  else
    let (token, r) := r.u32
    let (ip, r) := r.array 16
    let (port, r) := r.u16
    if r.done then some { token, ip, port } else none

end Splice.Proto
