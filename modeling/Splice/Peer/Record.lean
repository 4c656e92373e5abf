import Splice.Proto.Pairing

/-!
The record of one paired peer, as the pairing exchange fills it in, the store keeps
it and the daemon runs a session from it.
-/

namespace Splice.Peer
open Proto

def kLanDiscoPort : UInt16 := 7702

structure ConnRecord where
  name : Bytes := []
  /-- this side's uid; the low bit is the side -/
  uid : Uid := ByteArr.zero 32
  /-- false = leader, true = follower -/
  side : Bool := false
  ulaBase : Ip6 := ByteArr.zero 16
  ulaPrefix : UInt8 := 64
  ownPriv : WgKey := ByteArr.zero 32
  ownPub : WgKey := ByteArr.zero 32
  peerPub : WgKey := ByteArr.zero 32
  createdUnix : Int := 0
  addresses : List Bytes := []
  useRelay : Bool := true
  lanDiscovery : Bool := true
  rememberAddress : Bool := true
  lanPort : UInt16 := 0
  deriving DecidableEq

/-- A pipe registration as it is stored: daemon-owned types only. -/
structure PipeRecord where
  peer : Bytes
  name : Bytes
  type : Bytes
  limit : Nat := 0
  args : List Bytes := []
  deriving DecidableEq

end Splice.Peer
