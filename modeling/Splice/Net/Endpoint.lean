import Splice.Proto.Pairing

/-! A transport address: an IP address, version 4 mapped into 6, and a port. -/

namespace Splice
open Proto

structure Endpoint where
  ip : Ip6 := ByteArr.zero 16
  port : UInt16 := 0
  deriving DecidableEq

def Endpoint.valid (e : Endpoint) : Bool := e.port ≠ 0

def Endpoint.build (e : Endpoint) : Bytes := e.ip.toList ++ bigEndian 2 e.port.toNat

end Splice
