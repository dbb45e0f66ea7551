import RespServer.Address
import RespServer.Decoder

/-!
# Configuration

Where a server listens, the largest frame it accepts, and how often it sweeps
expired keys.
-/

namespace RespServer

/-- Without a sweep interval, in milliseconds, expiry stays lazy. -/
structure Config where
  bind : IpAddress
  tcpPort : UInt16
  maxFrameSize : Nat
  sweepMillis : Option Nat
  deriving DecidableEq

namespace Config

def defaultTcpPort : UInt16 := 6379

def default : Config where
  bind := IpAddress.unspecified
  tcpPort := defaultTcpPort
  maxFrameSize := Decoder.defaultLimit
  sweepMillis := none

/-- The address that a server binds. -/
def address (c : Config) : String :=
  c.bind.socketText c.tcpPort

end Config

end RespServer
