import ReliableTransport.Time.Duration
import ReliableTransport.Wire.Frame

/-! What both ends of a connection can be told: periods, patience and room. -/
namespace ReliableTransport

/-- The most unacknowledged fragments a sender holds. -/
def ringCapacity : Nat := 10

/-- What can be set: how often a silent remote is looked at and how many silent periods are
tolerated, the times between two keep-alives and between two requests to connect, the time without
progress after which everything unacknowledged goes out again, the bytes held for one peer, and the
closed peers that a receiver remembers. -/
structure Config where
  checkerPeriod : Duration
  timeoutTicks : UInt32
  senderPeriod : Duration
  rconPeriod : Duration
  resendThreshold : Duration
  receiveCapacity : Nat
  retiredCapacity : Nat
  deriving DecidableEq

namespace Config

/-- Ten seconds of silence close a connection, a second and a half without progress resends. -/
def standard : Config where
  checkerPeriod := .ofMillis 2000
  timeoutTicks := 5
  senderPeriod := .ofMillis 500
  rconPeriod := .ofMillis 500
  resendThreshold := .ofMillis 1500
  receiveCapacity := Frame.maxPayload*5
  retiredCapacity := 1024

def silenceThreshold (c : Config) : Except Overflow Duration :=
  c.checkerPeriod.scale c.timeoutTicks.toNat

def spaced (c : Config) : Bool := 0 < c.rconPeriod.nanos

end Config
end ReliableTransport
