import ReliableTransport.Receiver.Engine
import ReliableTransport.Time.Alarm

/-! A receiver with a clock: every peer whose silence is counted has its tick once a period,
starting a period after it was accepted. Without a length of time between them there are no ticks. -/
namespace ReliableTransport
namespace Receiver

/-- A receiver, the time and the ticks to come. -/
structure Clocked where
  receiver : Receiver
  now : Nat
  alarms : Alarms PeerId
  deriving DecidableEq

namespace Clocked

def start (settings : Settings) : Clocked := ⟨.start settings,0,[]⟩

def active (r : Receiver) : List PeerId :=
  if r.settings.period.nanos = 0 then []
  else (List.range r.registry.peers.length).filter fun p => (r.registry.peers[p]?).any (·.checking)

def period (c : Clocked) (_ : PeerId) : Nat := c.receiver.settings.period.nanos

def sync (c : Clocked) : Clocked :=
  { c with alarms := c.alarms.sync (active c.receiver) c.period c.now }

def handle (c : Clocked) (e : Event) : Clocked × List Output :=
  let t := c.receiver.step e
  ({ c with receiver := t.1 }.sync,t.2)

/-- The clock moves on, and what has become due happens. -/
def advance (c : Clocked) (now : Nat) : Clocked × List Output :=
  let due := c.alarms.due now
  let c := { c with now, alarms := c.alarms.rearm c.period now }
  chain handle c (due.map .tick)

end Clocked
end Receiver
end ReliableTransport
