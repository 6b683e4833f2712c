import ReliableTransport.Sender.Engine
import ReliableTransport.Time.Alarm

/-! A sender with a clock: a request to connect is repeated while its caller waits, buffered
payloads are sent from time to time, and the silence of a remote is counted once a period, each
starting a period after its cause. Without a length of time between them no silence is counted. -/
namespace ReliableTransport
namespace Sender

inductive Timer
  | retry (conn : ConnRef)
  | wake (conn : ConnRef)
  | tick (conn : ConnRef)
  deriving DecidableEq, Repr

structure Periods where
  retry : Duration
  wake : Duration
  deriving DecidableEq

/-- A sender, the time and what is to come. -/
structure Clocked where
  sender : Sender
  periods : Periods
  now : Nat
  alarms : Alarms Timer
  deriving DecidableEq

namespace Clocked

def start (settings : Settings) (periods : Periods) : Clocked := ⟨.start settings,periods,0,[]⟩

def timers (s : Sender) (c : ConnRef) : List Timer :=
  let retry := if s.waiting.any fun w => w.call = .connect c then [Timer.retry c] else []
  match s.conns[c]? with
  | none => retry
  | some conn =>
    retry ++ (if conn.pumping then [.wake c] else []) ++
      (if conn.checking && 0 < s.settings.period.nanos then [.tick c] else [])

def active (s : Sender) : List Timer := (List.range s.conns.length).flatMap (timers s)

def period (c : Clocked) : Timer → Nat
  | .retry _ => c.periods.retry.nanos
  | .wake _ => c.periods.wake.nanos
  | .tick _ => c.sender.settings.period.nanos

def sync (c : Clocked) : Clocked :=
  { c with alarms := c.alarms.sync (active c.sender) c.period c.now }

def handle (c : Clocked) (e : Event) : Clocked × List Output :=
  let t := c.sender.step e
  ({ c with sender := t.1 }.sync,t.2)

def event (now : Nat) : Timer → Event
  | .retry c => .retry c
  | .wake c => .wake c now
  | .tick c => .tick c

/-- The clock moves on, and what has become due happens. -/
def advance (c : Clocked) (now : Nat) : Clocked × List Output :=
  let due := c.alarms.due now
  let c := { c with now, alarms := c.alarms.rearm c.period now }
  chain handle c (due.map (event now))

end Clocked
end Sender
end ReliableTransport
