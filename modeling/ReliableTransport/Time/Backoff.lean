import ReliableTransport.Time.Duration

/-! The pause after a failed receive: five milliseconds, doubled by every further failure in a
row, and never more than a second. -/
namespace ReliableTransport
namespace Backoff

def shortest : Duration := .ofMillis 5

def longest : Duration := .ofMillis 1000

def doublings : Nat := 16

def pause (failures : Nat) : Duration :=
  let d := shortest.scaleClamped (1 <<< min (failures - 1) doublings)
  if d.nanos ≤ longest.nanos then d else longest

end Backoff
end ReliableTransport
