/-! Results that leave their range, and room that is larger than any. -/
namespace ReliableTransport

def maxRoom : Nat := 9223372036854775807

inductive Overflow
  | durationProduct | durationSum | bufferCapacity
  deriving DecidableEq, Repr

namespace Overflow

def message : Overflow → String
  | durationProduct => "overflow when multiplying duration by scalar"
  | durationSum => "overflow when adding durations"
  | bufferCapacity => "capacity overflow"

end Overflow
end ReliableTransport
