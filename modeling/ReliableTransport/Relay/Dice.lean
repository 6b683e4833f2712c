import ReliableTransport.Relay.Fault

/-! Dice for the faults of a network: a sequence of 64-bit words in which each word determines the
next one. -/
namespace ReliableTransport
namespace Fault

abbrev Dice := UInt64

namespace Dice

def throw (d : Dice) : UInt64 × Dice :=
  let d := d + 0x9e3779b97f4a7c15
  let z := (d ^^^ (d >>> 30)) * 0xbf58476d1ce4e5b9
  let z := (z ^^^ (z >>> 27)) * 0x94d049bb133111eb
  (z ^^^ (z >>> 31),d)

def draws (d : Dice) : Draws × Dice :=
  let loss := d.throw
  let corrupt := loss.2.throw
  let duplicate := corrupt.2.throw
  let delayed := duplicate.2.throw
  let byte := delayed.2.throw
  let bit := byte.2.throw
  (⟨loss.1,corrupt.1,duplicate.1,delayed.1,byte.1.toNat,bit.1.toNat⟩,bit.2)

end Dice
end Fault
end ReliableTransport
