import ReliableTransport.Time.Duration
import ReliableTransport.Wire.Bytes

/-! What a bad network does to one datagram: lose it, flip one of its bits, send it twice, hold it
back. How often each happens is a rate; every draw of the dice is an argument, so that a statement
about all draws is a statement about every network. -/
namespace ReliableTransport

/-- How often something happens: never, always, or so many times out of as many as 64 bits can
count. -/
inductive Rate
  | never
  | always
  | sometimes (odds : UInt64)
  deriving DecidableEq, Repr

namespace Rate

def happens : Rate → UInt64 → Bool
  | never, _ => false
  | always, _ => true
  | sometimes odds, draw => draw < odds

/-- The rate a number between zero and one states; below and above, and without a number, it is
never and always. -/
def ofFloat (p : Float) : Rate :=
  if !(p > 0) then never
  else if p ≥ 1 then always
  else sometimes (p * 18446744073709551616.0).toUInt64

end Rate

namespace Fault

/-- How often each fault happens, and for how long a datagram is held back. -/
structure Rates where
  loss : Rate
  duplicate : Rate
  corrupt : Rate
  delayed : Rate
  delay : Duration
  deriving DecidableEq

def Rates.clear : Rates := ⟨.never,.never,.never,.never,.zero⟩

/-- The dice thrown for one datagram. The byte to be corrupted is counted around the datagram, and
the bit around the byte. -/
structure Draws where
  loss : UInt64
  corrupt : UInt64
  duplicate : UInt64
  delayed : UInt64
  byte : Nat
  bit : Nat
  deriving DecidableEq, Repr

inductive Verdict
  | drop
  | deliver (copies : Nat) (delay : Option Duration)
  deriving DecidableEq

/-- How often each fault has happened. The counters are plain numbers: fewer datagrams are taken to
come by than 64 bits can count. -/
structure Tally where
  forwarded : Nat
  dropped : Nat
  duplicated : Nat
  corrupted : Nat
  delayed : Nat
  deriving DecidableEq, Repr

def Tally.zero : Tally := ⟨0,0,0,0,0⟩

def flip (datagram : Bytes) (byte bit : Nat) : Bytes :=
  datagram.modify (byte % datagram.length) fun b => b ^^^ (1 <<< UInt8.ofNat (bit % 8))

/-- What becomes of one datagram, the datagram as it goes on, and the new tally. -/
def judge (rates : Rates) (draws : Draws) (datagram : Bytes) (tally : Tally) :
    Verdict × Bytes × Tally :=
  if rates.loss.happens draws.loss then
    (.drop,datagram,{ tally with dropped := tally.dropped + 1 })
  else
    let corrupted := !datagram.isEmpty && rates.corrupt.happens draws.corrupt
    let duplicated := rates.duplicate.happens draws.duplicate
    let delayed := rates.delayed.happens draws.delayed
    (.deliver (if duplicated then 2 else 1) (if delayed then some rates.delay else none),
      if corrupted then flip datagram draws.byte draws.bit else datagram,
      { tally with
        forwarded := tally.forwarded + 1
        duplicated := tally.duplicated + duplicated.toNat
        corrupted := tally.corrupted + corrupted.toNat
        delayed := tally.delayed + delayed.toNat })

end Fault
end ReliableTransport
