import ReliableTransport.Calls
import ReliableTransport.Net.Address
import ReliableTransport.Relay.Fault

/-! A relay between clients and one server. Every datagram of a client goes to the server, every
datagram of the server goes to the client heard last, and both pass through the same faults. Where
a datagram goes is decided when it arrives, also if it is held back. -/
namespace ReliableTransport

inductive Relay.Destination
  | server
  | client (addr : Address)
  deriving DecidableEq

structure Relay.Held where
  due : Nat
  dest : Relay.Destination
  datagram : Bytes
  copies : Nat
  deriving DecidableEq

/-- A relay: its faults, the client heard last, and what it holds back. -/
structure Relay where
  rates : Fault.Rates
  client : Option Address
  tally : Fault.Tally
  held : List Relay.Held
  now : Nat
  deriving DecidableEq

namespace Relay

structure Output where
  dest : Destination
  datagram : Bytes
  deriving DecidableEq

inductive Event
  | fromClient (source : Address) (datagram : Bytes) (draws : Fault.Draws)
  | fromServer (datagram : Bytes) (draws : Fault.Draws)
  | advance (now : Nat)
  deriving DecidableEq

def start (rates : Fault.Rates) : Relay := ⟨rates,none,.zero,[],0⟩

def copies (n : Nat) (dest : Destination) (datagram : Bytes) : List Output :=
  .replicate n ⟨dest,datagram⟩

/-- A datagram goes on to its destination, as far as the faults let it. -/
def forward (r : Relay) (dest : Destination) (datagram : Bytes) (draws : Fault.Draws) :
    Relay × List Output :=
  let t := Fault.judge r.rates draws datagram r.tally
  let r := { r with tally := t.2.2 }
  match t.1 with
  | .drop => (r,[])
  | .deliver n none => (r,copies n dest t.2.1)
  | .deliver n (some delay) =>
    ({ r with held := r.held ++ [⟨r.now + delay.nanos,dest,t.2.1,n⟩] },[])

/-- What was held back for long enough leaves, in the order in which it came. -/
def release (r : Relay) : Relay × List Output :=
  ({ r with held := r.held.filter fun h => r.now < h.due },
    (r.held.filter fun h => h.due ≤ r.now).flatMap fun h => copies h.copies h.dest h.datagram)

/-- What one event asks, without releasing what is held back. -/
def react (r : Relay) : Event → Relay × List Output
  | .fromClient source datagram draws =>
    { r with client := some source }.forward .server datagram draws
  | .fromServer datagram draws =>
    match r.client with
    | some addr => r.forward (.client addr) datagram draws
    | none => (r,[])
  | .advance now => ({ r with now },[])

/-- One event and all that follows from it. -/
def step (r : Relay) (e : Event) : Relay × List Output :=
  let now := r.react e
  let later := now.1.release
  (later.1,now.2 ++ later.2)

def next? (r : Relay) : Option Nat := (r.held.map (·.due)).min?

def run : Relay → List Event → Relay × List Output := chain step

end Relay
end ReliableTransport
