import ReliableTransport.Dict
import ReliableTransport.Receiver.Peer

/-! The records of a receiver and where each of them stands: in the queue of those waiting to be
accepted, connected, or retired. A retired record with unread bytes stays until they are read;
after that only the mark that its address was closed remains, and the oldest marks go when there
are too many. Records are told apart by the order in which they were made, so that two records of
one address are never confused. -/
namespace ReliableTransport

/-- A record, by the order in which records were made. -/
abbrev PeerId := Nat

/-- What is left of a connection that was torn down. -/
inductive Retired
  | unread (peer : PeerId)
  | drained
  deriving DecidableEq, Repr

/-- What a read from an address can expect. -/
inductive Readable
  | live (peer : PeerId)
  | closed
  | unknown
  deriving DecidableEq, Repr

/-- The records of a receiver, oldest first, and where each of them stands. Of those waiting the
next one to be accepted comes first, of those retired the oldest. -/
structure Registry where
  peers : List Peer
  pending : Dict Address PeerId
  connected : Dict Address PeerId
  retired : Dict Address Retired
  retiredOrder : List Address
  retiredCapacity : Nat
  deriving DecidableEq

namespace Registry

def empty (retiredCapacity : Nat) : Registry := ⟨[],[],[],[],[],retiredCapacity⟩

def register (r : Registry) (p : Peer) : PeerId × Registry :=
  (r.peers.length,{ r with peers := r.peers ++ [p] })

def modify (r : Registry) (p : PeerId) (f : Peer → Peer) : Registry :=
  { r with peers := r.peers.modify p f }

def state (r : Registry) (a : Address) : PeerState :=
  if (r.connected.get? a).isSome then .connected
  else if (r.pending.get? a).isSome then .pending
  else if (r.retired.get? a).isSome then .closed
  else .unseen

/-- Put a record behind those waiting. Its address is no longer a closed one. -/
def enqueue (r : Registry) (a : Address) (p : PeerId) : Registry :=
  let r :=
    if (r.retired.get? a).isSome then
      { r with retired := r.retired.erase a, retiredOrder := r.retiredOrder.filter (· ≠ a) }
    else r
  { r with pending := r.pending ++ [(a,p)] }

/-- Connect the record that waits longest. Time spent waiting does not count as silence. -/
def accept (r : Registry) : Option (PeerId × Registry) :=
  match r.pending with
  | [] => none
  | (a,p) :: pending =>
    let r := r.modify p fun peer => { peer with silence := peer.silence.reset }
    some (p,{ r with pending, connected := r.connected.insert a p })

def removePending (r : Registry) (a : Address) : Option (PeerId × Registry) :=
  match r.pending.get? a with
  | none => none
  | some p => some (p,{ r with pending := r.pending.eraseP fun e => e.1 = a })

/-- Forget the oldest closed addresses as long as there are too many. -/
def evict (r : Registry) : Registry :=
  let excess := r.retiredOrder.length - r.retiredCapacity
  { r with
    retired := r.retired.eraseAll (r.retiredOrder.take excess)
    retiredOrder := r.retiredOrder.drop excess }

/-- Take the record of an address out of service, keeping it only for bytes not yet read. -/
def retire (r : Registry) (a : Address) : Option (PeerId × Registry) :=
  match r.connected.get? a with
  | none => none
  | some p =>
    let unread := (r.peers[p]?).any fun peer => !peer.inbox.unread.isEmpty
    let r := { r with
      connected := r.connected.erase a
      retired := r.retired.insert a (if unread then .unread p else .drained)
      retiredOrder := r.retiredOrder ++ [a] }
    some (p,r.evict)

/-- Drop a retired record that has been read to its end, keeping the mark of its address. -/
def forgetDrained (r : Registry) (p : PeerId) : Registry :=
  match r.peers[p]? with
  | none => r
  | some peer =>
    if r.retired.get? peer.addr = some (.unread p) then
      { r with retired := r.retired.insert peer.addr .drained }
    else r

/-- What a read from an address can expect. -/
def readable (r : Registry) (a : Address) : Readable :=
  match r.connected.get? a with
  | some p => .live p
  | none =>
    match r.retired.get? a with
    | some (.unread p) => .live p
    | some .drained => .closed
    | none => .unknown

def drain (r : Registry) : (List PeerId × List PeerId) × Registry :=
  ((r.pending.map (·.2),r.connected.map (·.2)),
    { r with pending := [], connected := [], retired := [], retiredOrder := [] })

end Registry
end ReliableTransport
