import ReliableTransport.Config
import ReliableTransport.Net.Address
import ReliableTransport.Receiver.Inbox
import ReliableTransport.Time.Silence

/-! What a receiver knows about one remote sender. -/
namespace ReliableTransport

inductive PeerState
  | unseen | pending | connected | closed
  deriving DecidableEq, Repr

namespace PeerState

def all : List PeerState := [unseen,pending,connected,closed]

def name : PeerState → String
  | unseen => "Unseen" | pending => "Pending" | connected => "Connected" | closed => "Closed"

end PeerState

/-- The record of one remote sender: whether its connection was torn down (`closed`) and whether its
silence is being counted (`checking`) are kept apart. -/
structure Peer where
  addr : Address
  inbox : Inbox
  silence : Silence
  /-- The peer has asked to close: what it sends no longer counts as a sign of life. -/
  closing : Bool
  closed : Bool
  checking : Bool
  deriving DecidableEq

namespace Peer

/-- A peer that has proposed fragment `initial` and is not accepted yet. -/
def start (addr : Address) (initial : Int32) (capacity : Nat) (threshold : Duration) : Peer where
  addr := addr
  inbox := .start initial capacity
  silence := .start threshold
  closing := false
  closed := false
  checking := false

/-- A new peer, or the report of a capacity or a threshold that cannot be had. -/
def reserve (addr : Address) (initial : Int32) (config : Config) : Except Overflow Peer := do
  let _ ← Inbox.reserve initial config.receiveCapacity
  let threshold ← config.silenceThreshold
  return start addr initial config.receiveCapacity threshold

/-- The peer has asked to close: the next tick is to tear the connection down. -/
def requestClose (p : Peer) : Peer := { p with closing := true, silence := p.silence.expire }

def teardown (p : Peer) : Peer := { p with closed := true, checking := false }

end Peer
end ReliableTransport
