import ReliableTransport.CallError
import ReliableTransport.Sender.Outbox
import ReliableTransport.Time.Silence

/-! What a sender knows about one of its connections. -/
namespace ReliableTransport

inductive ConnState
  | handshaking | connected | draining | closed
  deriving DecidableEq, Repr

namespace ConnState

def all : List ConnState := [handshaking,connected,draining,closed]

def name : ConnState → String
  | handshaking => "Handshaking" | connected => "Connected"
  | draining => "Draining" | closed => "Closed"

end ConnState

/-- The record of one outbound connection. A close was asked for by either side (`closing`), or the
connection is torn down (`closed`); and datagrams at its socket are looked at (`listening`), what is
buffered is sent (`pumping`) and the silence of the remote is counted (`checking`), each as long as
a task does so. -/
structure Connection where
  id : ConnId
  bound : Address
  remote : Address
  outbox : Outbox
  silence : Silence
  state : ConnState
  closing : Bool
  closed : Bool
  listening : Bool
  pumping : Bool
  checking : Bool
  deriving DecidableEq

namespace Connection

/-- A connection that has just asked its remote. -/
def start (id : ConnId) (bound remote : Address) (threshold : Duration) (now : Nat) :
    Connection where
  id := id
  bound := bound
  remote := remote
  outbox := .start now
  silence := .start threshold
  state := .handshaking
  closing := false
  closed := false
  listening := true
  pumping := false
  checking := false

/-- A close is asked for: the next tick is to tear the connection down. -/
def requestClose (c : Connection) : Connection :=
  { c with closing := true, silence := c.silence.expire }

def halt (c : Connection) : Connection := { c with listening := false, pumping := false }

def teardown (c : Connection) : Connection := { c.halt with closed := true, state := .closed }

end Connection
end ReliableTransport
