import ReliableTransport.Receiver.Clocked
import ReliableTransport.Relay.Dice
import ReliableTransport.Relay.Engine
import ReliableTransport.Sender.Clocked

/-! Whole transfers on one host: a program that accepts peers and reads each of them to its end,
programs that connect one after the other, send their messages and disconnect, and perhaps a relay
between them. Datagrams are carried in order, or not at all where the host's network is down; when
nothing is left to do the clock moves on. -/
namespace ReliableTransport
namespace Transfer

/-- The receiving program: how many peers it is still to accept, the most bytes of one read, and the
peers to read, the one being read first. -/
structure Reading where
  awaited : Nat
  chunk : Nat
  peers : List Address
  finished : List Address
  received : Bytes
  deriving DecidableEq

namespace Reading

def start (peers chunk : Nat) : Reading := ⟨peers,chunk,[],[],[]⟩

/-- The next call, if there is one more to make. -/
def call (p : Reading) : Option Receiver.Event :=
  if 0 < p.awaited then some .acceptOne
  else p.peers.head?.map fun a => .read a p.chunk

def hear (p : Reading) : Receiver.Result → Reading
  | .accepted a => { p with awaited := p.awaited - 1, peers := p.peers ++ [a] }
  | .bytes [] => { p with peers := p.peers.tail, finished := p.finished ++ p.peers.take 1 }
  | .bytes data => { p with received := p.received ++ data }
  | _ => p

def done (p : Reading) : Bool := p.call.isNone

end Reading

/-- A sending program: the messages not yet sent, whether it takes its leave at the end, its
connection once there is one, and what became of the messages sent so far. -/
structure Sending where
  bound : Address
  remote : Address
  messages : List Bytes
  leaves : Bool
  id : Option ConnId
  statuses : List Bool
  finished : Bool
  deriving DecidableEq

namespace Sending

def start (bound remote : Address) (messages : List Bytes) (leaves : Bool) : Sending :=
  ⟨bound,remote,messages,leaves,none,[],false⟩

/-- The next call, if there is one more to make. -/
def call (p : Sending) (now : Nat) : Option Sender.Event :=
  if p.finished then none
  else
    match p.id with
    | none => some (.connect p.bound p.remote none now)
    | some id =>
      match p.messages with
      | m :: _ => some (.send id m)
      | [] => some (if p.leaves then .disconnect id else .close)

def hear (p : Sending) : Sender.Result → Sending
  | .connected id => { p with id := some id }
  | .delivered => { p with messages := p.messages.tail, statuses := p.statuses ++ [true] }
  | .dropped => { p with messages := [], statuses := p.statuses ++ [false], leaves := false }
  | .disconnected | .shut | .failed _ => { p with finished := true }

end Sending

structure Packet where
  source : Address
  dest : Address
  raw : Bytes
  deriving DecidableEq

/-- The host, its programs and what is on its way, oldest first; nothing is carried while the
network is down. -/
structure Host where
  up : Bool
  receiver : Receiver.Clocked
  reading : Reading
  sender : Sender.Clocked
  sending : Sending
  later : List Sending
  earlier : List Sending
  relay : Option Relay
  dice : Fault.Dice
  packets : List Packet
  readingWaits : Bool
  sendingWaits : Bool
  now : Nat

namespace Host

def receiverAddr : Address := .localhost 4242

def frontAddr : Address := .localhost 4243

def backAddr : Address := .localhost 4244

def unit : Nat := 10000000

def carry (h : Host) (packets : List Packet) : Host :=
  if h.up then { h with packets := h.packets ++ packets } else h

def fromReceiver (h : Host) : Receiver.Output → Host
  | .send dest frame => h.carry [⟨receiverAddr,dest,frame.encode⟩]
  | .finish _ result => { h with reading := h.reading.hear result, readingWaits := false }

def fromSender (h : Host) : Sender.Output → Host
  | .send _ frame => h.carry [⟨h.sending.bound,h.sending.remote,frame.encode⟩]
  | .finish _ result => { h with sending := h.sending.hear result, sendingWaits := false }

def fromRelay (h : Host) (o : Relay.Output) : Host :=
  match o.dest with
  | .server => h.carry [⟨backAddr,receiverAddr,o.datagram⟩]
  | .client addr => h.carry [⟨frontAddr,addr,o.datagram⟩]

def receiverStep (h : Host) (t : Receiver.Clocked × List Receiver.Output) : Host :=
  t.2.foldl fromReceiver { h with receiver := t.1 }

def senderStep (h : Host) (t : Sender.Clocked × List Sender.Output) : Host :=
  t.2.foldl fromSender { h with sender := t.1 }

def relayStep (h : Host) (t : Relay × List Relay.Output) : Host :=
  t.2.foldl fromRelay { h with relay := some t.1 }

def arrive (h : Host) (p : Packet) : Host :=
  if p.dest = receiverAddr then h.receiverStep (h.receiver.handle (.datagram p.source p.raw))
  else if p.dest = h.sending.bound then
    h.senderStep (h.sender.handle (.datagram 0 p.source p.raw h.now))
  else
    match h.relay with
    | none => h
    | some relay =>
      let t := h.dice.draws
      let h := { h with dice := t.2 }
      if p.dest = frontAddr then h.relayStep (relay.step (.fromClient p.source p.raw t.1))
      else if p.dest = backAddr then h.relayStep (relay.step (.fromServer p.raw t.1))
      else h

def advance (h : Host) : Host :=
  let now := h.now + unit
  let h := { h with now }
  let h := h.receiverStep (h.receiver.advance now)
  let h := h.senderStep (h.sender.advance now)
  match h.relay with
  | none => h
  | some relay => h.relayStep (relay.step (.advance now))

/-- The next thing that happens: a call, the arrival of a datagram, the turn of the next sending
program, or else the passing of time. -/
def step (h : Host) : Host :=
  match if h.readingWaits then none else h.reading.call with
  | some e => { h with readingWaits := true }.receiverStep (h.receiver.handle e)
  | none =>
    match if h.sendingWaits then none else h.sending.call h.now with
    | some e => { h with sendingWaits := true }.senderStep (h.sender.handle e)
    | none =>
      match h.packets with
      | p :: packets => { h with packets }.arrive p
      | [] =>
        match if h.sendingWaits then none else h.later.head? with
        | some next =>
          { h with
            sender := { Sender.Clocked.start h.sender.sender.settings h.sender.periods with
              now := h.now }
            sending := next
            later := h.later.tail
            earlier := h.earlier ++ [h.sending] }
        | none => h.advance

/-- All programs have come to their end. -/
def done (h : Host) : Bool :=
  h.reading.done && h.sending.finished && h.later.isEmpty && h.packets.isEmpty

/-- What happens until all programs have come to their end, at most `fuel` things. -/
def run : Nat → Host → Host
  | 0, h => h
  | fuel+1, h => if h.done then h else run fuel h.step

/-- A host whose programs have not begun; those that send come one after the other, each with its
messages and whether it takes its leave. -/
def start (up : Bool) (receiver : Receiver.Settings) (sender : Sender.Settings)
    (periods : Sender.Periods) (rates : Option Fault.Rates) (dice : Fault.Dice) (chunk : Nat)
    (programs : List (List Bytes × Bool)) : Host :=
  let remote := if rates.isSome then frontAddr else receiverAddr
  let sending := programs.mapIdx fun i p =>
    Sending.start (.localhost (UInt16.ofNat (50000 + i))) remote p.1 p.2
  let idle : Sending := { Sending.start (.localhost 50000) remote [] false with finished := true }
  { up := up
    receiver := .start receiver
    reading := .start programs.length chunk
    sender := .start sender periods
    sending := sending.headD idle
    later := sending.tail
    earlier := []
    relay := rates.map .start
    dice := dice
    packets := []
    readingWaits := false
    sendingWaits := false
    now := 0 }

def senders (h : Host) : List Sending := h.earlier ++ [h.sending] ++ h.later

end Host
end Transfer
end ReliableTransport
