import ReliableTransport.CallError
import ReliableTransport.Calls
import ReliableTransport.Receiver.Registry

/-! A receiver as a machine: what happens to it goes in as events, frames and answers to calls
come out. `react` does what one event asks and wakes the calls it concerns, `poll` lets one woken
call try again, and `step` does the first and then the second until no call is awake. Time enters
only as the ticks that count each peer's silence.

An event and a try of a call are each taken to be one step: nothing else happens between what it
looks at and what it does about it, and sending a frame makes nobody wait. So it is where tasks give
way to each other only when they wait; what threads could do to each other within a step is left
out. -/
namespace ReliableTransport

/-- What a receiver needs to know of its configuration: the room for one peer, the silence that is
just tolerated, what one tick adds to it, and how many closed addresses it remembers. -/
structure Receiver.Settings where
  capacity : Nat
  threshold : Duration
  period : Duration
  retiredCapacity : Nat
  /-- Whether a peer can be had at all; a receiver without room for any takes in nobody. -/
  admits : Bool
  deriving DecidableEq

/-- The settings of a receiver. Nobody is taken in where the capacity or the tolerated silence of a
peer cannot be had. -/
def Config.receiver (c : Config) : Receiver.Settings where
  capacity := c.receiveCapacity
  threshold := c.silenceThreshold.toOption.getD .zero
  period := c.checkerPeriod
  retiredCapacity := c.retiredCapacity
  admits := c.receiveCapacity ≤ maxRoom && c.silenceThreshold.toOption.isSome

namespace Receiver

/-- A call that can wait: for a peer to accept, or for at most `room` bytes of a peer. -/
inductive Call
  | accept
  | read (peer : PeerId) (room : Nat)
  deriving DecidableEq, Repr

inductive Result
  | accepted (addr : Address)
  | acceptedAll (addrs : List Address)
  | bytes (data : Bytes)
  | shut
  | failed (error : CallError)
  deriving DecidableEq

inductive Output
  | send (dest : Address) (frame : Frame)
  | finish (call : CallId) (result : Result)
  deriving DecidableEq

/-- What happens to a receiver: datagrams, calls, and one more period of silence of a peer. -/
inductive Event
  | datagram (source : Address) (raw : Bytes)
  | acceptOne
  | acceptAll
  | read (addr : Address) (room : Nat)
  | tick (peer : PeerId)
  | close
  deriving DecidableEq

end Receiver

/-- A receiver: its records, its waiting calls and how many calls were made so far. -/
structure Receiver where
  settings : Receiver.Settings
  registry : Registry
  closing : Bool
  waiting : List (Waiting Receiver.Call)
  calls : Nat
  deriving DecidableEq

namespace Receiver

def start (settings : Settings) : Receiver where
  settings := settings
  registry := .empty settings.retiredCapacity
  closing := false
  waiting := []
  calls := 0

def modify (r : Receiver) (p : PeerId) (f : Peer → Peer) : Receiver :=
  { r with registry := r.registry.modify p f }

def wakeAccepts (r : Receiver) : Receiver :=
  { r with waiting := Waiting.wake r.waiting fun c => c = .accept }

def wakeReads (r : Receiver) (p : PeerId) : Receiver :=
  { r with waiting := Waiting.wake r.waiting fun c => match c with
    | .read q _ => q = p
    | .accept => false }

def reply (kind : Kind) (fragment window : Int32) : Frame := ⟨kind,fragment,window,[]⟩

def acceptNext (r : Receiver) : Option (Address × Frame × Receiver) := do
  let (p,registry) ← r.registry.accept
  let peer ← registry.peers[p]?
  return (peer.addr,reply .acon peer.inbox.lastAccepted (Frame.windowOf r.settings.capacity),
    { r with registry := registry.modify p fun peer => { peer with checking := true } })

/-- Connect every peer that waits, at most as many as the first argument says. -/
def acceptMany : Nat → Receiver → List (Address × Frame) × Receiver
  | 0, r => ([],r)
  | fuel+1, r =>
    match r.acceptNext with
    | none => ([],r)
    | some (addr,frame,r) =>
      let more := acceptMany fuel r
      ((addr,frame) :: more.1,more.2)

def attempt (r : Receiver) : Call → Outcome Call Result × List Output × Receiver
  | .accept =>
    if r.closing then (.answer (.failed .closed),[],r)
    else
      match r.acceptNext with
      | none => (.wait .accept,[],r)
      | some (addr,frame,r) => (.answer (.accepted addr),[.send addr frame],r)
  | .read p room =>
    match r.registry.peers[p]? with
    | none => (.answer (.failed .closed),[],r)
    | some peer =>
      let taken := peer.inbox.read room
      if taken.1 ≠ [] then
        (.answer (.bytes taken.1),[],r.modify p fun peer => { peer with inbox := taken.2 })
      else if peer.closed then
        (.answer (.bytes []),[],{ r with registry := r.registry.forgetDrained p })
      else if r.closing then (.answer (.bytes []),[],r)
      else (.wait (.read p room),[],r)

def answer (r : Receiver) (sent : List Output) (result : Result) : Receiver × List Output :=
  ({ r with calls := r.calls + 1 },sent ++ [.finish r.calls result])

def enter (r : Receiver) (call : Call) : Receiver × List Output :=
  let t := r.attempt call
  match t.1 with
  | .answer result => t.2.2.answer t.2.1 result
  | .wait _ =>
    ({ t.2.2 with waiting := Waiting.enter t.2.2.waiting r.calls t.1, calls := r.calls + 1 },t.2.1)

/-- A woken call tries again; one that nobody woke does nothing. -/
def poll (r : Receiver) (k : CallId) : Receiver × List Output :=
  match Waiting.ready? r.waiting k with
  | none => (r,[])
  | some call =>
    let t := r.attempt call
    let r := { t.2.2 with waiting := Waiting.settle t.2.2.waiting k t.1 }
    match t.1 with
    | .answer result => (r,t.2.1 ++ [.finish k result])
    | .wait _ => (r,t.2.1)

/-- Every woken call tries again, in the order in which the calls were made. -/
def settle (r : Receiver) : Receiver × List Output := chain poll r (Waiting.ready r.waiting)

/-- An address asks to connect: a new record is queued if a peer can be had, one that waits is left
alone, and one that is connected is told so once more. -/
def onConnect (r : Receiver) (source : Address) (fragment : Int32) : Receiver × List Output :=
  match r.registry.state source with
  | .connected =>
    match (r.registry.connected.get? source).bind fun p => r.registry.peers[p]? with
    | some peer => (r,[.send source (reply .acon peer.inbox.lastAccepted peer.inbox.window)])
    | none => (r,[])
  | .pending => (r,[])
  | .unseen | .closed =>
    if r.settings.admits then
      let made := r.registry.register
        (.start source fragment r.settings.capacity r.settings.threshold)
      ({ r with registry := made.2.enqueue source made.1 }.wakeAccepts,[])
    else (r,[])

/-- A fragment of a connected peer: it is taken or refused, and either way answered with what was
taken so far. A peer that asked to close is no longer heard. -/
def onData (r : Receiver) (source : Address) (fragment : Int32) (payload : Bytes) :
    Receiver × List Output :=
  match r.registry.connected.get? source with
  | none => (r,[])
  | some p =>
    match r.registry.peers[p]? with
    | none => (r,[])
    | some peer =>
      if peer.closing then (r,[])
      else
        let taken := peer.inbox.offer fragment payload
        let inbox := taken.getD peer.inbox
        let r := r.modify p fun peer => { peer with inbox, silence := peer.silence.reset }
        (if taken.isSome then r.wakeReads p else r,
          [.send source (reply .adat inbox.lastAccepted inbox.window)])

/-- An address asks to close: one that is connected is told that it will be, one that waits is
dropped. -/
def onClose (r : Receiver) (source : Address) : Receiver × List Output :=
  match r.registry.connected.get? source with
  | some p => (r.modify p .requestClose,[.send source (reply .acls 0 0)])
  | none =>
    match r.registry.removePending source with
    | some (_,registry) => ({ r with registry },[])
    | none => (r,[])

def onDatagram (r : Receiver) (source : Address) (raw : Bytes) : Receiver × List Output :=
  if r.closing then (r,[])
  else
    match Frame.receive raw with
    | .error _ => (r,[])
    | .ok frame =>
      match frame.kind with
      | .rcon => r.onConnect source frame.fragment
      | .data => r.onData source frame.fragment frame.payload
      | .rcls => r.onClose source
      | _ => (r,[])

/-- The connection of a record is torn down: its address is retired, unless a newer record has
taken its place, and whoever reads from it is woken. -/
def teardown (r : Receiver) (p : PeerId) (addr : Address) : Receiver :=
  let registry :=
    if r.registry.connected.get? addr = some p then
      match r.registry.retire addr with
      | some (_,registry) => registry
      | none => r.registry
    else r.registry
  { r with registry := registry.modify p .teardown }.wakeReads p

/-- One more period of a peer's silence, which may be one too many. -/
def onTick (r : Receiver) (p : PeerId) : Receiver :=
  match r.registry.peers[p]? with
  | none => r
  | some peer =>
    if peer.checking then
      let silence := peer.silence.tick r.settings.period
      let r := r.modify p fun peer => { peer with silence }
      if silence.expired then r.teardown p peer.addr else r
    else r

/-- The receiver is closed: peers that wait are dropped, connections torn down, and every caller
is woken. -/
def shut (r : Receiver) : Receiver :=
  if r.closing then r
  else
    let drained := r.registry.drain
    let r := { r with closing := true, registry := drained.2 }.wakeAccepts
    drained.1.2.foldl (fun r p => (r.modify p .teardown).wakeReads p) r

/-- What one event asks, without letting any woken call try again. -/
def react (r : Receiver) : Event → Receiver × List Output
  | .datagram source raw => r.onDatagram source raw
  | .acceptOne => r.enter .accept
  | .acceptAll =>
    if r.closing then r.answer [] (.failed .closed)
    else
      let taken := acceptMany r.registry.pending.length r
      taken.2.answer (taken.1.map fun a => .send a.1 a.2) (.acceptedAll (taken.1.map (·.1)))
  | .read addr room =>
    if r.closing then r.answer [] (.failed .closed)
    else
      match r.registry.readable addr with
      | .closed => r.answer [] (.bytes [])
      | .unknown => r.answer [] (.failed (.notConnected addr))
      | .live p => if room = 0 then r.answer [] (.bytes []) else r.enter (.read p room)
  | .tick p => (r.onTick p,[])
  | .close => r.shut.answer [] .shut

/-- One event and all that follows from it. -/
def step (r : Receiver) (e : Event) : Receiver × List Output :=
  let now := r.react e
  let later := now.1.settle
  (later.1,now.2 ++ later.2)

def run : Receiver → List Event → Receiver × List Output := chain step

/-- The first of several addresses with unread bytes. -/
def probe (r : Receiver) (addrs : List Address) : Option Address :=
  addrs.find? fun a =>
    ((r.registry.connected.get? a).bind fun p => r.registry.peers[p]?).any fun peer =>
      !peer.inbox.unread.isEmpty

end Receiver
end ReliableTransport
