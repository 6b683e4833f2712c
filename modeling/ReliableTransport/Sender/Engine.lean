import ReliableTransport.Calls
import ReliableTransport.Sender.Connection
import ReliableTransport.Sender.Table

/-! A sender as a machine: what happens to it goes in as events, frames and answers to calls come
out. Every connection has a socket of its own. `react` does what one event asks and wakes the
calls it concerns, `poll` lets one woken call try again, and `step` does the first and then the
second until no call is awake. Time enters as readings of the clock, as the ticks that count
silence, and as the moments at which a request is repeated or buffered payloads are sent.

An event, a try of a call and a round of sending are each taken to be one step: nothing else happens
between what it looks at and what it does about it, and sending a frame makes nobody wait. So it is
where tasks give way to each other only when they wait; what threads could do to each other within
a step is left out. -/
namespace ReliableTransport

/-- What a sender needs to know of its configuration: the silence that is just tolerated, what one
tick adds to it, and the time without progress after which everything unacknowledged goes out again.
-/
structure Sender.Settings where
  threshold : Duration
  period : Duration
  resend : Duration
  deriving DecidableEq

/-- The settings of a sender, or the report of a threshold that cannot be had. -/
def Config.sender (c : Config) : Except Overflow Sender.Settings := do
  let threshold ← c.silenceThreshold
  return ⟨threshold,c.checkerPeriod,c.resendThreshold⟩

namespace Sender

/-- A call that can wait: for the remote to accept, for room for the pieces in `rest` and then for
`last` to be acknowledged, or for everything to be acknowledged. -/
inductive Call
  | connect (conn : ConnRef)
  | send (conn : ConnRef) (rest : List Bytes) (last : Int32)
  | disconnect (conn : ConnRef)
  deriving DecidableEq, Repr

def Call.conn : Call → ConnRef
  | connect c => c
  | send c _ _ => c
  | disconnect c => c

inductive Result
  | connected (id : ConnId)
  | delivered
  | dropped
  | disconnected
  | shut
  | failed (error : CallError)
  deriving DecidableEq

inductive Output
  | send (conn : ConnRef) (frame : Frame)
  | finish (call : CallId) (result : Result)
  deriving DecidableEq

/-- What happens to a sender: calls, datagrams, and the times to repeat a request to connect, to
send what is buffered, and to count one more period of silence. The host may refuse the address that
a connection is to be bound to. -/
inductive Event
  | connect (bound remote : Address) (refused : Option String) (now : Nat)
  | send (id : ConnId) (data : Bytes)
  | disconnect (id : ConnId)
  | close
  | datagram (conn : ConnRef) (source : Address) (raw : Bytes) (now : Nat)
  | retry (conn : ConnRef)
  | wake (conn : ConnRef) (now : Nat)
  | tick (conn : ConnRef)
  deriving DecidableEq

end Sender

/-- A sender: every connection ever made, oldest first, those that are open by their numbers, its
waiting calls and how many calls were made so far. -/
structure Sender where
  settings : Sender.Settings
  conns : List Connection
  table : Table
  waiting : List (Waiting Sender.Call)
  calls : Nat
  deriving DecidableEq

namespace Sender

def start (settings : Settings) : Sender where
  settings := settings
  conns := []
  table := .empty
  waiting := []
  calls := 0

def modify (s : Sender) (c : ConnRef) (f : Connection → Connection) : Sender :=
  { s with conns := s.conns.modify c f }

def wakeCalls (s : Sender) (c : ConnRef) : Sender :=
  { s with waiting := Waiting.wake s.waiting fun call => call.conn = c }

def lookup (s : Sender) (id : ConnId) : Option (ConnRef × Connection) := do
  let c ← s.table.get? id
  let conn ← s.conns[c]?
  return (c,conn)

/-- The open connection of a number, if its remote has accepted. -/
def established (s : Sender) (id : ConnId) : Option (ConnRef × Connection) :=
  (s.lookup id).filter fun e => e.2.outbox.established

def state (s : Sender) (id : ConnId) : Option ConnState := (s.lookup id).map (·.2.state)

def boundAddr (s : Sender) (id : ConnId) : Option Address := (s.lookup id).map (·.2.bound)

/-- The smallest window into which payloads are sent: room for a whole one. -/
def minWindow : Int32 := Int32.ofNat Frame.maxPayload

def signal (kind : Kind) (fragment : Int32) : Frame := ⟨kind,fragment,0,[]⟩

def dataFrame (piece : Int32 × Bytes) : Frame := ⟨.data,piece.1,0,piece.2⟩

/-- Hold as many pieces as there is room for; the rest, and the number of the last one held. -/
def hold (b : Outbox) (last : Int32) : List Bytes → List Bytes × Int32 × Outbox
  | [] => ([],last,b)
  | piece :: rest =>
    match b.push piece with
    | none => (piece :: rest,last,b)
    | some (fragment,b) => hold b fragment rest

/-- One try of a call. Whoever finds everything acknowledged and leaves says farewell and asks for
the close in this same step. -/
def attempt (s : Sender) (call : Call) : Outcome Call Result × List Output × Sender :=
  match s.conns[call.conn]? with
  | none => (.answer (.failed .closed),[],s)
  | some conn =>
    match call with
    | .connect c =>
      if conn.outbox.established then (.answer (.connected conn.id),[],s)
      else if conn.closed then (.answer (.failed .closed),[],s)
      else (.wait (.connect c),[],s)
    | .send c rest last =>
      if rest ≠ [] ∧ conn.closed then (.answer .dropped,[],s)
      else
        let held := hold conn.outbox last rest
        let s := s.modify c fun conn => { conn with outbox := held.2.2 }
        if held.1 ≠ [] then (.wait (.send c held.1 held.2.1),[],s)
        else if held.2.2.acked held.2.1 then (.answer .delivered,[],s)
        else if conn.closed then (.answer .dropped,[],s)
        else (.wait (.send c [] held.2.1),[],s)
    | .disconnect c =>
      if conn.closed then (.answer .disconnected,[],s)
      else if conn.outbox.drained then
        (.answer .disconnected,[.send c (signal .rcls 0)],(s.modify c .requestClose).wakeCalls c)
      else (.wait (.disconnect c),[],s)

def answer (s : Sender) (sent : List Output) (result : Result) : Sender × List Output :=
  ({ s with calls := s.calls + 1 },sent ++ [.finish s.calls result])

def enter (s : Sender) (call : Call) : Sender × List Output :=
  let t := s.attempt call
  match t.1 with
  | .answer result => t.2.2.answer t.2.1 result
  | .wait _ =>
    ({ t.2.2 with waiting := Waiting.enter t.2.2.waiting s.calls t.1, calls := s.calls + 1 },t.2.1)

/-- A woken call tries again; one that nobody woke does nothing. -/
def poll (s : Sender) (k : CallId) : Sender × List Output :=
  match Waiting.ready? s.waiting k with
  | none => (s,[])
  | some call =>
    let t := s.attempt call
    let s := { t.2.2 with waiting := Waiting.settle t.2.2.waiting k t.1 }
    match t.1 with
    | .answer result => (s,t.2.1 ++ [.finish k result])
    | .wait _ => (s,t.2.1)

/-- The woken calls try again, in the order in which they were made, for as many rounds as there
are calls that wake others by being answered, but at most `fuel`. -/
def settleRounds : Nat → Sender → Sender × List Output
  | 0, s => (s,[])
  | fuel+1, s =>
    if (Waiting.ready s.waiting).isEmpty then (s,[])
    else
      let now := chain poll s (Waiting.ready s.waiting)
      let later := settleRounds fuel now.1
      (later.1,now.2 ++ later.2)

/-- Woken calls try again until none is awake. A round that leaves one awake has answered one, so
that there are no more rounds than calls and one. -/
def settle (s : Sender) : Sender × List Output := settleRounds (s.waiting.length + 1) s

/-- Time to send what is buffered: all of it that the window allows, and then a sign of life. A
connection that is to be closed sends nothing more. -/
def onWake (s : Sender) (c : ConnRef) (now : Nat) : Sender × List Output :=
  match s.conns[c]? with
  | none => (s,[])
  | some conn =>
    if !conn.pumping then (s,[])
    else if conn.closing || conn.closed then
      (s.modify c fun conn => { conn with pumping := false },[])
    else
      let flushed := conn.outbox.flush now minWindow s.settings.resend.nanos
      (s.modify c fun conn => { conn with outbox := flushed.2 },
        (flushed.1.map dataFrame ++ [signal .data Frame.keepAlive]).map (.send c))

/-- The remote accepts. Only the first time counts: the connection then sends what is buffered and
counts silence. -/
def onAccept (s : Sender) (c : ConnRef) (conn : Connection) (window : Int32) (now : Nat) :
    Sender × List Output :=
  match conn.outbox.establish window now with
  | none => (s,[])
  | some outbox =>
    let s := s.modify c fun conn =>
      { conn with
        outbox := outbox
        silence := conn.silence.reset
        state := .connected
        pumping := true
        checking := true }
    (s.wakeCalls c).onWake c now

/-- The remote acknowledges fragments. It counts as a sign of life unless a close was asked for. -/
def onAcknowledge (s : Sender) (c : ConnRef) (conn : Connection) (fragment window : Int32)
    (now : Nat) : Sender :=
  let heard := conn.outbox.acknowledge fragment window now
  let s := s.modify c fun conn =>
    { conn with
      outbox := heard.2
      silence := if conn.closing then conn.silence else conn.silence.reset }
  if 0 < heard.1 then s.wakeCalls c else s

def onDatagram (s : Sender) (c : ConnRef) (source : Address) (raw : Bytes) (now : Nat) :
    Sender × List Output :=
  match s.conns[c]? with
  | none => (s,[])
  | some conn =>
    if !conn.listening || source ≠ conn.remote then (s,[])
    else
      match Frame.receive raw with
      | .error _ => (s,[])
      | .ok frame =>
        match frame.kind with
        | .acon => s.onAccept c conn frame.window now
        | .adat => (s.onAcknowledge c conn frame.fragment frame.window now,[])
        | .acls => ((s.modify c .requestClose).wakeCalls c,[])
        | _ => (s,[])

/-- Time to repeat a request to connect, as long as its caller waits. It does not matter whether the
remote has accepted: a caller who has had no turn since asks once more. -/
def onRetry (s : Sender) (c : ConnRef) : Sender × List Output :=
  if s.waiting.any fun w => w.call = .connect c then (s,[.send c (signal .rcon 0)]) else (s,[])

/-- One more period of a remote's silence, which may be one too many. -/
def onTick (s : Sender) (c : ConnRef) : Sender :=
  match s.conns[c]? with
  | none => s
  | some conn =>
    if conn.checking then
      let silence := conn.silence.tick s.settings.period
      let s := s.modify c fun conn => { conn with silence }
      if silence.expired then
        let s := { s with table := (s.table.remove conn.id).2 }
        (s.modify c fun conn => { conn.teardown with checking := false }).wakeCalls c
      else s
    else s

/-- Every open connection is torn down at once. -/
def shut (s : Sender) : Sender :=
  let drained := s.table.drain
  drained.1.foldl (fun s c => (s.modify c fun conn => conn.requestClose.teardown).wakeCalls c)
    { s with table := drained.2 }

/-- A connection is asked for. Its first request is part of this step: no datagram is taken to reach
the new socket before, so that the remote has not accepted yet. -/
def onConnect (s : Sender) (bound remote : Address) (now : Nat) : Sender × List Output :=
  let allocated := s.table.allocate
  let c := s.conns.length
  let s := { s with
    conns := s.conns ++ [Connection.start allocated.1 bound remote s.settings.threshold now]
    table := allocated.2.insert allocated.1 c }
  let entered := s.enter (.connect c)
  (entered.1,.send c (signal .rcon 0) :: entered.2)

/-- What one event asks, without letting any woken call try again. -/
def react (s : Sender) : Event → Sender × List Output
  | .connect bound remote refused now =>
    match refused with
    | some cause => s.answer [] (.failed (.bind bound cause))
    | none => s.onConnect bound remote now
  | .send id data =>
    match s.established id with
    | none => s.answer [] (.failed (.unknownConnection id))
    | some (c,_) =>
      if data = [] then s.answer [] .delivered
      else s.enter (.send c (chunks Frame.maxPayload data) 0)
  | .disconnect id =>
    match s.established id with
    | none => s.answer [] (.failed (.unknownConnection id))
    | some (c,conn) =>
      if conn.closing then s.answer [] .disconnected
      else (s.modify c fun conn => { conn with state := .draining }).enter (.disconnect c)
  | .close => s.shut.answer [] .shut
  | .datagram c source raw now => s.onDatagram c source raw now
  | .retry c => s.onRetry c
  | .wake c now => s.onWake c now
  | .tick c => (s.onTick c,[])

/-- One event and all that follows from it. -/
def step (s : Sender) (e : Event) : Sender × List Output :=
  let now := s.react e
  let later := now.1.settle
  (later.1,now.2 ++ later.2)

def run : Sender → List Event → Sender × List Output := chain step

end Sender
end ReliableTransport
