import ReliableTransport.CommandLine.Command
import ReliableTransport.CommandLine.Demand
import ReliableTransport.CommandLine.Input
import ReliableTransport.CommandLine.Report
import ReliableTransport.Receiver.Clocked
import ReliableTransport.Relay.Dice
import ReliableTransport.Relay.Engine
import ReliableTransport.Sender.Clocked
import ReliableTransport.Time.Backoff
import ReliableTransport.Transfer
import Std.Async.Select
import Std.Async.Signal
import Std.Async.Timer
import Std.Async.UDP

/-! The program on a real host: sockets, a clock, standard input and output. Everything it decides
is decided by the engines; here their datagrams are sent, and what arrives is handed to them. -/
namespace ReliableTransport
namespace Program

open Std.Async

abbrev Run := ExceptT UInt32 IO

def fail {α : Type} (report : String) : Run α := do
  IO.eprint report
  throw (.ofNat Report.failed)

def toHost (a : Address) : Std.Net.SocketAddress :=
  match a.ip with
  | .v4 bits => .v4 ⟨⟨Vector.ofFn fun i => UInt8.ofNat (Ip.octet bits i)⟩,a.port⟩
  | .v6 bits => .v6 ⟨⟨Vector.ofFn fun i => UInt16.ofNat (Ip.group bits i)⟩,a.port⟩

def ofHost : Std.Net.SocketAddress → Address
  | .v4 a =>
    ⟨.v4 (.ofNat 32 (a.addr.octets.toList.foldl (fun v b => v*256 + b.toNat) 0)),0,a.port⟩
  | .v6 a => ⟨.v6 (Ip.ofGroups (a.addr.segments.toList.map (·.toNat))),0,a.port⟩

/-- A socket, and how often in a row nothing could be received from it. -/
structure Line where
  socket : UDP.Socket
  failures : IO.Ref Nat

namespace Line

def bind (a : Address) : IO (Except String Line) := do
  try
    let socket ← UDP.Socket.mk
    socket.bind (toHost a)
    return .ok ⟨socket,← IO.mkRef 0⟩
  catch e => return .error (toString e)

/-- Sends a datagram; one that cannot be sent counts as lost. -/
def send (l : Line) (dest : Address) (raw : Bytes) : IO Unit := do
  try (l.socket.send ⟨raw.toArray⟩ (some (toHost dest))).block catch _ => return

def hear {α : Type} (l : Line) (f : Address → Bytes → α) : Selectable (Option α) :=
  .case (l.socket.recvSelector 65535) fun x => do
    l.failures.set 0
    return x.2.map fun source => f (ofHost source) x.1.data.toList

/-- After a failure the line rests for a while. -/
def rest (l : Line) : IO Unit := do
  let n := (← l.failures.get) + 1
  l.failures.set n
  IO.sleep (.ofNat ((Backoff.pause n).nanos / 1000000))

end Line

def longestWait : Nat := 1000000000

def glance : Nat := 10000000

def await {α : Type} (lines : List Line) (now : Nat) (due : Option Nat)
    (things : Array (Selectable (Option α))) : IO (Option α) := do
  let wait := min longestWait ((due.map fun t => t - now).getD longestWait)
  try
    let sleep ← (Selector.sleep (.ofNat ((wait + 999999) / 1000000))).block
    (Selectable.one (things.push (.case sleep fun _ => return none))).block
  catch _ =>
    lines.forM Line.rest
    return none

/-- What cannot be had ends the program, without memory as its host would end it. -/
def obtain {α : Type} : Except Refusal α → Run α
  | .ok a => return a
  | .error e => do
    IO.eprintln e.message
    throw (.ofNat (e.code?.getD 134))

/-- Settings that cannot be had end the program. -/
def settings {α : Type} (s : Except Overflow α) : Run α := obtain (s.mapError .overflow)

/-! The receiver. -/

structure Inbound where
  line : Line
  start : Nat
  engine : Receiver.Clocked
  program : Transfer.Reading
  waits : Bool

def Inbound.emit (s : Inbound) (t : Receiver.Clocked × List Receiver.Output) : Run Inbound := do
  let mut s := { s with engine := t.1 }
  for o in t.2 do
    match o with
    | .send dest frame => s.line.send dest frame.encode
    | .finish _ (.failed e) => fail (Report.call e)
    | .finish _ result =>
      let program := s.program.hear result
      let out ← IO.getStdout
      out.write ⟨program.received.toArray⟩
      out.flush
      s := { s with program := { program with received := [] }, waits := false }
  return s

/-- Receives until every peer has been read to its end. -/
partial def Inbound.serve (s : Inbound) (arrived : Option (Address × Bytes)) : Run Unit := do
  let s ← s.emit (s.engine.advance ((← IO.monoNanosNow) - s.start))
  let s ← match arrived with
    | some (source,raw) => s.emit (s.engine.handle (.datagram source raw))
    | none => pure s
  if s.waits then
    s.serve (← await [s.line] s.engine.now s.engine.alarms.next? #[s.line.hear (·,·)])
  else
    match s.program.call with
    | some e => (← { s with waits := true }.emit (s.engine.handle e)).serve none
    | none => return

def receive (config : Config) (connections : Nat) (port : UInt16) (demand : Except Refusal Unit) :
    Run Unit := do
  let addr : Address := ⟨.anyHost,0,port⟩
  match ← Line.bind addr with
  | .error cause => fail (Report.attempt "mrt open failed" (.bind addr cause))
  | .ok line =>
    obtain demand
    if connections = 0 then return
    Inbound.serve ⟨line,← IO.monoNanosNow,.start config.receiver,
      .start connections Command.chunk,false⟩ none

/-! The sender. -/

/-- A line of standard input with its end; none at the end of the input. -/
partial def readLine (input : IO.FS.Stream) (line : Bytes) : IO Bytes := do
  match (← input.read 1).data.toList with
  | [] => return line.reverse
  | b :: _ => if b = 10 then return (b :: line).reverse else readLine input (b :: line)

inductive Feed
  | idle
  | reading (line : Task (Except IO.Error Bytes))
  | ended

structure Outbound where
  line : Line
  start : Nat
  engine : Sender.Clocked
  program : Transfer.Sending
  waits : Bool
  feed : Feed

def Outbound.emit (s : Outbound) (t : Sender.Clocked × List Sender.Output) : Run Outbound := do
  let mut s := { s with engine := t.1 }
  for o in t.2 do
    match o with
    | .send _ frame => s.line.send s.program.remote frame.encode
    | .finish _ (.failed e) =>
      fail (if s.program.id.isNone then Report.attempt "mrt connect failed" e else Report.call e)
    | .finish _ .dropped => fail (Report.dropped (s.program.id.getD 0))
    | .finish _ result => s := { s with program := s.program.hear result, waits := false }
  return s

def Outbound.hungry (s : Outbound) : Bool :=
  !s.waits && s.program.id.isSome && s.program.messages.isEmpty && !s.feed matches .ended

/-- Takes a line of input once it has been read. -/
def Outbound.take (s : Outbound) : Run Outbound := do
  match s.feed with
  | .ended => return s
  | .idle =>
    return { s with feed := .reading (← (readLine (← IO.getStdin) []).asTask .dedicated) }
  | .reading line =>
    if !(← IO.hasFinished line) then return s
    match line.get with
    | .error e => fail (Report.failure (toString e) [])
    | .ok [] =>
      IO.eprint Input.ended
      return { s with feed := .ended }
    | .ok line =>
      match Input.messages Command.chunk line with
      | (_,some fault) => fail (Report.failure fault.message [])
      | (messages,none) => return { s with program := { s.program with messages }, feed := .idle }

/-- Sends until the input has ended and the connection is closed. -/
partial def Outbound.serve (s : Outbound) (arrived : Option (Address × Bytes)) : Run Unit := do
  let now := (← IO.monoNanosNow) - s.start
  let s ← s.emit (s.engine.advance now)
  let s ← match arrived with
    | some (source,raw) => s.emit (s.engine.handle (.datagram 0 source raw now))
    | none => pure s
  let s ← if s.hungry then s.take else pure s
  if s.waits || s.hungry then
    let due := s.engine.alarms.next?
    let due := if s.hungry then some (min (due.getD (now + glance)) (now + glance)) else due
    s.serve (← await [s.line] now due #[s.line.hear (·,·)])
  else
    match s.program.call now with
    | some e => (← { s with waits := true }.emit (s.engine.handle e)).serve none
    | none => return

def send (config : Config) (ip : Ip) (port localPort : UInt16) (demand : Except Refusal Unit) :
    Run Unit := do
  let bound := Address.unspecified ip localPort
  match ← Line.bind bound with
  | .error cause => fail (Report.attempt "mrt connect failed" (.bind bound cause))
  | .ok line =>
    obtain demand
    let engine := Sender.Clocked.start (← settings config.sender)
      ⟨config.rconPeriod,config.senderPeriod⟩
    Outbound.serve ⟨line,← IO.monoNanosNow,engine,.start bound ⟨ip,0,port⟩ [] true,false,.idle⟩ none

/-! The relay. -/

/-- A relay at work: the socket for the clients and the one for the server. -/
structure Between where
  front : Line
  back : Line
  server : Address
  start : Nat
  relay : Relay
  dice : Fault.Dice

def Between.handle (s : Between) (e : Relay.Event) : IO Between := do
  let t := s.relay.step e
  for o in t.2 do
    match o.dest with
    | .server => s.back.send s.server o.datagram
    | .client addr => s.front.send addr o.datagram
  return { s with relay := t.1 }

inductive Between.Heard
  | client (source : Address) (raw : Bytes)
  | server (raw : Bytes)

/-- Relays until it is interrupted. -/
partial def Between.serve (s : Between) (interrupt : AsyncTask Int) : IO Unit := do
  if ← IO.hasFinished interrupt then return
  let soon := s.relay.now + glance
  let heard : Option Heard ← await [s.front,s.back] s.relay.now
    (some (min (s.relay.next?.getD soon) soon))
    #[s.front.hear .client,s.back.hear fun _ raw => .server raw]
  let s ← s.handle (.advance ((← IO.monoNanosNow) - s.start))
  let thrown := s.dice.draws
  match heard with
  | none => s.serve interrupt
  | some (.client source raw) =>
    (← { s with dice := thrown.2 }.handle (.fromClient source raw thrown.1)).serve interrupt
  | some (.server raw) =>
    (← { s with dice := thrown.2 }.handle (.fromServer raw thrown.1)).serve interrupt

def relay (listen server : Address) (rates : Fault.Rates) (seed : UInt64) : Run Unit := do
  let what := "starting relay on " ++ listen.text
  match ← Line.bind listen, ← Line.bind (.unspecified server.ip 0) with
  | .ok front, .ok back =>
    Between.serve ⟨front,back,server,← IO.monoNanosNow,.start rates,seed⟩
      (← (← Signal.Waiter.mk .sigint false).wait)
  | .error cause, _ | _, .error cause => fail (Report.failure what [cause])

/-! All commands. -/

/-- Prints numbers from `n` on. -/
partial def numbers (out : IO.FS.Stream) (max : Nat) (comma : Bool) (n : Nat) : IO Unit := do
  if max < n then out.flush
  else
    out.putStr (Command.numberText comma n)
    numbers out max comma (n + 1)

def run (args : List String) : Run Unit := do
  match Command.parse args with
  | .error .usage =>
    IO.eprint Report.help
    throw (.ofNat (Report.code .usage))
  | .error stop =>
    IO.print (Report.output stop)
    throw (.ofNat (Report.code stop))
  | .ok (config,command) =>
    let demand := command.demand config
    match command with
    | .sender ip port localPort => send config ip port localPort demand
    | .receiver connections port => receive config connections port demand
    | .numbers max comma => numbers (← IO.getStdout) max comma 0
    | .relay listen server rates seed => relay listen server rates seed

end Program
end ReliableTransport

def main (args : List String) : IO UInt32 := do
  match ← (ReliableTransport.Program.run args).run with
  | .ok () => return 0
  | .error code => return code
