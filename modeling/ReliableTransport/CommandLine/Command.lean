import ReliableTransport.CommandLine.Grammar
import ReliableTransport.CommandLine.Numeral
import ReliableTransport.Config
import ReliableTransport.Net.Address.Reader
import ReliableTransport.Relay.Fault

/-! The commands of the program: send standard input over one connection, print what several
senders deliver, print numbers to send, and relay datagrams with faults. Timing options may stand
before and after the command's name; the later ones count. -/
namespace ReliableTransport

inductive Command
  | sender (remote : Ip) (port localPort : UInt16)
  | receiver (connections : Nat) (port : UInt16)
  | numbers (max : Nat) (comma : Bool)
  | relay (listen server : Address) (rates : Fault.Rates) (seed : UInt64)

namespace Command

def defaultPort : UInt16 := 4242

def chunk : Nat := 1000

def long64 (s : String) : Option UInt64 := (Numeral.natural UInt64.size s).map .ofNat

def port16 (s : String) : Option UInt16 := (Numeral.small UInt16.size s).map .ofNat

def valued {α : Type} (name : String) (short : Option Char) (read : String → Option α) : Switch :=
  ⟨name,short,some fun s => (read s).isSome⟩

def timing : List Switch :=
  [valued "checker-ms" none long64,
    valued "timeout-ticks" none (Numeral.small UInt32.size),
    valued "sender-ms" none long64,
    valued "rcon-ms" none long64,
    valued "resend-ms" none long64]

def program : Grammar := ⟨timing,[],true⟩

def senderGrammar : Grammar where
  switches := timing ++
    [valued "remote" (some 'r') Ip.ofText?,
      valued "port" (some 'p') port16,
      valued "local-port" (some 'l') port16]
  positionals := []
  version := false

def receiverGrammar : Grammar where
  switches := timing ++ [valued "port" (some 'p') port16]
  positionals := [fun s => (Numeral.natural UInt64.size s).isSome]
  version := false

def numbersGrammar : Grammar where
  switches := timing ++ [⟨"comma",none,none⟩]
  positionals := [fun s => (Numeral.natural UInt64.size s).isSome]
  version := false

def relayGrammar : Grammar where
  switches := timing ++
    [valued "listen" none Address.ofText?,
      valued "upstream" none Address.ofText?,
      valued "loss" none Numeral.fraction,
      valued "duplicate" none Numeral.fraction,
      valued "corrupt" none Numeral.fraction,
      valued "delay-rate" none Numeral.fraction,
      valued "delay-ms" none long64,
      valued "seed" none long64]
  positionals := []
  version := false

def grammar? : String → Option Grammar
  | "sender" => some senderGrammar
  | "receiver" => some receiverGrammar
  | "numbers" => some numbersGrammar
  | "relay" => some relayGrammar
  | _ => none

/-- The value of an option, or what stands for it where it is not given. -/
def given {α : Type} (w : Words) (name : String) (read : String → Option α) (otherwise : α) : α :=
  ((w.option? name).bind read).getD otherwise

/-- The command that a name and its words ask for, unless something it needs is missing. -/
def ofWords? (name : String) (w : Words) : Option Command :=
  match name with
  | "sender" =>
    some (.sender (given w "remote" Ip.ofText? .localhost) (given w "port" port16 defaultPort)
      (given w "local-port" port16 0))
  | "receiver" => do
    let n ← w.positionals[0]?.bind (Numeral.natural UInt64.size)
    return .receiver n (given w "port" port16 defaultPort)
  | "numbers" => do
    let n ← w.positionals[0]?.bind (Numeral.natural UInt64.size)
    return .numbers n (w.option? "comma").isSome
  | "relay" => do
    let listen ← (w.option? "listen").bind Address.ofText?
    let server ← (w.option? "upstream").bind Address.ofText?
    let rate := fun name => Rate.ofFloat (given w name Numeral.fraction 0)
    return .relay listen server
      { loss := rate "loss"
        duplicate := rate "duplicate"
        corrupt := rate "corrupt"
        delayed := rate "delay-rate"
        delay := .ofMillis (given w "delay-ms" long64 0) }
      (given w "seed" long64 0)
  | _ => none

/-- The configuration that the timing options ask for, those of the command first. -/
def config (before after : Words) : Config :=
  let w : Words := ⟨after.options ++ before.options,[]⟩
  { Config.standard with
    checkerPeriod := given w "checker-ms" (fun s => (long64 s).map .ofMillis)
      Config.standard.checkerPeriod
    timeoutTicks := given w "timeout-ticks" (fun s => (Numeral.small UInt32.size s).map .ofNat)
      Config.standard.timeoutTicks
    senderPeriod := given w "sender-ms" (fun s => (long64 s).map .ofMillis)
      Config.standard.senderPeriod
    rconPeriod := given w "rcon-ms" (fun s => (long64 s).map .ofMillis)
      Config.standard.rconPeriod
    resendThreshold := given w "resend-ms" (fun s => (long64 s).map .ofMillis)
      Config.standard.resendThreshold }

def known (s : String) : Bool := s = "help" || (grammar? s).isSome

/-- How a request for help on some words ends: there is help on single commands only. -/
def helpOn : List String → Stop
  | [] => .help
  | [name] => if known name then .help else .usage
  | _ => .usage

def parse (args : List String) : Except Stop (Config × Command) := do
  let (before,rest) ← program.scan known args .empty none
  match rest with
  | [] => throw .usage
  | name :: rest =>
    match grammar? name with
    | none => throw (helpOn rest)
    | some g =>
      let (after,_) ← g.scan (fun _ => false) rest .empty none
      match ofWords? name after with
      | none => throw .usage
      | some command => return (config before after,command)

/-- A number, followed by a line end or by a comma and a blank. -/
def numberText (comma : Bool) (n : Nat) : String := toString n ++ if comma then ", " else "\n"

def numbersText (max : Nat) (comma : Bool) : String :=
  (List.range (max + 1)).foldl (fun text n => text ++ numberText comma n) ""

end Command
end ReliableTransport
