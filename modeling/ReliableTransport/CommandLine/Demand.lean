import ReliableTransport.CommandLine.Command

/-! What a command needs before it can begin. A sender needs a tolerated silence that is a duration
and requests that do not all come at once; a receiver needs a place for every peer it waits for.
What cannot be had ends the program before any datagram is sent. -/
namespace ReliableTransport

inductive Refusal
  | overflow (error : Overflow)
  | unspaced
  | exhausted (bytes : Nat)
  deriving DecidableEq

namespace Refusal

def message : Refusal → String
  | overflow error => error.message
  | unspaced => "the period between requests must not be zero"
  | exhausted bytes => "memory allocation of " ++ toString bytes ++ " bytes failed"

/-- The exit code; a program that runs out of memory is stopped by its host and has none. -/
def code? : Refusal → Option Nat
  | overflow _ | unspaced => some 101
  | exhausted _ => none

end Refusal

namespace Command

def placeSize : Nat := 32

def addressSpace : Nat := 140737488355328

/-- Places for so many peers, or why they cannot be had. -/
def places (connections : Nat) : Except Refusal Unit :=
  let bytes := connections*placeSize
  if maxRoom < bytes then .error (.overflow .bufferCapacity)
  else if addressSpace < bytes then .error (.exhausted bytes)
  else .ok ()

def demand (config : Config) : Command → Except Refusal Unit
  | sender _ _ _ =>
    match config.silenceThreshold with
    | .error error => .error (.overflow error)
    | .ok _ => if config.spaced then .ok () else .error .unspaced
  | receiver connections _ => places connections
  | numbers _ _ | relay _ _ _ _ => .ok ()

/-- A command that has nothing to wait for: it does its work and ends. -/
def immediate : Command → Bool
  | numbers _ _ => true
  | receiver connections _ => connections = 0
  | sender _ _ _ | relay _ _ _ _ => false

end Command
end ReliableTransport
