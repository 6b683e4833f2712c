import ReliableTransport.Net.Address
import ReliableTransport.Wire.Frame

/-! What a caller can be told instead of an answer. Faults of single datagrams never get here:
they are dropped where they arrive. -/
namespace ReliableTransport

/-- The number of a connection at its sender. -/
abbrev ConnId := UInt32

def ConnId.text (id : ConnId) : String := "#" ++ toString id.toNat

/-- Why a call fails. The host's own words are kept where it refused something. -/
inductive CallError
  | bind (addr : Address) (cause : String)
  | io (cause : String)
  | unknownConnection (id : ConnId)
  | notConnected (addr : Address)
  | closed
  deriving DecidableEq

namespace CallError

def message : CallError → String
  | bind addr cause => "failed to bind " ++ addr.text ++ ": " ++ cause
  | io cause => "I/O error: " ++ cause
  | unknownConnection id => "unknown connection " ++ ConnId.text id
  | notConnected addr => "peer " ++ addr.text ++ " is not connected"
  | closed => "engine is closed"

def cause? : CallError → Option String
  | bind _ cause => some cause
  | io cause => some cause
  | _ => none

end CallError

inductive SocketError
  | io (cause : String)
  | frame (error : FrameError)
  deriving DecidableEq

namespace SocketError

def message : SocketError → String
  | io cause => "socket I/O error: " ++ cause
  | frame error => "frame decode error: " ++ error.message

def cause : SocketError → String
  | io cause => cause
  | frame error => error.message

end SocketError
end ReliableTransport
