import ReliableTransport.CallError
import ReliableTransport.CommandLine.Grammar
import ReliableTransport.CommandLine.Input

/-! How the program ends, and what it says then. A failure is reported with what was being done and
then every cause, counted where there are several. -/
namespace ReliableTransport

/-- What the program writes to standard error once all of its input is sent. -/
def Input.ended : String := "[EOF received; ending data collection...]\n"

namespace Report

def version : String := "mrt 0.1.0\n"

def help : String :=
  "Usage: mrt [TIMING] sender [-r IP] [-p PORT] [-l PORT]\n" ++
  "       mrt [TIMING] receiver CONNECTIONS [-p PORT]\n" ++
  "       mrt [TIMING] numbers MAX [--comma]\n" ++
  "       mrt [TIMING] relay --listen ADDRESS --upstream ADDRESS [--loss RATE]\n" ++
  "           [--duplicate RATE] [--corrupt RATE] [--delay-rate RATE] [--delay-ms MS]\n" ++
  "           [--seed SEED]\n" ++
  "TIMING: [--checker-ms MS] [--timeout-ticks N] [--sender-ms MS] [--rcon-ms MS]\n" ++
  "        [--resend-ms MS]\n"

def failed : Nat := 1

def code : Stop → Nat
  | .usage => 2
  | .help | .version => 0

def output : Stop → String
  | .usage => ""
  | .help => help
  | .version => version

def column (n : Nat) : String :=
  let digits := toString n
  String.ofList (List.replicate (5 - digits.length) ' ') ++ digits

def causes : List String → String
  | [] => ""
  | [cause] => "\n\nCaused by:\n    " ++ cause
  | several =>
    "\n\nCaused by:" ++
      String.join (several.mapIdx fun i cause => "\n" ++ column i ++ ": " ++ cause)

def failure (what : String) (why : List String) : String :=
  "Error: " ++ what ++ causes why ++ "\n"

/-- A call failed and nothing is said about what it was for. -/
def call (e : CallError) : String := failure e.message e.cause?.toList

/-- A call failed in an attempt to do something. -/
def attempt (what : String) (e : CallError) : String :=
  failure what (e.message :: e.cause?.toList)

def dropped (id : ConnId) : String :=
  failure ("connection " ++ ConnId.text id ++ " dropped by the receiver") []

end Report
end ReliableTransport
