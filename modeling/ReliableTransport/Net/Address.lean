import ReliableTransport.Wire.Hex

/-! Internet addresses and their text. A version 4 address is four decimal numbers, a version 6
address eight hexadecimal groups of which the longest run of zeros, the first one of several, is
left out; an address that wraps a version 4 one shows it. -/
namespace ReliableTransport

inductive Ip
  | v4 (bits : BitVec 32)
  | v6 (bits : BitVec 128)
  deriving DecidableEq

/-- An address of a socket. Only version 6 has scopes; zero is none. -/
structure Address where
  ip : Ip
  scope : UInt32
  port : UInt16
  deriving DecidableEq

namespace Ip

def octet (bits : BitVec 32) (i : Nat) : Nat := (bits.extractLsb' (8*(3 - i)) 8).toNat

def group (bits : BitVec 128) (i : Nat) : Nat := (bits.extractLsb' (16*(7 - i)) 16).toNat

def ofOctets (a b c d : Nat) : BitVec 32 := .ofNat 32 (((a*256 + b)*256 + c)*256 + d)

def ofGroups (groups : List Nat) : BitVec 128 := .ofNat 128 (groups.foldl (fun v g => v*65536 + g) 0)

def localhost : Ip := .v4 (ofOctets 127 0 0 1)

def anyHost : Ip := .v4 0

def groupText (g : Nat) : String :=
  let digits := (Hex.numeral 4 g).dropWhile (· = '0')
  if digits.isEmpty then "0" else String.ofList digits

def groupsText (groups : List Nat) : String := ":".intercalate (groups.map groupText)

/-- Where the longest run of zeros starts and how long it is, the first one of several. -/
def longestZeros (groups : List Nat) : Nat × Nat :=
  go groups 0 (0,0) (0,0)
where
  /-- Looks at the groups from position `i` on, with the run that is under way and the longest. -/
  go : List Nat → Nat → Nat × Nat → Nat × Nat → Nat × Nat
    | [], _, _, best => best
    | g :: gs, i, run, best =>
      if g = 0 then
        let run := if run.2 = 0 then (i,1) else (run.1,run.2 + 1)
        go gs (i + 1) run (if best.2 < run.2 then run else best)
      else go gs (i + 1) (0,0) best

def textV4 (bits : BitVec 32) : String :=
  ".".intercalate ((List.range 4).map fun i => toString (octet bits i))

def textV6 (bits : BitVec 128) : String :=
  let groups := (List.range 8).map (group bits)
  if groups.take 6 = [0,0,0,0,0,65535] then
    "::ffff:" ++ textV4 (.ofNat 32 bits.toNat)
  else
    let zeros := longestZeros groups
    if 1 < zeros.2 then
      groupsText (groups.take zeros.1) ++ "::" ++ groupsText (groups.drop (zeros.1 + zeros.2))
    else groupsText groups

def text : Ip → String
  | v4 bits => textV4 bits
  | v6 bits => textV6 bits

end Ip

namespace Address

def localhost (port : UInt16) : Address := ⟨.localhost,0,port⟩

def unspecified (remote : Ip) (port : UInt16) : Address :=
  match remote with
  | .v4 _ => ⟨.v4 0,0,port⟩
  | .v6 _ => ⟨.v6 0,0,port⟩

def text (a : Address) : String :=
  match a.ip with
  | .v4 bits => Ip.textV4 bits ++ ":" ++ toString a.port.toNat
  | .v6 bits =>
    let scope := if a.scope = 0 then "" else "%" ++ toString a.scope.toNat
    "[" ++ Ip.textV6 bits ++ scope ++ "]:" ++ toString a.port.toNat

end Address
end ReliableTransport
