import ReliableTransport.Net.Address

/-! Reading addresses. A reader takes what it understands from the front of a text and hands back
the rest; an address must leave nothing. Numbers of a version 4 address have at most three digits
and no leading zero, groups at most four digits; a version 6 address may end in a version 4 one,
and two colons stand for at least one group of zeros. -/
namespace ReliableTransport
namespace Address

abbrev Reader (α : Type) := List Char → Option (α × List Char)

/-- The value of a digit in a base up to sixteen, letters of either case. -/
def digitValue (base : Nat) (c : Char) : Option Nat :=
  let v :=
    if '0' ≤ c ∧ c ≤ '9' then c.toNat - 48
    else if 'a' ≤ c ∧ c ≤ 'f' then c.toNat - 87
    else if 'A' ≤ c ∧ c ≤ 'F' then c.toNat - 55
    else base
  if v < base then some v else none

def digits (base : Nat) (cs : List Char) : List Nat :=
  (cs.takeWhile fun c => (digitValue base c).isSome).filterMap (digitValue base)

/-- A number below `bound`, of at most `width` digits if a width is given. -/
def number (base : Nat) (width : Option Nat) (leadingZero : Bool) (bound : Nat) : Reader Nat :=
  fun cs =>
    let ds := digits base cs
    let v := ds.foldl (fun v d => v*base + d) 0
    let tooWide := match width with
      | some w => w < ds.length
      | none => false
    if ds.isEmpty || tooWide || bound ≤ v then none
    else if !leadingZero && ds.head? = some 0 && 1 < ds.length then none
    else some (v,cs.drop ds.length)

def char (c : Char) : Reader Unit
  | d :: cs => if d = c then some ((),cs) else none
  | [] => none

def separated {α : Type} (sep : Char) (i : Nat) (read : Reader α) : Reader α := fun cs =>
  if i = 0 then read cs else (char sep cs).bind fun r => read r.2

def readV4 : Reader (BitVec 32) := fun cs => do
  let (a,cs) ← number 10 (some 3) false 256 cs
  let (b,cs) ← separated '.' 1 (number 10 (some 3) false 256) cs
  let (c,cs) ← separated '.' 1 (number 10 (some 3) false 256) cs
  let (d,cs) ← separated '.' 1 (number 10 (some 3) false 256) cs
  return (Ip.ofOctets a b c d,cs)

/-- As many groups as there are, `fuel` at most, where a version 4 address counts for the last
two; the flag tells whether there was one. -/
def readGroups : Nat → Nat → List Char → List Nat × Bool × List Char
  | 0, _, cs => ([],false,cs)
  | fuel+1, i, cs =>
    match if 0 < fuel then separated ':' i readV4 cs else none with
    | some (bits,cs) => ([bits.toNat / 65536,bits.toNat % 65536],true,cs)
    | none =>
      match separated ':' i (number 16 (some 4) true 65536) cs with
      | some (g,cs) =>
        let (gs,wrapped,cs) := readGroups fuel (i + 1) cs
        (g :: gs,wrapped,cs)
      | none => ([],false,cs)

def readV6 : Reader (BitVec 128) := fun cs =>
  let (front,wrapped,cs) := readGroups 8 0 cs
  if front.length = 8 then some (Ip.ofGroups front,cs)
  else if wrapped then none
  else do
    let (_,cs) ← char ':' cs
    let (_,cs) ← char ':' cs
    let (back,_,cs) := readGroups (7 - front.length) 0 cs
    return (Ip.ofGroups (front ++ .replicate (8 - front.length - back.length) 0 ++ back),cs)

def readPort : Reader UInt16 := fun cs => do
  let (_,cs) ← char ':' cs
  let (port,cs) ← number 10 none true 65536 cs
  return (.ofNat port,cs)

def readSocketV4 : Reader Address := fun cs => do
  let (bits,cs) ← readV4 cs
  let (port,cs) ← readPort cs
  return (⟨.v4 bits,0,port⟩,cs)

def readScope (cs : List Char) : UInt32 × List Char :=
  match (char '%' cs).bind fun r => number 10 none true UInt32.size r.2 with
  | some (scope,cs) => (.ofNat scope,cs)
  | none => (0,cs)

def readSocketV6 : Reader Address := fun cs => do
  let (_,cs) ← char '[' cs
  let (bits,cs) ← readV6 cs
  let (scope,cs) := readScope cs
  let (_,cs) ← char ']' cs
  let (port,cs) ← readPort cs
  return (⟨.v6 bits,scope,port⟩,cs)

def whole {α : Type} (read : Reader α) (s : String) : Option α :=
  match read s.toList with
  | some (a,[]) => some a
  | _ => none

def ofText? (s : String) : Option Address :=
  (whole readSocketV4 s).or (whole readSocketV6 s)

end Address

def Ip.ofText? (s : String) : Option Ip :=
  ((Address.whole Address.readV4 s).map .v4).or ((Address.whole Address.readV6 s).map .v6)

end ReliableTransport
