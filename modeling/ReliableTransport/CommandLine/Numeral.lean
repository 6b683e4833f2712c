/-! Numbers as they are typed on a command line. Whole numbers are decimal, may carry a plus sign
and leading zeros, and must fit; a small one may also be minus zero. Fractions are decimal with an
optional exponent, or one of the words for infinity and for no number. -/
namespace ReliableTransport
namespace Numeral

def digit? (c : Char) : Option Nat :=
  if '0' ≤ c ∧ c ≤ '9' then some (c.toNat - 48) else none

def digits? (cs : List Char) : Option Nat :=
  if cs.isEmpty then none
  else cs.foldlM (fun v c => (digit? c).map fun d => v*10 + d) 0

def natural (bound : Nat) (s : String) : Option Nat :=
  let v := match s.toList with
    | '+' :: cs => digits? cs
    | cs => digits? cs
  v.filter (· < bound)

/-- A whole number below `bound` that may carry a minus sign, if it is zero. -/
def small (bound : Nat) (s : String) : Option Nat :=
  match s.toList with
  | '-' :: cs => (digits? cs).filter (· = 0)
  | _ => natural bound s

def spanDigits (cs : List Char) : List Nat × List Char :=
  ((cs.takeWhile fun c => (digit? c).isSome).filterMap digit?,
    cs.dropWhile fun c => (digit? c).isSome)

def value (ds : List Nat) : Nat := ds.foldl (fun v d => v*10 + d) 0

def exponent? : List Char → Option Int
  | [] => some 0
  | e :: cs =>
    if e = 'e' ∨ e = 'E' then
      match cs with
      | '-' :: cs => (digits? cs).map fun n => -(n : Int)
      | '+' :: cs => (digits? cs).map fun n => (n : Int)
      | cs => (digits? cs).map fun n => (n : Int)
    else none

/-- The number nearest to `m` times a power of ten; powers beyond any float are not computed. -/
def scaled (m : Nat) (e : Int) (width : Nat) : Float :=
  if m = 0 then 0
  else if 400 < e + width then 1.0 / 0.0
  else if e + width < -400 then 0
  else if 0 ≤ e then Float.ofScientific m false e.toNat
  else Float.ofScientific m true (-e).toNat

def magnitude (cs : List Char) : Option Float :=
  let word := String.ofList (cs.map Char.toLower)
  if word = "inf" ∨ word = "infinity" then some (1.0 / 0.0)
  else if word = "nan" then some (0.0 / 0.0)
  else
    let (whole,cs) := spanDigits cs
    let (part,cs) := match cs with
      | '.' :: cs => spanDigits cs
      | cs => ([],cs)
    if whole.isEmpty && part.isEmpty then none
    else (exponent? cs).map fun e =>
      scaled (value (whole ++ part)) (e - part.length) (whole.length + part.length)

def fraction (s : String) : Option Float :=
  match s.toList with
  | '-' :: cs => (magnitude cs).map fun x => -x
  | '+' :: cs => magnitude cs
  | cs => magnitude cs

end Numeral
end ReliableTransport
