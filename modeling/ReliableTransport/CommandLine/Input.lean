import ReliableTransport.Wire.Bytes

/-! What is typed into the program: lines of text. A line ends with a line feed, before which a
carriage return does not count; the last one may lack its end. Text is UTF-8, and the first byte
that is none ends the input. -/
namespace ReliableTransport
namespace Input

/-- Where bytes stop being text: after how many of them, and how many are wrong there; none if
they break off within a character. -/
structure Fault where
  position : Nat
  width : Option Nat
  deriving DecidableEq, Repr

def Fault.message (f : Fault) : String :=
  match f.width with
  | some n =>
    "invalid utf-8 sequence of " ++ toString n ++ " bytes from index " ++ toString f.position
  | none => "incomplete utf-8 byte sequence from index " ++ toString f.position

def continues (b : UInt8) : Bool := 0x80 ≤ b && b ≤ 0xBF

/-- The bounds of the second byte of a character and the width of the character, given its first
byte; none for a byte that starts no longer character. -/
def lead? (b : UInt8) : Option (UInt8 × UInt8 × Nat) :=
  if 0xC2 ≤ b && b ≤ 0xDF then some (0x80,0xBF,2)
  else if b = 0xE0 then some (0xA0,0xBF,3)
  else if b = 0xED then some (0x80,0x9F,3)
  else if 0xE1 ≤ b && b ≤ 0xEF then some (0x80,0xBF,3)
  else if b = 0xF0 then some (0x90,0xBF,4)
  else if 0xF1 ≤ b && b ≤ 0xF3 then some (0x80,0xBF,4)
  else if b = 0xF4 then some (0x80,0x8F,4)
  else none

/-- The width of the character in front, or how many bytes are wrong there. -/
def width : Bytes → Except (Option Nat) Nat
  | [] => .error none
  | b :: bs =>
    if b < 0x80 then .ok 1
    else
      match lead? b with
      | none => .error (some 1)
      | some (lo,hi,width) =>
        match bs with
        | [] => .error none
        | c :: bs =>
          if !(lo ≤ c && c ≤ hi) then .error (some 1)
          else
            let good := (bs.take (width - 2)).takeWhile continues
            if good.length = width - 2 then .ok width
            else if good.length = bs.length then .error none
            else .error (some (good.length + 2))

/-- The first fault of a text from position `i` on; `fuel` is a bound on its length. -/
def faultFrom : Nat → Nat → Bytes → Option Fault
  | 0, _, _ => none
  | fuel+1, i, bs =>
    if bs.isEmpty then none
    else
      match width bs with
      | .error w => some ⟨i,w⟩
      | .ok n => faultFrom fuel (i + n) (bs.drop n)

def fault? (bs : Bytes) : Option Fault := faultFrom bs.length 0 bs

def lines : Bytes → List Bytes
  | [] => []
  | b :: bs =>
    if b = 10 then [b] :: lines bs
    else
      match lines bs with
      | [] => [[b]]
      | line :: rest => (b :: line) :: rest

def content (line : Bytes) : Bytes :=
  if line.getLast? = some 10 then
    let line := line.dropLast
    if line.getLast? = some 13 then line.dropLast else line
  else line

/-- What is sent for a line: what it contains and a line feed, in pieces of one size. -/
def pieces (size : Nat) (line : Bytes) : List Bytes := chunks size (content line ++ [10])

/-- What is sent for an input, up to the first line that is no text. -/
def messages (size : Nat) (input : Bytes) : List Bytes × Option Fault :=
  let good := (lines input).takeWhile fun line => (fault? line).isNone
  (good.flatMap (pieces size),((lines input)[good.length]?).bind fault?)

theorem flatten_lines (input : Bytes) : (lines input).flatten = input := by
  induction input with
  | nil => rfl
  | cons b bs ih =>
    rw [lines]
    split
    · simp [ih]
    · cases hl : lines bs with
      | nil => simp_all
      | cons line rest => simp_all

end Input
end ReliableTransport
