import ReliableTransport.Wire.Bytes

/-! Hexadecimal text: lower-case digits, as many as asked for. -/
namespace ReliableTransport
namespace Hex

def digit (v : Nat) : Char :=
  if v < 10 then Char.ofNat (48 + v) else Char.ofNat (87 + v)

def numeral : Nat → Nat → List Char
  | 0, _ => []
  | width+1, v => numeral width (v / 16) ++ [digit (v % 16)]

def ofBytes (bs : Bytes) : String :=
  String.ofList (bs.flatMap fun b => numeral 2 b.toNat)

def ofWord (v : UInt64) : String := String.ofList (numeral 16 v.toNat)

@[simp] theorem numeral_length (width v : Nat) : (numeral width v).length = width := by
  induction width generalizing v with
  | zero => rfl
  | succ width ih => simp [numeral,ih]

end Hex
end ReliableTransport
