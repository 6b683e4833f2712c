import ReliableTransport.Wire.Bytes

/-! The checksum of a frame: starting from 5381, each byte is added to thirty-three times the
sum so far, in 64 bits that wrap around. `checksum_append` continues a sum over more bytes. -/
namespace ReliableTransport
namespace Checksum

def seed : UInt64 := 5381

def absorb (sum : UInt64) (b : UInt8) : UInt64 := sum*33 + b.toUInt64

def extend (sum : UInt64) (data : Bytes) : UInt64 := data.foldl absorb sum

@[simp] theorem extend_nil (sum : UInt64) : extend sum [] = sum := rfl

@[simp] theorem extend_cons (sum : UInt64) (b : UInt8) (data : Bytes) :
    extend sum (b :: data) = extend (absorb sum b) data := rfl

theorem extend_append (sum : UInt64) (xs ys : Bytes) :
    extend sum (xs ++ ys) = extend (extend sum xs) ys :=
  List.foldl_append

end Checksum

def checksum (data : Bytes) : UInt64 := Checksum.extend Checksum.seed data

theorem checksum_append (xs ys : Bytes) :
    checksum (xs ++ ys) = Checksum.extend (checksum xs) ys :=
  Checksum.extend_append _ xs ys

end ReliableTransport
