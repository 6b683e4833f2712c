import ReliableTransport.Wire.Frame

/-! The checksum as a plain number. Without the wrapping the sum of a byte string is the value of its
bytes as digits to the base thirty-three (`total`); the checksum is that number modulo two to the
sixty-fourth (`toNat_checksum`). A datagram states the sum that it should have as a number of eight
digits to the base 256 (`toNat_stated`). -/
namespace ReliableTransport
namespace Checksum

/-- The sum that `sum` becomes over `data` when nothing wraps around. -/
def total (sum : Nat) (data : Bytes) : Nat := data.foldl (fun sum b => sum*33 + b.toNat) sum

@[simp] theorem total_nil (sum : Nat) : total sum [] = sum := rfl

@[simp] theorem total_cons (sum : Nat) (b : UInt8) (data : Bytes) :
    total sum (b :: data) = total (sum*33 + b.toNat) data := rfl

/-- Wrapping the sum before it goes on does not show once it is wrapped again. -/
theorem total_mod (sum size : Nat) (data : Bytes) :
    total (sum % size) data % size = total sum data % size := by
  induction data generalizing sum with
  | nil => exact Nat.mod_mod sum size
  | cons b data ih =>
    rw [total_cons,total_cons,← ih (sum % size*33 + b.toNat),← ih (sum*33 + b.toNat),Nat.add_mod,
      Nat.mod_mul_mod,← Nat.add_mod]

theorem toNat_absorb (sum : UInt64) (b : UInt8) :
    (absorb sum b).toNat = (sum.toNat*33 + b.toNat) % UInt64.size := by
  have hb : b.toUInt64.toNat = b.toNat := UInt8.toNat_toUInt64 b
  have hbase : (33 : UInt64).toNat = 33 := rfl
  rw [absorb,UInt64.toNat_add,UInt64.toNat_mul,hb,hbase,Nat.mod_add_mod]

theorem toNat_extend (sum : UInt64) (data : Bytes) :
    (extend sum data).toNat = total sum.toNat data % UInt64.size := by
  induction data generalizing sum with
  | nil => exact (Nat.mod_eq_of_lt sum.toNat_lt).symm
  | cons b data ih => rw [extend_cons,total_cons,ih,toNat_absorb,total_mod]

end Checksum

/-- The checksum of a byte string as a number below two to the sixty-fourth. -/
def djb2 (data : Bytes) : Nat := Checksum.total 5381 data % 18446744073709551616

theorem toNat_checksum (data : Bytes) : (checksum data).toNat = djb2 data :=
  Checksum.toNat_extend Checksum.seed data

namespace Frame

/-- The sum that a datagram states is the number that its first bytes write. -/
theorem toNat_stated (raw : Bytes) : (stated raw).toNat = ofBigEndian (raw.take 8) := by
  have hlt := ofBigEndian_lt (raw.take 8)
  have hlen : (raw.take 8).length ≤ 8 := List.length_take_le 8 raw
  have hmono : ∀ n ≤ 8, byteRange n ≤ byteRange 8 := by decide
  exact UInt64.toNat_ofNat_of_lt' (Nat.lt_of_lt_of_le hlt (hmono _ hlen))

/-- A datagram states the sum that it has exactly when the numbers are equal. -/
theorem stated_eq_iff (raw : Bytes) :
    stated raw = checksum (raw.drop 8) ↔ ofBigEndian (raw.take 8) = djb2 (raw.drop 8) := by
  rw [← UInt64.toNat_inj,toNat_stated,toNat_checksum]

end Frame
end ReliableTransport
