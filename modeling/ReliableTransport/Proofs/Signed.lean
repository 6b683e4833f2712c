/-! Fragment numbers as the integers they stand for. Differences of fragment numbers wrap around in
32 signed bits; between numbers that are not negative they do not, and the comparisons made with
them then say what they seem to say. -/
namespace ReliableTransport
namespace Signed

/-- Fewer fragments than this on one connection are told apart by their numbers. -/
abbrev fragmentLimit : Nat := 2147483647

theorem toInt_bounds (x : Int32) : -2147483648 ≤ x.toInt ∧ x.toInt < 2147483648 :=
  ⟨x.le_toInt,x.toInt_lt⟩

theorem toInt_ofNat {n : Nat} (h : n ≤ fragmentLimit) : (Int32.ofNat n).toInt = n :=
  Int32.toInt_ofNat_of_lt (by unfold fragmentLimit at h; omega)

theorem toInt_sub_of_bounds {x y : Int32} (hl : -2147483648 ≤ x.toInt - y.toInt)
    (hu : x.toInt - y.toInt < 2147483648) : (x - y).toInt = x.toInt - y.toInt := by
  rw [Int32.toInt_sub]
  exact Int.bmod_eq_of_le (by omega) (by omega)

theorem toInt_sub_of_nonneg {x y : Int32} (hx : 0 ≤ x.toInt) (hy : 0 ≤ y.toInt) :
    (x - y).toInt = x.toInt - y.toInt := by
  have h₁ := toInt_bounds x
  have h₂ := toInt_bounds y
  exact toInt_sub_of_bounds (by omega) (by omega)

theorem toInt_succ {x : Int32} (h : x.toInt < 2147483647) : (x + 1).toInt = x.toInt + 1 := by
  have hx := toInt_bounds x
  rw [Int32.toInt_add,Int32.toInt_one]
  exact Int.bmod_eq_of_le (by omega) (by omega)

theorem toInt_pred {x : Int32} (h : -2147483648 < x.toInt) : (x - 1).toInt = x.toInt - 1 := by
  have hx := toInt_bounds x
  have ho := Int32.toInt_one
  rw [toInt_sub_of_bounds (by omega) (by omega),ho]

/-- Counting on from a number goes around the circle of the numbers of 32 bits. -/
theorem toInt_add_ofNat (x : Int32) (n : Nat) :
    (x + Int32.ofNat n).toInt = (x.toInt + n).bmod 4294967296 := by
  rw [Int32.toInt_add,Int32.toInt_ofNat']
  simp only [Int32.size,Int.add_bmod_bmod]

theorem toInt_succ_add_ofNat (x : Int32) (n : Nat) :
    (x + 1 + Int32.ofNat n).toInt = (x.toInt + 1 + n).bmod 4294967296 := by
  rw [toInt_add_ofNat,Int32.toInt_add,Int32.toInt_one]
  exact Int.bmod_add_bmod ..

theorem nonneg_iff {x : Int32} : 0 ≤ x ↔ 0 ≤ x.toInt := Int32.le_iff_toInt_le

theorem neg_iff {x : Int32} : x < 0 ↔ x.toInt < 0 := Int32.lt_iff_toInt_lt

theorem pos_iff {x : Int32} : x > 0 ↔ 0 < x.toInt := Int32.lt_iff_toInt_lt

theorem nonpos_iff {x : Int32} : x ≤ 0 ↔ x.toInt ≤ 0 := Int32.le_iff_toInt_le

theorem eq_zero_iff {x : Int32} : x = 0 ↔ x.toInt = 0 := by
  rw [← Int32.toInt_inj,Int32.toInt_zero]

theorem toNatClampNeg_eq (x : Int32) : x.toNatClampNeg = x.toInt.toNat := rfl

/-- A negative number is never between two others: it is behind the first, or so far behind that
the difference to the second wraps around and becomes positive. -/
theorem outside_of_neg {f a h : Int32} (hf : f.toInt < 0) (ha : 0 ≤ a.toInt)
    (hah : a.toInt ≤ h.toInt) : f - a < 0 ∨ f - h > 0 := by
  have hb := toInt_bounds f
  have hh := toInt_bounds h
  rw [neg_iff,pos_iff]
  by_cases hs : -2147483648 ≤ f.toInt - a.toInt
  · left
    rw [toInt_sub_of_bounds hs (by omega)]
    omega
  · right
    have hw : (f.toInt - h.toInt).bmod 4294967296 = f.toInt - h.toInt + 4294967296 := by
      rw [← Int.add_bmod_right]
      exact Int.bmod_eq_of_le (by omega) (by omega)
    rw [Int32.toInt_sub]
    change 0 < (f.toInt - h.toInt).bmod 4294967296
    omega

end Signed
end ReliableTransport
