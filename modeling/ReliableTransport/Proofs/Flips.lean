import Mathlib.Algebra.BigOperators.Intervals
import Mathlib.Algebra.Order.Ring.Abs
import Mathlib.NumberTheory.Multiplicity
import ReliableTransport.Proofs.Codec

/-! Which damage is noticed for certain. A datagram sums up correctly or not by a linear condition on
its bytes (`dvd_drift`): those of the checksum count with powers of 256, those it covers with powers
of thirty-three. Thirty-three is odd, so that changes within eight consecutive bits never cancel each
other (`eq_zero_of_burst`); and its powers come back to one modulo two to the fifty-seventh only after
two to the fifty-second steps, so that two single bits of what is covered do not either
(`not_dvd_of_pair`). Hence a frame with such damage is refused (`flips_noticed`). -/
namespace ReliableTransport

/-- The bit at a place, the places counted in the order in which bits travel: the most significant
bit of each byte first. -/
def bit (bs : Bytes) (place : Nat) : Bool := (bs.getD (place / 8) 0).toNat.testBit (7 - place % 8)

/-- The datagram with the bits at some places changed. -/
def flips (places : List Nat) (datagram : Bytes) : Bytes :=
  places.foldl (fun bs place => Fault.flip bs (place / 8) (7 - place % 8)) datagram

section

variable {bs : Bytes} {place : Nat} {places : List Nat}

@[simp] theorem length_flip (bs : Bytes) (byte bit : Nat) :
    (Fault.flip bs byte bit).length = bs.length := by
  simp [Fault.flip]

@[simp] theorem length_flips (places : List Nat) (bs : Bytes) :
    (flips places bs).length = bs.length := by
  induction places generalizing bs with
  | nil => rfl
  | cons place places ih => exact (ih _).trans (length_flip _ _ _)

theorem testBit_mask (n : Nat) {k : Nat} (hk : k < 8) (b : UInt8) :
    (b ^^^ 1 <<< UInt8.ofNat (k % 8)).toNat.testBit n = (b.toNat.testBit n ^^ decide (n = k)) := by
  have hmask : ∀ j < 8, ((1 : UInt8) <<< UInt8.ofNat (j % 8)).toNat = 2^j := by decide
  rw [UInt8.toNat_xor,Nat.testBit_xor,hmask k hk,Nat.testBit_two_pow]
  simp only [eq_comm]

theorem bit_flip (h : place < 8*bs.length) (q : Nat) :
    bit (Fault.flip bs (place / 8) (7 - place % 8)) q = (bit bs q ^^ decide (q = place)) := by
  have hbyte : place / 8 < bs.length := by omega
  have hmod : place / 8 % bs.length = place / 8 := Nat.mod_eq_of_lt hbyte
  by_cases hq : q / 8 = place / 8
  · have hsame : (q = place) ↔ 7 - q % 8 = 7 - place % 8 := by omega
    rw [bit,bit,Fault.flip,hmod,hq,List.getD_eq_getElem?_getD,List.getD_eq_getElem?_getD,
      List.getElem?_modify_eq,List.getElem?_eq_getElem hbyte]
    simp only [Option.map_some,Option.getD_some,Option.map_eq_map]
    rw [testBit_mask _ (by omega)]
    simp only [hsame]
  · have hne : q ≠ place := fun he => hq (by rw [he])
    rw [bit,bit,Fault.flip,hmod,List.getD_eq_getElem?_getD,List.getD_eq_getElem?_getD,
      List.getElem?_modify_ne _ _ (Ne.symm hq)]
    simp [hne]

theorem bit_flips (hd : places.Nodup) (hin : ∀ place ∈ places, place < 8*bs.length) (q : Nat) :
    bit (flips places bs) q = (bit bs q ^^ decide (q ∈ places)) := by
  induction places generalizing bs with
  | nil => simp [flips]
  | cons place places ih =>
    obtain ⟨hfirst,hrest⟩ := List.forall_mem_cons.mp hin
    obtain ⟨hnot,hnodup⟩ := List.nodup_cons.mp hd
    have hstep : flips (place :: places) bs =
        flips places (Fault.flip bs (place / 8) (7 - place % 8)) := rfl
    rw [hstep,ih hnodup (by rwa [length_flip]),bit_flip hfirst]
    by_cases hq : q = place
    · rw [hq]
      simp [hnot]
    · simp [hq]

end

def change (xs ys : Bytes) (i : Nat) : ℤ := (ys.getD i 0).toNat - (xs.getD i 0).toNat

section

variable {xs ys : Bytes} {i k : Nat}

theorem getD_lt (bs : Bytes) (i : Nat) : (bs.getD i 0).toNat < 2^8 := (bs.getD i 0).toNat_lt

theorem testBit_getD (bs : Bytes) (i : Nat) {n : Nat} (hn : n < 8) :
    (bs.getD i 0).toNat.testBit n = bit bs (8*i + (7 - n)) := by
  have hdiv : (8*i + (7 - n)) / 8 = i := by omega
  have hmod : 7 - (8*i + (7 - n)) % 8 = n := by omega
  rw [bit,hdiv,hmod]

/-- Bytes whose bits are the same from one on are close to each other. -/
theorem abs_change_lt (h : ∀ n < 8, k ≤ n → bit xs (8*i + (7 - n)) = bit ys (8*i + (7 - n))) :
    |change xs ys i| < 2^k := by
  have hshift : (xs.getD i 0).toNat / 2^k = (ys.getD i 0).toNat / 2^k := by
    apply Nat.eq_of_testBit_eq
    intro n
    rw [Nat.testBit_div_two_pow,Nat.testBit_div_two_pow]
    by_cases hn : n + k < 8
    · rw [testBit_getD xs i hn,testBit_getD ys i hn]
      exact h _ hn (Nat.le_add_left k n)
    · have hpow : (2 : Nat)^8 ≤ 2^(n + k) := Nat.pow_le_pow_right (by decide) (Nat.not_lt.mp hn)
      rw [Nat.testBit_lt_two_pow (Nat.lt_of_lt_of_le (getD_lt xs i) hpow),
        Nat.testBit_lt_two_pow (Nat.lt_of_lt_of_le (getD_lt ys i) hpow)]
  have hx := Nat.div_add_mod (xs.getD i 0).toNat (2^k)
  have hy := Nat.div_add_mod (ys.getD i 0).toNat (2^k)
  have hxm := Nat.mod_lt (xs.getD i 0).toNat (Nat.two_pow_pos k)
  have hym := Nat.mod_lt (ys.getD i 0).toNat (Nat.two_pow_pos k)
  rw [hshift] at hx
  rw [change,abs_lt]
  have hpow : ((2^k : Nat) : ℤ) = 2^k := by push_cast; rfl
  rw [← hpow]
  omega

theorem two_pow_dvd_change (hk : k ≤ 8)
    (h : ∀ n < k, bit xs (8*i + (7 - n)) = bit ys (8*i + (7 - n))) : 2^k ∣ change xs ys i := by
  have hmod : (ys.getD i 0).toNat % 2^k = (xs.getD i 0).toNat % 2^k := by
    apply Nat.eq_of_testBit_eq
    intro n
    rw [Nat.testBit_mod_two_pow,Nat.testBit_mod_two_pow]
    by_cases hn : n < k
    · rw [testBit_getD xs i (by omega),testBit_getD ys i (by omega),h n hn]
    · simp [hn]
  have hdvd := (Nat.modEq_iff_dvd).mp hmod.symm
  rw [change]
  exact_mod_cast hdvd

theorem change_ne_zero {n : Nat} (hn : n < 8)
    (h : bit xs (8*i + (7 - n)) ≠ bit ys (8*i + (7 - n))) : change xs ys i ≠ 0 := by
  intro hz
  apply h
  have he : (ys.getD i 0).toNat = (xs.getD i 0).toNat := by
    unfold change at hz
    omega
  rw [← testBit_getD xs i hn,← testBit_getD ys i hn,he]

theorem change_of_one {n : Nat} (hn : n < 8)
    (h : ∀ m < 8, bit xs (8*i + (7 - m)) = bit ys (8*i + (7 - m)) ↔ m ≠ n) :
    change xs ys i = 2^n ∨ change xs ys i = -2^n := by
  have hne : change xs ys i ≠ 0 := change_ne_zero hn fun he => (h n hn).mp he rfl
  have hlt : |change xs ys i| < 2^(n + 1) :=
    abs_change_lt fun m hm hle => (h m hm).mpr (by omega)
  obtain ⟨d,hd⟩ : 2^n ∣ change xs ys i :=
    two_pow_dvd_change (by omega) fun m hm => (h m (by omega)).mpr (by omega)
  have hpos : (0 : ℤ) < 2^n := by positivity
  rw [hd,abs_mul,abs_of_pos hpos,pow_succ] at hlt
  have hd2 : |d| < 2 := lt_of_mul_lt_mul_left hlt hpos.le
  have hd0 : d ≠ 0 := by
    rintro rfl
    exact hne (by rw [hd,mul_zero])
  rw [abs_lt] at hd2
  obtain rfl | rfl : d = 1 ∨ d = -1 := by omega
  · left
    rw [hd,mul_one]
  · right
    rw [hd,mul_neg_one]

end

theorem foldl_digits (base start : Nat) (bs : Bytes) :
    ((bs.foldl (fun v b => v*base + b.toNat) start : Nat) : ℤ) =
      start*base^bs.length +
        ∑ i ∈ Finset.range bs.length, (base : ℤ)^(bs.length - 1 - i)*(bs.getD i 0).toNat := by
  induction bs generalizing start with
  | nil => simp
  | cons b bs ih =>
    rw [List.foldl_cons,ih,List.length_cons,Finset.sum_range_succ']
    have hshift : ∀ i ∈ Finset.range bs.length,
        (base : ℤ)^(bs.length + 1 - 1 - (i + 1))*((b :: bs).getD (i + 1) 0).toNat =
          (base : ℤ)^(bs.length - 1 - i)*(bs.getD i 0).toNat := by
      intro i _
      rw [List.getD_cons_succ,show bs.length + 1 - 1 - (i + 1) = bs.length - 1 - i by omega]
    rw [Finset.sum_congr rfl hshift,List.getD_cons_zero]
    push_cast
    rw [Nat.sub_zero]
    ring

/-- Two byte strings of one length as digits: what each byte contributes to the difference. -/
theorem foldl_digits_sub (base start : Nat) {xs ys : Bytes} (h : ys.length = xs.length) :
    ((ys.foldl (fun v b => v*base + b.toNat) start : Nat) : ℤ) -
        (xs.foldl (fun v b => v*base + b.toNat) start : Nat) =
      ∑ i ∈ Finset.range xs.length, (base : ℤ)^(xs.length - 1 - i)*change xs ys i := by
  rw [foldl_digits,foldl_digits,h,add_sub_add_left_eq_sub,← Finset.sum_sub_distrib]
  refine Finset.sum_congr rfl fun i _ => ?_
  rw [change,mul_sub]

/-- What a byte counts in a datagram of a length: in the checksum that is stated, or in the one that
is computed. -/
def weight (length i : Nat) : ℤ := if i < 8 then 256^(7 - i) else -33^(length - 1 - i)

theorem change_take {xs ys : Bytes} {i n : Nat} (h : i < n) :
    change (xs.take n) (ys.take n) i = change xs ys i := by
  simp only [change,List.getD_eq_getElem?_getD,List.getElem?_take_of_lt h]

theorem change_drop (xs ys : Bytes) (n i : Nat) :
    change (xs.drop n) (ys.drop n) i = change xs ys (n + i) := by
  simp only [change,List.getD_eq_getElem?_getD,List.getElem?_drop]

/-- Between two datagrams of one length that both state the sum they have, the changes cancel. -/
theorem dvd_drift {xs ys : Bytes} (hlen : ys.length = xs.length) (hhead : 8 ≤ xs.length)
    (hx : Frame.stated xs = checksum (xs.drop 8)) (hy : Frame.stated ys = checksum (ys.drop 8)) :
    (2 : ℤ)^64 ∣ ∑ i ∈ Finset.range xs.length, weight xs.length i*change xs ys i := by
  obtain ⟨n,hn⟩ : ∃ n, xs.length = 8 + n := Nat.exists_eq_add_of_le hhead
  have hstated : (ofBigEndian (ys.take 8) : ℤ) - ofBigEndian (xs.take 8) =
      ∑ i ∈ Finset.range 8, weight (8 + n) i*change xs ys i := by
    have h8 : (xs.take 8).length = 8 := by
      rw [List.length_take]
      omega
    have hshort : (ys.take 8).length = (xs.take 8).length := by simp [hlen]
    have hsub := foldl_digits_sub 256 0 hshort
    rw [h8] at hsub
    refine hsub.trans (Finset.sum_congr rfl fun i hi => ?_)
    have hi8 := Finset.mem_range.mp hi
    rw [change_take hi8,weight,if_pos hi8]
    rfl
  have hcomputed : (Checksum.total 5381 (ys.drop 8) : ℤ) - Checksum.total 5381 (xs.drop 8) =
      -∑ i ∈ Finset.range n, weight (8 + n) (8 + i)*change xs ys (8 + i) := by
    have hrest : (xs.drop 8).length = n := by
      rw [List.length_drop]
      omega
    have hshort : (ys.drop 8).length = (xs.drop 8).length := by simp [hlen]
    have hsub := foldl_digits_sub 33 5381 hshort
    rw [hrest] at hsub
    refine hsub.trans ?_
    rw [← Finset.sum_neg_distrib]
    refine Finset.sum_congr rfl fun i hi => ?_
    rw [change_drop,weight,if_neg (by omega),show 8 + n - 1 - (8 + i) = n - 1 - i by omega]
    push_cast
    ring
  have hmod : ∀ bs : Bytes, Frame.stated bs = checksum (bs.drop 8) →
      (2 : ℤ)^64 ∣ Checksum.total 5381 (bs.drop 8) - ofBigEndian (bs.take 8) := by
    intro bs hbs
    rw [(Frame.stated_eq_iff bs).mp hbs,djb2]
    have hdvd := Nat.modEq_iff_dvd.mp (Nat.mod_modEq (Checksum.total 5381 (bs.drop 8)) (2^64))
    exact_mod_cast hdvd
  have hsum := dvd_sub (hmod xs hx) (hmod ys hy)
  rw [hn,Finset.sum_range_add,← hstated]
  have hneg := neg_eq_iff_eq_neg.mpr hcomputed
  rw [← hneg]
  have hrw : (ofBigEndian (ys.take 8) : ℤ) - ofBigEndian (xs.take 8) +
      -((Checksum.total 5381 (ys.drop 8) : ℤ) - Checksum.total 5381 (xs.drop 8)) =
      (Checksum.total 5381 (xs.drop 8) : ℤ) - ofBigEndian (xs.take 8) -
        ((Checksum.total 5381 (ys.drop 8) : ℤ) - ofBigEndian (ys.take 8)) := by ring
  rw [hrw]
  exact hsum

/-- Far fewer than two to the fifty-two powers of thirty-three lie between two that are equal modulo
two to the fifty-seventh. -/
theorem not_dvd_pow_sub_one {e : Nat} (he : 0 < e) (hlt : e < 2^52) : ¬ (2 : ℤ)^57 ∣ 33^e - 1 := by
  intro hdvd
  have hval := Int.two_pow_sub_pow' (x := 33) (y := 1) e (by decide) (by decide)
  rw [one_pow] at hval
  have hbase : emultiplicity (2 : ℤ) (33 - 1) = 5 := by
    rw [show (33 - 1 : ℤ) = 2^5 by norm_num]
    exact emultiplicity_pow_self two_ne_zero Int.prime_two.not_isUnit 5
  have hle : (57 : ℕ∞) ≤ 5 + emultiplicity (2 : ℤ) e := by
    rw [← hbase,← hval]
    exact pow_dvd_iff_le_emultiplicity.mp hdvd
  have h52 : ((52 : ℕ) : ℕ∞) ≤ emultiplicity (2 : ℤ) e := by
    by_contra hcon
    rw [not_le] at hcon
    obtain ⟨m,hm⟩ := ENat.ne_top_iff_exists.mp (ne_top_of_lt hcon)
    rw [← hm] at hle hcon
    have h1 : 57 ≤ 5 + m := by exact_mod_cast hle
    have h2 : m < 52 := by exact_mod_cast hcon
    omega
  have hd : (2 : ℤ)^52 ∣ e := pow_dvd_iff_le_emultiplicity.mpr h52
  have hd' : 2^52 ∣ e := by exact_mod_cast hd
  exact absurd (Nat.le_of_dvd he hd') (Nat.not_le.mpr hlt)

theorem dvd_of_odd {u a : ℤ} {k : Nat} (hu : ¬ 2 ∣ u) (h : 2^k ∣ u*a) : 2^k ∣ a :=
  Int.prime_two.pow_dvd_of_dvd_mul_left k hu h

theorem not_two_dvd_pow (n : Nat) : ¬ (2 : ℤ) ∣ 33^n := fun h =>
  absurd (Int.prime_two.dvd_of_dvd_pow h) (by decide)

/-- A change of the low bits of one byte and the high bits of the next is not cancelled. -/
theorem eq_zero_of_burst {u v a b : ℤ} {k : Nat} (hu : ¬ 2 ∣ u) (hv : ¬ 2 ∣ v) (hk : k ≤ 8)
    (ha : |a| < 2^k) (hb : 2^k ∣ b) (hlt : |b| < 2^8) (h : 2^64 ∣ u*a + v*b) :
    a = 0 ∧ b = 0 := by
  have hk64 : (2 : ℤ)^k ∣ 2^64 := pow_dvd_pow 2 (by omega)
  -- modulo the smallest power that the second byte can change, only the first byte counts
  have hlow : 2^k ∣ u*a := (dvd_add_left (hb.mul_left v)).mp (hk64.trans h)
  have ha0 : a = 0 := Int.eq_zero_of_abs_lt_dvd (dvd_of_odd hu hlow) ha
  rw [ha0,mul_zero,zero_add] at h
  have h8 : (2 : ℤ)^8 ∣ b := (pow_dvd_pow 2 (by decide)).trans (dvd_of_odd hv h)
  exact ⟨ha0,Int.eq_zero_of_abs_lt_dvd h8 hlt⟩

/-- Nor is one of two bytes next to each other in the checksum, which count as its digits. -/
theorem eq_zero_of_digits {n : Nat} {a b : ℤ} (hn : n ≤ 6) (ha : |a| < 2^8) (hb : |b| < 2^8)
    (h : 2^64 ∣ 256^(n + 1)*a + 256^n*b) : a = 0 ∧ b = 0 := by
  have hfactor : (256 : ℤ)^(n + 1)*a + 256^n*b = 256^n*(256*a + b) := by ring
  have hpos : (0 : ℤ) < 256^n := by positivity
  have hfit : (256 : ℤ)^n*2^16 ≤ 2^64 :=
    calc (256 : ℤ)^n*2^16 ≤ 256^6*2^16 :=
        mul_le_mul_of_nonneg_right (pow_le_pow_right₀ (by decide) hn) (by decide)
      _ = 2^64 := by norm_num
  rw [abs_lt] at ha hb
  have hsum : |256*a + b| < 2^16 := abs_lt.mpr (by omega)
  have hall : |256^n*(256*a + b)| < 2^64 := by
    rw [abs_mul,abs_of_pos hpos]
    exact (mul_lt_mul_of_pos_left hsum hpos).trans_le hfit
  rw [hfactor] at h
  have hzero := (mul_eq_zero.mp (Int.eq_zero_of_abs_lt_dvd h hall)).resolve_left hpos.ne'
  omega

theorem not_dvd_of_bit {a : ℤ} {p : Nat} (ha : a = 2^p ∨ a = -2^p) : ¬ 2^(p + 1) ∣ a := by
  intro h
  have hdvd : (2 : ℤ)^(p + 1) ∣ 2^p := by
    rcases ha with rfl | rfl
    · exact h
    · exact (dvd_neg.mp h)
  have hle := (pow_dvd_pow_iff two_ne_zero Int.prime_two.not_isUnit).mp hdvd
  omega

/-- The changes of two bits in different bytes do not cancel. -/
theorem not_dvd_of_pair {m e p q : Nat} (he : 0 < e) (hlt : e < 2^52) (hp : p < 8) (hq : q < 8)
    {a b : ℤ} (ha : a = 2^p ∨ a = -2^p) (hb : b = 2^q ∨ b = -2^q) :
    ¬ 2^64 ∣ 33^m*(33^e*a + b) := by
  intro hall
  have h : 2^64 ∣ 33^e*a + b := dvd_of_odd (not_two_dvd_pow m) hall
  have hself : ∀ {c : ℤ} {n : Nat}, c = 2^n ∨ c = -2^n → 2^n ∣ c := by
    rintro c n (rfl | rfl)
    · exact dvd_rfl
    · exact (dvd_neg.mpr dvd_rfl)
  rcases Nat.lt_trichotomy p q with hpq | rfl | hpq
  · have hb' : 2^(p + 1) ∣ b := (pow_dvd_pow 2 hpq).trans (hself hb)
    have hall' := (pow_dvd_pow 2 (show p + 1 ≤ 64 by omega)).trans h
    exact not_dvd_of_bit ha (dvd_of_odd (not_two_dvd_pow e) ((dvd_add_left hb').mp hall'))
  · have hsplit : (2 : ℤ)^64 = 2^p*2^(64 - p) := by
      rw [← pow_add]
      congr 1
      omega
    have hcancel : ∀ c : ℤ, 2^64 ∣ 2^p*c → 2^57 ∣ c := by
      intro c hc
      rw [hsplit] at hc
      have hc' := (mul_dvd_mul_iff_left (pow_ne_zero p two_ne_zero)).mp hc
      exact (pow_dvd_pow 2 (by omega)).trans hc'
    have hplus : ¬ (2 : ℤ)^57 ∣ 33^e + 1 := by
      intro hd
      have h4 : (4 : ℤ) ∣ 33^e + 1 := (show (4 : ℤ) ∣ 2^57 by norm_num).trans hd
      have h1 : (4 : ℤ) ∣ 33^e - 1 := by
        have h32 : (33 - 1 : ℤ) ∣ 33^e - 1 := sub_one_dvd_pow_sub_one 33 e
        exact (show (4 : ℤ) ∣ 33 - 1 by norm_num).trans h32
      omega
    have hminus := not_dvd_pow_sub_one he hlt
    rcases ha with rfl | rfl <;> rcases hb with rfl | rfl
    · exact hplus (hcancel _ (by rwa [show (2 : ℤ)^p*(33^e + 1) = 33^e*2^p + 2^p by ring]))
    · exact hminus (hcancel _ (by rwa [show (2 : ℤ)^p*(33^e - 1) = 33^e*2^p + -2^p by ring]))
    · refine hminus (hcancel _ ?_)
      rw [show (2 : ℤ)^p*(33^e - 1) = -(33^e*-2^p + 2^p) by ring]
      exact dvd_neg.mpr h
    · refine hplus (hcancel _ ?_)
      rw [show (2 : ℤ)^p*(33^e + 1) = -(33^e*-2^p + -2^p) by ring]
      exact dvd_neg.mpr h
  · have ha' : 2^(q + 1) ∣ 33^e*a := ((pow_dvd_pow 2 hpq).trans (hself ha)).mul_left _
    have hall' := (pow_dvd_pow 2 (show q + 1 ≤ 64 by omega)).trans h
    exact not_dvd_of_bit hb ((dvd_add_right ha').mp hall')

/-- Some places lie within eight consecutive bits. -/
def Burst (places : List Nat) : Prop :=
  places ≠ [] ∧ ∃ first, ∀ place ∈ places, first ≤ place ∧ place < first + 8

def Pair (places : List Nat) : Prop := places.length = 2 ∧ ∀ place ∈ places, 64 ≤ place

/-- Eight consecutive bits are the last ones of a byte and the first ones of the next. -/
theorem Burst.bytes {places : List Nat} (h : Burst places) {length : Nat} (hlen : 2 ≤ length)
    (hin : ∀ place ∈ places, place < 8*length) :
    ∃ i k, i + 1 < length ∧ k ≤ 8 ∧ ∀ place ∈ places,
      (place / 8 = i ∧ 7 - place % 8 < k) ∨ (place / 8 = i + 1 ∧ k ≤ 7 - place % 8) := by
  obtain ⟨-,first,hfirst⟩ := h
  by_cases hnext : first / 8 + 1 < length
  · refine ⟨first / 8,8 - first % 8,hnext,by omega,fun place hp => ?_⟩
    have := hfirst place hp
    omega
  · refine ⟨length - 2,0,by omega,by omega,fun place hp => ?_⟩
    have h₁ := hfirst place hp
    have h₂ := hin place hp
    omega

section

variable {bs : Bytes} {places : List Nat}

theorem bit_flips_eq_iff (hd : places.Nodup) (hin : ∀ place ∈ places, place < 8*bs.length)
    (q : Nat) : bit bs q = bit (flips places bs) q ↔ q ∉ places := by
  rw [bit_flips hd hin]
  by_cases hq : q ∈ places <;> simp [hq]

theorem change_flips_eq_zero (hd : places.Nodup) (hin : ∀ place ∈ places, place < 8*bs.length)
    {i : Nat} (hi : ∀ place ∈ places, place / 8 ≠ i) : change bs (flips places bs) i = 0 := by
  have hlt : |change bs (flips places bs) i| < 2^0 := by
    apply abs_change_lt
    intro n hn _
    rw [bit_flips_eq_iff hd hin]
    intro hmem
    exact hi _ hmem (by omega)
  rw [pow_zero] at hlt
  exact Int.abs_lt_one_iff.mp hlt

theorem change_flips_ne_zero (hd : places.Nodup) (hin : ∀ place ∈ places, place < 8*bs.length)
    {place : Nat} (hp : place ∈ places) : change bs (flips places bs) (place / 8) ≠ 0 := by
  have hplace : 8*(place / 8) + (7 - (7 - place % 8)) = place := by omega
  have hne : bit bs place ≠ bit (flips places bs) place := by
    rw [Ne,bit_flips_eq_iff hd hin]
    exact fun hn => hn hp
  exact change_ne_zero (n := 7 - place % 8) (by omega) (by rwa [hplace])

theorem change_flips_of_single (hd : places.Nodup) (hin : ∀ place ∈ places, place < 8*bs.length)
    {place : Nat} (hp : place ∈ places) (hone : ∀ q ∈ places, q / 8 = place / 8 → q = place) :
    change bs (flips places bs) (place / 8) = 2^(7 - place % 8) ∨
      change bs (flips places bs) (place / 8) = -2^(7 - place % 8) := by
  apply change_of_one (by omega)
  intro m hm
  rw [bit_flips_eq_iff hd hin]
  constructor
  · rintro hnot rfl
    exact hnot (by rwa [show 8*(place / 8) + (7 - (7 - place % 8)) = place by omega])
  · intro hne hmem
    have := hone _ hmem (by omega)
    omega

end

theorem not_two_dvd_weight {length i : Nat} (hi : 7 ≤ i) : ¬ 2 ∣ weight length i := by
  unfold weight
  split
  · rw [show 7 - i = 0 by omega]
    decide
  · rw [dvd_neg]
    exact not_two_dvd_pow _

namespace Frame

def Refused (raw : Bytes) : Prop :=
  decode raw = .error (.checksumMismatch (stated raw) (checksum (raw.drop 8)))

section

variable {f : Frame} {places : List Nat}

theorem refused_of_two_bytes {i j : Nat} (hd : places.Nodup)
    (hin : ∀ place ∈ places, place < 8*f.encode.length) (hij : i ≠ j) (hi : i < f.encode.length)
    (hj : j < f.encode.length) (honly : ∀ place ∈ places, place / 8 = i ∨ place / 8 = j)
    (hno : ¬ 2^64 ∣ weight f.encode.length i*change f.encode (flips places f.encode) i +
      weight f.encode.length j*change f.encode (flips places f.encode) j) :
    Refused (flips places f.encode) := by
  have hlen := length_flips places f.encode
  have hhead : headerLength ≤ f.encode.length := by
    rw [length_encode]
    exact Nat.le_add_right _ _
  refine decode_of_mismatch (by rwa [hlen]) fun hy => hno ?_
  have hx : stated f.encode = checksum (f.encode.drop 8) := by rw [stated_encode,drop_encode]
  have hdrift := dvd_drift hlen (Nat.le_trans (by decide) hhead) hx hy
  rwa [Finset.sum_eq_add i j hij] at hdrift
  · intro c _ hc
    have hzero : change f.encode (flips places f.encode) c = 0 := by
      apply change_flips_eq_zero hd hin
      intro place hp he
      rcases honly place hp with h | h
      · exact hc.1 (he.symm.trans h)
      · exact hc.2 (he.symm.trans h)
    rw [hzero,mul_zero]
  · exact fun hn => absurd (Finset.mem_range.mpr hi) hn
  · exact fun hn => absurd (Finset.mem_range.mpr hj) hn

theorem refused_of_burst (hd : places.Nodup)
    (hin : ∀ place ∈ places, place < 8*f.encode.length) (hb : Burst places) :
    Refused (flips places f.encode) := by
  have hlen : 20 ≤ f.encode.length := by
    rw [length_encode]
    exact Nat.le_add_right _ _
  obtain ⟨i,k,hi,hk,hplaces⟩ := hb.bytes (by omega) hin
  obtain ⟨place,hp⟩ := List.exists_mem_of_ne_nil _ hb.1
  refine refused_of_two_bytes (i := i) (j := i + 1) hd hin (by omega) (by omega) hi
    (fun p hp => (hplaces p hp).imp (·.1) (·.1)) fun hdvd => ?_
  have ha : |change f.encode (flips places f.encode) i| < 2^k := by
    apply abs_change_lt
    intro n hn hkn
    rw [bit_flips_eq_iff hd hin]
    intro hmem
    have := hplaces _ hmem
    omega
  have hb : 2^k ∣ change f.encode (flips places f.encode) (i + 1) := by
    apply two_pow_dvd_change hk
    intro n hn
    rw [bit_flips_eq_iff hd hin]
    intro hmem
    have := hplaces _ hmem
    omega
  have hbyte : ∀ c, |change f.encode (flips places f.encode) c| < 2^8 := fun c =>
    abs_change_lt fun n hn hle => absurd hle (by omega)
  have hzero : change f.encode (flips places f.encode) i = 0 ∧
      change f.encode (flips places f.encode) (i + 1) = 0 := by
    by_cases hsum : i + 1 < 8
    · rw [weight,weight,if_pos hsum,if_pos (by omega),show 7 - i = 7 - (i + 1) + 1 by omega] at hdvd
      exact eq_zero_of_digits (by omega) (hbyte i) (hbyte (i + 1)) hdvd
    · exact eq_zero_of_burst (not_two_dvd_weight (by omega)) (not_two_dvd_weight (by omega)) hk ha hb
        (hbyte _) hdvd
  have hne := change_flips_ne_zero hd hin hp
  rcases hplaces place hp with ⟨h,-⟩ | ⟨h,-⟩
  · rw [h] at hne
    exact hne hzero.1
  · rw [h] at hne
    exact hne hzero.2

theorem refused_of_two {p q : Nat} (hlen : f.encode.length < 2^52) (hd : places.Nodup)
    (hplaces : ∀ place, place ∈ places ↔ place = p ∨ place = q) (hp : 64 ≤ p) (hpq : p / 8 < q / 8)
    (hq : q < 8*f.encode.length) :
    Refused (flips places f.encode) := by
  have hin : ∀ place ∈ places, place < 8*f.encode.length := by
    intro place hmem
    have := (hplaces place).mp hmem
    omega
  refine refused_of_two_bytes (i := p / 8) (j := q / 8) hd hin (by omega) (by omega) (by omega)
    (fun place hmem => ?_) fun hdvd => ?_
  · exact ((hplaces place).mp hmem).imp (congrArg (· / 8)) (congrArg (· / 8))
  have ha := change_flips_of_single hd hin ((hplaces p).mpr (.inl rfl)) fun place hmem hsame => by
    have := (hplaces place).mp hmem
    omega
  have hb := change_flips_of_single hd hin ((hplaces q).mpr (.inr rfl)) fun place hmem hsame => by
    have := (hplaces place).mp hmem
    omega
  obtain ⟨e,he⟩ : ∃ e, q / 8 = p / 8 + e := Nat.exists_eq_add_of_le hpq.le
  obtain ⟨m,hm⟩ : ∃ m, f.encode.length - 1 = q / 8 + m := Nat.exists_eq_add_of_le (by omega)
  generalize change f.encode (flips places f.encode) (p / 8) = a at ha hdvd
  generalize change f.encode (flips places f.encode) (q / 8) = b at hb hdvd
  rw [weight,weight,if_neg (by omega),if_neg (by omega),
    show f.encode.length - 1 - p / 8 = m + e by omega,
    show f.encode.length - 1 - q / 8 = m by omega,pow_add] at hdvd
  apply not_dvd_of_pair (m := m) (e := e) (by omega) (by omega) (by omega) (by omega) ha hb
  rw [show (33 : ℤ)^m*(33^e*a + b) = -(-(33^m*33^e)*a + -33^m*b) by ring]
  exact dvd_neg.mpr hdvd

theorem refused_of_pair (hlen : f.encode.length < 2^52) (hd : places.Nodup)
    (hin : ∀ place ∈ places, place < 8*f.encode.length) (h : Pair places) :
    Refused (flips places f.encode) := by
  obtain ⟨hcount,hcovered⟩ := h
  obtain ⟨p,q,rfl⟩ := List.length_eq_two.mp hcount
  have hp := hcovered p (by simp)
  have hq := hcovered q (by simp)
  rcases Nat.lt_trichotomy (p / 8) (q / 8) with hpq | hpq | hpq
  · exact refused_of_two hlen hd (by simp) hp hpq (hin q (by simp))
  · refine refused_of_burst hd hin ⟨by simp,8*(p / 8),?_⟩
    simp only [List.mem_cons,List.not_mem_nil,or_false]
    omega
  · exact refused_of_two hlen hd (by simp [or_comm]) hq hpq (hin p (by simp))

/-- A frame of any reasonable length that some bits within eight were changed of, or any two that the
checksum covers, is not read as a frame. -/
theorem flips_noticed (hlen : f.encode.length < 2^52) (hd : places.Nodup)
    (hin : ∀ place ∈ places, place < 8*f.encode.length) (h : Burst places ∨ Pair places) :
    decode (flips places f.encode) = .error (.checksumMismatch (stated (flips places f.encode))
      (checksum ((flips places f.encode).drop 8))) := by
  rcases h with h | h
  · exact refused_of_burst hd hin h
  · exact refused_of_pair hlen hd hin h

end

/-- A burst that begins in the checksum, and two bits apart. -/
theorem flips_noticed_twice :
    decode (flips [62,65,66] (encode ⟨.data,3,0,[104,105]⟩)) =
        .error (.checksumMismatch 5478211692828220830 13583389982952815100) ∧
      decode (flips [90,170] (encode ⟨.data,3,0,[104,105]⟩)) =
        .error (.checksumMismatch 5478211692828220828 5527222220356683164) := by
  have hburst : Burst [62,65,66] := ⟨by decide,62,by decide⟩
  have hpair : Pair [90,170] := ⟨rfl,by decide⟩
  constructor
  · refine (flips_noticed (by decide +kernel) (by decide) (by decide +kernel) (.inl hburst)).trans ?_
    decide +kernel
  · refine (flips_noticed (by decide +kernel) (by decide) (by decide +kernel) (.inr hpair)).trans ?_
    decide +kernel

end Frame
end ReliableTransport
