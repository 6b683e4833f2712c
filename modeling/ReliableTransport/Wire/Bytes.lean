/-! Byte strings and the numbers written in them. Numbers travel most significant byte first:
`ofBigEndian_bigEndian` and `bigEndian_ofBigEndian` say that reading and writing undo each other.
A long string is cut into pieces of one size, and `flatten_chunks` glues them together again. -/
namespace ReliableTransport

abbrev Bytes := List UInt8

/-- The low `n` bytes of `v`, most significant first. -/
def bigEndian : Nat → Nat → Bytes
  | 0, _ => []
  | n+1, v => bigEndian n (v / 256) ++ [UInt8.ofNat v]

def ofBigEndian (bs : Bytes) : Nat :=
  bs.foldl (fun v b => v*256 + b.toNat) 0

def byteRange : Nat → Nat
  | 0 => 1
  | n+1 => byteRange n*256

@[simp] theorem bigEndian_length (n v : Nat) : (bigEndian n v).length = n := by
  induction n generalizing v with
  | zero => rfl
  | succ n ih => simp [bigEndian,ih]

@[simp] theorem ofBigEndian_nil : ofBigEndian [] = 0 := rfl

theorem ofBigEndian_concat (bs : Bytes) (b : UInt8) :
    ofBigEndian (bs ++ [b]) = ofBigEndian bs*256 + b.toNat := by
  simp [ofBigEndian]

theorem ofBigEndian_bigEndian (n v : Nat) : ofBigEndian (bigEndian n v) = v % byteRange n := by
  induction n generalizing v with
  | zero => simp [bigEndian,byteRange,Nat.mod_one]
  | succ n ih =>
    rw [bigEndian,ofBigEndian_concat,ih,byteRange,Nat.mul_comm (byteRange n),Nat.mod_mul]
    simp [Nat.mul_comm,Nat.add_comm]

theorem bigEndian_ofBigEndian (bs : Bytes) : bigEndian bs.length (ofBigEndian bs) = bs := by
  generalize hn : bs.length = n
  induction n generalizing bs with
  | zero => rw [List.eq_nil_of_length_eq_zero hn]; rfl
  | succ n ih =>
    rcases List.eq_nil_or_concat bs with rfl | ⟨xs,b,rfl⟩
    · simp at hn
    · have hb : b.toNat < 256 := b.toNat_lt
      have hd : (ofBigEndian xs*256 + b.toNat) / 256 = ofBigEndian xs := by omega
      rw [List.concat_eq_append,ofBigEndian_concat,bigEndian,hd,ih xs (by simpa using hn)]
      congr 2
      apply UInt8.toNat_inj.mp
      simp

theorem ofBigEndian_lt (bs : Bytes) : ofBigEndian bs < byteRange bs.length := by
  generalize hn : bs.length = n
  induction n generalizing bs with
  | zero => rw [List.eq_nil_of_length_eq_zero hn]; decide
  | succ n ih =>
    rcases List.eq_nil_or_concat bs with rfl | ⟨xs,b,rfl⟩
    · simp at hn
    · have hb : b.toNat < 256 := b.toNat_lt
      have hx := ih xs (by simpa using hn)
      rw [List.concat_eq_append,ofBigEndian_concat,byteRange]
      omega

/-- At most `fuel` pieces of `size` bytes, the last one perhaps shorter. -/
def cut (size : Nat) : Nat → Bytes → List Bytes
  | 0, _ => []
  | fuel+1, bs => if bs.isEmpty then [] else bs.take size :: cut size fuel (bs.drop size)

/-- The consecutive pieces of `size` bytes of a string, the last one perhaps shorter. -/
def chunks (size : Nat) (bs : Bytes) : List Bytes := cut size bs.length bs

theorem flatten_cut {size : Nat} (hs : 0 < size) (fuel : Nat) (bs : Bytes)
    (h : bs.length ≤ fuel) : (cut size fuel bs).flatten = bs := by
  induction fuel generalizing bs with
  | zero => simp_all [cut]
  | succ fuel ih =>
    rw [cut]
    split
    · simp_all
    · have hne : bs ≠ [] := by simp_all
      have hpos := List.length_pos_iff.mpr hne
      rw [List.flatten_cons,ih _ (by simp; omega),List.take_append_drop]

theorem flatten_chunks {size : Nat} (hs : 0 < size) (bs : Bytes) :
    (chunks size bs).flatten = bs :=
  flatten_cut hs _ bs (Nat.le_refl _)

theorem length_of_mem_cut {size : Nat} (hs : 0 < size) {fuel : Nat} {bs c : Bytes}
    (h : c ∈ cut size fuel bs) : 0 < c.length ∧ c.length ≤ size := by
  induction fuel generalizing bs with
  | zero => simp [cut] at h
  | succ fuel ih =>
    rw [cut] at h
    split at h
    · simp at h
    · have hne : bs ≠ [] := by simp_all
      have hpos := List.length_pos_iff.mpr hne
      rcases List.mem_cons.mp h with rfl | h
      · simp; omega
      · exact ih h

theorem length_of_mem_chunks {size : Nat} (hs : 0 < size) {bs c : Bytes}
    (h : c ∈ chunks size bs) : 0 < c.length ∧ c.length ≤ size :=
  length_of_mem_cut hs h

end ReliableTransport
