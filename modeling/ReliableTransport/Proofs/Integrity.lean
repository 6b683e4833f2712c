import ReliableTransport.Relay.Fault
import ReliableTransport.Wire.Frame

/-! What arrives is a frame that was sent, or nothing. A frame that travels unharmed is read back
(`receive_encode`); one with a single bit changed is refused (`receive_flip`), since the checksum
tells apart any two datagrams that differ in one byte. -/
namespace ReliableTransport

namespace Checksum

theorem absorb_inj {s t : UInt64} {b : UInt8} (h : absorb s b = absorb t b) : s = t := by
  -- thirty-three has an inverse modulo the number of sums
  have hinv : ∀ u : UInt64, u*33*1117984489315730401 = u := by
    intro u
    have hone : (33*1117984489315730401 : UInt64) = 1 := by decide
    rw [UInt64.mul_assoc,hone,UInt64.mul_one]
  have hs : s*33 = t*33 := (UInt64.add_left_inj _).mp h
  rw [← hinv s,← hinv t,hs]

theorem extend_inj {s t : UInt64} {data : Bytes} (h : extend s data = extend t data) : s = t := by
  induction data generalizing s t with
  | nil => exact h
  | cons b data ih => exact absorb_inj (ih h)

theorem absorb_byte_inj {s : UInt64} {b c : UInt8} (h : absorb s b = absorb s c) : b = c := by
  have hb : b.toUInt64 = c.toUInt64 := (UInt64.add_right_inj _).mp h
  have hn := congrArg UInt64.toNat hb
  simp only [UInt8.toNat_toUInt64] at hn
  exact UInt8.toNat_inj.mp hn

end Checksum

theorem checksum_ne_of_byte (xs ys : Bytes) {b c : UInt8} (h : b ≠ c) :
    checksum (xs ++ b :: ys) ≠ checksum (xs ++ c :: ys) := by
  intro he
  rw [checksum_append,checksum_append,Checksum.extend_cons,Checksum.extend_cons] at he
  exact h (Checksum.absorb_byte_inj (Checksum.extend_inj he))

namespace Frame

theorem stated_append {sum : Bytes} (rest : Bytes) (h : sum.length = 8) :
    stated (sum ++ rest) = UInt64.ofNat (ofBigEndian sum) := by
  rw [stated,List.take_left' h]

theorem stated_encode (f : Frame) : stated f.encode = checksum f.body := by
  have h : (checksum f.body).toNat < byteRange 8 := (checksum f.body).toNat_lt
  rw [encode,stated_append _ (bigEndian_length _ _),ofBigEndian_bigEndian,Nat.mod_eq_of_lt h,
    UInt64.ofNat_toNat]

theorem drop_encode (f : Frame) : f.encode.drop 8 = f.body :=
  List.drop_left' (bigEndian_length _ _)

theorem decode_encode (f : Frame) : decode f.encode = .ok f := by
  have hl : ¬ f.encode.length < headerLength := by simp
  have hb := drop_encode f
  have h12 : f.encode.drop 12 = field f.fragment ++ (field f.window ++ f.payload) := by
    have h := congrArg (List.drop 4) hb
    rw [List.drop_drop] at h
    rw [h,body,List.append_assoc,List.append_assoc]
    exact List.drop_left' (field_length _)
  have h16 : f.encode.drop 16 = field f.window ++ f.payload := by
    have h := congrArg (List.drop 4) h12
    rw [List.drop_drop] at h
    rw [h]
    exact List.drop_left' (field_length _)
  have h20 : f.encode.drop 20 = f.payload := by
    have h := congrArg (List.drop 4) h16
    rw [List.drop_drop] at h
    rw [h]
    exact List.drop_left' (field_length _)
  have h8 : (f.encode.drop 8).take 4 = field f.kind.code := by
    rw [hb,body,List.append_assoc,List.append_assoc]
    exact List.take_left' (field_length _)
  unfold decode
  rw [if_neg hl,hb,if_neg (by simp [stated_encode]),← hb,h8,h12,h16,h20,
    List.take_left' (field_length _),List.take_left' (field_length _)]
  simp

def Fits (f : Frame) : Prop := f.payload.length ≤ maxPayload

theorem length_encode_le {f : Frame} (h : f.Fits) : f.encode.length ≤ maxLength := by
  have hm : headerLength + maxPayload = maxLength := rfl
  rw [length_encode]
  unfold Fits at h
  omega

theorem receive_encode {f : Frame} (h : f.Fits) : receive f.encode = .ok f := by
  rw [receive,List.take_of_length_le (length_encode_le h),decode_encode]

/-- A datagram is read as a frame exactly when it has room for a header and states its sum. -/
theorem decode_eq_ok_iff {raw : Bytes} {f : Frame} : decode raw = .ok f ↔
    headerLength ≤ raw.length ∧ stated raw = checksum (raw.drop 8) ∧
      f = ⟨.ofCode (ofField ((raw.drop 8).take 4)),ofField ((raw.drop 12).take 4),
        ofField ((raw.drop 16).take 4),raw.drop 20⟩ := by
  unfold decode
  split
  · rename_i hs
    constructor
    · intro h
      cases h
    · intro h
      omega
  · rename_i hs
    split
    · rename_i hne
      constructor
      · intro h
        cases h
      · intro h
        exact absurd h.2.1 hne
    · rename_i heq
      rw [Except.ok.injEq]
      constructor
      · rintro rfl
        exact ⟨Nat.not_lt.mp hs,Decidable.not_not.mp heq,rfl⟩
      · rintro ⟨_,_,rfl⟩
        rfl

/-- A changed byte is noticed, whether it is part of the checksum or covered by it. -/
theorem decode_of_byte {f : Frame} {xs ys : Bytes} {b c : UInt8}
    (hf : decode (xs ++ b :: ys) = .ok f) (hbc : b ≠ c) :
    ∃ e, decode (xs ++ c :: ys) = .error e := by
  obtain ⟨hlong,hsum,-⟩ := decode_eq_ok_iff.mp hf
  have hlen : (xs ++ c :: ys).length = (xs ++ b :: ys).length := by simp
  have hl : ¬ (xs ++ c :: ys).length < headerLength := by omega
  suffices hne : stated (xs ++ c :: ys) ≠ checksum ((xs ++ c :: ys).drop 8) by
    exact ⟨.checksumMismatch _ _,by rw [decode,if_neg hl,if_pos hne]⟩
  by_cases hx : xs.length < 8
  · obtain ⟨zs,ws,rfl,hz⟩ : ∃ zs ws, ys = zs ++ ws ∧ zs.length = 7 - xs.length := by
      refine ⟨ys.take (7 - xs.length),ys.drop (7 - xs.length),(List.take_append_drop _ _).symm,?_⟩
      have hh : headerLength = 20 := rfl
      simp only [List.length_append,List.length_cons] at hl
      simp only [List.length_take]
      omega
    have hs : ∀ d : UInt8, xs ++ d :: (zs ++ ws) = (xs ++ d :: zs) ++ ws := by simp
    have h8 : ∀ d : UInt8, (xs ++ d :: zs).length = 8 := by
      intro d
      simp only [List.length_append,List.length_cons]
      omega
    rw [hs b,stated_append _ (h8 b),List.drop_left' (h8 b)] at hsum
    rw [hs c,stated_append _ (h8 c),List.drop_left' (h8 c),← hsum]
    intro he
    have hlt : ∀ d : UInt8, ofBigEndian (xs ++ d :: zs) < UInt64.size := by
      intro d
      have h := ofBigEndian_lt (xs ++ d :: zs)
      rw [h8 d] at h
      exact h
    have hn := congrArg UInt64.toNat he
    rw [UInt64.toNat_ofNat_of_lt' (hlt c),UInt64.toNat_ofNat_of_lt' (hlt b)] at hn
    have hc := bigEndian_ofBigEndian (xs ++ c :: zs)
    rw [hn,h8 c,← h8 b,bigEndian_ofBigEndian] at hc
    simp only [List.append_cancel_left_eq,List.cons.injEq] at hc
    exact hbc hc.1
  · obtain ⟨sum,zs,rfl,hz⟩ : ∃ sum zs, xs = sum ++ zs ∧ sum.length = 8 :=
      ⟨xs.take 8,xs.drop 8,(List.take_append_drop _ _).symm,by rw [List.length_take]; omega⟩
    rw [List.append_assoc,stated_append _ hz,List.drop_left' hz] at hsum
    rw [List.append_assoc,stated_append _ hz,List.drop_left' hz,hsum]
    exact checksum_ne_of_byte zs ys hbc

end Frame

namespace Fault

theorem bit_ne_zero (bit : Nat) : (1 : UInt8) <<< UInt8.ofNat (bit % 8) ≠ 0 := by
  have h : ∀ k : Fin 8, (1 : UInt8) <<< UInt8.ofNat k.val ≠ 0 := by decide
  exact h ⟨bit % 8,by omega⟩

theorem flip_eq {datagram : Bytes} (h : datagram ≠ []) (byte bit : Nat) :
    ∃ xs b c ys, datagram = xs ++ b :: ys ∧ flip datagram byte bit = xs ++ c :: ys ∧ b ≠ c := by
  have hpos := List.length_pos_iff.mpr h
  have hlt : byte % datagram.length < datagram.length := Nat.mod_lt _ hpos
  generalize hi : byte % datagram.length = i at hlt
  obtain ⟨xs,b,ys,rfl,hx⟩ : ∃ xs b ys, datagram = xs ++ b :: ys ∧ xs.length = i := by
    refine ⟨datagram.take i,datagram[i],datagram.drop (i + 1),?_,by rw [List.length_take]; omega⟩
    rw [List.getElem_cons_drop,List.take_append_drop]
  refine ⟨xs,b,b ^^^ (1 <<< UInt8.ofNat (bit % 8)),ys,rfl,?_,?_⟩
  · rw [flip,hi,List.modify_eq_take_cons_drop hlt]
    subst hx
    simp
  · intro he
    apply bit_ne_zero bit
    have hz := congrArg (b ^^^ ·) he
    simpa [← UInt8.xor_assoc] using hz.symm

end Fault

namespace Frame

theorem decode_flip {raw : Bytes} {f : Frame} (h : decode raw = .ok f) (byte bit : Nat) :
    ∃ e, decode (Fault.flip raw byte bit) = .error e := by
  have hne : raw ≠ [] := by
    rintro rfl
    cases h
  obtain ⟨xs,b,c,ys,rfl,hflip,hbc⟩ := Fault.flip_eq hne byte bit
  rw [hflip]
  exact decode_of_byte h hbc

/-- A frame with one bit changed is refused. -/
theorem receive_flip {f : Frame} (h : f.Fits) (byte bit : Nat) :
    ∃ e, receive (Fault.flip f.encode byte bit) = .error e := by
  have hl : (Fault.flip f.encode byte bit).length ≤ maxLength := by
    rw [Fault.flip,List.length_modify]
    exact length_encode_le h
  rw [receive,List.take_of_length_le hl]
  exact decode_flip (decode_encode f) byte bit

end Frame
end ReliableTransport
