import ReliableTransport.Proofs.Integrity
import ReliableTransport.Proofs.Sums

/-! What is a frame, and what is not. Reading undoes writing; a datagram is a frame exactly when it is
long enough for a header and states the sum it has, and writing the frame that was read gives the
same bytes again if the number in its kind field has a meaning. Otherwise only that field and the
checksum may come out differently (`codec_exact`). -/
namespace ReliableTransport

namespace Kind

/-- The number that is read from a kind field as a kind is the one the kind writes, if it has a
meaning. -/
theorem code_ofCode {n : Nat} (h : n ≤ 6) :
    (ofCode (UInt32.ofNat n).toInt32).code = (UInt32.ofNat n).toInt32 := by
  have hall : ∀ k ≤ 6, (ofCode (UInt32.ofNat k).toInt32).code = (UInt32.ofNat k).toInt32 := by
    decide
  exact hall n h

theorem ofCode_of_lt {n : Nat} (h : 6 < n) (hn : n < UInt32.size) :
    ofCode (UInt32.ofNat n).toInt32 = unkn := by
  have hne : ∀ k ≤ 6, (UInt32.ofNat n).toInt32 ≠ (UInt32.ofNat k).toInt32 := by
    intro k hk he
    have he' : UInt32.ofNat n = UInt32.ofNat k := by
      simpa using congrArg Int32.toUInt32 he
    have hv := congrArg UInt32.toNat he'
    rw [UInt32.toNat_ofNat_of_lt' hn,
      UInt32.toNat_ofNat_of_lt' (Nat.lt_trans (Nat.lt_of_le_of_lt hk h) hn)] at hv
    omega
  have h₁ : (UInt32.ofNat n).toInt32 ≠ 1 := hne 1 (by decide)
  have h₂ : (UInt32.ofNat n).toInt32 ≠ 2 := hne 2 (by decide)
  have h₃ : (UInt32.ofNat n).toInt32 ≠ 3 := hne 3 (by decide)
  have h₄ : (UInt32.ofNat n).toInt32 ≠ 4 := hne 4 (by decide)
  have h₅ : (UInt32.ofNat n).toInt32 ≠ 5 := hne 5 (by decide)
  have h₆ : (UInt32.ofNat n).toInt32 ≠ 6 := hne 6 (by decide)
  rw [ofCode,if_neg h₁,if_neg h₂,if_neg h₃,if_neg h₄,if_neg h₅,if_neg h₆]

end Kind

namespace Frame

def kindField (raw : Bytes) : Nat := ofBigEndian ((raw.drop 8).take 4)

theorem field_ofField {bs : Bytes} (h : bs.length = 4) : field (ofField bs) = bs := by
  have hlt : ofBigEndian bs < UInt32.size := by
    have hb := ofBigEndian_lt bs
    rw [h] at hb
    exact hb
  have hback := bigEndian_ofBigEndian bs
  rw [h] at hback
  rw [field,ofField,UInt32.toUInt32_toInt32,UInt32.toNat_ofNat_of_lt' hlt,hback]

theorem length_take_drop {raw : Bytes} {n : Nat} (h : headerLength ≤ raw.length)
    (hn : n + 4 ≤ headerLength) : ((raw.drop n).take 4).length = 4 := by
  rw [List.length_take,List.length_drop]
  omega

theorem take_append_drop_add (raw : Bytes) (n : Nat) :
    (raw.drop n).take 4 ++ raw.drop (n + 4) = raw.drop n := by
  rw [← List.drop_drop,List.take_append_drop]

section

variable {raw : Bytes} {f : Frame}

theorem decode_of_short (h : raw.length < headerLength) :
    decode raw = .error (.truncated raw.length) := by
  rw [decode,if_pos h]

theorem decode_of_mismatch (h : headerLength ≤ raw.length)
    (hne : stated raw ≠ checksum (raw.drop 8)) :
    decode raw = .error (.checksumMismatch (stated raw) (checksum (raw.drop 8))) := by
  rw [decode,if_neg (Nat.not_lt.mpr h),if_pos hne]

theorem kindField_lt (h : headerLength ≤ raw.length) : kindField raw < UInt32.size := by
  have hlt := ofBigEndian_lt ((raw.drop 8).take 4)
  rw [length_take_drop h (by decide)] at hlt
  exact hlt

/-- The fields of a frame that was read write the bytes they were read from. -/
theorem body_of_decode (h : decode raw = .ok f) :
    f.body = field f.kind.code ++ raw.drop 12 := by
  obtain ⟨hlen,_,hf⟩ := decode_eq_ok_iff.mp h
  have hfragment : field f.fragment = (raw.drop 12).take 4 := by
    rw [hf]
    exact field_ofField (length_take_drop hlen (by decide))
  have hwindow : field f.window = (raw.drop 16).take 4 := by
    rw [hf]
    exact field_ofField (length_take_drop hlen (by decide))
  have hpayload : f.payload = raw.drop (16 + 4) := by rw [hf]
  rw [body,hfragment,hwindow,hpayload,List.append_assoc,List.append_assoc,take_append_drop_add,
    take_append_drop_add raw 12]

theorem drop_encode_of_decode (h : decode raw = .ok f) : f.encode.drop 12 = raw.drop 12 := by
  have hdrop : f.encode.drop 12 = f.body.drop 4 := by
    rw [← drop_encode,List.drop_drop]
  rw [hdrop,body_of_decode h]
  exact List.drop_left' (field_length _)

theorem length_encode_of_decode (h : decode raw = .ok f) : f.encode.length = raw.length := by
  obtain ⟨hlen,_,rfl⟩ := decode_eq_ok_iff.mp h
  unfold headerLength at hlen
  rw [length_encode,List.length_drop,headerLength]
  omega

theorem encode_of_decode (h : decode raw = .ok f) (hk : kindField raw ≤ 6) : f.encode = raw := by
  obtain ⟨hlen,hsum,hf⟩ := decode_eq_ok_iff.mp h
  have hcode : field f.kind.code = (raw.drop 8).take 4 := by
    rw [hf]
    change field (Kind.ofCode (UInt32.ofNat (kindField raw)).toInt32).code = _
    rw [Kind.code_ofCode hk]
    exact field_ofField (length_take_drop hlen (by decide))
  have hbody : f.body = raw.drop 8 := by
    rw [body_of_decode h,hcode,take_append_drop_add raw 8]
  have hstated : bigEndian 8 (stated raw).toNat = raw.take 8 := by
    have hlen8 : (raw.take 8).length = 8 := by
      unfold headerLength at hlen
      rw [List.length_take]
      omega
    have hback := bigEndian_ofBigEndian (raw.take 8)
    rwa [hlen8,← toNat_stated] at hback
  rw [encode,hbody,← hsum,hstated,List.take_append_drop]

theorem kind_of_decode (h : decode raw = .ok f) (hk : 6 < kindField raw) : f.kind = .unkn := by
  obtain ⟨hlen,_,rfl⟩ := decode_eq_ok_iff.mp h
  exact Kind.ofCode_of_lt hk (kindField_lt hlen)

end

structure Reading (raw : Bytes) : Prop where
  /-- It is a frame exactly when there is a header and its first bytes write the sum of the rest. -/
  accepted : (∃ f, decode raw = .ok f) ↔
    20 ≤ raw.length ∧ ofBigEndian (raw.take 8) = djb2 (raw.drop 8)
  truncated : raw.length < 20 → decode raw = .error (.truncated raw.length)
  mismatched : 20 ≤ raw.length → ofBigEndian (raw.take 8) ≠ djb2 (raw.drop 8) →
    ∃ stated computed, decode raw = .error (.checksumMismatch stated computed) ∧
      stated.toNat = ofBigEndian (raw.take 8) ∧ computed.toNat = djb2 (raw.drop 8)
  known : ∀ f, decode raw = .ok f → kindField raw ≤ 6 → f.encode = raw
  /-- Of any other the checksum and the kind field come first and may differ, and nothing else. -/
  unknown : ∀ f, decode raw = .ok f → 6 < kindField raw →
    f.kind = .unkn ∧ f.encode.length = raw.length ∧ f.encode.drop 12 = raw.drop 12

/-- What is written is read back, and a datagram is read as a frame exactly when it was written as
one, except that all kinds without a meaning are read as the same. -/
theorem codec_exact : (∀ f : Frame, decode f.encode = .ok f) ∧ ∀ raw, Reading raw := by
  refine ⟨decode_encode,fun raw => ?_⟩
  constructor
  · rw [← stated_eq_iff]
    constructor
    · rintro ⟨f,hf⟩
      obtain ⟨hlen,hsum,_⟩ := decode_eq_ok_iff.mp hf
      exact ⟨hlen,hsum⟩
    · rintro ⟨hlen,hsum⟩
      exact ⟨_,decode_eq_ok_iff.mpr ⟨hlen,hsum,rfl⟩⟩
  · exact decode_of_short
  · intro hlen hne
    have hsum : stated raw ≠ checksum (raw.drop 8) := fun he => hne ((stated_eq_iff raw).mp he)
    exact ⟨_,_,decode_of_mismatch hlen hsum,toNat_stated raw,toNat_checksum _⟩
  · exact fun f => encode_of_decode
  · intro f hf hk
    exact ⟨kind_of_decode hf hk,length_encode_of_decode hf,drop_encode_of_decode hf⟩

def strange : Bytes :=
  [134,54,124,203,116,85,1,98,0,0,0,42,255,255,255,255,0,0,16,0,7]

theorem codec_exact_strange :
    decode strange = .ok ⟨.unkn,-1,4096,[7]⟩ ∧ 6 < kindField strange ∧
      encode ⟨.unkn,-1,4096,[7]⟩ ≠ strange ∧
      (encode ⟨.unkn,-1,4096,[7]⟩).drop 12 = strange.drop 12 := by
  have hread : decode strange = .ok ⟨.unkn,-1,4096,[7]⟩ :=
    decode_eq_ok_iff.mpr ⟨by decide,by decide +kernel,by decide +kernel⟩
  have hkind : 6 < kindField strange := by decide +kernel
  exact ⟨hread,hkind,by decide +kernel,((codec_exact.2 strange).unknown _ hread hkind).2.2⟩

end Frame
end ReliableTransport
