import ReliableTransport.Wire.Checksum
import ReliableTransport.Wire.Hex

/-! The frame, the only thing that travels: eight bytes of checksum, four each for the kind, the
fragment number and the window, and then the payload. `encode` writes a frame and `decode` reads
one, refusing what is too short or fails its checksum. -/
namespace ReliableTransport

/-- What a frame asks or answers; `unkn` stands for every code without a meaning. -/
inductive Kind
  | unkn | rcon | acon | data | adat | rcls | acls
  deriving DecidableEq, Repr

namespace Kind

def code : Kind → Int32
  | unkn => 0 | rcon => 1 | acon => 2 | data => 3 | adat => 4 | rcls => 5 | acls => 6

def ofCode (c : Int32) : Kind :=
  if c = 1 then rcon else if c = 2 then acon else if c = 3 then data
  else if c = 4 then adat else if c = 5 then rcls else if c = 6 then acls else unkn

def name : Kind → String
  | unkn => "UNKN" | rcon => "RCON" | acon => "ACON" | data => "DATA"
  | adat => "ADAT" | rcls => "RCLS" | acls => "ACLS"

@[simp] theorem ofCode_code (k : Kind) : ofCode k.code = k := by cases k <;> rfl

end Kind

/-- One frame. A receiver writes its free space into `window`, a sender zero. -/
structure Frame where
  kind : Kind
  fragment : Int32
  window : Int32
  payload : Bytes
  deriving DecidableEq, Repr

inductive FrameError
  | truncated (length : Nat)
  | checksumMismatch (stated computed : UInt64)
  deriving DecidableEq, Repr

namespace Frame

def headerLength : Nat := 20

def maxLength : Nat := 1472

/-- The most payload bytes of one frame. -/
def maxPayload : Nat := maxLength - headerLength

/-- The fragment number of a frame sent only to show that its sender is alive. -/
def keepAlive : Int32 := -1

/-- The largest window the signed field can state that is at most `free`. -/
def windowOf (free : Nat) : Int32 :=
  if free < 2147483648 then Int32.ofNat free else Int32.maxValue

def field (v : Int32) : Bytes := bigEndian 4 v.toUInt32.toNat

def ofField (bs : Bytes) : Int32 := (UInt32.ofNat (ofBigEndian bs)).toInt32

/-- The part of a frame that its checksum covers. -/
def body (f : Frame) : Bytes :=
  field f.kind.code ++ field f.fragment ++ field f.window ++ f.payload

/-- A frame as it travels. -/
def encode (f : Frame) : Bytes := bigEndian 8 (checksum f.body).toNat ++ f.body

def stated (raw : Bytes) : UInt64 := UInt64.ofNat (ofBigEndian (raw.take 8))

/-- The frame in a datagram. -/
def decode (raw : Bytes) : Except FrameError Frame :=
  if raw.length < headerLength then .error (.truncated raw.length)
  else if stated raw ≠ checksum (raw.drop 8) then
    .error (.checksumMismatch (stated raw) (checksum (raw.drop 8)))
  else .ok
    { kind := .ofCode (ofField ((raw.drop 8).take 4))
      fragment := ofField ((raw.drop 12).take 4)
      window := ofField ((raw.drop 16).take 4)
      payload := raw.drop 20 }

/-- The frame in as much of a datagram as one frame can fill; the rest is never looked at. -/
def receive (raw : Bytes) : Except FrameError Frame := decode (raw.take maxLength)

@[simp] theorem field_length (v : Int32) : (field v).length = 4 := bigEndian_length _ _

@[simp] theorem ofField_field (v : Int32) : ofField (field v) = v := by
  have h : v.toUInt32.toNat < byteRange 4 := v.toUInt32.toNat_lt
  rw [ofField,field,ofBigEndian_bigEndian,Nat.mod_eq_of_lt h,UInt32.ofNat_toNat]
  rfl

@[simp] theorem length_encode (f : Frame) : f.encode.length = headerLength + f.payload.length := by
  simp [encode,body,headerLength]
  omega

end Frame

namespace FrameError

def message : FrameError → String
  | truncated length =>
    "datagram of " ++ toString length ++ " bytes is shorter than the " ++
      toString Frame.headerLength ++ "-byte header"
  | checksumMismatch stated computed =>
    "checksum mismatch: header says 0x" ++ Hex.ofWord stated ++ ", computed 0x" ++
      Hex.ofWord computed

end FrameError

end ReliableTransport
