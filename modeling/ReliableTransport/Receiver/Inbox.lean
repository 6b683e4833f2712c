import ReliableTransport.Overflow
import ReliableTransport.Wire.Frame

/-! The bytes a receiver holds for one peer. A fragment is taken only if it is the next one in
order and all of it fits; what was taken is read in order. -/
namespace ReliableTransport

/-- Bytes not read yet, the room for them and the next fragment in order. -/
structure Inbox where
  unread : Bytes
  capacity : Nat
  next : Int32
  deriving DecidableEq

namespace Inbox

/-- An empty inbox after a handshake that proposed fragment `initial`. -/
def start (initial : Int32) (capacity : Nat) : Inbox := ⟨[],capacity,initial + 1⟩

/-- An empty inbox, or the report that so much room cannot be had. -/
def reserve (initial : Int32) (capacity : Nat) : Except Overflow Inbox :=
  if capacity ≤ maxRoom then .ok (start initial capacity) else .error .bufferCapacity

def free (b : Inbox) : Nat := b.capacity - b.unread.length

/-- Room left, as a frame states it. -/
def window (b : Inbox) : Int32 := Frame.windowOf b.free

/-- The fragment up to which everything was taken. -/
def lastAccepted (b : Inbox) : Int32 := b.next - 1

/-- Take a fragment, or `none` if it is out of order or does not fit. -/
def offer (b : Inbox) (fragment : Int32) (payload : Bytes) : Option Inbox :=
  if fragment = b.next ∧ payload.length ≤ b.free then
    some { b with unread := b.unread ++ payload, next := b.next + 1 }
  else none

/-- The first bytes, at most `n` of them, and the inbox without them. -/
def read (b : Inbox) (n : Nat) : Bytes × Inbox :=
  (b.unread.take n,{ b with unread := b.unread.drop n })

@[simp] theorem capacity_read (b : Inbox) (n : Nat) : (b.read n).2.capacity = b.capacity := rfl

@[simp] theorem next_read (b : Inbox) (n : Nat) : (b.read n).2.next = b.next := rfl

theorem read_append (b : Inbox) (n : Nat) :
    (b.read n).1 ++ (b.read n).2.unread = b.unread :=
  List.take_append_drop _ _

theorem offer_eq_some_iff {b c : Inbox} {fragment : Int32} {payload : Bytes} :
    b.offer fragment payload = some c ↔
      (fragment = b.next ∧ payload.length ≤ b.free) ∧
      c = { b with unread := b.unread ++ payload, next := b.next + 1 } := by
  unfold offer
  split
  · rename_i h
    simp [h,eq_comm]
  · rename_i h
    simp [h]

end Inbox
end ReliableTransport
