import ReliableTransport.Config

/-! What a sender holds for one connection: the payloads not yet acknowledged, the point up to
which everything is acknowledged, and the cursor of what was sent. Slot `i` is the fragment
`lastAcked + i + 1`. Acknowledgements are cumulative and never move the point back; when nothing
is acknowledged for too long the cursor goes back to the point and everything after it is sent
again. Fragment numbers and windows wrap around in 32 signed bits. -/
namespace ReliableTransport

/-- The fragment up to which everything is acknowledged, negative before the handshake; the largest
window heard of; when the acknowledged point last moved or nothing was outstanding; the payloads
held; and of the fragments sent the last and the highest one. -/
structure Outbox where
  lastAcked : Int32
  window : Int32
  progress : Nat
  slots : List Bytes
  lastSent : Int32
  highestSent : Int32
  deriving DecidableEq, Repr

namespace Outbox

inductive Action
  | transmit (fragment : Int32) (payload : Bytes)
  | idle (rewound : Bool)
  deriving DecidableEq, Repr

def start (now : Nat) : Outbox := ⟨-1,0,now,[],-1,-1⟩

def established (b : Outbox) : Bool := 0 ≤ b.lastAcked

def full (b : Outbox) : Bool := ringCapacity ≤ b.slots.length

def drained (b : Outbox) : Bool := b.slots.isEmpty

def acked (b : Outbox) (fragment : Int32) : Bool :=
  b.established && fragment - b.lastAcked ≤ 0

def widen (known heard : Int32) : Int32 := if known < heard then heard else known

/-- The handshake is answered with a window; `none` if it was answered before. -/
def establish (b : Outbox) (window : Int32) (now : Nat) : Option Outbox :=
  if b.established then none
  else some { b with
    lastAcked := 0
    window := widen b.window window
    progress := now
    lastSent := 0
    highestSent := 0 }

/-- An acknowledgement up to `fragment`, and how many payloads it releases. One older than the
point, or for a fragment never sent, changes nothing. -/
def acknowledge (b : Outbox) (fragment window : Int32) (now : Nat) : Nat × Outbox :=
  let advance := fragment - b.lastAcked
  if !b.established || advance < 0 || fragment - b.highestSent > 0 then (0,b)
  else
    let heard := { b with lastAcked := fragment, window := widen b.window window }
    if advance = 0 then (0,heard)
    else
      let released := min advance.toNatClampNeg b.slots.length
      (released,{ heard with progress := now, slots := b.slots.drop released })

/-- Hold one more payload, under the fragment number it will be sent as. -/
def push (b : Outbox) (payload : Bytes) : Option (Int32 × Outbox) :=
  if b.full then none
  else
    let slots := b.slots ++ [payload]
    some (b.lastAcked + Int32.ofNat slots.length,{ b with slots })

/-- The cursor, pulled forward to the acknowledged point if that has overtaken it. -/
def cursor (b : Outbox) : Int32 :=
  if b.lastSent - b.lastAcked < 0 then b.lastAcked else b.lastSent

/-- The next step on the line: send the payload after the cursor if the window is at least
`minWindow`, and otherwise rest, going back to the acknowledged point if something is outstanding
and the point has not moved for more than `threshold`. -/
def next (b : Outbox) (now : Nat) (minWindow : Int32) (threshold : Nat) : Action × Outbox :=
  let cursor := b.cursor
  match b.slots[(cursor - b.lastAcked).toNatClampNeg]? with
  | some payload =>
    if minWindow ≤ b.window then
      let sent := cursor + 1
      let highest := if sent - b.highestSent > 0 then sent else b.highestSent
      (.transmit sent payload,{ b with lastSent := sent, highestSent := highest })
    else rest b cursor
  | none => rest b cursor
where
  rest (b : Outbox) (cursor : Int32) : Action × Outbox :=
    if cursor = b.lastAcked then
      (.idle false,{ b with lastSent := cursor, progress := now })
    else if now - b.progress > threshold then
      (.idle true,{ b with lastSent := b.lastAcked, progress := now })
    else (.idle false,{ b with lastSent := cursor })

/-- Steps on the line until the first rest, at most `fuel` of them, and what they send. -/
def burst (now : Nat) (minWindow : Int32) (threshold : Nat) :
    Nat → Outbox → List (Int32 × Bytes) × Outbox
  | 0, b => ([],b)
  | fuel+1, b =>
    match b.next now minWindow threshold with
    | (.transmit fragment payload,b) =>
      let more := burst now minWindow threshold fuel b
      ((fragment,payload) :: more.1,more.2)
    | (.idle _,b) => ([],b)

/-- Everything that can be sent now. Each step before the rest moves the cursor by one payload, so
that there are no more of them than payloads. -/
def flush (b : Outbox) (now : Nat) (minWindow : Int32) (threshold : Nat) :
    List (Int32 × Bytes) × Outbox :=
  burst now minWindow threshold (b.slots.length + 1) b

end Outbox
end ReliableTransport
