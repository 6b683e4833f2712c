import ReliableTransport.Calls
import ReliableTransport.Receiver.Inbox
import ReliableTransport.Proofs.Signed

/-! Everything that can be asked of an inbox, in any order: fragments of any number and size are
offered, and reads ask for any number of bytes. The log of a run holds the accounts of the inbox: it
never holds more than its room, what was handed out and what is left are what was taken, and the
number it waits for counts what was taken (`Accounts`). So the log tells which fragment is taken
next and which room is stated (`conserves_along_run`). -/
namespace ReliableTransport

namespace Frame

/-- The room a frame states is the room there is, up to the largest a frame can state. -/
theorem toInt_windowOf (free : Nat) : (windowOf free).toInt = min (free : Int) 2147483647 := by
  unfold windowOf
  split
  · rename_i h
    rw [Signed.toInt_ofNat (by unfold Signed.fragmentLimit; omega)]
    omega
  · rename_i h
    rw [show Int32.maxValue.toInt = 2147483647 from rfl]
    omega

end Frame

namespace Inbox

inductive Request
  | offer (fragment : Int32) (payload : Bytes)
  | read (room : Nat)
  deriving DecidableEq

inductive Reply
  | taken
  | refused
  | handed (data : Bytes)
  deriving DecidableEq

/-- What was asked and answered, the oldest first. -/
abbrev Log := List (Request × Reply)

def serve (b : Inbox) (q : Request) : Inbox × Log :=
  match q with
  | .offer fragment payload =>
    match b.offer fragment payload with
    | some c => (c,[(q,.taken)])
    | none => (b,[(q,.refused)])
  | .read room =>
    let (data,c) := b.read room
    (c,[(q,.handed data)])

namespace Log

def taken (log : Log) : List Bytes :=
  log.filterMap fun
    | (.offer _ payload,.taken) => some payload
    | _ => none

def handed (log : Log) : List Bytes :=
  log.filterMap fun
    | (_,.handed data) => some data
    | _ => none

theorem taken_append (log more : Log) : taken (log ++ more) = taken log ++ taken more :=
  List.filterMap_append

theorem handed_append (log more : Log) : handed (log ++ more) = handed log ++ handed more :=
  List.filterMap_append

end Log

open Log

variable {initial : Int32} {capacity : Nat} {given out : List Bytes} {b : Inbox}

/-- An inbox for a peer that has proposed `initial`, with so much room, after the payloads `given`
were taken and the pieces `out` handed out. -/
structure Accounts (initial : Int32) (capacity : Nat) (given out : List Bytes) (b : Inbox) :
    Prop where
  sized : b.capacity = capacity
  room : b.unread.length ≤ capacity
  next : b.next = initial + 1 + Int32.ofNat given.length
  conserved : out.flatten ++ b.unread = given.flatten

theorem accounts_start (initial : Int32) (capacity : Nat) :
    (start initial capacity).Accounts initial capacity [] [] where
  sized := rfl
  room := Nat.zero_le _
  next := (Int32.add_zero _).symm
  conserved := rfl

namespace Accounts

theorem free (h : b.Accounts initial capacity given out) :
    b.free + b.unread.length = capacity := by
  rw [Inbox.free,h.sized]
  exact Nat.sub_add_cancel h.room

theorem next_toInt (h : b.Accounts initial capacity given out) :
    b.next.toInt = (initial.toInt + 1 + given.length).bmod 4294967296 := by
  rw [h.next,Signed.toInt_succ_add_ofNat]

theorem lastAccepted (h : b.Accounts initial capacity given out) :
    b.lastAccepted = initial + Int32.ofNat given.length := by
  rw [Inbox.lastAccepted,h.next,Int32.add_assoc,Int32.add_comm 1,← Int32.add_assoc,
    Int32.add_sub_cancel]

/-- What is free is the room without what was taken, and with what was handed out. -/
theorem free_eq (h : b.Accounts initial capacity given out) :
    b.free + given.flatten.length = capacity + out.flatten.length := by
  have hfree := h.free
  have hlength := congrArg List.length h.conserved
  rw [List.length_append] at hlength
  omega

theorem offer_eq_some_iff (h : b.Accounts initial capacity given out) {fragment : Int32}
    {payload : Bytes} {c : Inbox} :
    b.offer fragment payload = some c ↔
      (fragment.toInt = (initial.toInt + 1 + given.length).bmod 4294967296 ∧
        b.unread.length + payload.length ≤ capacity) ∧
      c = { b with unread := b.unread ++ payload, next := b.next + 1 } := by
  have hfree := h.free
  rw [Inbox.offer_eq_some_iff,← h.next_toInt,Int32.toInt_inj]
  have hfits : payload.length ≤ b.free ↔ b.unread.length + payload.length ≤ capacity := by omega
  rw [hfits]

theorem take (h : b.Accounts initial capacity given out) {fragment : Int32} {payload : Bytes}
    {c : Inbox} (ho : b.offer fragment payload = some c) :
    c.Accounts initial capacity (given ++ [payload]) out := by
  obtain ⟨⟨-,hfits⟩,rfl⟩ := h.offer_eq_some_iff.mp ho
  refine ⟨h.sized,by simpa using hfits,?_,?_⟩
  · rw [List.length_append,List.length_singleton,Int32.ofNat_add,← Int32.add_assoc,← h.next]
    rfl
  · rw [← List.append_assoc,h.conserved]
    simp

theorem hand (h : b.Accounts initial capacity given out) (room : Nat) :
    (b.read room).2.Accounts initial capacity given (out ++ [(b.read room).1]) where
  sized := h.sized
  room := by
    have hroom := h.room
    rw [Inbox.read,List.length_drop]
    omega
  next := h.next
  conserved := by
    rw [List.flatten_append,List.flatten_singleton,List.append_assoc,read_append,h.conserved]

theorem serves (h : b.Accounts initial capacity given out) (q : Request) :
    (b.serve q).1.Accounts initial capacity (given ++ taken (b.serve q).2)
      (out ++ handed (b.serve q).2) := by
  cases q with
  | offer fragment payload =>
    cases ho : b.offer fragment payload with
    | some c => simpa [serve,ho,taken,handed] using h.take ho
    | none => simpa [serve,ho,taken,handed] using h
  | read room => simpa [serve,taken,handed] using h.hand room

theorem runs (h : b.Accounts initial capacity given out) (requests : List Request) :
    (chain serve b requests).1.Accounts initial capacity
      (given ++ taken (chain serve b requests).2) (out ++ handed (chain serve b requests).2) := by
  induction requests generalizing b given out with
  | nil => simpa [taken,handed] using h
  | cons q requests ih =>
    rw [chain_cons,taken_append,handed_append,← List.append_assoc,← List.append_assoc]
    exact ih (h.serves q)

end Accounts

/-- What the log of an inbox since it was made says about the inbox, and about the request that
comes next. -/
structure Conserves (initial : Int32) (capacity : Nat) (b : Inbox) (log : Log) : Prop where
  room : b.unread.length ≤ capacity
  free : (b.free : Int) = capacity - b.unread.length
  window : b.window.toInt = min ((capacity : Int) - b.unread.length) 2147483647
  /-- A fragment is taken if it is the next one and fits as a whole; any other changes nothing. -/
  offered : ∀ fragment payload, b.serve (.offer fragment payload) =
    if fragment.toInt = (initial.toInt + 1 + (taken log).length).bmod 4294967296 ∧
        b.unread.length + payload.length ≤ capacity then
      ({ b with unread := b.unread ++ payload, next := b.next + 1 },
        [(.offer fragment payload,.taken)])
    else (b,[(.offer fragment payload,.refused)])
  lastAccepted : b.lastAccepted.toInt =
    (initial.toInt + (taken log).length).bmod 4294967296
  conserved : (handed log).flatten ++ b.unread = (taken log).flatten
  /-- A read is answered with as much as it asks for and there is, the oldest bytes first. -/
  reads : ∀ room, ∃ data rest, b.unread = data ++ rest ∧
    data.length = min room b.unread.length ∧
    b.serve (.read room) = ({ b with unread := rest },[(.read room,.handed data)])

theorem Accounts.conserves {log : Log} (h : b.Accounts initial capacity (taken log) (handed log)) :
    b.Conserves initial capacity log where
  room := h.room
  free := by
    have hfree := h.free
    omega
  window := by
    have hfree := h.free
    rw [Inbox.window,Frame.toInt_windowOf]
    omega
  offered := by
    intro fragment payload
    split
    · rename_i hfits
      rw [serve,h.offer_eq_some_iff.mpr ⟨hfits,rfl⟩]
    · rename_i hfits
      have hnone : b.offer fragment payload = none := by
        cases ho : b.offer fragment payload with
        | none => rfl
        | some c => exact absurd (h.offer_eq_some_iff.mp ho).1 hfits
      rw [serve,hnone]
  lastAccepted := by rw [h.lastAccepted,Signed.toInt_add_ofNat]
  conserved := h.conserved
  reads := fun room => ⟨b.unread.take room,b.unread.drop room,(List.take_append_drop _ _).symm,
    List.length_take,rfl⟩

/-- Of an inbox that can be had, whatever is offered and read, the log keeps the accounts. -/
theorem conserves_along_run (h : reserve initial capacity = .ok b) (requests : List Request) :
    (chain serve b requests).1.Conserves initial capacity (chain serve b requests).2 := by
  obtain rfl : start initial capacity = b := by
    unfold reserve at h
    split at h
    · exact Except.ok.inj h
    · cases h
  exact ((accounts_start initial capacity).runs requests).conserves

/-- Two bytes of room are just filled, the next fragment does not fit until one of them is read,
and in between the numbers come around from the largest to the smallest. -/
def squeezing : List Request :=
  [.offer 2147483646 [],.offer 2147483647 [97,98],.offer (-2147483648) [99],.read 1,
    .offer 2147483647 [97,98],.offer (-2147483648) [99],.offer (-2147483647) [],.read 9]

theorem conserves_along_run_squeezing :
    ∃ b, reserve 2147483646 2 = .ok b ∧
      (chain serve b squeezing).1.Conserves 2147483646 2 (chain serve b squeezing).2 ∧
      taken (chain serve b squeezing).2 = [[97,98],[99],[]] ∧
      handed (chain serve b squeezing).2 = [[97],[98,99]] ∧
      (chain serve b squeezing).1.lastAccepted = -2147483647 :=
  ⟨start 2147483646 2,rfl,conserves_along_run rfl squeezing,by decide +kernel,by decide +kernel,
    by decide +kernel⟩

end Inbox
end ReliableTransport
